import IceLog.Concurrency.Solo
import IceLog.Server.Reads

/-! A thread that runs alone, scope by scope and statement by statement. -/
namespace IceLog

open Interleaved Serial

variable {pg : Postgres} {policy : Policy} {i : ℕ} {q : Request} {α : Type} {h : Held}
  {w w' v : Moment} {tr : List (Act × Outcome)} {x : Option α} {t : String} {conn : Conn}
  {sure : Prop}

theorem solo_act {a : Act} {k : a.Result → Code α}
    (hx : Solo (server pg policy) i q (.act a k) w tr x w') (hi : Inv policy w)
    (hn : Needs policy i q a w) :
    ∃ o r s tr', tr = (a, o) :: tr' ∧ Server.perform pg o i a w.now = some (r, s) ∧
      Promise policy w (.act i q a r) s ∧
      Solo (server pg policy) i q (k r) (w.next (.act i q a r) s) tr' x w' := by
  cases hx with
  | @act _ _ o r s tr' _ _ _ ha hp hrest =>
    exact ⟨o, r, s, tr', rfl, hp, promise_act hi hn ⟨o, ha, hp⟩, hrest⟩

/-- The scope of a lock: inside, the thread has the lock and nothing has changed. -/
theorem solo_withShared {body : Code α} (ho : Own policy i q {} [] w)
    (hx : Solo (server pg policy) i q (withShared t body) w tr x w') :
    ∃ v v' tr' o o', Own policy i q { shared := [t] } [] v ∧ Later policy false [] w v ∧
      tr = (.lockShared t, o) :: (tr' ++ [(.unlockShared t, o')]) ∧
      Solo (server pg policy) i q body v tr' x v' ∧
      w' = v'.next (.act i q (.unlockShared t) ())
        (v'.now.setLock t ((v'.now.tableLocks t).unlockShared i)) := by
  obtain ⟨o, r, s, tr', rfl, hp, hprom, hrest⟩ := solo_act hx ho.inv ho.holds
  obtain ⟨m, hm, he⟩ := Option.map_eq_some_iff.mp hp
  cases he
  obtain ⟨v', tr'', o', r', s', rfl, hbody, hunlock, rfl⟩ := Solo.guarded_cases hrest
  cases hunlock
  exact ⟨_, v', tr'', o, o', ho.next (Server.lockShared_holds hm ho.holds) hprom (.refl _),
    .next hprom ⟨.refl _, rfl, rfl⟩, rfl, hbody, rfl⟩

theorem solo_withExclusive {body : Code α} (ho : Own policy i q {} [] w)
    (hx : Solo (server pg policy) i q (withExclusive t body) w tr x w') :
    ∃ v v' tr' o o', Own policy i q { exclusive := [t] } [] v ∧ Later policy false [] w v ∧
      tr = (.lockExclusive t, o) :: (tr' ++ [(.unlockExclusive t, o')]) ∧
      Solo (server pg policy) i q body v tr' x v' ∧
      w' = v'.next (.act i q (.unlockExclusive t) ())
        (v'.now.setLock t (v'.now.tableLocks t).unlock) := by
  obtain ⟨o, r, s, tr', rfl, hp, hprom, hrest⟩ := solo_act hx ho.inv (.inl ho.holds)
  obtain ⟨m, hm, he⟩ := Option.map_eq_some_iff.mp hp
  cases he
  obtain ⟨v', tr'', o', r', s', rfl, hbody, hunlock, rfl⟩ := Solo.guarded_cases hrest
  cases hunlock
  exact ⟨_, v', tr'', o, o', ho.next (Server.lock_holds hm ho.holds) hprom (.refl _),
    .next hprom ⟨.refl _, rfl, rfl⟩, rfl, hbody, rfl⟩

/-! The scopes as they are carried out, whatever the thread knows about itself. -/

theorem Solo.withExclusive_cases {body : Code α}
    (h : Solo (server pg policy) i q (withExclusive t body) w tr x w') :
    ∃ v v' tr' m m', Solo (server pg policy) i q body v tr' x v' ∧ v.now = w.now.setLock t m ∧
      w'.now = v'.now.setLock t m' := by
  cases h with
  | act _ hlock hrest =>
    obtain ⟨m, -, hm⟩ := Option.map_eq_some_iff.mp hlock
    cases hm
    obtain ⟨v', tr', o, r, s, -, hbody, hunlock, rfl⟩ := Solo.guarded_cases hrest
    cases hunlock
    exact ⟨_, v', tr', m, _, hbody, rfl, rfl⟩

theorem Solo.withConnection_cases {body : Conn → Code α}
    (h : Solo (server pg policy) i q (withConnection body) w tr x w') :
    (x = none ∧ ∃ o s, w.now.Acquired i o none s) ∨
      ∃ c v v' o tr', w.now.Acquired i o (some c) v.now ∧
        Solo (server pg policy) i q (body c) v tr' x v' ∧ w'.now = v'.now.release c := by
  cases h with
  | @act _ _ o r s tr' _ _ _ _ hacq hrest =>
    have hacq := Server.acquire_cases hacq
    cases r with
    | none =>
      cases hrest
      exact .inl ⟨rfl, o, s, hacq⟩
    | some c =>
      obtain ⟨v', tr', o', r, s', -, hbody, hrelease, rfl⟩ := Solo.guarded_cases hrest
      cases hrelease
      exact .inr ⟨c, _, v', o, tr', hacq, hbody, rfl⟩

/-- Whether no connection could be made in the run. -/
def refused (tr : List (Act × Outcome)) : Bool :=
  tr.any fun
    | (.acquire, .refused _) => true
    | _ => false

/-- The connection is lost with the answer. -/
def Answer.drops : Answer → Bool
  | .lost _ | .unheard => true
  | .ok | .fail _ => false

def Outcome.drops : Outcome → Bool
  | .answer a => a.drops
  | _ => false

/-- Whether there is a statement in the run of which, with its outcome, `P` holds. -/
def someStatement (P : Sql → Outcome → Bool) (tr : List (Act × Outcome)) : Bool :=
  tr.any fun
    | (.execParams _ sql, o) => P sql o
    | _ => false

/-- Whether a statement of the kind `p` fails in the run. -/
def fails (p : Sql → Bool) (tr : List (Act × Outcome)) : Bool :=
  someStatement (fun sql o => p sql && o != .ok) tr

/-- Whether a connection is lost in the run with the answer to a statement of the kind `p`. -/
def loses (p : Sql → Bool) (tr : List (Act × Outcome)) : Bool :=
  someStatement (fun sql o => p sql && o.drops) tr

section traces
variable {tr' : List (Act × Outcome)} {p p' : Sql → Bool} {P : Sql → Outcome → Bool}

@[simp] theorem refused_nil : refused [] = false := rfl

@[simp] theorem fails_nil : fails p [] = false := rfl

@[simp] theorem refused_append : refused (tr ++ tr') = (refused tr || refused tr') := List.any_append

theorem someStatement_append :
    someStatement P (tr ++ tr') = (someStatement P tr || someStatement P tr') := List.any_append

@[simp] theorem fails_append : fails p (tr ++ tr') = (fails p tr || fails p tr') :=
  someStatement_append

@[simp] theorem loses_append : loses p (tr ++ tr') = (loses p tr || loses p tr') :=
  someStatement_append

theorem someStatement_cons {a : Act} {o : Outcome} (h : ∀ c sql, a ≠ .execParams c sql) :
    someStatement P ((a, o) :: tr) = someStatement P tr := by
  rw [someStatement, List.any_cons]
  split
  · rename_i heq
    cases heq
    exact absurd rfl (h _ _)
  · exact Bool.false_or _

/-- What is not a statement does not fail. -/
theorem fails_cons {a : Act} {o : Outcome} (h : ∀ c sql, a ≠ .execParams c sql) :
    fails p ((a, o) :: tr) = fails p tr := someStatement_cons h

theorem refused_cons {a : Act} {o : Outcome} (h : a = .acquire → ∀ c, o ≠ .refused c) :
    refused ((a, o) :: tr) = refused tr := by
  rw [refused, List.any_cons]
  split
  · rename_i heq
    cases heq
    exact absurd rfl (h rfl _)
  · exact Bool.false_or _

/-- No connection is refused and no statement fails. -/
def Faultless (tr : List (Act × Outcome)) : Prop :=
  refused tr = false ∧ fails (fun _ => true) tr = false

theorem someStatement_mono {P : Sql → Outcome → Bool} (R : Sql → Outcome → Bool)
    (h : ∀ sql o, P sql o = true → R sql o = true) (htr : someStatement P tr = true) :
    someStatement R tr = true := by
  obtain ⟨⟨a, o⟩, he, hP⟩ := List.any_eq_true.mp htr
  refine List.any_eq_true.mpr ⟨(a, o), he, ?_⟩
  cases a with
  | execParams conn sql => exact h sql o hP
  | _ => cases hP

theorem Faultless.fails (h : Faultless tr) (p : Sql → Bool) : fails p tr = false := by
  by_contra hp
  have := someStatement_mono (fun _ o => true && o != .ok) (fun sql o hP => ?_)
    (Bool.eq_true_of_not_eq_false hp)
  · exact Bool.false_ne_true (h.2.symm.trans this)
  · rw [Bool.and_eq_true] at hP
    exact hP.2

theorem Faultless.loses (h : Faultless tr) (p : Sql → Bool) : loses p tr = false := by
  by_contra hp
  have := someStatement_mono (fun _ o => true && o != .ok) (fun sql o hP => ?_)
    (Bool.eq_true_of_not_eq_false hp)
  · exact Bool.false_ne_true (h.2.symm.trans this)
  · rw [Bool.and_eq_true] at hP
    rw [Bool.true_and, bne_iff_ne]
    rintro rfl
    cases hP.2

/-- Statements of the kind `p` only. -/
def OfKind (p : Sql → Bool) (tr : List (Act × Outcome)) : Prop :=
  ∀ e ∈ tr, ∃ c sql, e.1 = .execParams c sql ∧ p sql = true

theorem OfKind.someStatement (h : OfKind p tr) (hP : ∀ sql o, p sql = true → P sql o = false) :
    someStatement P tr = false := by
  rw [IceLog.someStatement, List.any_eq_false]
  rintro ⟨a, o⟩ he
  obtain ⟨c, sql, rfl, hs⟩ := h _ he
  simp [hP sql o hs]

theorem OfKind.refused (h : OfKind p tr) : refused tr = false := by
  rw [IceLog.refused, List.any_eq_false]
  rintro ⟨a, o⟩ he
  obtain ⟨c, sql, rfl, -⟩ := h _ he
  simp

end traces

/-- The scope of a connection, which is in order when it is handed out. -/
theorem solo_withConnection {body : Conn → Code α} (ho : Own policy i q h [] w)
    (hn : h.conn = none)
    (hx : Solo (server pg policy) i q (withConnection body) w tr x w') :
    (x = none ∧ w.now.Still w'.now ∧ ∃ c, tr = [(.acquire, .refused c)]) ∨
      ∃ conn v v' tr' o o', Connected policy i q h [] conn True v ∧ Later policy false [] w v ∧
        (∀ c, o ≠ .refused c) ∧ tr = (.acquire, o) :: (tr' ++ [(.release conn, o')]) ∧
        Solo (server pg policy) i q (body conn) v tr' x v' ∧
        w' = v'.next (.act i q (.release conn) ()) (v'.now.release conn) := by
  have hneed : Needs policy i q .acquire w := by
    intro c hc
    simpa [hn] using (ho.holds.holder c).mp hc
  obtain ⟨o, r, s, tr', rfl, hp, hprom, hrest⟩ := solo_act hx ho.inv hneed
  have hacquired := Server.acquire_cases hp
  obtain ⟨-, -, ⟨hdb, hmvcc, hcache⟩, hh⟩ := Server.acquired_spec ho.inv.sound hacquired
  have hstill : w.now.Still s := ⟨by rw [Server.db, Server.db, hdb]; exact .refl _, hmvcc, hcache⟩
  obtain ⟨hh, hidle⟩ := hh h ho.holds hn
  have hv := ho.next hh hprom hstill.rows
  cases r with
  | none =>
    cases hrest
    cases hacquired with
    | @refused c rest _ ho _ => exact .inl ⟨rfl, hstill, c, by rw [ho]⟩
  | some c =>
    obtain ⟨v', tr'', o', r', s', rfl, hbody, hrelease, rfl⟩ := Solo.guarded_cases hrest
    cases hrelease
    refine .inr ⟨c, _, v', tr'', o, o', ⟨hv, ?_, fun _ => hidle c rfl⟩, .next hprom hstill, ?_, rfl,
      hbody, rfl⟩
    · rw [World.next_now, hidle c rfl]
      trivial
    · rintro c' rfl
      cases hacquired <;> simp_all

namespace Backend

variable {b b' : Backend} {sql : Sql} {a : Answer} {r : PGresult sql.Row}

/-- A session outside of transactions is as good as before, unless the connection is lost. -/
theorem session_after (hi : b.session conn = .idle)
    (hx : b.execParams conn pg sql a = some (r, b')) :
    b'.session conn = if a.drops then .broken else .idle := by
  cases a with
  | ok =>
    simp only [execParams, hi] at hx
    split at hx
    · cases hx
      rw [burn_db]
      exact hi
    · split at hx
      · cases hx
      · cases hx
        exact hi
  | fail drawn =>
    simp only [execParams, hi] at hx
    cases hx
    rw [burn_db]
    exact hi
  | lost drawn =>
    simp only [execParams, hi] at hx
    cases hx
    exact setSession_self ..
  | unheard =>
    simp only [execParams, hi] at hx
    split at hx
    · cases hx
      exact setSession_self ..
    · split at hx
      · cases hx
      · cases hx
        exact setSession_self ..

/-- On a connection that is lost, every statement fails. -/
theorem execParams_broken (hb : b.session conn = .broken) :
    b.execParams conn pg sql a = some (.error, b) := by
  simp only [execParams, hb]

end Backend

/-- What a statement that changes no row that belongs to a table leaves of its connection. -/
structure Leaves (policy : Policy) (i : ℕ) (q : Request) (h : Held) (conn : Conn) (a : Answer)
    (w v : Moment) : Prop where
  later : Later policy false [] w v
  connected : Connected policy i q h [] conn False v
  idle : w.now.backend.session conn = .idle → a.drops = false → v.now.backend.session conn = .idle
  broken : a.drops = true ∨ w.now.backend.session conn = .broken →
    v.now.backend.session conn = .broken

/-- A statement that changes no row that belongs to a table: it is answered, or it fails. -/
theorem solo_statement {sql : Sql} {k : PGresult sql.Row → Code α}
    (hc : Connected policy i q h [] conn False w) (hs : sql.harmless = true)
    (hx : Solo (server pg policy) i q (.act (.execParams conn sql) k) w tr x w') :
    ∃ a r v tr', tr = (.execParams conn sql, .answer a) :: tr' ∧ Leaves policy i q h conn a w v ∧
      Solo (server pg policy) i q (k r) v tr' x w' ∧
      (w.now.backend.session conn = .broken ∨ a ≠ .ok → r = .error) ∧
      (w.now.backend.session conn = .idle → a = .ok →
        (∃ p, sql.run pg w.now.backend.clock w.now.db = some (r, p)) ∨
          (sql.run pg w.now.backend.clock w.now.db = none ∧ r = .error)) := by
  obtain ⟨o, r, s, tr', rfl, hp, hprom, hrest⟩ := solo_act hx hc.own.inv
    ⟨hc.own.holder, harmless_needs hs hc.closed⟩
  cases Server.perform_cases (a := .execParams conn sql) hp with
  | @execParams _ _ a _ b' hans hb =>
    subst hans
    have hbroken : w.now.backend.session conn = .broken → r = .error ∧ b' = w.now.backend := by
      intro hbr
      rw [Backend.execParams_broken hbr] at hb
      cases hb
      exact ⟨rfl, rfl⟩
    have leaves : w.now.db.SameRows b'.db → (b'.session conn).Closed →
        Leaves policy i q h conn a w (w.next (.act i q (.execParams conn sql) r)
          { w.now with backend := b' }) := by
      intro hrows hclosed
      have hh : Holds i { h with conn := some conn } { w.now with backend := b' } :=
        ⟨hc.own.holds.writer, hc.own.holds.reader, hc.own.holds.holder, hc.own.holds.nodup⟩
      refine ⟨.next hprom ⟨hrows, rfl, rfl⟩, ⟨hc.own.next hh hprom hrows, hclosed, False.elim⟩,
        fun hi hd => ?_, fun hd => ?_⟩
      · rw [World.next_now, Backend.session_after hi hb, hd]
        rfl
      · cases hσ : w.now.backend.session conn with
        | broken => rw [World.next_now, (hbroken hσ).2, hσ]
        | idle =>
          rw [hσ] at hd
          rw [World.next_now, Backend.session_after hσ hb, hd.resolve_right (by rintro ⟨⟩)]
          rfl
        | inTransaction | aborted =>
          have := hc.closed
          rw [hσ] at this
          exact this.elim
    cases Backend.execParams_cases hb with
    | @failed σ _ hf hq hnone =>
      have hclosed : (b'.session conn).Closed := by
        rw [hq.session_self]
        exact hc.closed.fails hf
      exact ⟨a, _, _, tr', rfl, leaves hq.sameRows hclosed, hrest, fun _ => rfl,
        fun hi ha => .inr ⟨(hnone ha hi).1, rfl⟩⟩
    | @committed r _ p σ hi hr _ ha =>
      have hrows : w.now.db.SameRows ((sql.draw w.now.backend.db).apply p) :=
        (Db.sameRows_draw sql _).trans (Sql.run_harmless hs hr _)
      have hclosed : σ.Closed := by
        rcases ha with ⟨-, -, rfl⟩ | ⟨-, -, rfl⟩ <;> trivial
      refine ⟨a, _, _, tr', rfl, leaves hrows (by rwa [Backend.setSession_self]), hrest,
        fun hd => ?_, fun _ hok => ?_⟩
      · rcases ha with ⟨ha, -, -⟩ | ⟨-, he, -⟩
        · exact absurd ha (hd.resolve_left (by simp [hi]))
        · exact he
      · rcases ha with ⟨-, rfl, -⟩ | ⟨ha, -, -⟩
        · exact .inl ⟨p, hr⟩
        · rw [hok] at ha
          cases ha
    | added _ hin _ _ =>
      have hclosed := hc.closed
      rw [hin] at hclosed
      exact hclosed.elim

/-- One statement of which the client keeps `g` of the result. -/
theorem solo_read {β : Type} {sql : Sql} {g : PGresult sql.Row → β} {f : Db → β} {y : Option β}
    (hy : sql.Yields pg g f) (hc : Connected policy i q h [] conn True w)
    (hs : sql.harmless = true)
    (hx : Solo (server pg policy) i q ((execParams conn sql).bind fun res => .ret (g res)) w tr y
      w') :
    ∃ a, tr = [(.execParams conn sql, .answer a)] ∧ Leaves policy i q h conn a w w' ∧
      y = some (if a = .ok then f w.now.db else g .error) := by
  obtain ⟨a, r, v, tr', rfl, hl, hrest, herr, hok⟩ := solo_statement (hc.mono False.elim) hs hx
  cases hrest
  refine ⟨a, rfl, hl, congrArg some ?_⟩
  by_cases ha : a = .ok
  · rw [if_pos ha]
    rcases hok (hc.idle trivial) ha with ⟨p, hrun⟩ | ⟨hrun, rfl⟩
    · exact hy.ok _ _ _ _ hrun
    · exact hy.violated _ _ hrun
  · rw [if_neg ha, herr (.inr ha)]

theorem Leaves.connected_ok {v : Moment} (hl : Leaves policy i q h conn .ok w v)
    (hc : Connected policy i q h [] conn True w) : Connected policy i q h [] conn True v :=
  ⟨hl.connected.own, hl.connected.closed, fun _ => hl.idle (hc.idle trivial) rfl⟩

/-- A function of two statements of the kind `p`, of which the second is about the id that the first
has found. -/
theorem solo_byId {β : Type} {p : Sql → Bool} {sql : ℕ → Sql} {f : Db → ℕ → β} {failed : β}
    {g : ∀ id, PGresult (sql id).Row → β} {y : Option β}
    (hy : ∀ id, (sql id).Yields pg (g id) fun db => f db id) (herr : ∀ id, g id .error = failed)
    (hf : AboutSlice f) (hc : Connected policy i q h [] conn True w)
    (hs : ∀ id, (sql id).harmless = true) (hid : p (.selectTableId (cStr t)) = true)
    (hp : ∀ id, p (sql id) = true)
    (hx : Solo (server pg policy) i q ((PgClient.getTableId conn t).bind fun
      | none => .ret failed
      | some id => (execParams conn (sql id)).bind fun res => .ret (g id res)) w tr y w') :
    Later policy false [] w w' ∧ OfKind p tr ∧
      y = some (if fails p tr then failed else Db.ofTable f failed (cStr t) w.now.db) := by
  rcases Solo.bind_cases hx with ⟨z, v, tr₁, tr₂, rfl, hx₁, hx₂⟩ | ⟨-, hx₁⟩
  · obtain ⟨a, rfl, hl, hz⟩ := solo_read yields_tableId hc rfl hx₁
    cases hz
    by_cases ha : a = .ok
    · subst ha
      rw [if_pos rfl] at hx₂
      cases hfind : w.now.db.find (cStr t) with
      | none =>
        rw [hfind] at hx₂
        cases hx₂
        refine ⟨hl.later, ?_, ?_⟩
        · simp [OfKind, hid]
        · simp [fails, someStatement, Db.ofTable, hfind]
      | some kr =>
        obtain ⟨k, r⟩ := kr
        rw [hfind] at hx₂
        obtain ⟨b, rfl, hl', rfl⟩ := solo_read (hy k) (hl.connected_ok hc) (hs k) hx₂
        refine ⟨hl.later.trans hl'.later, ?_, ?_⟩
        · simp [OfKind, hid, hp]
        · have hk := hf w.now.db v.now.db k
            (congrArg Slice.clearTable ((hl.later.still rfl).rows.slice k))
          by_cases hb : b = .ok
          · simp [fails, someStatement, Db.ofTable, hfind, hk, hb]
          · simp [fails, someStatement, hp, hb, herr]
    · rw [if_neg ha] at hx₂
      cases hx₂
      refine ⟨hl.later, ?_, ?_⟩
      · simp [OfKind, hid]
      · simp [fails, someStatement, hid, ha]
  · obtain ⟨a, -, -, hz⟩ := solo_read yields_tableId hc rfl hx₁
    cases hz

/-- On a connection that is lost, the first of the two statements fails. -/
theorem solo_byId_lost {β : Type} {failed : β} {f : ℕ → Code β} {y : Option β}
    (hc : Connected policy i q h [] conn False w) (hb : w.now.backend.session conn = .broken)
    (hx : Solo (server pg policy) i q ((PgClient.getTableId conn t).bind fun
      | none => .ret failed
      | some id => f id) w tr y w') :
    Later policy false [] w w' ∧
      (∃ o, tr = [(.execParams conn (.selectTableId (cStr t)), o)]) ∧ y = some failed := by
  obtain ⟨a, r, v, tr', rfl, hl, hrest, herr, -⟩ := solo_statement hc rfl hx
  rw [herr (.inl hb)] at hrest
  cases hrest
  exact ⟨hl.later, ⟨_, rfl⟩, rfl⟩

end IceLog
