import IceLog.Server.Guards
import IceLog.Server.Steps

/-! What a thread knows about itself while others run, and the rules for the scopes that hold a
lock or a connection. `others` says whether other threads run at all. -/
namespace IceLog

open Interleaved

variable {pg : Postgres} {policy : Policy} {others : Bool} {i : ℕ} {q : Request}
  {h : Held} {ds : List String} {w w' w'' v : Moment} {t : String} {α β : Type}

/-- Thread `i` as it serves `q`. -/
abbrev view (pg : Postgres) (policy : Policy) (others : Bool) (i : ℕ) (q : Request) :
    Theory Act Act.Result Moment :=
  (contract pg policy).theory others i q

/-- The names of which a thread has a lock. -/
def Held.locked (h : Held) : List String := h.exclusive ++ h.shared

/-- No row that belongs to a table, no transaction and no cache entry has changed. -/
structure Server.Still (s s' : Server) : Prop where
  rows : s.db.SameRows s'.db
  mvcc : s'.mvcc = s.mvcc
  cache : s'.cache = s.cache

theorem Server.Still.refl (s : Server) : s.Still s := ⟨.refl _, rfl, rfl⟩

theorem Server.Still.trans {s s' s'' : Server} (h : s.Still s') (h' : s'.Still s'') :
    s.Still s'' :=
  ⟨h.rows.trans h'.rows, h'.mvcc.trans h.mvcc, h'.cache.trans h.cache⟩

/-- A later moment at which the tables of the names `ts` are as they were, and everything is if no
other thread runs. -/
structure Later (policy : Policy) (others : Bool) (ts : List String) (w w' : Moment) : Prop where
  before : w.Before w'
  nextLe : w.now.db.NextLe w'.now.db
  same : policy.Clean → ∀ t ∈ ts, Db.SameTable t w.now.db w'.now.db
  still : others = false → w.now.Still w'.now

/-- The table of the name does not change while the names `ts` are locked. -/
def Calm (policy : Policy) (others : Bool) (ts : List String) (t : String) : Prop :=
  others = false ∨ policy.Clean ∧ t ∈ ts

/-- `P` stays as long as the tables of the names `ts` stay as they are. -/
def Durable (policy : Policy) (others : Bool) (ts : List String) (P : Moment → Prop) : Prop :=
  ∀ w w', Later policy others ts w w' → P w → P w'

/-- Thread `i` has `h` and has yet to drop the cache entries of no table but `ds`. -/
structure Own (policy : Policy) (i : ℕ) (q : Request) (h : Held) (ds : List String)
    (w : Moment) : Prop where
  inv : Inv policy w
  holds : Holds i h w.now
  debts : policy.Clean → ∀ q' t, Owes w i q' t → q' = q ∧ t ∈ ds

section later
variable {ts us : List String}

theorem Later.refl (w : Moment) : Later policy others ts w w :=
  ⟨.refl, .refl _, fun _ _ _ => ⟨rfl, fun _ _ _ => rfl⟩, fun _ => .refl _⟩

theorem Later.trans (hl : Later policy others ts w w') (hl' : Later policy others ts w' w'') :
    Later policy others ts w w'' :=
  ⟨hl.before.trans hl'.before, hl.nextLe.trans hl'.nextLe,
    fun hc t ht => (hl.same hc t ht).trans (hl'.same hc t ht),
    fun ho => (hl.still ho).trans (hl'.still ho)⟩

theorem Later.mono (hl : Later policy others ts w w') (hu : ∀ t ∈ us, t ∈ ts) :
    Later policy others us w w' :=
  ⟨hl.before, hl.nextLe, fun hc t ht => hl.same hc t (hu t ht), hl.still⟩

theorem Later.forget (hl : Later policy others ts w w') : Later policy others [] w w' :=
  hl.mono (by simp)

theorem Later.sameTable (hl : Later policy others ts w w') (hc : Calm policy others ts t) :
    Db.SameTable t w.now.db w'.now.db := by
  rcases hc with ho | ⟨hc, ht⟩
  · exact (hl.still ho).rows.sameTable t
  · exact hl.same hc t ht

theorem durable_later (w : Moment) : Durable policy others ts (Later policy others ts w) :=
  fun _ _ hl h => h.trans hl

theorem durable_const (p : Prop) : Durable policy others ts fun _ => p := fun _ _ _ => id

theorem durable_true : Durable policy others ts fun _ => True := durable_const True

theorem Durable.and {P P' : Moment → Prop} (hP : Durable policy others ts P)
    (hP' : Durable policy others ts P') : Durable policy others ts fun w => P w ∧ P' w :=
  fun w w' hl h => ⟨hP w w' hl h.1, hP' w w' hl h.2⟩

theorem Durable.exists {ι : Sort*} {P : ι → Moment → Prop}
    (hP : ∀ x, Durable policy others ts (P x)) : Durable policy others ts fun w => ∃ x, P x w :=
  fun w w' hl ⟨x, hx⟩ => ⟨x, hP x w w' hl hx⟩

theorem Durable.imp {p : Prop} {P : Moment → Prop} (hP : p → Durable policy others ts P) :
    Durable policy others ts fun w => p → P w :=
  fun w w' hl h hp => hP hp w w' hl (h hp)

theorem Durable.mono {P : Moment → Prop} (hP : Durable policy others us P)
    (hu : ∀ t ∈ us, t ∈ ts) : Durable policy others ts P :=
  fun w w' hl => hP w w' (hl.mono hu)

theorem Durable.lift {P : Moment → Prop} (hP : Durable policy others [] P) :
    Durable policy others ts P :=
  hP.mono (by simp)

end later

section rely

theorem Own.locks (ho : Own policy i q h ds w) (ht : t ∈ h.locked) : w.now.Locks i t := by
  rcases List.mem_append.mp ht with ht | ht
  · exact .inl ((ho.holds.writer t).mpr ht)
  · exact .inr ((ho.holds.reader t).mpr ht)

/-- What other threads leave to `i`. -/
structure Relied (policy : Policy) (others : Bool) (i : ℕ) (w w' : Moment) : Prop where
  before : w.Before w'
  inv : Inv policy w → Inv policy w'
  nextLe : w.now.db.NextLe w'.now.db
  keeps : Server.Keeps i w.now w'.now
  owes : ∀ q t, Owes w' i q t ↔ Owes w i q t
  same : policy.Clean → ∀ t, w.now.Locks i t → Db.SameTable t w.now.db w'.now.db

theorem relied (hr : (view pg policy others i q).rely w w') :
    Relied policy others i w w' := by
  refine Contract.Between.lift (contract pg policy) hr (fun u => ?_) (fun hu hv => ?_)
    fun u e s he hi hp => ?_
  · exact ⟨.refl, id, .refl _, .refl _ _, fun _ _ => .rfl, fun _ _ _ => ⟨rfl, fun _ _ _ => rfl⟩⟩
  · refine ⟨hu.before.trans hv.before, hv.inv ∘ hu.inv, hu.nextLe.trans hv.nextLe,
      hu.keeps.trans hv.keeps, fun q t => (hv.owes q t).trans (hu.owes q t), fun hc t ht => ?_⟩
    refine (hu.same hc t ht).trans (hv.same hc t ?_)
    exact ht.imp (hu.keeps.writer t).mpr (hu.keeps.reader t).mpr
  · exact ⟨World.before_next u e s, fun _ => hp.inv, hp.nextLe, hp.keeps i he,
      fun q t => Owes.of_next_of_ne he, fun hc t ht => hp.sameTable hi hc he ht⟩

theorem Own.rely (ho : Own policy i q h ds w) (hr : (view pg policy others i q).rely w w') :
    Own policy i q h ds w' ∧ Later policy others h.locked w w' ∧ Server.Keeps i w.now w'.now := by
  have hrel := relied hr
  refine ⟨⟨hrel.inv ho.inv, hrel.keeps.holds ho.holds, fun hc q' t h' =>
    ho.debts hc q' t ((hrel.owes q' t).mp h')⟩,
    ⟨hrel.before, hrel.nextLe, fun hc t ht => hrel.same hc t (ho.locks ht), fun hf => ?_⟩,
    hrel.keeps⟩
  subst hf
  obtain rfl : w = w' := hr
  exact .refl _

variable {a : Act} {k : a.Result → Code α} {post : α → Moment → Prop} {exc : Moment → Prop}

/-- One action: what holds before it, and what its promise adds. -/
theorem safe_act (ho : Own policy i q h ds w)
    (H : ∀ v, Own policy i q h ds v → Later policy others h.locked w v →
      Server.Keeps i w.now v.now → Needs policy i q a v ∧ ∀ r s,
        (server pg policy).Exec i q a v.now r s → Promise policy v (.act i q a r) s →
          Safe (view pg policy others i q) post exc (k r) (v.next (.act i q a r) s)) :
    Safe (view pg policy others i q) post exc (.act a k) w := by
  intro v hv
  obtain ⟨ho', hl, hk⟩ := ho.rely hv
  obtain ⟨hn, hs⟩ := H v ho' hl hk
  refine ⟨⟨ho'.inv, hn⟩, ?_⟩
  rintro r u ⟨s, hx, hp, rfl⟩
  exact hs r s hx hp

variable {r : a.Result} {s : Server}

/-- An action that changes no row that belongs to a table. -/
theorem Own.next (ho : Own policy i q h ds v) {h' : Held} (hh : Holds i h' s)
    (hp : Promise policy v (.act i q a r) s) (hrows : v.now.db.SameRows s.db) :
    Own policy i q h' ds (v.next (.act i q a r) s) :=
  ⟨hp.inv, hh, fun hc q' t h' => ho.debts hc q' t (h'.of_next hrows)⟩

theorem Later.next {ts : List String} (hp : Promise policy v (.act i q a r) s)
    (hs : v.now.Still s) : Later policy others ts v (v.next (.act i q a r) s) :=
  ⟨World.before_next _ _ _, hp.nextLe, fun _ t _ => hs.rows.sameTable t, fun _ => hs⟩

theorem safe_ret {x : α} {P : α → Moment → Prop} (hP : ∀ y, Durable policy others h.locked (P y))
    (ho : Own policy i q h ds w) (hx : P x w) :
    Safe (view pg policy others i q) (fun y u => Own policy i q h ds u ∧ P y u) exc
      (.ret x) w := by
  intro u hu
  obtain ⟨ho', hl, -⟩ := ho.rely hu
  exact ⟨ho', hP x _ _ hl hx⟩

end rely
/-! The scopes. -/

section scopes
variable {body : Code α} {P : α → Moment → Prop} {E : Moment → Prop} {P' : Moment → Prop}
  {exc : Moment → Prop} {xs : List String}

theorem safe_unlockShared (ho : Own policy i q { shared := [t] } ds w)
    (hP : Durable policy others [] P') (hx : P' w) :
    Safe (view pg policy others i q) (fun _ u => Own policy i q {} ds u ∧ P' u) exc
      (atomically (.unlockShared t)) w := by
  refine safe_act ho fun v hv hl _ => ⟨hv.holds, fun r s hs hp => ?_⟩
  obtain ⟨o, -, hs⟩ := hs
  cases hs
  exact safe_ret (fun _ => hP) (hv.next (Server.unlockShared_holds rfl hv.holds) hp (.refl _))
    (hP.lift _ _ (hl.trans (.next hp ⟨.refl _, rfl, rfl⟩)) hx)

theorem safe_unlockExclusive (ho : Own policy i q { exclusive := t :: xs } ds w)
    (hd : t ∈ ds → q.Detaches t) (hP : Durable policy others [] P') (hx : P' w) :
    Safe (view pg policy others i q) (fun _ u => Own policy i q { exclusive := xs } ds u ∧ P' u) exc
      (atomically (.unlockExclusive t)) w := by
  refine safe_act ho fun v hv hl _ => ⟨⟨(hv.holds.writer t).mpr (by simp), fun hc q' h' => ?_⟩,
    fun r s hs hp => ?_⟩
  · obtain ⟨rfl, ht⟩ := hv.debts hc q' t h'
    exact hd ht
  · obtain ⟨o, -, hs⟩ := hs
    cases hs
    exact safe_ret (fun _ => hP.lift) (hv.next (Server.unlock_holds rfl hv.holds) hp (.refl _))
      (hP.lift _ _ (hl.trans (.next hp ⟨.refl _, rfl, rfl⟩)) hx)

theorem safe_withShared (ho : Own policy i q {} [] w) (hP : ∀ x, Durable policy others [] (P x))
    (hE : Durable policy others [] E)
    (hb : ∀ v, Own policy i q { shared := [t] } [] v → Later policy others [] w v →
      Safe (view pg policy others i q) (fun x u => Own policy i q { shared := [t] } [] u ∧ P x u)
        (fun u => Own policy i q { shared := [t] } [] u ∧ E u) body v) :
    Safe (view pg policy others i q) (fun x u => Own policy i q {} [] u ∧ P x u)
      (fun u => Own policy i q {} [] u ∧ E u) (withShared t body) w := by
  refine safe_act ho fun v hv hl _ => ⟨hv.holds, fun r s hs hp => ?_⟩
  obtain ⟨o, -, hs⟩ := performed_of_exec hs
  cases hs with
  | lockShared hm =>
    have hv' := hv.next (Server.lockShared_holds hm hv.holds) hp (.refl _)
    refine Safe.guarded ((hb _ hv' (hl.trans (.next hp ⟨.refl _, rfl, rfl⟩))).mono ?_ ?_)
    · exact fun x u hu => safe_unlockShared hu.1 (hP x) hu.2
    · exact fun u hu => safe_unlockShared hu.1 hE hu.2

/-- `xs` is what a renaming has locked already. -/
theorem safe_withExclusive (ds : α → List String) (ho : Own policy i q { exclusive := xs } [] w)
    (hxs : xs = [] ∨ ∃ oldName, q = .alterTable oldName (.rename t) ∧ xs = [oldName])
    (hP : ∀ x, Durable policy others [] (P x)) (hE : Durable policy others [] E)
    (hd : ∀ x, t ∈ ds x → q.Detaches t)
    (hb : ∀ v, t ∉ xs → Own policy i q { exclusive := t :: xs } [] v →
      Later policy others xs w v → Safe (view pg policy others i q)
        (fun x u => Own policy i q { exclusive := t :: xs } (ds x) u ∧ P x u)
        (fun u => Own policy i q { exclusive := t :: xs } [] u ∧ E u) body v) :
    Safe (view pg policy others i q)
      (fun x u => Own policy i q { exclusive := xs } (ds x) u ∧ P x u)
      (fun u => Own policy i q { exclusive := xs } [] u ∧ E u) (withExclusive t body) w := by
  refine safe_act ho fun v hv hl _ => ⟨?_, fun r s hs hp => ?_⟩
  · rcases hxs with rfl | ⟨oldName, hq, rfl⟩
    · exact .inl hv.holds
    · exact .inr ⟨oldName, hq, hv.holds⟩
  · obtain ⟨o, -, hs⟩ := performed_of_exec hs
    cases hs with
    | lockExclusive hm =>
      have hh := Server.lock_holds hm hv.holds
      have hv' := hv.next hh hp (.refl _)
      have hl' : Later policy others xs w _ :=
        (hl.mono (by simp [Held.locked])).trans (.next hp ⟨.refl _, rfl, rfl⟩)
      refine Safe.guarded ((hb _ (List.nodup_cons.mp hh.nodup).1 hv' hl').mono ?_ ?_)
      · exact fun x u hu => safe_unlockExclusive hu.1 (hd x) (hP x) hu.2
      · exact fun u hu => safe_unlockExclusive hu.1 (by simp) hE hu.2

end scopes

/-- Thread `i` has the connection `c` besides its locks, and `c` is outside any transaction; if
`sure`, it is still in order. -/
structure Connected (policy : Policy) (i : ℕ) (q : Request) (h : Held) (ds : List String) (c : Conn)
    (sure : Prop) (w : Moment) : Prop where
  own : Own policy i q { h with conn := some c } ds w
  closed : (w.now.backend.session c).Closed
  idle : sure → w.now.backend.session c = .idle

section connections
variable {body : Conn → Code α} {P : α → Moment → Prop} {E : Moment → Prop} {P' : Moment → Prop}
  {exc : Moment → Prop} {c : Conn} {sure sure' : Prop}

theorem Own.holder (ho : Own policy i q { h with conn := some c } ds w) :
    w.now.holder c = some i :=
  (ho.holds.holder c).mpr rfl

theorem Connected.mono (hc : Connected policy i q h ds c sure w) (hs : sure' → sure) :
    Connected policy i q h ds c sure' w :=
  ⟨hc.own, hc.closed, fun h => hc.idle (hs h)⟩

theorem Connected.at (hc : Connected policy i q h ds c True w) (sure : Prop) :
    Connected policy i q h ds c sure w :=
  hc.mono fun _ => trivial

theorem Connected.rely (hc : Connected policy i q h ds c sure w)
    (hr : (view pg policy others i q).rely w w') :
    Connected policy i q h ds c sure w' ∧ Later policy others h.locked w w' := by
  obtain ⟨ho, hl, hk⟩ := hc.own.rely hr
  have hs := hk.session c hc.own.holder
  exact ⟨⟨ho, hs ▸ hc.closed, fun h => hs.trans (hc.idle h)⟩, hl⟩

theorem safe_connected_ret {x : α} (hP : ∀ y, Durable policy others h.locked (P y))
    (hc : Connected policy i q h ds c sure w) (hx : P x w) :
    Safe (view pg policy others i q) (fun y u => Connected policy i q h ds c sure u ∧ P y u) exc
      (.ret x) w := by
  intro u hu
  obtain ⟨hc', hl⟩ := hc.rely hu
  exact ⟨hc', hP x _ _ hl hx⟩

theorem safe_release (hc : Connected policy i q h ds c sure w) (hn : h.conn = none)
    (hP : Durable policy others h.locked P') (hx : P' w) :
    Safe (view pg policy others i q) (fun _ u => Own policy i q h ds u ∧ P' u) exc
      (atomically (.release c)) w := by
  refine safe_act hc.own fun v hv hl hk => ?_
  have hcl : (v.now.backend.session c).Closed := hk.session c hc.own.holder ▸ hc.closed
  refine ⟨⟨hv.holder, hcl⟩, fun r s hs hp => ?_⟩
  obtain ⟨o, -, hs⟩ := hs
  cases hs
  obtain ⟨-, -, hh⟩ := Server.release_spec hv.inv.sound hv.holder hcl
  have hh' : Holds i h (v.now.release c) := by
    have := hh _ hv.holds
    cases h
    cases hn
    exact this
  exact safe_ret (fun _ => hP) (hv.next hh' hp (.refl _))
    (hP _ _ (hl.trans (.next hp ⟨.refl _, rfl, rfl⟩)) hx)

theorem safe_withConnection (ds : α → List String) (ho : Own policy i q h [] w)
    (hn : h.conn = none) (hP : ∀ x, Durable policy others h.locked (P x))
    (hE : Durable policy others h.locked E)
    (hrefused : ∀ v, Later policy others h.locked w v → E v)
    (hb : ∀ c v, Connected policy i q h [] c True v → Later policy others h.locked w v →
      Safe (view pg policy others i q)
        (fun x u => Connected policy i q h (ds x) c False u ∧ P x u) (fun _ => False) (body c) v) :
    Safe (view pg policy others i q) (fun x u => Own policy i q h (ds x) u ∧ P x u)
      (fun u => Own policy i q h [] u ∧ E u) (withConnection body) w := by
  refine safe_act ho fun v hv hl _ => ⟨fun c hc => ?_, fun r s hs hp => ?_⟩
  · simpa [hn] using (hv.holds.holder c).mp hc
  · obtain ⟨o, -, hs⟩ := hs
    obtain ⟨-, -, ⟨hdb, hmvcc, hcache⟩, hh⟩ :=
      Server.acquired_spec hv.inv.sound (Server.acquire_cases hs)
    have hstill : v.now.Still s := ⟨by rw [Server.db, Server.db, hdb]; exact .refl _, hmvcc, hcache⟩
    obtain ⟨hh, hidle⟩ := hh h hv.holds hn
    have hv' := hv.next hh hp hstill.rows
    have hl' : Later policy others h.locked w _ := hl.trans (.next hp hstill)
    cases r with
    | none =>
      intro u hu
      have hv' : Own policy i q h [] (v.next (.act i q .acquire none) s) := by
        cases h
        cases hn
        exact hv'
      obtain ⟨ho', hl'', -⟩ := hv'.rely hu
      exact ⟨ho', hE _ _ hl'' (hrefused _ hl')⟩
    | some c =>
      have hc : Connected policy i q h [] c True (v.next (.act i q .acquire (some c)) s) :=
        ⟨hv', by rw [World.next_now, hidle c rfl]; trivial, fun _ => hidle c rfl⟩
      exact Safe.guarded ((hb c _ hc hl').mono (fun x u hu => safe_release hu.1 hn (hP x) hu.2)
        fun _ => False.elim)

end connections

/-! The cache and the transaction table. -/

section memory
variable {post : α → Moment → Prop} {exc : Moment → Prop} {s : Server}

/-- An action that touches nothing but the cache and the transaction table. -/
theorem Own.memory {a : Act} {r : a.Result} (cache : Cache String (List PartitionRow))
    (mvcc : MVCCManager) (ho : Own policy i q h ds v)
    (hp : Promise policy v (.act i q a r) { v.now with cache := cache, mvcc := mvcc }) :
    Own policy i q h ds (v.next (.act i q a r) { v.now with cache := cache, mvcc := mvcc }) :=
  ho.next ⟨ho.holds.writer, ho.holds.reader, ho.holds.holder, ho.holds.nodup⟩ hp (.refl _)

/-- The counter as it is at some moment. -/
theorem safe_loadSnapshot {k : ℕ → Code α} (ho : Own policy i q h ds w)
    (H : ∀ v v', Own policy i q h ds v' → Later policy others h.locked w v →
      Later policy others h.locked v v' →
      Safe (view pg policy others i q) post exc (k v.now.mvcc.latestCommittedSnapshot) v') :
    Safe (view pg policy others i q) post exc (.act .loadSnapshot k) w := by
  refine safe_act ho fun v hv hl _ => ⟨trivial, fun r s hs hp => ?_⟩
  obtain ⟨o, -, hs⟩ := hs
  cases hs
  exact H v _ (hv.next hv.holds hp (.refl _)) hl (.next hp (.refl _))

/-- An access to the transaction table of which only the answer matters. -/
theorem safe_mvcc {a : Act} {k : a.Result → Code α} (ho : Own policy i q h ds w)
    (hn : ∀ v, Needs policy i q a v)
    (ha : ∀ o s r s', Server.perform pg o i a s = some (r, s') → ∃ m, s' = { s with mvcc := m })
    (H : ∀ v r v', Own policy i q h ds v' → w.Before v → v.Before v' →
      Safe (view pg policy others i q) post exc (k r) v') :
    Safe (view pg policy others i q) post exc (.act a k) w := by
  refine safe_act ho fun v hv hl _ => ⟨hn v, fun r s hs hp => ?_⟩
  obtain ⟨o, -, hs⟩ := hs
  obtain ⟨m, rfl⟩ := ha o _ r s hs
  exact H v r _ (hv.memory v.now.cache m hp) hl.before (World.before_next _ _ _)

variable {n : ℕ}

/-- A hit is what the database answers, unless another thread has taken the table off its name
and has yet to drop the entry. -/
theorem safe_cacheGet {k : Option (List PartitionRow) → Code α} (ho : Own policy i q h ds w)
    (ht : t ∈ h.shared)
    (H : ∀ v r v', Own policy i q h ds v' → w.Before v → v.Before v' →
      Later policy others h.locked w v →
      (policy.Clean → Db.SameTable t v.now.db v'.now.db) →
      (policy.Clean → ∀ rows, r = some rows → v.now.db.queryPartitions t n = some rows ∨
        ∃ j q', Owes v j q' t ∧ q'.Detaches t) →
      Safe (view pg policy others i q) post exc (k r) v') :
    Safe (view pg policy others i q) post exc
      (.act (.cacheGet (PartitionRegistry.makeCacheKey t n)) k) w := by
  refine safe_act ho fun v hv hl _ =>
    ⟨⟨t, n, rfl, (hv.holds.reader t).mpr ht⟩, fun r s hs hp => ?_⟩
  obtain ⟨o, -, hs⟩ := hs
  cases hs
  refine H v _ _ (hv.memory _ v.now.mvcc hp) hl.before (World.before_next _ _ _) hl
    (fun _ => ⟨rfl, fun _ _ _ => rfl⟩) fun hc rows hr => ?_
  rcases hv.inv.coherent hc t n rows (Cache.get_hit hr) with hq | ⟨j, q', hj⟩
  · exact .inl hq
  · refine .inr ⟨j, q', hj, ?_⟩
    rcases hv.inv.debts hc j q' t hj with hw | hd
    · have hr := (hv.holds.reader t).mpr ht
      rw [hv.inv.sound.exclusion t j hw] at hr
      simp at hr
    · exact hd

theorem safe_cachePut {rows : List PartitionRow} {k : Unit → Code α}
    (ho : Own policy i q h ds w) (ht : t ∈ h.shared)
    (hq : policy.Clean → w.now.db.queryPartitions t n = some rows)
    (H : ∀ v, Own policy i q h ds v → w.Before v →
      (policy.Clean → Db.SameTable t w.now.db v.now.db) →
      (∀ c, w.now.holder c = some i →
        v.now.backend.session c = w.now.backend.session c) →
      Safe (view pg policy others i q) post exc (k ()) v) :
    Safe (view pg policy others i q) post exc
      (.act (.cachePut (PartitionRegistry.makeCacheKey t n) rows) k) w := by
  have hlock : t ∈ h.locked := List.mem_append_right _ ht
  refine safe_act ho fun v hv hl hk => ⟨⟨t, n, rfl, (hv.holds.reader t).mpr ht, fun hc => ?_⟩,
    fun r s hs hp => ?_⟩
  · exact ((hl.same hc t hlock).queryPartitions n).trans (hq hc)
  · obtain ⟨o, -, hs⟩ := performed_of_exec hs
    cases hs
    exact H _ (hv.memory _ v.now.mvcc hp) (hl.before.trans (World.before_next _ _ _))
      (fun hc => hl.same hc t hlock) fun c hc => hk.session c hc

/-- The entries of a table are dropped, and with them the debt. -/
theorem safe_cacheInvalidate {k : ℕ → Code α} (ho : Own policy i q h ds w)
    (H : ∀ v r, Own policy i q h (ds.filter (· ≠ t)) v → w.Before v →
      (others = false → w.now.db.SameRows v.now.db ∧ v.now.mvcc = w.now.mvcc) →
      (∀ c, w.now.holder c = some i →
        v.now.backend.session c = w.now.backend.session c) →
      Safe (view pg policy others i q) post exc (k r) v) :
    Safe (view pg policy others i q) post exc (.act (.cacheInvalidate (t ++ ":")) k) w := by
  refine safe_act ho fun v hv hl hk => ⟨trivial, fun r s hs hp => ?_⟩
  obtain ⟨o, -, hs⟩ := hs
  cases hs
  have hm := hv.memory _ v.now.mvcc hp
  refine H _ _ ⟨hm.inv, hm.holds, fun hc q' u hu => ?_⟩
    (hl.before.trans (World.before_next _ _ _)) (fun hf => ⟨(hl.still hf).rows, (hl.still hf).mvcc⟩)
    fun c hc => hk.session c hc
  rcases owes_next.mp hu with ⟨-, -, -, hch⟩ | ⟨hu, hne⟩
  · exact absurd hch (Db.SameRows.not_changed (.refl _))
  · obtain ⟨rfl, hd⟩ := hv.debts hc q' u hu
    refine ⟨rfl, List.mem_filter.mpr ⟨hd, ?_⟩⟩
    simp only [ne_eq, decide_eq_true_eq]
    rintro rfl
    exact hne _ rfl

end memory

end IceLog
