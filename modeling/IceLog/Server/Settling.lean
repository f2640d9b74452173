import IceLog.Server.CommitEvents
import IceLog.Server.Frames
import IceLog.Server.RowChanges

/-! What a `COMMIT` has done, from what its request acknowledges. After the `COMMIT` the request
can be run to its end alone; it has then told what it did, and there was nothing else it could
have done that in. -/
namespace IceLog

open Interleaved Serial

variable {pg : Postgres} {policy : Policy} {i : ℕ} {q : Request} {a : Act} {r : a.Result}
  {p : Code Reply} {w v u m : Moment} {s : Server} {e : ServerEvent} {c c' : ServerConfig} {conn : Conn}
  {P : Reply → Prop} {E : Moment → Moment → Prop}

/-- Any outcome, but every `COMMIT` is carried out. -/
def Policy.carrying (policy : Policy) : Policy where
  admits := policy.admits
  allows _
    | .exec _ .commit, .answer a => a.carriedOut
    | _, _ => true

theorem Policy.carrying_not_steady : ¬ policy.carrying.Steady := fun h =>
  absurd (h (.stats "") 0 "" (.spurious 0) rfl) (by decide)

theorem Inv.carrying (h : Inv policy w) : Inv policy.carrying w :=
  ⟨h.sound, h.fresh, h.consistent, fun _ hs => absurd hs Policy.carrying_not_steady, h.debts,
    h.coherent⟩

theorem Promise.carrying (h : Promise policy w e s) : Promise policy.carrying w e s := by
  refine ⟨h.inv.carrying, h.keeps, h.nextLe, fun hc id => ?_, h.debts, h.alters, h.kept⟩
  rcases h.writes hc id with heq | ⟨i, hi, hw⟩
  · exact .inl heq
  · exact .inr ⟨i, hi, hw.before, hw.after, hw.fresh,
      hw.change.of_steady fun hs => absurd hs Policy.carrying_not_steady⟩

/-- A `COMMIT` that changes rows is carried out in an open transaction. -/
theorem committed_of_moved {b b' : Backend} {ans : Answer} {ok : Bool}
    (h : Backend.Controlled b conn .commit ans ok b') (hm : ¬ b.db.SameRows b'.db) :
    ∃ u p, b.session conn = .inTransaction u p ∧ b'.db = b.db.apply p ∧ ans.carriedOut = true := by
  cases h with
  | moved hq => exact absurd hq.sameRows hm
  | committed _ hp h =>
    refine ⟨_, _, hp, rfl, ?_⟩
    rcases h with ⟨rfl, -⟩ | ⟨rfl, -⟩ <;> rfl

/-- An action that is not a `COMMIT`, or one that has changed rows. -/
theorem exec_carrying (h : (server pg policy).Exec i q a w.now r s)
    (ha : a.noCommit ∨ ¬ w.now.db.SameRows s.db) :
    (server pg policy.carrying).Exec i q a w.now r s := by
  obtain ⟨o, -, hx⟩ := h
  refine ⟨o, ?_, hx⟩
  simp only [server, Policy.carrying]
  split
  · rename_i conn ans
    rcases ha with ha | ha
    · exact absurd rfl (ha conn)
    · cases hx
      obtain ⟨-, -, -, -, hcarried⟩ := committed_of_moved (Backend.exec_cases rfl) ha
      exact hcarried
  · rfl

/-! A thread whose `COMMIT`s are carried out. -/

/-- Each `COMMIT` of the thread has changed rows. -/
def Effective (i : ℕ) (w : Moment) : Prop :=
  ∀ (v : Moment) q a r s, (v.next (.act i q a r) s).Before w →
    a.noCommit ∨ ¬ v.now.db.SameRows s.db

/-- What is left of its code is safe among servers that carry out every `COMMIT`. -/
abbrev SafeRest (pg : Postgres) (policy : Policy) (i : ℕ) (q : Request) (p : Code Reply)
    (w : Moment) : Prop :=
  ∃ u, u.Before w ∧ CalledAt i q u ∧
    Safe (view pg policy.carrying true i q) ((serverSpec pg policy.carrying).post i q u)
      ((serverSpec pg policy.carrying).exc i q u) p w

theorem Reachable.safeRest (h : Reachable pg policy c) (hi : c.thread i = some ⟨q, p⟩)
    (hc : Effective i c.world) : SafeRest pg policy i q p c.world := by
  induction h generalizing p with
  | start | restart => cases hi
  | @step c c' e h hs ih =>
    have hp := h.promise hs
    have hw := hs.world_eq
    have hlater : ∀ {p}, e.actor ≠ some i → c.thread i = some ⟨q, p⟩ →
        SafeRest pg policy i q p c'.world := by
      intro p he hi
      obtain ⟨u, hu, hcall, hsafe⟩ := ih hi fun v q a r s hb => hc v q a r s (hw ▸ hb.next _ _)
      refine ⟨u, hw ▸ hu.next _ _, hcall, hsafe.rely ?_⟩
      exact .single ⟨e, c'.state, he, h.inv.carrying, hp.carrying, hw⟩
    cases hs with
    | @call j q' hj ha =>
      by_cases hij : i = j
      · subst hij
        rw [Config.put_thread_self] at hi
        cases hi
        have hf := h.good.fresh i hj
        exact ⟨_, .refl, ⟨_, hf, rfl⟩, verified i q c.world h.inv.carrying hf ha⟩
      · rw [Config.put_thread_of_ne _ _ _ _ hij] at hi
        exact hlater (by simpa [Event.actor] using Ne.symm hij) hi
    | @act j q' a k r s hj hx =>
      by_cases hij : i = j
      · subst hij
        rw [Config.put_thread_self] at hi
        cases hi
        obtain ⟨u, hu, hcall, hsafe⟩ := ih hj fun v q a r s hb => hc v q a r s (hb.next _ _)
        refine ⟨u, hu.next _ _, hcall, (hsafe _ .refl).2 r _ ⟨s, ?_, hp.carrying, rfl⟩⟩
        exact exec_carrying hx (hc _ _ _ _ _ .refl)
      · rw [Config.put_thread_of_ne _ _ _ _ hij] at hi
        exact hlater (by simpa [Event.actor] using Ne.symm hij) hi
    | drift hd => exact hlater (by simp [Event.actor]) hi

/-- What closes a request can always be performed. -/
theorem perform_closes (ha : a.Closes) (s : Server) :
    ∃ o r s', policy.carrying.allows q a o = true ∧ Server.perform pg o i a s = some (r, s') := by
  cases a with
  | cacheInvalidate | release | unlockExclusive => exact ⟨.ok, _, _, rfl, rfl⟩
  | _ => exact ha.elim

theorem perform_closes_db {o : Outcome} {s' : Server} (ha : a.Closes)
    (h : Server.perform pg o i a s = some (r, s')) : s'.db = s.db := by
  cases a with
  | cacheInvalidate | release | unlockExclusive =>
    cases h
    rfl
  | _ => exact ha.elim

/-- After its `COMMIT` a request can be run to its end. -/
theorem Reachable.settles (h : Reachable pg policy c) (hq : q.Settles P)
    (hi : c.thread i = some ⟨q, p⟩) (hm : Commits i q m c.world) (hc : Effective i c.world) :
    ∃ u y tr w, Solo (server pg policy.carrying) i q p c.world tr (some y) w ∧ P y ∧
      p.All (fun a _ => a.Closes) ∧ Served pg policy.carrying true i q u y w := by
  obtain ⟨u, -, -, hsafe⟩ := h.safeRest hi hc
  have hl := h.traced.leaves i _ hi
  obtain ⟨hends, hcloses⟩ := hq.closing.leaves hl hm.mem_actionsOf
  obtain ⟨tr, x, w, hx⟩ := hsafe.alone.solo (J := fun _ => True)
    (fun v a ha _ _ _ => by
      obtain ⟨o, r, s, ho, hx⟩ : ∃ o r s, policy.carrying.allows q a o = true ∧
        Server.perform pg o i a v.now = some (r, s) := perform_closes ha v.now
      exact ⟨o, r, s, ho, hx, trivial⟩) hcloses trivial
  obtain ⟨y, rfl, hy⟩ := hx.ends hends
  exact ⟨u, y, tr, w, hx, hy, hcloses, (hx.post hsafe.alone).2⟩

/-- An action in the history that changed more than names was a `COMMIT`. -/
theorem Reachable.commit_of_acted (h : Reachable pg policy c) {v' : Moment} (ha : Acted i v v')
    (hb : v'.Before c.world) (hr : ¬ v.now.db.Retitled v'.now.db) :
    ∃ q conn x s, v' = v.next (.act i q (.exec conn .commit) x) s := by
  obtain ⟨q, a, r, s, rfl⟩ := ha
  obtain ⟨d, d', hd, rfl, hs, hw, -⟩ := h.step_of_before hb
  rcases hd.retitled hs with hkept | ⟨j, q', conn, x, heq⟩
  · rw [← hw] at hr
    exact absurd hkept hr
  · cases heq
    exact ⟨q, conn, x, s, rfl⟩

/-- All that a request that commits once says to have done, its `COMMIT` has done: nothing else
that it does changes rows. -/
theorem Reachable.effect_of_commit (h : Reachable pg policy c) (hq : q.Settles P)
    {x : Bool} (hs : Step (server pg policy) c (.act i q (.exec conn .commit) x) c')
    (hmoved : ¬ c.state.db.SameRows c'.state.db)
    (hserved : ∀ y u w, P y → Served pg policy.carrying true i q u y w → Effected true i E u w)
    (hE : ∀ v v' : Moment, E v v' → ¬ v.now.db.Retitled v'.now.db) : E c.world c'.world := by
  have h' := h.step hs
  have hw := hs.world_eq
  have hlast : (c.world.next (.act i q (.exec conn .commit) x) c'.state).Before c'.world := by
    rw [← hw]
    exact .refl
  have hm : Commits i q c.world c'.world := ⟨conn, x, c'.state, hlast⟩
  -- the thread sends no other `COMMIT`
  have hsame : ∀ {v : Moment} {q' : Request} {a : Act} {r : a.Result} {s : Server},
      (v.next (.act i q' a r) s).Before c'.world → ¬ a.noCommit →
        v = c.world ∧ v.next (.act i q' a r) s = c'.world := by
    intro v q' a r s hb ha
    obtain ⟨conn', rfl⟩ := not_noCommit.mp ha
    obtain rfl := h'.commits_unique hq hm ⟨conn', r, s, hb⟩
    obtain ⟨he, rfl⟩ := hb.next_unique hlast
    exact ⟨rfl, he ▸ hw.symm⟩
  have heffective : Effective i c'.world := by
    intro v q' a r s hb
    refine or_iff_not_imp_left.mpr fun ha => ?_
    obtain ⟨rfl, hv⟩ := hsame hb ha
    have hnow : s = c'.state := congrArg World.now hv
    rwa [hnow]
  obtain ⟨th, hth, hreq⟩ := h'.commits_request hm
  obtain ⟨q₀, p⟩ := th
  obtain rfl : q₀ = q := hreq
  obtain ⟨u, y, tr, w, hx, hy, hcloses, hserved'⟩ := h'.settles hq hth hm heffective
  obtain ⟨v, v', -, ⟨q', a, r, s, rfl⟩, hb, -, he⟩ := hserved y u w hy hserved'
  have hret := hE _ _ he
  rcases hx.next_cases hcloses hb with hb | ⟨o, a, r, ha, heq, hx⟩
  · obtain ⟨q'', conn', x', s', heq⟩ := h'.commit_of_acted (acted_next v) hb hret
    rw [heq] at hb he
    obtain ⟨hv, hv'⟩ := hsame hb (not_noCommit.mpr ⟨_, rfl⟩)
    rwa [hv', hv] at he
  · cases heq
    have hdb := perform_closes_db ha hx
    rw [World.next_now, hdb] at hret
    exact absurd (Db.SameRows.refl _).retitled hret

/-- A `COMMIT` that changes rows makes a draft take effect that could be committed. -/
theorem Reachable.committable {b : Bool} (h : Reachable pg policy c) (hc : policy.Clean)
    (hs : Step (server pg policy) c (.act i q (.exec conn .commit) b) c')
    (hrows : ¬ c.state.db.SameRows c'.state.db) : ∃ p t k,
      Committable policy i q c.state p t k ∧ t ∈ q.tableNames ∧
        c'.state.db = c.state.db.apply p := by
  cases hs with
  | @act _ _ _ _ _ s hi hx =>
    obtain ⟨o, -, hx⟩ := performed_of_exec hx
    cases hx with
    | exec _ he =>
      obtain ⟨u, p, hp, hdb, -⟩ := committed_of_moved (Backend.exec_cases he) hrows
      obtain ⟨t, k, hcan⟩ := (h.needs hi).2 rfl hc u p hp
      obtain ⟨th, hth, ht⟩ := h.writer_names hcan.lock
      cases hi.symm.trans hth
      exact ⟨p, t, k, hcan, ht, hdb⟩

/-! What the requests say to have done. -/

theorem Reachable.admitted (h : Reachable pg policy c)
    {th : Thread Act Act.Result Request Reply} (hi : c.thread i = some th) :
    policy.admits th.request = true := by
  obtain ⟨u, -, -, ha, -⟩ := h.good.safe i _ hi
  exact ha

theorem Reachable.admits (h : Reachable pg policy c)
    (hs : Step (server pg policy) c (.act i q a r) c') : policy.admits q = true := by
  cases hs with
  | act hi => exact h.admitted hi

/-- A transaction that is acknowledged where every `COMMIT` is carried out. -/
theorem Transacted.effected {others : Bool} {ok : Bool}
    (h : Transacted policy others i q E u ok w) (hok : ok = true)
    (hcm : ∀ conn a, policy.allows q (.exec conn .commit) (.answer a) = true →
      a.carriedOut = true) : Effected others i E u w := by
  cases h with
  | failed hno => simp [hok] at hno
  | dropped _ _ _ hc =>
    obtain ⟨conn, ans, ha, hno⟩ := hc
    rw [hcm conn ans ha] at hno
    cases hno
  | done _ he _ => exact he

theorem served_commitCall {others : Bool} {x : CommitCall} {y : Reply}
    (hx : q.commitCall = some x) (h : Served pg policy others i q u y w) :
    ∃ r, y = .snapshot r ∧ CommitAnswer pg policy others i q x.tableName x.parentSnapshotId
      x.operation x.newPartitions x.deletedPartitionKeys u r w := by
  cases q with
  | commit | commitSnapshot =>
    cases hx
    exact h
  | _ => cases hx

theorem Request.tableName_mem {x : CommitCall} (h : q.commitCall = some x) :
    x.tableName ∈ q.tableNames := by
  cases q with
  | commit | commitSnapshot =>
    cases h
    simp [Request.tableNames]
  | _ => cases h

/-- A commit moves the pointer of its table. -/
theorem CommitEffect.not_retitled {t op : String} {parent n : ℕ} {news : List PartitionRow}
    {dels : List String} {v v' : Moment}
    (h : CommitEffect pg policy t parent op news dels n v v') (hc : policy.Clean) :
    ¬ v.now.db.Retitled v'.now.db := by
  obtain ⟨id, r, hf, -, hlt, ⟨r', z, hr', -, hw⟩, -⟩ := h.table
  intro hret
  obtain ⟨hrow, -⟩ := Db.row_of_find hf
  cases hrow.symm.trans hr'
  have hrow' : v'.now.db.tables.row id = some { r with currentSnapshotId := n } :=
    congrArg Slice.table hw
  have hcur := congrArg TableRec.currentSnapshotId (hret.tables id r _ hrow hrow')
  exact absurd hcur (hlt hc).ne'

/-- A `COMMIT` of a commit that changes rows is that commit. -/
theorem Reachable.commitEffect (h : Reachable pg policy c) (hc : policy.Clean) {x : CommitCall}
    (hx : q.commitCall = some x) {b : Bool}
    (hs : Step (server pg policy) c (.act i q (.exec conn .commit) b) c')
    (hmoved : ¬ c.state.db.SameRows c'.state.db) :
    ∃ n, CommitEffect pg policy.carrying x.tableName x.parentSnapshotId x.operation
      x.newPartitions x.deletedPartitionKeys n c.world c'.world := by
  have hnul : NulFree x.tableName := hc q (h.admits hs) _ (Request.tableName_mem hx)
  refine h.effect_of_commit (settles_commitCall hx) hs hmoved ?_ ?_ (E := fun v v' =>
    ∃ n, CommitEffect pg policy.carrying x.tableName x.parentSnapshotId x.operation
      x.newPartitions x.deletedPartitionKeys n v v')
  · rintro y u w ⟨r, rfl, hr⟩ hy
    obtain ⟨r', he, hans⟩ := served_commitCall hx hy
    cases he
    obtain ⟨v, v', huv, hact, hw, hf, he⟩ := hans.effected hr fun _ _ h => h
    exact ⟨v, v', huv, hact, hw, hf, r.snapshotId, he (.inr ⟨hc, by simp [cStr_of_nulFree hnul]⟩)⟩
  · rintro v v' ⟨n, he⟩
    exact he.not_retitled hc

theorem Slice.Altered.history_ne {schema summary : String} {version : ℤ} {id : ℕ} {v v' : Slice}
    (h : v.Altered pg id schema summary version v') : v'.history ≠ v.history := by
  obtain ⟨r, schema', k, now, -, -, hk, rfl⟩ := h
  intro heq
  have hrow := congrFun heq k
  simp only [Slice.insertHistory, Function.update_self] at hrow
  exact absurd (hk k _ hrow.symm) (Nat.lt_irrefl k)

theorem TableEffect.not_retitled {t schema summary : String} {v v' : Moment}
    (h : TableEffect t (Altering pg schema summary) v v') : ¬ v.now.db.Retitled v'.now.db := by
  obtain ⟨id, r, -, halt, -⟩ := h.table
  intro hret
  exact halt.history_ne (by funext k; simp [Db.slice, Rows.only, hret.history])

/-- A `COMMIT` of a change of the schema that changes rows is that change. -/
theorem Reachable.alterEffect (h : Reachable pg policy c) (hc : policy.Clean) {t schema : String}
    {b : Bool} (hs : Step (server pg policy) c
      (.act i (.alterTable t (.newSchemaJson schema)) (.exec conn .commit) b) c')
    (hmoved : ¬ c.state.db.SameRows c'.state.db) :
    TableEffect t (Altering pg schema "schema evolution via AlterTable") c.world c'.world := by
  have hnul : NulFree t := hc _ (h.admits hs) t (List.mem_singleton_self t)
  refine h.effect_of_commit settles_alterTable hs hmoved ?_ ?_
  · rintro y u w ⟨r, rfl, hr⟩ ⟨r', he, hans⟩
    cases he
    obtain ⟨v, v', huv, hact, hw, hf, he⟩ := (hans hr).effected rfl fun _ _ h => h
    exact ⟨v, v', huv, hact, hw, hf, he (.inr ⟨hc, by simp [cStr_of_nulFree hnul]⟩)⟩
  · exact fun v v' he => he.not_retitled

end IceLog
