import IceLog.Properties.TransactionIds

/-! The stored status of a transaction, against the outcome that the table in memory gave it. -/
namespace IceLog

open Interleaved Serial

variable {pg : Postgres} {policy : Policy} {c c' d d' : ServerConfig} {e : ServerEvent} {i j x : ℕ}
  {q : Request} {a : Act} {r : a.Result} {s : Server} {v w : Moment} {status : String}
  {tr : List (Σ a : Act, a.Result)} {p' : Code Reply}

/-- The status in the row `x`. -/
def Db.storedStatus (db : Db) (x : ℕ) : Option String :=
  (db.transactions.row x).map TransactionRec.status

/-- What the requests that end transactions meet: no transaction that has run out of time, a
connection, and a database that carries out their `UPDATE` on the row; and the `UPDATE` of an
abort meets no row that is committed. -/
structure Orderly (w : Moment) : Prop where
  unexpired : ∀ s i q x r, (s, .act i q (.commitTransaction x) r) ∈ w.past →
    ∀ t, s.mvcc.findTransaction x = some t → s.mvcc.expired s.steadyClock t = false
  connected : ∀ s i q x status, q.Ends x status → (s, .act i q .acquire none) ∉ w.past
  stored : ∀ s i q conn status x r,
    (s, .act i q (.execParams conn (.updateStatus status x)) r) ∈ w.past →
      r ≠ .error ∧ (s.db.transactions.row x).isSome
  kept : ∀ s i q conn x r,
    (s, .act i q (.execParams conn (.updateStatus "aborted" x)) r) ∈ w.past →
      s.db.storedStatus x ≠ some "committed"

/-- The outcomes of transactions are stored: those that calls have reported, and those of all
transactions that a call has ended, once the call is over. -/
structure Final (c : ServerConfig) : Prop where
  committed : ∀ i x r, c.Returned i (.commitTransaction x) (.operation r) → r.success = true →
    c.state.db.storedStatus x = some "committed"
  aborted : ∀ i x y, c.Returned i (.abortTransaction x) y → EndedBy i x "aborted" c.world →
    c.state.db.storedStatus x = some "aborted"
  stored : ∀ i x status t, EndedBy i x status c.world → c.thread i = some t → t.code.Finished →
    c.state.db.storedStatus x = some status

/-! The code of a request that ends a transaction. -/

/-- A commit stores its status only if the table has committed the transaction. -/
theorem commit_stores {conn : Conn} {sql : Sql} {k : PGresult sql.Row → Code Reply}
    (h : (Request.code (.commitTransaction x)).Leaves tr (.act (.execParams conn sql) k)) :
    (⟨.commitTransaction x, true⟩ : Σ a : Act, a.Result) ∈ tr := by
  cases h with
  | @cons _ _ ok _ _ h =>
  cases ok with
  | false => cases h
  | true => exact List.mem_cons_self ..

theorem commit_reports {y : OperationResult}
    (h : (Request.code (.commitTransaction x)).Leaves tr (.ret (.operation y)))
    (hy : y.success = true) : (⟨.commitTransaction x, true⟩ : Σ a : Act, a.Result) ∈ tr := by
  cases h with
  | @cons _ _ ok _ _ h =>
  cases ok with
  | false =>
    cases h
    cases hy
  | true => exact List.mem_cons_self ..

/-- Code that acquires a connection and sends the status on it, once it is over. -/
theorem status_finished {k : Option Conn → Code Reply}
    (hk : ∀ conn, ∃ k', k (some conn) = .act (.execParams conn (.updateStatus status x)) k')
    (h : (Prog.act Act.acquire k).Leaves tr p') (hp : p'.Finished) :
    (⟨.acquire, none⟩ : Σ a : Act, a.Result) ∈ tr ∨ ∃ conn r,
      (⟨.execParams conn (.updateStatus status x), r⟩ : Σ a : Act, a.Result) ∈ tr := by
  cases h with
  | nil => cases hp
  | @cons _ _ conn _ _ h =>
  cases conn with
  | none => exact .inl (by simp)
  | some conn =>
  obtain ⟨k', hk⟩ := hk conn
  rw [hk] at h
  cases h with
  | nil => cases hp
  | @cons _ _ r _ _ h => exact .inr ⟨conn, r, by simp⟩

/-- A commit that is over has stored its status, unless it was given no connection. -/
theorem commit_finished (h : (Request.code (.commitTransaction x)).Leaves tr p')
    (hp : p'.Finished) (hok : (⟨.commitTransaction x, true⟩ : Σ a : Act, a.Result) ∈ tr) :
    (⟨.acquire, none⟩ : Σ a : Act, a.Result) ∈ tr ∨ ∃ conn r,
      (⟨.execParams conn (.updateStatus "committed" x), r⟩ : Σ a : Act, a.Result) ∈ tr := by
  cases h with
  | nil => cases hok
  | @cons _ _ ok _ _ h =>
  cases ok with
  | false =>
    cases h
    simp at hok
  | true =>
    exact (status_finished (fun conn => ⟨_, rfl⟩) h hp).imp (List.mem_cons_of_mem _)
      fun ⟨conn, r, hm⟩ => ⟨conn, r, List.mem_cons_of_mem _ hm⟩

theorem abort_finished (h : (Request.code (.abortTransaction x)).Leaves tr p')
    (hp : p'.Finished) :
    (⟨.acquire, none⟩ : Σ a : Act, a.Result) ∈ tr ∨ ∃ conn r,
      (⟨.execParams conn (.updateStatus "aborted" x), r⟩ : Σ a : Act, a.Result) ∈ tr := by
  cases h with
  | nil => cases hp
  | cons h =>
    exact (status_finished (fun conn => ⟨_, rfl⟩) h hp).imp (List.mem_cons_of_mem _)
      fun ⟨conn, r, hm⟩ => ⟨conn, r, List.mem_cons_of_mem _ hm⟩

/-! Runs. -/

theorem EndedBy.mono (h : EndedBy i x status v) (hw : v.Before w) : EndedBy i x status w := by
  induction hw with
  | refl => exact h
  | next e s _ ih => exact endedBy_next.mpr (.inl ih)

/-- A commit answers false only of transactions that are not in the table. -/
theorem Orderly.not_found (ho : Orderly c.world) (h : Reachable pg policy c)
    (hm : (s, .act i q (.commitTransaction x) false) ∈ c.world.past) :
    s.mvcc.findTransaction x = none := by
  by_contra hsome
  obtain ⟨t, ht⟩ := Option.ne_none_iff_exists'.mp hsome
  have hlive := ho.unexpired s i q x false hm t ht
  obtain ⟨d, d', -, rfl, hs, -⟩ := h.occurred hm
  cases hs with
  | act hi hx =>
    obtain ⟨o, -, hx⟩ := performed_of_exec hx
    generalize hfalse : false = ok at hx
    cases hx with
    | @commitTransaction _ failures =>
      have hok := (MVCCManager.commitTransaction_fst d.state.mvcc failures d.state.steadyClock
        x).mpr ⟨t, ht, hlive⟩
      cases hfalse.trans hok

/-- Who has ended a transaction was asked to, and its status is that of the request. -/
theorem Orderly.ender (ho : Orderly c.world) (h : Reachable pg policy c)
    (he : EndedBy i x status c.world) {t : Thread Act Act.Result Request Reply}
    (ht : c.thread i = some t) :
    (t.request = .commitTransaction x ∧ status = "committed" ∧
      ⟨.commitTransaction x, true⟩ ∈ actionsOf i c.world) ∨
    (t.request = .abortTransaction x ∧ status = "aborted") := by
  obtain ⟨s, e, hm, he⟩ := he
  have hrequest : ∀ {q a r}, e = .act i q a r → t.request = q ∧ q.MayAct a := by
    intro q a r he
    subst he
    obtain ⟨t', ht', hq⟩ := h.traced.request i q a r s hm
    cases ht.symm.trans ht'
    obtain ⟨d, d', hd, -, hs, -⟩ := h.occurred hm
    exact ⟨hq, (hd.at_action hs).1⟩
  cases he with
  | @committed q =>
    obtain ⟨hq, hact⟩ := hrequest rfl
    exact .inl ⟨hq.trans hact, rfl, mem_actionsOf.mpr ⟨s, q, hm⟩⟩
  | expired hsome => simp [ho.not_found h hm] at hsome
  | aborted =>
    obtain ⟨hq, hact⟩ := hrequest rfl
    exact .inr ⟨hq.trans hact, rfl⟩

/-- A status that has been stored as the outcome stays. -/
theorem Orderly.status_step (ho : Orderly c.world) (hd : Reachable pg policy d)
    (hs : Step (server pg policy) d e d') (hb : d'.world.Before c.world)
    (hout : status = "committed" ∨ status = "aborted" ∧ ∀ j, ¬ EndedBy j x "committed" c.world)
    (hx : d.state.db.storedStatus x = some status) :
    d'.state.db.storedStatus x = some status := by
  unfold Db.storedStatus at hx ⊢
  obtain ⟨row, hrow, hst⟩ := Option.map_eq_some_iff.mp hx
  cases hd.stored hs with
  | kept hrows => rw [hrows, hx]
  | inserted _ hrows =>
    have hne : x ≠ d.state.db.transactions.next := Nat.ne_of_lt (Rows.born hrow).2
    rw [hrows, Function.update_of_ne hne, hx]
  | @updated k q conn st y r he hrows =>
    subst he
    rw [hrows, Db.withStatus]
    split
    · rename_i hxy
      subst hxy
      suffices hst' : st = status by simp [hrow, hst']
      obtain ⟨hact, l, hl⟩ := hd.at_action hs
      cases q with
      | commitTransaction z =>
        obtain ⟨rfl, rfl⟩ : st = "committed" ∧ x = z := by
          cases hact
          exact ⟨rfl, rfl⟩
        rcases hout with rfl | ⟨-, hno⟩
        · rfl
        · -- the commit must have ended the transaction before
          obtain ⟨s, q, hm⟩ := mem_actionsOf.mp (commit_stores hl)
          have hended : EndedBy k x "committed" d.world := ⟨s, _, hm, .committed⟩
          exact absurd (hended.mono ((hs.world_eq ▸ World.before_next ..).trans hb)) (hno k)
      | abortTransaction z =>
        obtain ⟨rfl, rfl⟩ : st = "aborted" ∧ x = z := by
          cases hact
          exact ⟨rfl, rfl⟩
        rcases hout with rfl | ⟨rfl, -⟩
        · have hm := (hs.world_eq ▸ hb).mem_past
          exact absurd hx (ho.kept _ _ _ _ _ _ hm)
        · rfl
      | _ => simp [Request.MayAct, Request.MayRun, Sql.storesTransaction, Sql.selects,
          Request.mutates] at hact
    · exact hx

theorem Orderly.status_stays (ho : Orderly c.world) (h : Reachable pg policy c)
    (hout : status = "committed" ∨ status = "aborted" ∧ ∀ j, ¬ EndedBy j x "committed" c.world)
    (hv : v.Before c.world) (hx : v.now.db.storedStatus x = some status) :
    c.state.db.storedStatus x = some status :=
  h.lift (K := fun u v => u.now.db.storedStatus x = some status →
      v.now.db.storedStatus x = some status) (fun _ => id) (fun h h' => h' ∘ h)
    (fun hd hs hb => ho.status_step hd hs hb hout) hv .refl hx

/-- The `UPDATE` of a request that is over has stored its status. -/
theorem Orderly.status_stored (ho : Orderly c.world) (h : Reachable pg policy c)
    (hout : status = "committed" ∨ status = "aborted" ∧ ∀ j, ¬ EndedBy j x "committed" c.world)
    {conn : Conn} {r : PGresult Empty} (hm : (⟨.execParams conn (.updateStatus status x), r⟩ :
      Σ a : Act, a.Result) ∈ actionsOf i c.world) : c.state.db.storedStatus x = some status := by
  obtain ⟨s, q, hm⟩ := mem_actionsOf.mp hm
  obtain ⟨hr, hrow⟩ := ho.stored s i q conn status x r hm
  obtain ⟨d, d', hd, rfl, hs, hb⟩ := h.occurred hm
  obtain ⟨row, hrow⟩ := Option.isSome_iff_exists.mp hrow
  refine ho.status_stays h hout hb ?_
  change d'.state.db.storedStatus x = _
  cases hd.stored hs with
  | kept _ herror => exact absurd (herror _ _ _ _ _ _ rfl) hr
  | inserted he => cases he
  | updated he hrows =>
    cases he
    simp [Db.storedStatus, hrows, Db.withStatus, hrow]

/-- In an orderly run the stored statuses are the outcomes. -/
theorem outcomes_are_final (h : Reachable pg policy c) (ho : Orderly c.world) : Final c := by
  have hconnected : ∀ {i x t status'}, c.thread i = some t → t.request.Ends x status' →
      (⟨.acquire, none⟩ : Σ a : Act, a.Result) ∉ actionsOf i c.world := by
    intro i x t status' ht hq hm
    obtain ⟨s, q, hm⟩ := mem_actionsOf.mp hm
    obtain ⟨t', ht', rfl⟩ := h.traced.request i q _ _ s hm
    cases ht.symm.trans ht'
    exact ho.connected s i t.request x status' hq hm
  have hstored : ∀ i x status t, EndedBy i x status c.world → c.thread i = some t →
      t.code.Finished → c.state.db.storedStatus x = some status := by
    intro i x status t he ht hfin
    have hl := h.traced.leaves i t ht
    rcases ho.ender h he ht with ⟨hq, rfl, hok⟩ | ⟨hq, rfl⟩
    · have hends : t.request.Ends x "committed" := hq ▸ .commit x
      rw [hq] at hl
      rcases commit_finished hl hfin hok with hm | ⟨conn, r, hm⟩
      · exact absurd hm (hconnected ht hends)
      · exact ho.status_stored h (.inl rfl) hm
    · have hends : t.request.Ends x "aborted" := hq ▸ .abort x
      rw [hq] at hl
      rcases abort_finished hl hfin with hm | ⟨conn, r, hm⟩
      · exact absurd hm (hconnected ht hends)
      · refine ho.status_stored h (.inr ⟨rfl, fun j hj => ?_⟩) hm
        have := (h.accounted.ender _ _ _ _ _ he hj).2
        simp at this
  refine ⟨fun i x r hr hok => ?_, fun i x y hr he => hstored i x _ _ he hr trivial, hstored⟩
  have hm := commit_reports (h.traced.leaves i _ hr) hok
  obtain ⟨s, q, hm⟩ := mem_actionsOf.mp hm
  exact hstored i x _ _ ⟨s, _, hm, .committed⟩ hr trivial

/-! Computed runs. -/

/-- Whether one event is orderly. -/
def orderlyAt (s : Server) : ServerEvent → Bool
  | .act _ _ (.commitTransaction x) _ =>
    (s.mvcc.findTransaction x).all fun t => !s.mvcc.expired s.steadyClock t
  | .act _ _ .acquire r => r.isSome
  | .act _ _ (.execParams _ (.updateStatus status x)) r =>
    r.commandOk && (s.db.transactions.row x).isSome &&
      decide (status = "aborted" → s.db.storedStatus x ≠ some "committed")
  | _ => true

theorem orderly_of_check (h : (w.past.all fun p => orderlyAt p.1 p.2) = true) : Orderly w := by
  have hall : ∀ {s e}, (s, e) ∈ w.past → orderlyAt s e = true :=
    fun hm => List.all_eq_true.mp h _ hm
  refine ⟨fun s i q x r hm t ht => ?_, fun s i q x status _ hm => ?_,
    fun s i q conn status x r hm => ?_, fun s i q conn x r hm => ?_⟩
  · simpa [orderlyAt, ht] using hall hm
  · cases hall hm
  · have := hall hm
    simp only [orderlyAt, Bool.and_eq_true] at this
    refine ⟨?_, this.1.2⟩
    rintro rfl
    cases this.1.1
  · have := hall hm
    simp only [orderlyAt, Bool.and_eq_true, decide_eq_true_eq] at this
    simpa using this.2

/-- One transaction is committed and another one aborted. -/
theorem outcomes_are_final_of_two : ∃ c : ServerConfig, Final c ∧
    c.state.db.storedStatus 1 = some "committed" ∧ c.state.db.storedStatus 2 = some "aborted" := by
  obtain ⟨c, h, hp⟩ := @reachable_of_check .plain .flawless
    (serve 0 (.beginTransaction "client" .snapshot) 6 ++
      serve 1 (.beginTransaction "other" .readCommitted) 6 ++
      [.call 2 (.commitTransaction 1), .call 3 (.abortTransaction 2), .step 3 .ok,
        .step 2 (.spurious 1), .step 3 .ok] ++ List.replicate 3 (.step 2 .ok) ++
      List.replicate 2 (.step 3 .ok))
    (fun c => (c.world.past.all fun p => orderlyAt p.1 p.2) &&
      decide (c.state.db.storedStatus 1 = some "committed") &&
      decide (c.state.db.storedStatus 2 = some "aborted")) (by decide +kernel)
  simp only [Bool.and_eq_true, decide_eq_true_eq] at hp
  exact ⟨c, outcomes_are_final h (orderly_of_check hp.1.1), hp.1.2, hp.2⟩

/-- An abort of a transaction whose commit has been acknowledged stores "aborted". -/
theorem committed_outcome_overwritten : ¬ ∀ (pg : Postgres) (policy : Policy) (c : ServerConfig),
    policy.Flawless → Reachable pg policy c → InStep c.world → Final c := by
  intro hall
  obtain ⟨c, h, hp⟩ := @reachable_of_check .plain .flawless
    (serve 0 (.beginTransaction "client" .snapshot) 6 ++
      [.call 1 (.commitTransaction 1), .step 1 (.spurious 0)] ++ List.replicate 3 (.step 1 .ok) ++
      serve 2 (.abortTransaction 1) 4)
    (fun c => ((insertions c.world).all fun p =>
        (drawn p.1 p.2.1).all fun x => decide (p.2.1.now.db.transactions.next = x)) &&
      decide (c.reply 1 = some (.commitTransaction 1, .operation ⟨true, ""⟩)) &&
      decide (c.state.db.storedStatus 1 = some "aborted")) (by decide +kernel)
  simp only [Bool.and_eq_true, decide_eq_true_eq] at hp
  obtain ⟨⟨hin, hr⟩, hst⟩ := hp
  have hfinal := hall _ _ c Policy.flawless_flawless h (inStep_of_check hin)
  have := hfinal.committed 1 1 _ (Config.returned_iff.mpr hr) rfl
  rw [hst] at this
  simp at this

end IceLog
