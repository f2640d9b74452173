import IceLog.Server.TransactionTable
import IceLog.Server.TableReads

/-! What requests leave alone: the tables that they do not name, and the counter. -/
namespace IceLog

open Interleaved Serial

variable {pg : Postgres} {policy : Policy} {i j : ℕ} {q : Request} {a : Act} {o : Outcome}
  {s s' : Server} {t : String} {c c' : ServerConfig} {e : ServerEvent}

/-- A lock is taken by asking for it. -/
theorem perform_writer {r : a.Result} (h : Server.perform pg o i a s = some (r, s'))
    (hw : (s'.tableLocks t).writer = some j) :
    (s.tableLocks t).writer = some j ∨ (j = i ∧ a = .lockExclusive t) := by
  have hset : ∀ {u : String} {m : SharedMutex}, ((s.setLock u m).tableLocks t).writer = some j →
      (t = u ∧ m.writer = some j) ∨ (s.tableLocks t).writer = some j := by
    intro u m hm
    by_cases hu : t = u
    · subst hu
      rw [Server.setLock_self] at hm
      exact .inl ⟨rfl, hm⟩
    · rw [Server.setLock_of_ne _ _ hu] at hm
      exact .inr hm
  cases Server.perform_cases h with
  | acquire ha => cases ha <;> exact .inl hw
  | lockShared hm =>
    rcases hset hw with ⟨rfl, hm'⟩ | hw
    · obtain ⟨-, rfl⟩ := Server.lockShared_eq_some hm
      exact .inl hm'
    · exact .inl hw
  | lockExclusive hm =>
    rcases hset hw with ⟨rfl, hm'⟩ | hw
    · obtain ⟨-, -, rfl⟩ := Server.lock_eq_some hm
      exact .inr ⟨(Option.some.inj hm').symm, rfl⟩
    · exact .inl hw
  | unlockShared =>
    rcases hset hw with ⟨rfl, hm'⟩ | hw
    · exact .inl hm'
    · exact .inl hw
  | unlockExclusive =>
    rcases hset hw with ⟨rfl, hm'⟩ | hw
    · cases hm'
    · exact .inl hw
  | _ => exact .inl hw

/-- Who has the lock of a table serves a request that names the table. -/
theorem Reachable.writer_names (h : Reachable pg policy c)
    (hw : (c.state.tableLocks t).writer = some j) :
    ∃ th, c.thread j = some th ∧ t ∈ th.request.tableNames := by
  induction h with
  | @start s hs | @restart _ s _ hs =>
    change (s.tableLocks t).writer = some j at hw
    rw [hs.locks t] at hw
    cases hw
  | @step c c' e h hs ih =>
    have hkeep : (c.state.tableLocks t).writer = some j →
        ∃ th, c'.thread j = some th ∧ t ∈ th.request.tableNames := by
      intro hw
      obtain ⟨th, hj, ht⟩ := ih hw
      obtain ⟨th', hj', hq⟩ := hs.request_eq hj
      exact ⟨th', hj', hq ▸ ht⟩
    cases hs with
    | call => exact hkeep hw
    | @act i q a k r s hi hx =>
      obtain ⟨o, ha, hp⟩ := hx
      rcases perform_writer hp hw with hw | ⟨rfl, rfl⟩
      · exact hkeep hw
      · have hact := (h.at_action (.act hi ⟨o, ha, hp⟩)).1
        exact ⟨_, Config.put_thread_self .., hact.1⟩
    | drift hd =>
      obtain ⟨_, _, -, -, rfl⟩ := hd
      exact hkeep hw

/-- A request leaves the tables alone that it does not name. -/
theorem Reachable.untouched (h : Reachable pg policy c) (hc : policy.Clean)
    (hs : Step (server pg policy) c e c') (hn : ∀ i q a r, e = .act i q a r → t ∉ q.tableNames) :
    Db.SameTable t c.state.db c'.state.db := by
  refine (h.promise hs).untouched hc fun i he hw => ?_
  obtain ⟨th, hi, ht⟩ := h.writer_names hw
  cases hs with
  | call hidle =>
    cases he
    cases hidle.symm.trans hi
  | act hact =>
    cases he
    obtain rfl := Option.some.inj (hact.symm.trans hi)
    exact hn _ _ _ _ rfl ht
  | drift => cases he

/-- Only the commit of a transaction moves the counter. -/
theorem perform_latest_eq {r : a.Result} (ha : ∀ txnId, a ≠ .commitTransaction txnId)
    (h : Server.perform pg o i a s = some (r, s')) :
    s'.mvcc.latestCommittedSnapshot = s.mvcc.latestCommittedSnapshot := by
  cases Server.perform_cases h with
  | commitTransaction => exact absurd rfl (ha _)
  | acquire hacq => cases hacq <;> rfl
  | abortTransaction => simp
  | _ => rfl

/-! From one quiet state to the next. -/

section quiet

/-- What each action of the requests that are called on the way keeps. -/
theorem Quiet.lift (h : Quiet pg c) {K : Server → Server → Prop} {P : Request → Prop}
    (hrefl : ∀ s, K s s) (htrans : ∀ {s s' s''}, K s s' → K s' s'' → K s s'')
    (hdrift : ∀ s s', Server.Drifts s s' → K s s')
    (hstep : ∀ {d d' : ServerConfig} {i q a r}, Reachable pg .flawless d →
      Step (server pg .flawless) d (.act i q a r) d' → P q → K d.state d'.state)
    (hr : Run (server pg .flawless) c c')
    (hP : ∀ i th, c.thread i = none → c'.thread i = some th → P th.request) :
    K c.state c'.state := by
  induction hr with
  | refl => exact hrefl _
  | @step d d' e hr hs ih =>
    have hd : K c.state d.state := by
      refine ih fun i th hi hth => ?_
      obtain ⟨th', hth', hq⟩ := hs.request_eq hth
      exact hq ▸ hP i th' hi hth'
    refine htrans hd ?_
    cases hs with
    | call => exact hrefl _
    | @act i q a k r s hi hx =>
      refine hstep (h.reachable.run hr) (.act hi hx) ?_
      cases hold : c.thread i with
      | none => exact hP i ⟨q, k r⟩ hold (Config.put_thread_self ..)
      | some th =>
        -- a thread that had stopped does not go on
        have hstay := hr.finished_eq hold (h.finished i th hold)
        obtain rfl := Option.some.inj (hi.symm.trans hstay)
        exact absurd (h.finished i _ hold) Prog.finished_act
    | drift hd' => exact hdrift _ _ hd'

/-- A table that no request names on the way stays as it is. -/
theorem Quiet.sameTable (h : Quiet pg c) (hr : Run (server pg .flawless) c c')
    (hn : ∀ i th, c.thread i = none → c'.thread i = some th → t ∉ th.request.tableNames) :
    Db.SameTable t c.state.db c'.state.db := by
  refine h.lift (K := fun s s' => Db.SameTable t s.db s'.db) (P := fun q => t ∉ q.tableNames)
    (fun s => ⟨rfl, fun _ _ _ => rfl⟩) Db.SameTable.trans ?_ ?_ hr hn
  · rintro s s' ⟨_, _, -, -, rfl⟩
    exact ⟨rfl, fun _ _ _ => rfl⟩
  · intro d d' i q a r hd hs hq
    refine hd.untouched Policy.flawless_clean hs fun i' q' a' r' he => ?_
    cases he
    exact hq

/-- Changes of tables do not move the counter. -/
theorem Quiet.latest_eq (h : Quiet pg c) (hr : Run (server pg .flawless) c c')
    (hn : ∀ i th, c.thread i = none → c'.thread i = some th → th.request.mutates = true) :
    c'.state.mvcc.latestCommittedSnapshot = c.state.mvcc.latestCommittedSnapshot := by
  refine h.lift
    (K := fun s s' => s'.mvcc.latestCommittedSnapshot = s.mvcc.latestCommittedSnapshot)
    (P := fun q => q.mutates = true) (fun _ => rfl) (fun h h' => h'.trans h) ?_ ?_ hr hn
  · rintro s s' ⟨_, _, -, -, rfl⟩
    rfl
  · intro d d' i q a r hd hs hq
    have hact := (hd.at_action hs).1
    cases hs with
    | act _ hx =>
      obtain ⟨o, -, hp⟩ := hx
      refine perform_latest_eq (fun txnId ha => ?_) hp
      subst ha
      obtain rfl : q = .commitTransaction txnId := hact
      cases hq

end quiet
end IceLog
