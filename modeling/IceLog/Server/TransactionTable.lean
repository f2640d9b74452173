import IceLog.Server.TransactionSteps
import IceLog.Transaction.Cleanup

/-! The transaction table in memory, against what the threads have done. -/
namespace IceLog

open Interleaved

variable {pg : Postgres} {policy : Policy} {c c' : ServerConfig} {e : ServerEvent} {i j x y n : ℕ}
  {q : Request} {a : Act} {r : a.Result} {o : Outcome} {s s' : Server} {u v w : Moment}
  {k : a.Result → Code Reply} {tr : List (Σ a : Act, a.Result)} {p' : Code Reply}

/-- Thread `i` has drawn the transaction id `x`. -/
def Drew (i x : ℕ) (w : Moment) : Prop :=
  (⟨.fetchAddTxnId, x⟩ : Σ a : Act, a.Result) ∈ actionsOf i w

/-- Thread `i` has registered the transaction `x`. -/
def Registrar (i x : ℕ) (w : Moment) : Prop :=
  ∃ n, (⟨.registerTransaction x n, ()⟩ : Σ a : Act, a.Result) ∈ actionsOf i w

/-- The event, in which `i` takes part, ends the transaction `x` that is in the table of `s`: with
the outcome that is to be stored as the status. -/
inductive Ending (i x : ℕ) (s : Server) : String → ServerEvent → Prop
  | committed {q : Request} : Ending i x s "committed" (.act i q (.commitTransaction x) true)
  | expired {q : Request} : (s.mvcc.findTransaction x).isSome →
      Ending i x s "aborted" (.act i q (.commitTransaction x) false)
  | aborted {q : Request} : (s.mvcc.findTransaction x).isSome →
      Ending i x s "aborted" (.act i q (.abortTransaction x) ())

/-- Thread `i` has ended the transaction `x`. -/
def EndedBy (i x : ℕ) (status : String) (w : Moment) : Prop :=
  ∃ s e, (s, e) ∈ w.past ∧ Ending i x s status e

/-- The table, as far as the history tells: ids are drawn and registered once, what is in the
table has been registered, and what has been ended is in it no more. -/
structure Accounted (m : MVCCManager) (w : Moment) : Prop where
  bound : ∀ i x, Drew i x w → x < m.nextTxnId
  drawer : ∀ i j x, Drew i x w → Drew j x w → i = j
  drawn : ∀ i x, Registrar i x w → Drew i x w
  registered : ∀ x, (m.findTransaction x).isSome → ∃ i, Registrar i x w
  ended : ∀ i x status, EndedBy i x status w →
    m.findTransaction x = none ∧ ∃ j, Registrar j x w
  ender : ∀ i j x status status', EndedBy i x status w → EndedBy j x status' w →
    i = j ∧ status = status'

/-- What an event makes of the table. -/
inductive Counted (m : MVCCManager) (e : ServerEvent) : MVCCManager → Prop
  | kept : (∀ i q x, e ≠ .act i q .fetchAddTxnId x) →
      (∀ i q x n r, e ≠ .act i q (.registerTransaction x n) r) →
      (∀ i q x r, e ≠ .act i q (.commitTransaction x) r) →
      (∀ i q x r, e ≠ .act i q (.abortTransaction x) r) → Counted m e m
  | drawn {i : ℕ} {q : Request} : e = .act i q .fetchAddTxnId m.nextTxnId →
      Counted m e m.fetchAddTxnId.2
  | registered {i x n now : ℕ} {q : Request} : e = .act i q (.registerTransaction x n) () →
      Counted m e (m.registerTransaction now x n)
  | committed {i x failures now : ℕ} {q : Request} :
      e = .act i q (.commitTransaction x) (m.commitTransaction failures now x).1 →
      Counted m e (m.commitTransaction failures now x).2
  | aborted {i x : ℕ} {q : Request} : e = .act i q (.abortTransaction x) () →
      Counted m e (m.abortTransaction x)

theorem perform_counted (h : Server.perform pg o i a s = some (r, s')) :
    Counted s.mvcc (.act i q a r) s'.mvcc := by
  cases Server.perform_cases h with
  | fetchAddTxnId => exact .drawn rfl
  | registerTransaction => exact .registered rfl
  | abortTransaction => exact .aborted rfl
  | commitTransaction => exact .committed rfl
  | acquire ha => cases ha <;> exact .kept (by simp) (by simp) (by simp) (by simp)
  | _ => exact .kept (by simp) (by simp) (by simp) (by simp)

theorem counted_of_step (hs : Step (server pg policy) c e c') :
    Counted c.state.mvcc e c'.state.mvcc := by
  cases hs with
  | call => exact .kept (by simp) (by simp) (by simp) (by simp)
  | act hi hx =>
    obtain ⟨o, -, hx⟩ := hx
    exact perform_counted hx
  | drift hd =>
    obtain ⟨_, _, -, -, rfl⟩ := hd
    exact .kept (by simp) (by simp) (by simp) (by simp)

/-! Where in the code of a request an action stands. -/

/-- The actions of a step are those of its request, and the thread has come to them. -/
theorem Reachable.at_action (h : Reachable pg policy c)
    (hs : Step (server pg policy) c (.act i q a r) c') :
    q.MayAct a ∧ ∃ k, q.code.Leaves (actionsOf i c.world) (.act a k) := by
  cases hs with
  | act hi =>
    have hl := h.traced.leaves i _ hi
    exact ⟨((code_acts q).reaches hl.reaches).1, _, hl⟩

section begin
variable {clientId : String} {isolation : IsolationLevel}

/-- The id is registered right after it has been drawn. -/
theorem begin_registers {k : Unit → Code Reply}
    (h : (Request.code (.beginTransaction clientId isolation)).Leaves tr
      (.act (.registerTransaction x n) k)) :
    tr = [⟨.fetchAddTxnId, x⟩, ⟨.loadSnapshot, n⟩] := by
  cases h with
  | cons h =>
  cases h with
  | cons h =>
  cases h with
  | nil => rfl
  | cons h =>
  cases h with
  | @cons _ _ conn _ _ h =>
  cases conn with
  | none => cases h
  | some conn =>
  cases h with
  | cons h =>
  cases h with
  | cons h => cases h

end begin

/-! The table over a whole run. -/

theorem mem_actionsOf_next : (⟨a, r⟩ : Σ a : Act, a.Result) ∈ actionsOf i (w.next e s) ↔
    ⟨a, r⟩ ∈ actionsOf i w ∨ ∃ q, e = .act i q a r := by
  simp only [mem_actionsOf, World.next_past, List.mem_cons, Prod.mk.injEq]
  constructor
  · rintro ⟨s', q, ⟨-, he⟩ | hm⟩
    · exact .inr ⟨q, he.symm⟩
    · exact .inl ⟨s', q, hm⟩
  · rintro (⟨s', q, hm⟩ | ⟨q, rfl⟩)
    · exact ⟨s', q, .inr hm⟩
    · exact ⟨_, q, .inl ⟨rfl, rfl⟩⟩

theorem drew_next : Drew i x (w.next e s) ↔ Drew i x w ∨ ∃ q, e = .act i q .fetchAddTxnId x :=
  mem_actionsOf_next

theorem registrar_next : Registrar i x (w.next e s) ↔
    Registrar i x w ∨ ∃ q n, e = .act i q (.registerTransaction x n) () := by
  simp only [Registrar, mem_actionsOf_next]
  constructor
  · rintro ⟨n, hm | ⟨q, he⟩⟩
    · exact .inl ⟨n, hm⟩
    · exact .inr ⟨q, n, he⟩
  · rintro (⟨n, hm⟩ | ⟨q, n, he⟩)
    · exact ⟨n, .inl hm⟩
    · exact ⟨n, .inr ⟨q, he⟩⟩

theorem endedBy_next {status : String} : EndedBy i x status (w.next e s) ↔
    EndedBy i x status w ∨ Ending i x w.now status e := by
  simp only [EndedBy, World.next_past, List.mem_cons, Prod.mk.injEq]
  constructor
  · rintro ⟨s', e', ⟨rfl, rfl⟩ | hm, he⟩
    · exact .inr he
    · exact .inl ⟨s', e', hm, he⟩
  · rintro (⟨s', e', hm, he⟩ | he)
    · exact ⟨s', e', .inr hm, he⟩
    · exact ⟨_, _, .inl ⟨rfl, rfl⟩, he⟩

/-- What ends a transaction takes it out of the table. -/
structure Removed (m m' : MVCCManager) (x : ℕ) : Prop where
  next : m'.nextTxnId = m.nextTxnId
  gone : m'.findTransaction x = none
  others : ∀ y, y ≠ x → m'.findTransaction y = m.findTransaction y

theorem removed_finish {m m' : MVCCManager} {t : TransactionState} (hn : m'.nextTxnId = m.nextTxnId)
    (ht : m'.activeTransactions = (m.finish t).activeTransactions) : Removed m m' t.txnId := by
  have hf : ∀ y, m'.findTransaction y = (m.finish t).findTransaction y := fun y => by
    rw [MVCCManager.findTransaction, ht]
    rfl
  refine ⟨hn, ?_, fun y hy => ?_⟩
  · simp [hf]
  · simp [hf, hy]

theorem removed_commit (m : MVCCManager) (failures now x : ℕ) :
    Removed m (m.commitTransaction failures now x).2 x := by
  unfold MVCCManager.commitTransaction
  split
  · rename_i hf
    exact ⟨rfl, hf, fun _ _ => rfl⟩
  · rename_i t hf
    obtain ⟨-, rfl⟩ := MVCCManager.findTransaction_some hf
    split <;> exact removed_finish rfl rfl

theorem removed_abort (m : MVCCManager) (x : ℕ) : Removed m (m.abortTransaction x) x := by
  unfold MVCCManager.abortTransaction
  split
  · rename_i hf
    exact ⟨rfl, hf, fun _ _ => rfl⟩
  · rename_i t hf
    obtain ⟨-, rfl⟩ := MVCCManager.findTransaction_some hf
    exact removed_finish rfl rfl

/-- An event that ends transactions other than by removing `x`, or registers nothing. -/
theorem Accounted.removed {m' : MVCCManager} (h : Accounted w.now.mvcc w)
    (hm : Removed w.now.mvcc m' x)
    (hd : ∀ i q y, e ≠ .act i q .fetchAddTxnId y)
    (hg : ∀ i q y n, e ≠ .act i q (.registerTransaction y n) ())
    (he : ∀ i y status, Ending i y w.now status e → y = x ∧ (w.now.mvcc.findTransaction x).isSome)
    (hu : ∀ i j y status status', Ending i y w.now status e → Ending j y w.now status' e →
      i = j ∧ status = status') : Accounted m' (w.next e s) := by
  have hdrew : ∀ i y, Drew i y (w.next e s) ↔ Drew i y w := fun i y =>
    drew_next.trans (or_iff_left fun ⟨q, h⟩ => hd i q y h)
  have hreg : ∀ i y, Registrar i y (w.next e s) ↔ Registrar i y w := fun i y =>
    registrar_next.trans (or_iff_left fun ⟨q, n, h⟩ => hg i q y n h)
  -- what has been ended before is not in the table any more
  have hnew : ∀ i j y status status', EndedBy i y status w → ¬ Ending j y w.now status' e := by
    intro i j y status status' hold hnow
    obtain ⟨rfl, hsome⟩ := he j y status' hnow
    simp [(h.ended i y status hold).1] at hsome
  refine ⟨fun i y hy => ?_, fun i j y hi hj => ?_, fun i y hy => ?_, fun y hy => ?_,
    fun i y status hy => ?_, fun i j y status status' hi hj => ?_⟩
  · rw [hm.next]
    exact h.bound i y ((hdrew i y).mp hy)
  · exact h.drawer i j y ((hdrew i y).mp hi) ((hdrew j y).mp hj)
  · exact (hdrew i y).mpr (h.drawn i y ((hreg i y).mp hy))
  · by_cases hyx : y = x
    · subst hyx
      rw [hm.gone] at hy
      cases hy
    · rw [hm.others y hyx] at hy
      obtain ⟨i, hi⟩ := h.registered y hy
      exact ⟨i, (hreg i y).mpr hi⟩
  · rcases endedBy_next.mp hy with hy | hy
    · obtain ⟨hnone, j, hj⟩ := h.ended i y status hy
      refine ⟨?_, j, (hreg j y).mpr hj⟩
      by_cases hyx : y = x
      · exact hyx ▸ hm.gone
      · exact (hm.others y hyx).trans hnone
    · obtain ⟨rfl, hsome⟩ := he i y status hy
      obtain ⟨j, hj⟩ := h.registered y hsome
      exact ⟨hm.gone, j, (hreg j y).mpr hj⟩
  · rcases endedBy_next.mp hi with hi | hi <;> rcases endedBy_next.mp hj with hj | hj
    · exact h.ender i j y status status' hi hj
    · exact absurd hj (hnew _ _ _ _ _ hi)
    · exact absurd hi (hnew _ _ _ _ _ hj)
    · exact hu i j y status status' hi hj

theorem Accounted.next (h : Accounted w.now.mvcc w) (hc : Counted w.now.mvcc e s.mvcc)
    (hr : ∀ i q x n, e = .act i q (.registerTransaction x n) () →
      Drew i x w ∧ ¬ Registrar i x w) : Accounted s.mvcc (w.next e s) := by
  generalize hm : s.mvcc = m' at hc ⊢
  cases hc with
  | kept hd hg hcom hab =>
    have hnot : ∀ i x status, ¬ Ending i x w.now status e := by
      intro i x status he
      cases he with
      | committed | expired => exact hcom _ _ _ _ rfl
      | aborted => exact hab _ _ _ _ rfl
    -- nothing is removed: take an id that has not been drawn yet
    have hrem : Removed w.now.mvcc w.now.mvcc w.now.mvcc.nextTxnId := by
      refine ⟨rfl, ?_, fun _ _ => rfl⟩
      by_contra hsome
      obtain ⟨i, hi⟩ := h.registered _ (Option.isSome_iff_ne_none.mpr hsome)
      exact absurd (h.bound i _ (h.drawn i _ hi)) (Nat.lt_irrefl _)
    exact h.removed hrem hd (fun i q y n => hg i q y n ()) (fun i y status he => absurd he (hnot _ _ _))
      fun i j y status status' he => absurd he (hnot _ _ _)
  | @drawn k q he =>
    subst he
    have hend : ∀ i x status, EndedBy i x status (w.next (.act k q .fetchAddTxnId
        w.now.mvcc.nextTxnId) s) → EndedBy i x status w := by
      intro i x status hx
      rcases endedBy_next.mp hx with hx | hx
      · exact hx
      · cases hx
    have hreg : ∀ i x, Registrar i x (w.next (.act k q .fetchAddTxnId w.now.mvcc.nextTxnId) s) ↔
        Registrar i x w := by simp [registrar_next]
    refine ⟨fun i x hx => ?_, fun i j x hi hj => ?_, fun i x hx => ?_, fun x hx => ?_,
      fun i x status hx => ?_, fun i j x status status' hi hj =>
        h.ender i j x status status' (hend _ _ _ hi) (hend _ _ _ hj)⟩
    · rcases drew_next.mp hx with hx | ⟨_, he⟩
      · exact Nat.lt_succ_of_lt (h.bound i x hx)
      · cases he
        exact Nat.lt_succ_self _
    · rcases drew_next.mp hi with hi | ⟨_, hi⟩ <;> rcases drew_next.mp hj with hj | ⟨_, hj⟩
      · exact h.drawer i j x hi hj
      · cases hj
        exact absurd (h.bound i _ hi) (Nat.lt_irrefl _)
      · cases hi
        exact absurd (h.bound j _ hj) (Nat.lt_irrefl _)
      · cases hi
        cases hj
        rfl
    · exact drew_next.mpr (.inl (h.drawn i x ((hreg i x).mp hx)))
    · obtain ⟨i, hi⟩ := h.registered x hx
      exact ⟨i, (hreg i x).mpr hi⟩
    · obtain ⟨hnone, j, hj⟩ := h.ended i x status (hend _ _ _ hx)
      exact ⟨hnone, j, (hreg j x).mpr hj⟩
  | @registered k x n now q he =>
    subst he
    obtain ⟨hdrew, hnot⟩ := hr k q x n rfl
    -- only the thread that has drawn the id registers it, and only once
    have hno : ∀ i, ¬ Registrar i x w := fun i hi =>
      hnot (h.drawer _ _ _ (h.drawn i x hi) hdrew ▸ hi)
    have hend : ∀ i y status, EndedBy i y status (w.next (.act k q (.registerTransaction x n) ()) s) →
        EndedBy i y status w := by
      intro i y status hy
      rcases endedBy_next.mp hy with hy | hy
      · exact hy
      · cases hy
    have hd : ∀ i y, Drew i y (w.next (.act k q (.registerTransaction x n) ()) s) ↔ Drew i y w := by
      simp [drew_next]
    refine ⟨fun i y hy => h.bound i y ((hd i y).mp hy), fun i j y hi hj =>
      h.drawer i j y ((hd i y).mp hi) ((hd j y).mp hj), fun i y hy => ?_, fun y hy => ?_,
      fun i y status hy => ?_, fun i j y status status' hi hj =>
        h.ender i j y status status' (hend _ _ _ hi) (hend _ _ _ hj)⟩
    · rcases registrar_next.mp hy with hy | ⟨_, _, he⟩
      · exact (hd i y).mpr (h.drawn i y hy)
      · cases he
        exact (hd _ _).mpr hdrew
    · rw [MVCCManager.findTransaction_register] at hy
      split at hy
      · rename_i hyx
        subst hyx
        exact ⟨k, registrar_next.mpr (.inr ⟨q, n, rfl⟩)⟩
      · obtain ⟨i, hi⟩ := h.registered y hy
        exact ⟨i, registrar_next.mpr (.inl hi)⟩
    · obtain ⟨hnone, j, hj⟩ := h.ended i y status (hend _ _ _ hy)
      refine ⟨?_, j, registrar_next.mpr (.inl hj)⟩
      have hyx : y ≠ x := fun hyx => hno j (hyx ▸ hj)
      rw [MVCCManager.findTransaction_register, if_neg hyx, hnone]
  | @committed k x failures now q he =>
    subst he
    refine h.removed (removed_commit _ _ _ x) (by simp) (by simp) (fun i y status he => ?_)
      fun i j y status status' hi hj => ?_
    · generalize hok : (w.now.mvcc.commitTransaction failures now x).1 = ok at he
      cases he with
      | committed =>
        obtain ⟨t, ht, -⟩ := (MVCCManager.commitTransaction_fst _ _ _ _).mp hok
        exact ⟨rfl, by simp [ht]⟩
      | expired hs => exact ⟨rfl, hs⟩
    · generalize (w.now.mvcc.commitTransaction failures now x).1 = ok at hi hj
      cases hi <;> cases hj <;> exact ⟨rfl, rfl⟩
  | @aborted k x q he =>
    subst he
    refine h.removed (removed_abort _ x) (by simp) (by simp) (fun i y status he => ?_)
      fun i j y status status' hi hj => ?_
    · cases he with
      | aborted hs => exact ⟨rfl, hs⟩
    · cases hi
      cases hj
      exact ⟨rfl, rfl⟩

theorem Reachable.accounted (h : Reachable pg policy c) : Accounted c.state.mvcc c.world := by
  induction h with
  | @start s hs | @restart _ s _ hs =>
    have hno : ∀ i (p : Σ a : Act, a.Result), p ∉ actionsOf i (Config.initial s : ServerConfig).world :=
      fun i p hp => by cases hp
    have hend : ∀ i x status, ¬ EndedBy i x status (Config.initial s : ServerConfig).world := by
      rintro i x status ⟨_, _, hm, -⟩
      cases hm
    refine ⟨fun i x h => absurd h (hno _ _), fun i _ x h => absurd h (hno _ _),
      fun i x ⟨_, h⟩ => absurd h (hno _ _), fun x hx => ?_, fun i x _ h => absurd h (hend _ _ _),
      fun i _ x _ _ h => absurd h (hend _ _ _)⟩
    obtain ⟨timeout, hm⟩ := hs.mvcc
    change (s.mvcc.findTransaction x).isSome at hx
    rw [hm] at hx
    cases hx
  | @step c c' e h hs ih =>
    rw [hs.world_eq]
    refine ih.next (counted_of_step hs) fun i q x n he => ?_
    subst he
    obtain ⟨⟨clientId, isolation, rfl⟩, k, hl⟩ := h.at_action hs
    have htr := begin_registers hl
    refine ⟨by simp [Drew, htr], ?_⟩
    rintro ⟨n', hn⟩
    simp [htr] at hn

end IceLog
