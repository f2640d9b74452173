import Mathlib.Data.Option.Basic
import IceLog.Transaction.Calls

/-! A commit tests the age of its transaction itself, so clients cannot tell when expired
transactions are cleaned up. -/
namespace IceLog.MVCCManager

variable {m m' : MVCCManager} {now now' txnId failures x : ℕ} {t u : TransactionState} {c : MVCCCall}

/-- The active transaction of the id, if it can still be committed. -/
def live (m : MVCCManager) (now txnId : ℕ) : Option TransactionState :=
  (m.findTransaction txnId).filter fun t => !m.expired now t

/-- What a client can tell from now on is the same. -/
structure Alike (now : ℕ) (m m' : MVCCManager) : Prop where
  timeout : m'.txnTimeout = m.txnTimeout
  next : m'.nextTxnId = m.nextTxnId
  latest : m'.latestCommittedSnapshot = m.latestCommittedSnapshot
  live : ∀ x, m'.live now x = m.live now x

/-- What the calls of clients answer. -/
def responses (m : MVCCManager) : List (ℕ × MVCCCall) → List MVCCResult
  | [] => []
  | (now, c) :: cs =>
    let (r, m) := m.call now c
    if c = .cleanup then responses m cs else r :: responses m cs

/-- The sequence without its clean-ups. -/
def clientCalls (cs : List (ℕ × MVCCCall)) : List (ℕ × MVCCCall) := cs.filter fun c => c.2 ≠ .cleanup

theorem Alike.refl (now : ℕ) (m : MVCCManager) : Alike now m m := ⟨rfl, rfl, rfl, fun _ => rfl⟩

theorem Alike.symm (h : Alike now m m') : Alike now m' m :=
  ⟨h.timeout.symm, h.next.symm, h.latest.symm, fun x => (h.live x).symm⟩

theorem Alike.trans {m'' : MVCCManager} (h : Alike now m m') (h' : Alike now m' m'') :
    Alike now m m'' :=
  ⟨h'.timeout.trans h.timeout, h'.next.trans h.next, h'.latest.trans h.latest,
    fun x => (h'.live x).trans (h.live x)⟩

theorem expired_mono (hn : now ≤ now') (h : m.expired now t = true) : m.expired now' t = true := by
  simp only [expired, decide_eq_true_eq] at h ⊢
  omega

/-- What has expired stays expired. -/
theorem live_later (hn : now ≤ now') (m : MVCCManager) (x : ℕ) :
    m.live now' x = (m.live now x).filter fun t => !m.expired now' t := by
  rw [live, live, Option.filter_filter]
  congr 1
  funext t
  cases h : m.expired now t with
  | true => simp [expired_mono hn h]
  | false => simp

theorem Alike.later (h : Alike now m m') (hn : now ≤ now') : Alike now' m m' := by
  refine ⟨h.timeout, h.next, h.latest, fun x => ?_⟩
  rw [live_later hn, live_later hn, h.live]
  simp [expired, h.timeout]

theorem find?_filter_id (l : List TransactionState) (y : ℕ) :
    (l.filter fun t => t.txnId != y).find? (fun t => t.txnId == x) =
      if x = y then none else l.find? fun t => t.txnId == x := by
  rw [List.find?_filter]
  split
  · rename_i h
    subst h
    simp
  · rename_i h
    congr 1
    funext t
    by_cases ht : t.txnId = x <;> simp [ht, h]

@[simp] theorem findTransaction_finish (m : MVCCManager) (t : TransactionState) (x : ℕ) :
    (m.finish t).findTransaction x = if x = t.txnId then none else m.findTransaction x :=
  find?_filter_id ..

theorem findTransaction_register (m : MVCCManager) (now y r x : ℕ) :
    (m.registerTransaction now y r).findTransaction x =
      if x = y then some ⟨y, r, false, now⟩ else m.findTransaction x := by
  simp only [findTransaction, registerTransaction, eraseTransaction, List.find?_cons]
  by_cases h : x = y
  · simp [h]
  · have hy : (y == x) = false := by simpa using Ne.symm h
    simp only [hy]
    rw [find?_filter_id, if_neg h, if_neg h]

theorem live_finish (m : MVCCManager) (t : TransactionState) (now x : ℕ) :
    (m.finish t).live now x = if x = t.txnId then none else m.live now x := by
  rw [live, findTransaction_finish]
  split <;> rfl

theorem live_eq_none_of_expired (h : m.findTransaction x = some t) (he : m.expired now t = true) :
    m.live now x = none := by
  simp [live, h, he]

/-- Ending an expired transaction makes no difference. -/
theorem alike_finish (h : m.findTransaction t.txnId = some t) (he : m.expired now t = true) :
    Alike now m (m.finish t) := by
  refine ⟨rfl, rfl, rfl, fun x => ?_⟩
  rw [live_finish]
  split
  · rename_i hx
    rw [hx, live_eq_none_of_expired h he]
  · rfl

theorem alike_cleanupLoop (ts : List TransactionState) {m₀ : MVCCManager} (hs : m₀.Sound)
    (hts : ∀ t ∈ ts, t ∈ m₀.activeTransactions) (h : Alike now m₀ m) (n : ℕ) :
    Alike now m₀ (cleanupLoop now ts m n).2 := by
  induction ts generalizing m n with
  | nil => exact h
  | cons t ts ih =>
    have hts' : ∀ u ∈ ts, u ∈ m₀.activeTransactions := fun u hu => hts u (by simp [hu])
    rw [cleanupLoop]
    split
    · rename_i he
      refine ih hts' (m := m.finish t) ⟨h.timeout, h.next, h.latest, fun x => ?_⟩ _
      rw [live_finish, h.live]
      split
      · rename_i hx
        have he' : m₀.expired now t = true := by simpa [expired, h.timeout] using he
        rw [hx, live_eq_none_of_expired (findTransaction_of_mem hs (hts t (by simp))) he']
      · rfl
    · exact ih hts' h n

theorem alike_cleanup (hs : m.Sound) : Alike now m (m.call now .cleanup).2 :=
  alike_cleanupLoop _ hs (fun _ ht => ht) (.refl now m) 0

theorem commit_eq (m : MVCCManager) (failures now x : ℕ) :
    m.commitTransaction failures now x = match m.live now x with
      | none => (false, (m.findTransaction x).elim m m.finish)
      | some t => (true, { m with
          latestCommittedSnapshot := m.latestCommittedSnapshot + 1 }.finish t) := by
  unfold commitTransaction live
  cases hf : m.findTransaction x with
  | none => rfl
  | some t =>
    cases he : m.expired now t with
    | true => simp [Option.filter_some, he]
    | false => simp [Option.filter_some, he, casLoop_eq]

/-- The same call has the same effect, as far as clients can tell. -/
theorem Alike.call (h : Alike now m m') (c : MVCCCall) (hc : c ≠ .cleanup) :
    (m'.call now c).1 = (m.call now c).1 ∧ Alike now (m.call now c).2 (m'.call now c).2 := by
  have hdrop : ∀ (m : MVCCManager) x, m.live now x = none →
      Alike now m ((m.findTransaction x).elim m m.finish) := by
    intro m x hx
    cases hf : m.findTransaction x with
    | none => exact .refl now m
    | some t =>
      obtain ⟨-, rfl⟩ := findTransaction_some hf
      refine alike_finish hf ?_
      by_contra he
      simp [MVCCManager.live, hf, he] at hx
  cases c with
  | cleanup => exact absurd rfl hc
  | begin =>
    refine ⟨?_, h.timeout, ?_, h.latest, fun x => ?_⟩
    · show MVCCResult.began _ _ = .began _ _
      congr 1
      · exact h.next
      · exact h.latest
    · show m'.nextTxnId + 1 = m.nextTxnId + 1
      rw [h.next]
    · show ((m'.fetchAddTxnId.2.registerTransaction now m'.nextTxnId
          m'.latestCommittedSnapshot).findTransaction x).filter _ =
        ((m.fetchAddTxnId.2.registerTransaction now m.nextTxnId
          m.latestCommittedSnapshot).findTransaction x).filter _
      rw [findTransaction_register, findTransaction_register, h.next, h.latest]
      split
      · have ht : (m'.call now .begin).2.txnTimeout = (m.call now .begin).2.txnTimeout := h.timeout
        simp [expired, ht]
      · exact h.live x
  | commit failures x =>
    simp only [MVCCManager.call, commit_eq, h.live x, h.latest]
    cases hx : m.live now x with
    | none =>
      exact ⟨rfl, (hdrop m x hx).symm.trans (h.trans (hdrop m' x ((h.live x).trans hx)))⟩
    | some t =>
      refine ⟨rfl, h.timeout, h.next, rfl, fun y => ?_⟩
      have hl : ∀ (m : MVCCManager) n, ({ m with latestCommittedSnapshot := n } : MVCCManager).live
          now y = m.live now y := fun _ _ => rfl
      rw [live_finish, live_finish, hl m, hl m', h.live]
  | abort x =>
    refine ⟨rfl, ?_⟩
    have habort : ∀ (m : MVCCManager) y, (m.abortTransaction x).live now y =
        if y = x then none else m.live now y := by
      intro m y
      unfold abortTransaction
      split
      · rename_i hf
        split
        · rename_i hy
          rw [hy, MVCCManager.live, hf, Option.filter_none]
        · rfl
      · rename_i t hf
        obtain ⟨-, rfl⟩ := findTransaction_some hf
        exact live_finish m t now y
    refine ⟨?_, ?_, ?_, fun y => ?_⟩
    · show (m'.abortTransaction x).txnTimeout = (m.abortTransaction x).txnTimeout
      unfold abortTransaction
      split <;> split <;> exact h.timeout
    · show (m'.abortTransaction x).nextTxnId = (m.abortTransaction x).nextTxnId
      unfold abortTransaction
      split <;> split <;> exact h.next
    · show (m'.abortTransaction x).latestCommittedSnapshot = _
      simpa [MVCCManager.call] using h.latest
    · show (m'.abortTransaction x).live now y = (m.abortTransaction x).live now y
      rw [habort, habort, h.live]

/-- Whether clean-ups happen in between or not, clients are answered the same. -/
theorem Alike.without_cleanup (cs : List (ℕ × MVCCCall)) (hs : m.Sound)
    (hmono : (now :: cs.map Prod.fst).Pairwise (· ≤ ·)) (h : Alike now m m') :
    responses m cs = responses m' (clientCalls cs) ∧
      (m.after cs).latestCommittedSnapshot =
        (m'.after (clientCalls cs)).latestCommittedSnapshot := by
  induction cs generalizing m m' now with
  | nil => exact ⟨rfl, h.latest.symm⟩
  | cons c cs ih =>
    obtain ⟨now', c⟩ := c
    obtain ⟨hle, hmono⟩ := List.pairwise_cons.mp hmono
    have h' := h.later (hle now' (by simp))
    by_cases hc : c = .cleanup
    · subst hc
      have hih := ih hs.call hmono ((alike_cleanup hs).symm.trans h')
      exact ⟨hih.1, hih.2⟩
    · obtain ⟨hr, ha⟩ := h'.call c hc
      obtain ⟨hrs, hl⟩ := ih hs.call hmono ha
      have hcs : clientCalls ((now', c) :: cs) = (now', c) :: clientCalls cs := by
        simp [clientCalls, hc]
      rw [hcs]
      refine ⟨?_, hl⟩
      simp only [responses, if_neg hc, hr]
      rw [hrs]

/-- Two sequences of calls that differ in clean-ups only. -/
theorem cleanup_unobservable (txnTimeout : ℤ) (cs cs' : List (ℕ × MVCCCall))
    (hmono : (cs.map Prod.fst).Pairwise (· ≤ ·)) (hmono' : (cs'.map Prod.fst).Pairwise (· ≤ ·))
    (hsame : clientCalls cs = clientCalls cs') :
    responses (new txnTimeout) cs = responses (new txnTimeout) cs' ∧
      ((new txnTimeout).after cs).getLatestCommittedSnapshot =
        ((new txnTimeout).after cs').getLatestCommittedSnapshot := by
  have hzero : ∀ {l : List (ℕ × MVCCCall)}, (l.map Prod.fst).Pairwise (· ≤ ·) →
      (0 :: l.map Prod.fst).Pairwise (· ≤ ·) := fun h =>
    List.pairwise_cons.mpr ⟨fun _ _ => Nat.zero_le _, h⟩
  obtain ⟨hr, hl⟩ := Alike.without_cleanup cs (sound_new txnTimeout) (hzero hmono) (.refl 0 _)
  obtain ⟨hr', hl'⟩ := Alike.without_cleanup cs' (sound_new txnTimeout) (hzero hmono') (.refl 0 _)
  exact ⟨hr.trans (hsame ▸ hr'.symm), hl.trans (hsame ▸ hl'.symm)⟩

/-- A transaction that has just expired, cleaned up or not before its commit. -/
theorem cleanup_unobservable_of_expired :
    responses (new 5) [(0, .begin), (6, .cleanup), (7, .commit 0 1)] =
        responses (new 5) [(0, .begin), (7, .commit 0 1)] ∧
      ((new 5).after [(0, .begin), (6, .cleanup), (7, .commit 0 1)]).getLatestCommittedSnapshot =
        ((new 5).after [(0, .begin), (7, .commit 0 1)]).getLatestCommittedSnapshot :=
  cleanup_unobservable 5 _ _ (by decide) (by decide) (by decide)

end IceLog.MVCCManager
