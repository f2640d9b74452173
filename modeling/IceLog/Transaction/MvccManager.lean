import Mathlib.Data.Finset.Basic
import Mathlib.Data.Nat.Notation
import Mathlib.Data.Int.Notation

/-! The in-memory transaction table and its snapshot counter. Each definition is one critical
section or one atomic access, so that an interleaving may separate them. -/
namespace IceLog

structure TransactionState where
  txnId : ℕ
  readSnapshotId : ℕ
  isCommitted : Bool
  startedAt : ℕ
deriving DecidableEq

structure MVCCManager where
  nextTxnId : ℕ := 1
  latestCommittedSnapshot : ℕ := 0
  activeTransactions : List TransactionState := []
  pinnedSnapshots : Finset ℕ := ∅
  txnTimeout : ℤ

namespace MVCCManager

/-- `next_txn_id_.fetch_add(1)`. -/
def fetchAddTxnId (m : MVCCManager) : ℕ × MVCCManager :=
  (m.nextTxnId, { m with nextTxnId := m.nextTxnId + 1 })

def getLatestCommittedSnapshot (m : MVCCManager) : ℕ := m.latestCommittedSnapshot

def findTransaction (m : MVCCManager) (txnId : ℕ) : Option TransactionState :=
  m.activeTransactions.find? fun t => t.txnId == txnId

def eraseTransaction (m : MVCCManager) (txnId : ℕ) : List TransactionState :=
  m.activeTransactions.filter fun t => t.txnId != txnId

/-- The critical section of `begin_transaction`. -/
def registerTransaction (m : MVCCManager) (now txnId readSnapshot : ℕ) : MVCCManager :=
  { m with
    activeTransactions := ⟨txnId, readSnapshot, false, now⟩ :: m.eraseTransaction txnId
    pinnedSnapshots := insert readSnapshot m.pinnedSnapshots }

/-- `begin_transaction` without interference between its three steps. -/
def beginTransaction (m : MVCCManager) (now : ℕ) : (ℕ × ℕ) × MVCCManager :=
  let (txnId, m) := m.fetchAddTxnId
  let readSnapshot := m.getLatestCommittedSnapshot
  ((txnId, readSnapshot), m.registerTransaction now txnId readSnapshot)

/-- The compare-and-swap loop of `commit_transaction`, with the number of weak exchanges that
fail spuriously. The caller holds `mutex_`, so a failed exchange reloads the same value. -/
def casLoop (stored : ℕ) : (failures current newSnapshot : ℕ) → ℕ
  | failures, current, newSnapshot =>
    if current < newSnapshot then
      match failures with
      | 0 => newSnapshot
      | n + 1 => casLoop stored n stored (stored + 1)
    else stored

/-- Drop a transaction and the pin of its read snapshot. -/
def finish (m : MVCCManager) (t : TransactionState) : MVCCManager :=
  { m with
    activeTransactions := m.eraseTransaction t.txnId
    pinnedSnapshots := m.pinnedSnapshots.erase t.readSnapshotId }

def expired (m : MVCCManager) (now : ℕ) (t : TransactionState) : Bool :=
  m.txnTimeout < (now : ℤ) - t.startedAt

def commitTransaction (m : MVCCManager) (failures now txnId : ℕ) : Bool × MVCCManager :=
  match m.findTransaction txnId with
  | none => (false, m)
  | some t =>
    if m.expired now t then (false, m.finish t)
    else
      let latest := m.latestCommittedSnapshot
      (true, { m with latestCommittedSnapshot := casLoop latest failures latest (latest + 1) }.finish t)

def abortTransaction (m : MVCCManager) (txnId : ℕ) : MVCCManager :=
  match m.findTransaction txnId with
  | none => m
  | some t => m.finish t

def isVisible (writeSnapshotId readSnapshotId : ℕ) : Bool := writeSnapshotId ≤ readSnapshotId

def validateParentSnapshot (parentSnapshotId currentSnapshotId : ℕ) : Bool :=
  parentSnapshotId == currentSnapshotId

/-- The loop of `cleanup_expired_transactions` over the table. -/
def cleanupLoop (now : ℕ) : List TransactionState → MVCCManager → ℕ → ℕ × MVCCManager
  | [], m, cleaned => (cleaned, m)
  | t :: ts, m, cleaned =>
    if m.expired now t then cleanupLoop now ts (m.finish t) (cleaned + 1)
    else cleanupLoop now ts m cleaned

def cleanupExpiredTransactions (m : MVCCManager) (now : ℕ) : ℕ × MVCCManager :=
  cleanupLoop now m.activeTransactions m 0

def activeTransactionCount (m : MVCCManager) : ℕ := m.activeTransactions.length

def isSnapshotPinned (m : MVCCManager) (snapshotId : ℕ) : Bool := snapshotId ∈ m.pinnedSnapshots

/-- Spurious failures do not change what the loop stores. -/
theorem casLoop_eq (stored failures : ℕ) :
    casLoop stored failures stored (stored + 1) = stored + 1 := by
  induction failures with
  | zero => simp [casLoop]
  | succ n ih =>
    rw [casLoop, if_pos (Nat.lt_succ_self stored)]
    exact ih

@[simp] theorem finish_latest (m : MVCCManager) (t : TransactionState) :
    (m.finish t).latestCommittedSnapshot = m.latestCommittedSnapshot := rfl

@[simp] theorem fetchAddTxnId_latest (m : MVCCManager) :
    m.fetchAddTxnId.2.latestCommittedSnapshot = m.latestCommittedSnapshot := rfl

@[simp] theorem registerTransaction_latest (m : MVCCManager) (now txnId readSnapshot : ℕ) :
    (m.registerTransaction now txnId readSnapshot).latestCommittedSnapshot =
      m.latestCommittedSnapshot := rfl

@[simp] theorem abortTransaction_latest (m : MVCCManager) (txnId : ℕ) :
    (m.abortTransaction txnId).latestCommittedSnapshot = m.latestCommittedSnapshot := by
  unfold abortTransaction
  split <;> rfl

/-- Only a commit that succeeds moves the counter, by one. -/
theorem commitTransaction_latest (m : MVCCManager) (failures now txnId : ℕ) :
    (m.commitTransaction failures now txnId).2.latestCommittedSnapshot =
      m.latestCommittedSnapshot + (m.commitTransaction failures now txnId).1.toNat := by
  unfold commitTransaction
  split
  · rfl
  · split
    · rfl
    · exact casLoop_eq _ _

theorem commitTransaction_fst (m : MVCCManager) (failures now txnId : ℕ) :
    (m.commitTransaction failures now txnId).1 = true ↔
      ∃ t, m.findTransaction txnId = some t ∧ m.expired now t = false := by
  unfold commitTransaction
  cases hf : m.findTransaction txnId with
  | none => simp
  | some t => cases he : m.expired now t <;> simp [he]

theorem cleanupLoop_latest (now : ℕ) (ts : List TransactionState) (m : MVCCManager) (n : ℕ) :
    (cleanupLoop now ts m n).2.latestCommittedSnapshot = m.latestCommittedSnapshot := by
  induction ts generalizing m n with
  | nil => rfl
  | cons t ts ih =>
    rw [cleanupLoop]
    split <;> exact ih ..

theorem cleanupLoop_txnTimeout (now : ℕ) (ts : List TransactionState) (m : MVCCManager) (n : ℕ) :
    (cleanupLoop now ts m n).2.txnTimeout = m.txnTimeout := by
  induction ts generalizing m n with
  | nil => rfl
  | cons t ts ih =>
    rw [cleanupLoop]
    split <;> exact ih ..

@[simp] theorem cleanup_latest (m : MVCCManager) (now : ℕ) :
    (m.cleanupExpiredTransactions now).2.latestCommittedSnapshot = m.latestCommittedSnapshot :=
  cleanupLoop_latest ..

@[simp] theorem cleanup_txnTimeout (m : MVCCManager) (now : ℕ) :
    (m.cleanupExpiredTransactions now).2.txnTimeout = m.txnTimeout :=
  cleanupLoop_txnTimeout ..

@[simp] theorem commitTransaction_txnTimeout (m : MVCCManager) (failures now txnId : ℕ) :
    (m.commitTransaction failures now txnId).2.txnTimeout = m.txnTimeout := by
  unfold commitTransaction
  split
  · rfl
  · split <;> rfl

@[simp] theorem abortTransaction_txnTimeout (m : MVCCManager) (txnId : ℕ) :
    (m.abortTransaction txnId).txnTimeout = m.txnTimeout := by
  unfold abortTransaction
  split <;> rfl

end MVCCManager
end IceLog
