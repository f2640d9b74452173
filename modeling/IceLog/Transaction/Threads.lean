import IceLog.Concurrency.Contract
import IceLog.Transaction.Calls

/-! Threads that call the transaction table concurrently. A `begin` takes three steps; a commit
has the mutex from its test to its return, and nothing else writes the counter, so it is one
step. -/
namespace IceLog

open Interleaved

inductive TxnAct where
  | fetchAddTxnId
  | loadSnapshot
  | registerTransaction (txnId readSnapshot : ℕ)
  | commitTransaction (failures txnId : ℕ)
  | abortTransaction (txnId : ℕ)
  | cleanupExpiredTransactions
deriving DecidableEq

abbrev TxnAct.Result : TxnAct → Type
  | fetchAddTxnId | loadSnapshot | cleanupExpiredTransactions => ℕ
  | registerTransaction .. | abortTransaction _ => Unit
  | commitTransaction .. => Bool

structure TxnState where
  mvcc : MVCCManager
  steadyClock : ℕ

namespace TxnState

def perform (s : TxnState) : (a : TxnAct) → a.Result × TxnState
  | .fetchAddTxnId =>
    let (txnId, m) := s.mvcc.fetchAddTxnId
    (txnId, { s with mvcc := m })
  | .loadSnapshot => (s.mvcc.getLatestCommittedSnapshot, s)
  | .registerTransaction txnId readSnapshot =>
    ((), { s with mvcc := s.mvcc.registerTransaction s.steadyClock txnId readSnapshot })
  | .commitTransaction failures txnId =>
    let (ok, m) := s.mvcc.commitTransaction failures s.steadyClock txnId
    (ok, { s with mvcc := m })
  | .abortTransaction txnId => ((), { s with mvcc := s.mvcc.abortTransaction txnId })
  | .cleanupExpiredTransactions =>
    let (cleaned, m) := s.mvcc.cleanupExpiredTransactions s.steadyClock
    (cleaned, { s with mvcc := m })

/-- The clock advances. -/
def Drifts (s s' : TxnState) : Prop :=
  ∃ now, s.steadyClock ≤ now ∧ s' = { s with steadyClock := now }

end TxnState

/-- The code of a call. -/
def MVCCCall.code : MVCCCall → Prog TxnAct TxnAct.Result MVCCResult
  | begin => do
    let txnId ← Prog.perform .fetchAddTxnId
    let readSnapshot ← Prog.perform .loadSnapshot
    let _ ← Prog.perform (.registerTransaction txnId readSnapshot)
    return .began txnId readSnapshot
  | commit failures txnId => do
    let ok ← Prog.perform (.commitTransaction failures txnId)
    return .committed ok
  | abort txnId => do
    let _ ← Prog.perform (.abortTransaction txnId)
    return .aborted
  | cleanup => do
    let cleaned ← Prog.perform .cleanupExpiredTransactions
    return .cleaned cleaned

/-- Any number of threads on one transaction table. -/
def mvccThreads : System TxnAct TxnAct.Result MVCCCall MVCCResult Unit TxnState where
  code := MVCCCall.code
  admits _ := true
  perform _ _ a s := some (s.perform a)
  allows _ _ _ := true
  drifts := TxnState.Drifts

abbrev TxnEvent : Type := Event TxnAct TxnAct.Result MVCCCall

abbrev TxnMoment : Type := Hist TxnAct TxnAct.Result MVCCCall TxnState

namespace MVCCThreads

/-- A commit that succeeds. -/
def succeeds : TxnEvent → Bool
  | .act _ _ (.commitTransaction _ _) ok => ok
  | _ => false

/-- The number of commits that have succeeded. -/
def successes (w : TxnMoment) : ℕ := w.past.countP fun p => succeeds p.2

/-- How long ago `started` is. -/
def age (s : TxnState) (started : ℕ) : ℤ := (s.steadyClock : ℤ) - started

/-- The event ends the transaction `x`, which was registered at the time `started`. -/
def Removes (timeout : ℤ) (x started : ℕ) (s : TxnState) : TxnEvent → Prop
  | .act _ _ (.commitTransaction _ y) _ | .act _ _ (.abortTransaction y) _ => y = x
  | .act _ _ .cleanupExpiredTransactions _ => timeout < age s started
  | _ => False

/-- `begin` registered `x` at the time `started`, and no commit, abort or clean-up has removed it
since. -/
inductive Registered (timeout : ℤ) (x started : ℕ) : TxnMoment → Prop
  | register {v : TxnMoment} {i r : ℕ} {q : MVCCCall} {s : TxnState} : v.now.steadyClock = started →
      Registered timeout x started (v.next (.act i q (.registerTransaction x r) ()) s)
  | keep {v : TxnMoment} {e : TxnEvent} {s : TxnState} : Registered timeout x started v →
      ¬ Removes timeout x started v.now e → Registered timeout x started (v.next e s)

/-- The transaction `x` can be committed. -/
def Open (timeout : ℤ) (x : ℕ) (w : TxnMoment) : Prop :=
  ∃ started, Registered timeout x started w ∧ age w.now started ≤ timeout

/-- Thread `i` has drawn the id `x`. -/
def Drew (i x : ℕ) (w : TxnMoment) : Prop :=
  ∃ s q, (s, (.act i q .fetchAddTxnId x : TxnEvent)) ∈ w.past

/-- Thread `i` has registered the id `x`. -/
def Registrar (i x : ℕ) (w : TxnMoment) : Prop :=
  ∃ s q r, (s, (.act i q (.registerTransaction x r) () : TxnEvent)) ∈ w.past

/-- Thread `i` has committed `x`. -/
def Committer (i x : ℕ) (w : TxnMoment) : Prop :=
  ∃ s q f, (s, (.act i q (.commitTransaction f x) true : TxnEvent)) ∈ w.past

/-- The table, compared with what has happened. -/
structure Ledger (timeout : ℤ) (w : TxnMoment) : Prop where
  sound : w.now.mvcc.Sound
  txnTimeout : w.now.mvcc.txnTimeout = timeout
  latest : w.now.mvcc.latestCommittedSnapshot = successes w
  drawn : ∀ i x, Drew i x w → x < w.now.mvcc.nextTxnId
  drawer : ∀ i j x, Drew i x w → Drew j x w → i = j
  registrar : ∀ i x, Registrar i x w → Drew i x w
  active : ∀ x started, Registered timeout x started w ↔
    ∃ t ∈ w.now.mvcc.activeTransactions, t.txnId = x ∧ t.startedAt = started
  done : ∀ i x, Committer i x w →
    (∃ j, Registrar j x w) ∧ ∀ started, ¬ Registered timeout x started w
  once : ∀ i j x, Committer i x w → Committer j x w → i = j
  commits : ∀ {v : TxnMoment} {i : ℕ} {q : MVCCCall} {f x : ℕ} {b : Bool} {s : TxnState},
    (v.next (.act i q (.commitTransaction f x) b) s).Before w → (b = true ↔ Open timeout x v)

variable {timeout : ℤ} {w v : TxnMoment} {e : TxnEvent} {s : TxnState} {i j x f : ℕ} {q : MVCCCall}
  {a : TxnAct} {r : a.Result} {started : ℕ}

theorem drew_next : Drew i x (w.next e s) ↔ (∃ q, e = .act i q .fetchAddTxnId x) ∨ Drew i x w := by
  constructor
  · rintro ⟨s', q, h⟩
    rcases List.mem_cons.mp h with h | h
    · exact .inl ⟨q, (congrArg Prod.snd h).symm⟩
    · exact .inr ⟨s', q, h⟩
  · rintro (⟨q, rfl⟩ | ⟨s', q, h⟩)
    · exact ⟨_, q, List.mem_cons_self ..⟩
    · exact ⟨s', q, List.mem_cons_of_mem _ h⟩

theorem registrar_next : Registrar i x (w.next e s) ↔
    (∃ q r, e = .act i q (.registerTransaction x r) ()) ∨ Registrar i x w := by
  constructor
  · rintro ⟨s', q, r, h⟩
    rcases List.mem_cons.mp h with h | h
    · exact .inl ⟨q, r, (congrArg Prod.snd h).symm⟩
    · exact .inr ⟨s', q, r, h⟩
  · rintro (⟨q, r, rfl⟩ | ⟨s', q, r, h⟩)
    · exact ⟨_, q, r, List.mem_cons_self ..⟩
    · exact ⟨s', q, r, List.mem_cons_of_mem _ h⟩

theorem committer_next : Committer i x (w.next e s) ↔
    (∃ q f, e = .act i q (.commitTransaction f x) true) ∨ Committer i x w := by
  constructor
  · rintro ⟨s', q, f, h⟩
    rcases List.mem_cons.mp h with h | h
    · exact .inl ⟨q, f, (congrArg Prod.snd h).symm⟩
    · exact .inr ⟨s', q, f, h⟩
  · rintro (⟨q, f, rfl⟩ | ⟨s', q, f, h⟩)
    · exact ⟨_, q, f, List.mem_cons_self ..⟩
    · exact ⟨s', q, f, List.mem_cons_of_mem _ h⟩

/-- What is registered has a registrar. -/
theorem Registered.registrar (h : Registered timeout x started w) : ∃ i, Registrar i x w := by
  induction h with
  | @register v i r q s _ => exact ⟨i, _, q, r, List.mem_cons_self ..⟩
  | keep _ _ ih =>
    obtain ⟨i, hi⟩ := ih
    exact ⟨i, registrar_next.mpr (.inr hi)⟩

theorem registered_next : Registered timeout x started (w.next e s) ↔
    ((∃ i q r, e = .act i q (.registerTransaction x r) ()) ∧ w.now.steadyClock = started) ∨
      (Registered timeout x started w ∧ ¬ Removes timeout x started w.now e) := by
  constructor
  · generalize hu : w.next e s = u
    rintro (⟨hs⟩ | ⟨hr, hn⟩) <;> obtain ⟨rfl, rfl, -⟩ := World.next_inj hu
    · exact .inl ⟨⟨_, _, _, rfl⟩, hs⟩
    · exact .inr ⟨hr, hn⟩
  · rintro (⟨⟨i, q, r, rfl⟩, hs⟩ | ⟨hr, hn⟩)
    · exact .register hs
    · exact .keep hr hn

/-- A step that draws and registers nothing. -/
theorem Ledger.ended {p : TransactionState → Prop} (h : Ledger timeout w)
    (hE : MVCCManager.Ended p w.now.mvcc s.mvcc)
    (hp : ∀ t ∈ w.now.mvcc.activeTransactions,
      (p t ↔ Removes timeout t.txnId t.startedAt w.now e))
    (hdraw : ∀ i q x, e ≠ .act i q .fetchAddTxnId x)
    (hreg : ∀ i q x r, e ≠ .act i q (.registerTransaction x r) ())
    (htime : s.mvcc.txnTimeout = w.now.mvcc.txnTimeout)
    (hlatest : s.mvcc.latestCommittedSnapshot =
      w.now.mvcc.latestCommittedSnapshot + (succeeds e).toNat)
    (hcommit : ∀ i q f x b, e = .act i q (.commitTransaction f x) b →
      (b = true ↔ Open timeout x w)) : Ledger timeout (w.next e s) := by
  have hd : ∀ i x, Drew i x (w.next e s) → Drew i x w := fun i x hd =>
    (drew_next.mp hd).resolve_left fun ⟨q, he⟩ => hdraw i q x he
  have hr : ∀ x started, Registered timeout x started (w.next e s) →
      Registered timeout x started w ∧ ¬ Removes timeout x started w.now e := fun x started hr =>
    (registered_next.mp hr).resolve_left fun ⟨⟨i, q, r, he⟩, _⟩ => hreg i q x r he
  have hopen : ∀ i x, Committer i x (w.next e s) → Open timeout x w ∨ Committer i x w := by
    intro i x hx
    refine (committer_next.mp hx).imp_left ?_
    rintro ⟨q, f, he⟩
    exact (hcommit _ _ _ _ _ he).mp rfl
  have hnot : ∀ i x, Open timeout x w → ¬ Committer i x w := fun i x ⟨started, hs, _⟩ hx =>
    (h.done i x hx).2 started hs
  refine ⟨h.sound.ended hE, htime.trans h.txnTimeout, ?_, ?_, ?_, ?_, ?_, ?_, ?_, ?_⟩
  · rw [World.next_now, hlatest, h.latest, successes, successes, World.next_past, List.countP_cons]
    cases succeeds e <;> rfl
  · exact fun i x hx => (h.drawn i x (hd i x hx)).trans_eq hE.next.symm
  · exact fun i j x hi hj => h.drawer i j x (hd i x hi) (hd j x hj)
  · intro i x hx
    rcases registrar_next.mp hx with ⟨q, r, he⟩ | hx
    · exact absurd he (hreg i q x r)
    · exact drew_next.mpr (.inr (h.registrar i x hx))
  · intro x started
    constructor
    · intro hx
      obtain ⟨hx, hn⟩ := hr x started hx
      obtain ⟨t, ht, rfl, rfl⟩ := (h.active x started).mp hx
      exact ⟨t, (hE.active t).mpr ⟨ht, fun hpt => hn ((hp t ht).mp hpt)⟩, rfl, rfl⟩
    · rintro ⟨t, ht, rfl, rfl⟩
      obtain ⟨ht, hpt⟩ := (hE.active t).mp ht
      exact .keep ((h.active _ _).mpr ⟨t, ht, rfl, rfl⟩) fun hn => hpt ((hp t ht).mpr hn)
  · intro i x hx
    have hrec : ∃ j, Registrar j x w := by
      rcases hopen i x hx with ⟨_, hs, _⟩ | hx
      · exact hs.registrar
      · exact (h.done i x hx).1
    obtain ⟨j, hj⟩ := hrec
    refine ⟨⟨j, registrar_next.mpr (.inr hj)⟩, fun started hst => ?_⟩
    obtain ⟨hst, hn⟩ := hr x started hst
    rcases committer_next.mp hx with ⟨q, f, rfl⟩ | hx
    · exact hn rfl
    · exact (h.done i x hx).2 started hst
  · intro i j x hi hj
    rcases committer_next.mp hi with ⟨q, f, he⟩ | hi'
    · rcases committer_next.mp hj with ⟨q', f', he'⟩ | hj'
      · cases he.symm.trans he'
        rfl
      · exact absurd hj' (hnot j x ((hcommit _ _ _ _ _ he).mp rfl))
    · rcases committer_next.mp hj with ⟨q', f', he'⟩ | hj'
      · exact absurd hi' (hnot i x ((hcommit _ _ _ _ _ he').mp rfl))
      · exact h.once i j x hi' hj'
  · intro v i q f x b s' hb
    rcases World.before_next_iff.mp hb with hb | hb
    · obtain ⟨rfl, rfl, -⟩ := World.next_inj hb
      exact hcommit _ _ _ _ _ rfl
    · exact h.commits hb

/-- What a thread must know before an action. -/
def Needs (i : ℕ) (_ : MVCCCall) (a : TxnAct) (w : TxnMoment) : Prop :=
  match a with
  | .registerTransaction x _ => Drew i x w ∧ ∀ y, ¬ Registrar i y w
  | _ => True

theorem Ledger.open_iff (h : Ledger timeout w) : Open timeout x w ↔
    ∃ t, w.now.mvcc.findTransaction x = some t ∧
      w.now.mvcc.expired w.now.steadyClock t = false := by
  have hexp : ∀ t, w.now.mvcc.expired w.now.steadyClock t = false ↔
      age w.now t.startedAt ≤ timeout := fun t => by
    simp [MVCCManager.expired, age, h.txnTimeout]
  constructor
  · rintro ⟨started, hs, ha⟩
    obtain ⟨t, ht, rfl, rfl⟩ := (h.active x started).mp hs
    exact ⟨t, MVCCManager.findTransaction_of_mem h.sound ht, (hexp t).mpr ha⟩
  · rintro ⟨t, hf, ht⟩
    obtain ⟨hm, rfl⟩ := MVCCManager.findTransaction_some hf
    exact ⟨t.startedAt, (h.active _ _).mpr ⟨t, hm, rfl, rfl⟩, (hexp t).mp ht⟩

theorem Ledger.fetchAdd (h : Ledger timeout w) :
    Ledger timeout (w.next (.act i q .fetchAddTxnId w.now.mvcc.nextTxnId)
      { w.now with mvcc := w.now.mvcc.fetchAddTxnId.2 }) := by
  have hnew : ∀ j x, Drew j x (w.next (.act i q .fetchAddTxnId w.now.mvcc.nextTxnId)
      { w.now with mvcc := w.now.mvcc.fetchAddTxnId.2 }) →
        (j = i ∧ x = w.now.mvcc.nextTxnId) ∨ Drew j x w := by
    intro j x hx
    rcases drew_next.mp hx with ⟨q', he⟩ | hx
    · cases he
      exact .inl ⟨rfl, rfl⟩
    · exact .inr hx
  refine ⟨⟨fun t ht => (h.sound.drawn t ht).trans (Nat.lt_succ_self _), h.sound.nodup⟩,
    h.txnTimeout, ?_, ?_, ?_, ?_, ?_, ?_, ?_, ?_⟩
  · simpa [successes, succeeds] using h.latest
  · intro j x hx
    rcases hnew j x hx with ⟨-, rfl⟩ | hx
    · exact Nat.lt_succ_self _
    · exact (h.drawn j x hx).trans (Nat.lt_succ_self _)
  · intro j k x hj hk
    rcases hnew j x hj with ⟨hj, hx⟩ | hj' <;> rcases hnew k x hk with ⟨hk, hx'⟩ | hk'
    · exact hj.trans hk.symm
    · exact absurd (h.drawn k x hk') (hx ▸ Nat.lt_irrefl _)
    · exact absurd (h.drawn j x hj') (hx' ▸ Nat.lt_irrefl _)
    · exact h.drawer j k x hj' hk'
  · intro j x hx
    rcases registrar_next.mp hx with ⟨_, _, he⟩ | hx
    · cases he
    · exact drew_next.mpr (.inr (h.registrar j x hx))
  · intro x started
    rw [registered_next]
    simpa [Removes, MVCCManager.fetchAddTxnId] using h.active x started
  · intro k x hx
    obtain ⟨⟨j, hj⟩, hn⟩ := h.done k x ((committer_next.mp hx).resolve_left (by simp))
    exact ⟨⟨j, registrar_next.mpr (.inr hj)⟩, fun started hs => hn started
      ((registered_next.mp hs).resolve_left (by simp)).1⟩
  · exact fun j k x hj hk => h.once j k x ((committer_next.mp hj).resolve_left (by simp))
      ((committer_next.mp hk).resolve_left (by simp))
  · intro v j q' f x b s' hb
    rcases World.before_next_iff.mp hb with hb | hb
    · obtain ⟨-, he, -⟩ := World.next_inj hb
      cases he
    · exact h.commits hb

/-- An id is registered once. -/
theorem Ledger.unregistered (h : Ledger timeout w) (hd : Drew i x w)
    (hn : ∀ y, ¬ Registrar i y w) (j : ℕ) : ¬ Registrar j x w := by
  intro hj
  obtain rfl := h.drawer i j x hd (h.registrar j x hj)
  exact hn x hj

theorem Ledger.register {r : ℕ} (h : Ledger timeout w) (hd : Drew i x w)
    (hn : ∀ y, ¬ Registrar i y w) :
    Ledger timeout (w.next (.act i q (.registerTransaction x r) ())
      { w.now with mvcc := w.now.mvcc.registerTransaction w.now.steadyClock x r }) := by
  have hfree := h.unregistered hd hn
  have hmem : ∀ t, t ∈ (w.now.mvcc.registerTransaction w.now.steadyClock x r).activeTransactions ↔
      t = ⟨x, r, false, w.now.steadyClock⟩ ∨
        (t ∈ w.now.mvcc.activeTransactions ∧ t.txnId ≠ x) := by
    simp [MVCCManager.registerTransaction]
  have hno : ∀ started, ¬ Registered timeout x started w := fun started hs => by
    obtain ⟨j, hj⟩ := hs.registrar
    exact hfree j hj
  refine ⟨⟨fun t ht => ?_, ?_⟩, h.txnTimeout, ?_, ?_, ?_, ?_, ?_, ?_, ?_, ?_⟩
  · rcases (hmem t).mp ht with rfl | ⟨ht, -⟩
    · exact h.drawn i x hd
    · exact h.sound.drawn t ht
  · rw [World.next_now]
    refine List.nodup_cons.mpr ⟨fun hx => ?_, (List.filter_sublist.map _).nodup h.sound.nodup⟩
    obtain ⟨t, ht, hid⟩ := List.mem_map.mp hx
    exact (MVCCManager.mem_eraseTransaction.mp ht).2 hid
  · simpa [successes, succeeds] using h.latest
  · intro j y hy
    exact h.drawn j y ((drew_next.mp hy).resolve_left (by simp))
  · intro j k y hj hk
    exact h.drawer j k y ((drew_next.mp hj).resolve_left (by simp))
      ((drew_next.mp hk).resolve_left (by simp))
  · intro j y hy
    refine drew_next.mpr (.inr ?_)
    rcases registrar_next.mp hy with ⟨_, _, he⟩ | hy
    · cases he
      exact hd
    · exact h.registrar j y hy
  · intro y started
    rw [registered_next]
    constructor
    · rintro (⟨⟨_, _, _, he⟩, rfl⟩ | ⟨hy, -⟩)
      · cases he
        exact ⟨_, (hmem _).mpr (.inl rfl), rfl, rfl⟩
      · obtain ⟨t, ht, rfl, rfl⟩ := (h.active y started).mp hy
        refine ⟨t, (hmem t).mpr (.inr ⟨ht, ?_⟩), rfl, rfl⟩
        rintro rfl
        exact hno _ hy
    · rintro ⟨t, ht, rfl, rfl⟩
      rcases (hmem t).mp ht with rfl | ⟨ht, -⟩
      · exact .inl ⟨⟨i, q, r, rfl⟩, rfl⟩
      · exact .inr ⟨(h.active _ _).mpr ⟨t, ht, rfl, rfl⟩, id⟩
  · intro k y hy
    obtain ⟨⟨j, hj⟩, hn'⟩ := h.done k y ((committer_next.mp hy).resolve_left (by simp))
    refine ⟨⟨j, registrar_next.mpr (.inr hj)⟩, fun started hs => ?_⟩
    rcases registered_next.mp hs with ⟨⟨_, _, _, he⟩, -⟩ | ⟨hs, -⟩
    · cases he
      exact hfree j hj
    · exact hn' started hs
  · exact fun j k y hj hk => h.once j k y ((committer_next.mp hj).resolve_left (by simp))
      ((committer_next.mp hk).resolve_left (by simp))
  · intro v j q' f y b s' hb
    rcases World.before_next_iff.mp hb with hb | hb
    · obtain ⟨-, he, -⟩ := World.next_inj hb
      cases he
    · exact h.commits hb

/-- Every action keeps the ledger. -/
theorem Ledger.act (h : Ledger timeout w) (hn : Needs i q a w)
    (hx : mvccThreads.Exec i q a w.now r s) : Ledger timeout (w.next (.act i q a r) s) := by
  obtain ⟨_, -, hx⟩ := hx
  cases a with
  | fetchAddTxnId =>
    cases hx
    exact h.fetchAdd
  | loadSnapshot =>
    cases hx
    exact h.ended (.refl (p := fun _ => False) fun _ _ => id) (fun _ _ => .rfl) (by simp) (by simp)
      rfl rfl (by simp)
  | registerTransaction x r =>
    cases hx
    exact h.register hn.1 hn.2
  | commitTransaction f x =>
    cases hx
    refine h.ended (MVCCManager.ended_commit h.sound) (fun _ _ => eq_comm) (by simp) (by simp)
      (MVCCManager.commitTransaction_txnTimeout ..) (MVCCManager.commitTransaction_latest ..)
      fun j q' f' y b he => ?_
    cases he
    rw [h.open_iff]
    exact MVCCManager.commitTransaction_fst ..
  | abortTransaction x =>
    cases hx
    exact h.ended (MVCCManager.ended_abort h.sound) (fun _ _ => eq_comm) (by simp) (by simp)
      (MVCCManager.abortTransaction_txnTimeout ..) (MVCCManager.abortTransaction_latest ..) (by simp)
  | cleanupExpiredTransactions =>
    cases hx
    refine h.ended (MVCCManager.ended_cleanup h.sound) (fun t _ => ?_) (by simp) (by simp)
      (MVCCManager.cleanup_txnTimeout ..) (MVCCManager.cleanup_latest ..) (by simp)
    simp [MVCCManager.expired, Removes, age, h.txnTimeout]

theorem Ledger.call (h : Ledger timeout w) : Ledger timeout (w.next (.call i q) w.now) :=
  h.ended (.refl (p := fun _ => False) fun _ _ => id) (fun _ _ => .rfl) (by simp) (by simp)
    rfl rfl (by simp)

theorem Ledger.drift (h : Ledger timeout w) (hd : TxnState.Drifts w.now s) :
    Ledger timeout (w.next .drift s) := by
  obtain ⟨now, -, rfl⟩ := hd
  exact h.ended (.refl (p := fun _ => False) fun _ _ => id) (fun _ _ => .rfl) (by simp) (by simp)
    rfl rfl (by simp)

/-- Every step keeps the ledger. -/
def contract (timeout : ℤ) : Contract mvccThreads where
  inv := Ledger timeout
  needs := Needs
  promise w e s := Ledger timeout (w.next e s)
  act := Ledger.act
  call := fun h _ _ => h.call
  drift := Ledger.drift
  keeps := fun _ h => h

/-- What the calls are proved to do. -/
def spec : Contract.Spec MVCCResult TxnAct TxnAct.Result MVCCCall TxnState where
  post i q u x w := match q, x with
    | .begin, .began y r =>
      Drew i y w ∧ ∃ v, u.Before v ∧ v.Before w ∧ v.now.mvcc.latestCommittedSnapshot = r
    | .commit f y, .committed b =>
      ∃ (v : TxnMoment) (s : TxnState), (v.next (.act i (.commit f y) (.commitTransaction f y) b) s).Before w
    | _, _ => True
  exc _ _ _ _ := False

/-- What other threads leave to `i`. -/
structure Relied (i : ℕ) (w w' : TxnMoment) : Prop where
  before : w.Before w'
  drew : ∀ x, Drew i x w → Drew i x w'
  registrar : ∀ x, Registrar i x w' → Registrar i x w

theorem relied (hr : ((contract timeout).theory true i q).rely w v) : Relied i w v := by
  have hr : (contract timeout).Between true i w v := hr
  refine hr.lift _ (fun u => ?_) (fun hu hv => ?_) fun u e s he _ _ => ?_
  · exact ⟨.refl, fun _ => id, fun _ => id⟩
  · exact ⟨hu.before.trans hv.before, fun x => hv.drew x ∘ hu.drew x,
      fun x => hu.registrar x ∘ hv.registrar x⟩
  · refine ⟨World.before_next u e s, fun x hx => drew_next.mpr (.inr hx), fun x hx => ?_⟩
    refine (registrar_next.mp hx).resolve_left ?_
    rintro ⟨q, r, rfl⟩
    exact he rfl

theorem Ledger.rely (h : Ledger timeout w)
    (hr : ((contract timeout).theory true i q).rely w v) : Ledger timeout v := by
  have hr : (contract timeout).Between true i w v := hr
  exact hr.lift (contract timeout) (K := fun u u' => Ledger timeout u → Ledger timeout u')
    (fun _ => id) (fun hu hv => hv ∘ hu) (fun _ _ _ _ _ hp _ => hp) h

theorem fresh_registrar (hf : Fresh i w) (x : ℕ) : ¬ Registrar i x w :=
  fun ⟨_, _, _, h⟩ => hf _ h rfl

theorem safe_begin (h : Ledger timeout w) (hf : ∀ x, ¬ Registrar i x w) :
    Safe ((contract timeout).theory true i .begin) (spec.post i .begin w) (fun _ => False)
      (MVCCCall.code .begin) w := by
  intro v hv
  have hr := relied hv
  refine ⟨⟨h.rely hv, trivial⟩, ?_⟩
  rintro x _ ⟨s, ⟨_, -, hx⟩, hp, rfl⟩
  intro v₁ hv₁
  have hr₁ := relied hv₁
  refine ⟨⟨hp.rely hv₁, trivial⟩, ?_⟩
  rintro r _ ⟨s₁, ⟨_, -, hx₁⟩, hp₁, rfl⟩
  intro v₂ hv₂
  have hr₂ := relied hv₂
  have hd : Drew i x v₁ := hr₁.drew x ⟨_, _, List.mem_cons_self ..⟩
  have hload : v₁.now.mvcc.latestCommittedSnapshot = r := by
    cases hx₁
    rfl
  have hwv₁ : w.Before v₁ := hr.before.trans ((World.before_next ..).trans hr₁.before)
  have hv₁₂ : v₁.Before v₂ := (World.before_next ..).trans hr₂.before
  have hd₂ : Drew i x v₂ := hr₂.drew x (drew_next.mpr (.inr hd))
  refine ⟨⟨hp₁.rely hv₂, hd₂, fun y hy => ?_⟩, ?_⟩
  · have hy := (registrar_next.mp (hr₂.registrar y hy)).resolve_left (by simp)
    have hy := (registrar_next.mp (hr₁.registrar y hy)).resolve_left (by simp)
    exact hf y (hr.registrar y hy)
  · rintro _ _ ⟨s₂, -, -, rfl⟩
    intro v₃ hv₃
    have hr₃ := relied hv₃
    exact ⟨hr₃.drew x (drew_next.mpr (.inr hd₂)), v₁, hwv₁,
      hv₁₂.trans ((World.before_next ..).trans hr₃.before), hload⟩

theorem safe_commit (h : Ledger timeout w) :
    Safe ((contract timeout).theory true i (.commit f x)) (spec.post i (.commit f x) w)
      (fun _ => False) (MVCCCall.code (.commit f x)) w := by
  intro v hv
  refine ⟨⟨h.rely hv, trivial⟩, ?_⟩
  rintro b _ ⟨s, -, -, rfl⟩
  exact fun v₁ hv₁ => ⟨v, s, (relied hv₁).before⟩

theorem verified (timeout : ℤ) : (contract timeout).Verified spec := by
  intro i q w h hf _
  have hc : Ledger timeout (w.next (.call i q) w.now) := Ledger.call h
  cases q with
  | begin =>
    refine safe_begin hc fun x hx => fresh_registrar hf x ?_
    exact (registrar_next.mp hx).resolve_left (by simp)
  | commit f x => exact safe_commit hc
  | abort x | cleanup =>
    refine fun v hv => ⟨⟨hc.rely hv, trivial⟩, ?_⟩
    rintro _ _ ⟨s, -, hp, rfl⟩
    exact fun _ _ => trivial

theorem ledger_initial (timeout : ℤ) (clock : ℕ) :
    Ledger timeout ⟨[], ⟨.new timeout, clock⟩⟩ where
  sound := MVCCManager.sound_new timeout
  txnTimeout := rfl
  latest := rfl
  drawn _ _ := fun ⟨_, _, h⟩ => absurd h (by simp)
  drawer _ _ _ := fun ⟨_, _, h⟩ => absurd h (by simp)
  registrar _ _ := fun ⟨_, _, _, h⟩ => absurd h (by simp)
  active x started := by
    constructor
    · intro h
      obtain ⟨_, _, _, _, h⟩ := h.registrar
      simp at h
    · simp [MVCCManager.new]
  done _ _ := fun ⟨_, _, _, h⟩ => absurd h (by simp)
  once _ _ _ := fun ⟨_, _, _, h⟩ => absurd h (by simp)
  commits h := by
    have := h.length_le
    simp at this

/-- A commit does nothing after its critical section but return. -/
def ReturnsAfter (q : MVCCCall) : (a : TxnAct) → (a.Result → Prog TxnAct TxnAct.Result MVCCResult) → Prop
  | .commitTransaction f x, k => q = .commit f x ∧ ∀ b, k b = .ret (.committed b)
  | _, _ => True

theorem code_returnsAfter (q : MVCCCall) : q.code.All (ReturnsAfter q) := by
  cases q with
  | begin => exact ⟨trivial, fun _ => ⟨trivial, fun _ => ⟨trivial, fun _ => trivial⟩⟩⟩
  | commit f x => exact ⟨⟨rfl, fun _ => rfl⟩, fun _ => trivial⟩
  | abort x | cleanup => exact ⟨trivial, fun _ => trivial⟩

variable {c : Config TxnAct TxnAct.Result MVCCCall MVCCResult TxnState} {b : Bool}

/-- The commits that have happened are those that have returned. -/
theorem commit_returned {s₀ : TxnState} (hr : Run mvccThreads (.initial s₀) c)
    (h : (s, (.act i q (.commitTransaction f x) b : TxnEvent)) ∈ c.world.past) :
    q = .commit f x ∧ c.Returned i (.commit f x) (.committed b) := by
  induction hr with
  | refl => simp [Config.initial] at h
  | @step c' c'' e hr hs ih =>
    rw [hs.world_eq] at h
    rcases List.mem_cons.mp h with h | h
    · obtain ⟨rfl, rfl⟩ := Prod.mk.inj h
      cases hs with
      | @act _ _ _ k _ _ hi hx =>
        have ha := ((code_returnsAfter q).reaches (hr.reaches hi)).1
        obtain ⟨rfl, hk⟩ := ha
        exact ⟨rfl, by simp [Config.Returned, hk]⟩
    · obtain ⟨hq, hret⟩ := ih h
      exact ⟨hq, hs.finished_eq hret trivial⟩

/-- The life cycle of transactions, in every state that any interleaving of the calls reaches. -/
theorem life_cycle (timeout : ℤ) (clock : ℕ)
    (c : Config TxnAct TxnAct.Result MVCCCall MVCCResult TxnState)
    (hr : Run mvccThreads (.initial ⟨.new timeout, clock⟩) c) :
    -- the counter counts the commits that have succeeded
    (c.state.mvcc.getLatestCommittedSnapshot = successes c.world ∧
      ∀ s i q f x b, (s, (.act i q (.commitTransaction f x) b : TxnEvent)) ∈ c.world.past →
        c.Returned i (.commit f x) (.committed b)) ∧
    -- ids are distinct
    (∀ i j x r r', c.Returned i .begin (.began x r) → c.Returned j .begin (.began x r') →
      i = j) ∧
    -- when a commit succeeds
    (∀ i f x b, c.Returned i (.commit f x) (.committed b) →
      ∃ (v : TxnMoment) (s : TxnState),
        (v.next (.act i (.commit f x) (.commitTransaction f x) b) s).Before c.world ∧
          (b = true ↔ Open timeout x v)) ∧
    (∀ i j f f' x, c.Returned i (.commit f x) (.committed true) →
      c.Returned j (.commit f' x) (.committed true) → i = j) ∧
    -- the read snapshot
    (∀ i x r, c.Returned i .begin (.began x r) → ∃ u v : TxnMoment, CalledAt i .begin u ∧
      u.Before v ∧ v.Before c.world ∧ v.now.mvcc.getLatestCommittedSnapshot = r) := by
  have hgood := Contract.good_run (verified timeout)
    (Contract.good_initial (ledger_initial timeout clock)) hr
  have hl : Ledger timeout c.world := hgood.inv
  have hpost : ∀ i q x, c.Returned i q x → ∃ u, u.Before c.world ∧ CalledAt i q u ∧
      spec.post i q u x c.world := by
    intro i q x hx
    obtain ⟨u, hu, hc, -, hs⟩ := hgood.safe i _ hx
    exact ⟨u, hu, hc, hs _ .refl⟩
  have hcommit : ∀ i f x b, c.Returned i (.commit f x) (.committed b) →
      ∃ (v : TxnMoment) (s : TxnState),
        (v.next (.act i (.commit f x) (.commitTransaction f x) b) s).Before c.world ∧
          (b = true ↔ Open timeout x v) := by
    intro i f x b h
    obtain ⟨u, -, -, v, s, hv⟩ := hpost i _ _ h
    exact ⟨v, s, hv, hl.commits hv⟩
  refine ⟨⟨hl.latest, fun s i q f x b h => (commit_returned hr h).2⟩, ?_, hcommit, ?_, ?_⟩
  · intro i j x r r' hi hj
    obtain ⟨u, -, -, hdi, -⟩ := hpost i _ _ hi
    obtain ⟨u', -, -, hdj, -⟩ := hpost j _ _ hj
    exact hl.drawer i j x hdi hdj
  · intro i j f f' x hi hj
    obtain ⟨v, s, hv, -⟩ := hcommit i f x true hi
    obtain ⟨v', s', hv', -⟩ := hcommit j f' x true hj
    exact hl.once i j x ⟨_, _, _, hv.mem_past⟩ ⟨_, _, _, hv'.mem_past⟩
  · intro i x r h
    obtain ⟨u, -, hc, -, v, huv, hv, hlv⟩ := hpost i _ _ h
    exact ⟨u, v, hc, huv, hv, hlv⟩

/-- One transaction is begun and committed, and the commit repeated in vain. -/
theorem life_cycle_repeated : ∃ c, Run mvccThreads (.initial ⟨.new 300, 0⟩) c ∧
    c.Returned 0 .begin (.began 1 0) ∧ c.Returned 1 (.commit 2 1) (.committed true) ∧
    c.Returned 2 (.commit 0 1) (.committed false) ∧
    c.state.mvcc.getLatestCommittedSnapshot = successes c.world := by
  obtain ⟨c, hr, hc⟩ := mvccThreads.run_of_check
    [.call 0 .begin, .step 0 (), .step 0 (), .step 0 (), .call 1 (.commit 2 1), .step 1 (),
      .call 2 (.commit 0 1), .step 2 ()]
    (c := .initial ⟨.new 300, 0⟩) (p := fun c => c.reply 0 == some (.begin, .began 1 0) &&
      c.reply 1 == some (.commit 2 1, .committed true) &&
      c.reply 2 == some (.commit 0 1, .committed false)) (by decide)
  simp only [Bool.and_eq_true, beq_iff_eq, ← Config.returned_iff] at hc
  exact ⟨c, hr, hc.1.1, hc.1.2, hc.2, (life_cycle 300 0 c hr).1.1⟩

end MVCCThreads
end IceLog
