import Mathlib.Data.List.Basic
import IceLog.Transaction.MvccManager

/-! The operations of the transaction table called one after the other, each at a time of the
steady clock: which transactions a call ends, and what becomes of their pins. -/
namespace IceLog

/-- A call. The exchange of a commit fails spuriously `failures` times. -/
inductive MVCCCall where
  | begin
  | commit (failures txnId : ℕ)
  | abort (txnId : ℕ)
  | cleanup
deriving DecidableEq

inductive MVCCResult where
  | began (txnId readSnapshotId : ℕ)
  | committed (ok : Bool)
  | aborted
  | cleaned (count : ℕ)
deriving DecidableEq

namespace MVCCManager

/-- The constructor. -/
def new (txnTimeout : ℤ) : MVCCManager := { txnTimeout := txnTimeout }

def call (m : MVCCManager) (now : ℕ) : MVCCCall → MVCCResult × MVCCManager
  | .begin =>
    let ((txnId, readSnapshot), m) := m.beginTransaction now
    (.began txnId readSnapshot, m)
  | .commit failures txnId =>
    let (ok, m) := m.commitTransaction failures now txnId
    (.committed ok, m)
  | .abort txnId => (.aborted, m.abortTransaction txnId)
  | .cleanup =>
    let (cleaned, m) := m.cleanupExpiredTransactions now
    (.cleaned cleaned, m)

/-- The manager after a sequence of calls with their times. -/
def after (m : MVCCManager) (cs : List (ℕ × MVCCCall)) : MVCCManager :=
  cs.foldl (fun m c => (m.call c.1 c.2).2) m

/-- Whether the call at the time `now` ends the active transaction `t`. -/
def ends (m : MVCCManager) (now : ℕ) (t : TransactionState) : MVCCCall → Bool
  | .begin => false
  | .commit _ txnId | .abort txnId => t.txnId == txnId
  | .cleanup => m.expired now t

/-- Ids have been drawn, and no two active transactions have the same. -/
structure Sound (m : MVCCManager) : Prop where
  drawn : ∀ t ∈ m.activeTransactions, t.txnId < m.nextTxnId
  nodup : (m.activeTransactions.map TransactionState.txnId).Nodup

/-- The pinned snapshots are those that active transactions read. -/
def PinsActive (m : MVCCManager) : Prop :=
  ∀ s, m.isSnapshotPinned s = true ↔ ∃ t ∈ m.activeTransactions, t.readSnapshotId = s

/-- No transaction that the call ends reads the snapshot of one that stays active. -/
def Unshared (m : MVCCManager) (now : ℕ) (c : MVCCCall) : Prop :=
  ∀ t ∈ m.activeTransactions, m.ends now t c = true →
    ∀ u ∈ m.activeTransactions, m.ends now u c = false → u.readSnapshotId ≠ t.readSnapshotId

variable {m : MVCCManager} {now txnId failures : ℕ} {t u : TransactionState} {c : MVCCCall}

@[simp] theorem mem_eraseTransaction :
    t ∈ m.eraseTransaction txnId ↔ t ∈ m.activeTransactions ∧ t.txnId ≠ txnId := by
  simp [eraseTransaction]

theorem findTransaction_some (h : m.findTransaction txnId = some t) :
    t ∈ m.activeTransactions ∧ t.txnId = txnId :=
  ⟨List.mem_of_find?_eq_some h, by simpa using List.find?_some h⟩

theorem findTransaction_none (h : m.findTransaction txnId = none) :
    ∀ t ∈ m.activeTransactions, t.txnId ≠ txnId := by
  simpa [findTransaction] using h

theorem Sound.distinct (h : m.Sound) (ht : t ∈ m.activeTransactions)
    (hu : u ∈ m.activeTransactions) (hid : t.txnId = u.txnId) : t = u :=
  List.inj_on_of_nodup_map h.nodup ht hu hid

theorem findTransaction_of_mem (hs : m.Sound) (ht : t ∈ m.activeTransactions) :
    m.findTransaction t.txnId = some t := by
  cases h : m.findTransaction t.txnId with
  | none => exact absurd rfl (findTransaction_none h t ht)
  | some u =>
    obtain ⟨hu, hid⟩ := findTransaction_some h
    rw [hs.distinct hu ht hid]

/-- What is left of the table and the pins once the transactions with `p` have ended. -/
structure Ended (p : TransactionState → Prop) (m m' : MVCCManager) : Prop where
  sublist : m'.activeTransactions.Sublist m.activeTransactions
  active : ∀ t, t ∈ m'.activeTransactions ↔ t ∈ m.activeTransactions ∧ ¬ p t
  pinned : ∀ s, s ∈ m'.pinnedSnapshots ↔
    s ∈ m.pinnedSnapshots ∧ ∀ t ∈ m.activeTransactions, p t → t.readSnapshotId ≠ s
  next : m'.nextTxnId = m.nextTxnId

theorem Ended.refl {p : TransactionState → Prop} (h : ∀ t ∈ m.activeTransactions, ¬ p t) :
    Ended p m m where
  sublist := .refl _
  active t := ⟨fun ht => ⟨ht, h t ht⟩, fun ht => ht.1⟩
  pinned _ := ⟨fun hs => ⟨hs, fun t ht hp => absurd hp (h t ht)⟩, fun hs => hs.1⟩
  next := rfl

theorem ended_finish (ht : t ∈ m.activeTransactions) (hs : m.Sound) :
    Ended (fun u => u.txnId = t.txnId) m (m.finish t) where
  sublist := List.filter_sublist
  active u := by simp [finish]
  pinned s := by
    simp only [finish, Finset.mem_erase]
    constructor
    · rintro ⟨hne, hs'⟩
      refine ⟨hs', fun u hu hid => ?_⟩
      rw [hs.distinct hu ht hid]
      exact Ne.symm hne
    · rintro ⟨hs', hne⟩
      exact ⟨Ne.symm (hne t ht rfl), hs'⟩
  next := rfl

theorem ended_abort (hs : m.Sound) :
    Ended (fun u => u.txnId = txnId) m (m.abortTransaction txnId) := by
  unfold abortTransaction
  split
  · rename_i h
    exact .refl (findTransaction_none h)
  · rename_i t h
    obtain ⟨ht, rfl⟩ := findTransaction_some h
    exact ended_finish ht hs

theorem ended_commit (hs : m.Sound) :
    Ended (fun u => u.txnId = txnId) m (m.commitTransaction failures now txnId).2 := by
  unfold commitTransaction
  split
  · rename_i h
    exact .refl (findTransaction_none h)
  · rename_i t h
    obtain ⟨ht, rfl⟩ := findTransaction_some h
    split
    · exact ended_finish ht hs
    · exact ⟨(ended_finish ht hs).sublist, (ended_finish ht hs).active,
        (ended_finish ht hs).pinned, rfl⟩

theorem Sound.ended {p : TransactionState → Prop} {m' : MVCCManager} (hs : m.Sound)
    (h : Ended p m m') : m'.Sound :=
  ⟨fun t ht => h.next ▸ hs.drawn t ((h.active t).mp ht).1,
    (h.sublist.map _).nodup hs.nodup⟩

/-- Several transactions end one after the other. -/
theorem Ended.trans {p p' : TransactionState → Prop} {m' m'' : MVCCManager} (h : Ended p m m')
    (h' : Ended p' m' m'') : Ended (fun t => p t ∨ p' t) m m'' where
  sublist := h'.sublist.trans h.sublist
  active t := by
    rw [h'.active, h.active]
    tauto
  pinned s := by
    rw [h'.pinned, h.pinned]
    constructor
    · rintro ⟨⟨hs, hp⟩, hp'⟩
      refine ⟨hs, fun t ht hor => ?_⟩
      by_cases hpt : p t
      · exact hp t ht hpt
      · exact hp' t ((h.active t).mpr ⟨ht, hpt⟩) (hor.resolve_left hpt)
    · rintro ⟨hs, hor⟩
      exact ⟨⟨hs, fun t ht hpt => hor t ht (.inl hpt)⟩,
        fun t ht hpt => hor t ((h.active t).mp ht).1 (.inr hpt)⟩
  next := h'.next.trans h.next

theorem Ended.congr {p p' : TransactionState → Prop} {m' : MVCCManager} (h : Ended p m m')
    (hp : ∀ t ∈ m.activeTransactions, p t ↔ p' t) : Ended p' m m' where
  sublist := h.sublist
  active t := by
    rw [h.active]
    exact and_congr_right fun ht => not_congr (hp t ht)
  pinned s := by
    rw [h.pinned]
    exact and_congr_right fun _ => forall_congr' fun t => imp_congr_right fun ht =>
      imp_congr_left (hp t ht)
  next := h.next

/-- The loop ends the expired transactions of the list, which are entries of the table or have
been ended already. -/
theorem ended_cleanupLoop (ts : List TransactionState) {m₀ : MVCCManager} (hs : m₀.Sound)
    (hts : ∀ t ∈ ts, t ∈ m₀.activeTransactions) (hnodup : ts.Nodup) {p : TransactionState → Prop}
    (h : Ended p m₀ m) (hp : ∀ t ∈ ts, ¬ p t) (htime : m.txnTimeout = m₀.txnTimeout) (n : ℕ) :
    Ended (fun t => p t ∨ (t ∈ ts ∧ m₀.expired now t = true)) m₀ (cleanupLoop now ts m n).2 := by
  induction ts generalizing m p n with
  | nil => exact h.congr fun t _ => by simp
  | cons t ts ih =>
    obtain ⟨hnotin, hnodup⟩ := List.nodup_cons.mp hnodup
    have hexp : m.expired now t = m₀.expired now t := by simp [expired, htime]
    have ht : t ∈ m₀.activeTransactions := hts t (by simp)
    have hts' : ∀ u ∈ ts, u ∈ m₀.activeTransactions := fun u hu => hts u (by simp [hu])
    rw [cleanupLoop, hexp]
    split
    · rename_i he
      have h₁ := h.trans (ended_finish ((h.active t).mpr ⟨ht, hp t (by simp)⟩) (hs.ended h))
      have h₂ : Ended (fun u => p u ∨ u = t) m₀ (m.finish t) := h₁.congr fun u hu =>
        or_congr_right ⟨hs.distinct hu ht, fun h => h ▸ rfl⟩
      refine (ih hts' hnodup h₂ ?_ htime (n + 1)).congr fun u _ => ?_
      · rintro u hu (hpu | rfl)
        · exact hp u (by simp [hu]) hpu
        · exact hnotin hu
      · simp only [List.mem_cons]
        constructor
        · rintro ((hpu | rfl) | hu)
          · exact .inl hpu
          · exact .inr ⟨.inl rfl, he⟩
          · exact .inr ⟨.inr hu.1, hu.2⟩
        · rintro (hpu | ⟨rfl | hu, hu'⟩)
          · exact .inl (.inl hpu)
          · exact .inl (.inr rfl)
          · exact .inr ⟨hu, hu'⟩
    · rename_i he
      refine (ih hts' hnodup h (fun u hu => hp u (by simp [hu])) htime n).congr fun u _ => ?_
      refine or_congr_right ⟨fun hu => ⟨by simp [hu.1], hu.2⟩, fun hu => ⟨?_, hu.2⟩⟩
      refine (List.mem_cons.mp hu.1).resolve_left ?_
      rintro rfl
      exact he hu.2

theorem ended_cleanup (hs : m.Sound) :
    Ended (fun t => m.expired now t = true) m (m.cleanupExpiredTransactions now).2 := by
  have hloop : Ended (fun t => False ∨ (t ∈ m.activeTransactions ∧ m.expired now t = true)) m
      (m.cleanupExpiredTransactions now).2 :=
    ended_cleanupLoop m.activeTransactions hs (fun _ ht => ht) (.of_map _ hs.nodup)
      (Ended.refl (p := fun _ => False) fun _ _ => id) (fun _ _ => id) rfl 0
  exact hloop.congr fun t ht => by simp [ht]

/-- A call other than `begin` ends what `ends` says. -/
theorem ended_call (hs : m.Sound) (hc : c ≠ .begin) :
    Ended (fun t => m.ends now t c = true) m (m.call now c).2 := by
  cases c with
  | begin => exact absurd rfl hc
  | commit failures txnId => exact (ended_commit hs).congr fun t _ => by simp [ends]
  | abort txnId => exact (ended_abort hs).congr fun t _ => by simp [ends]
  | cleanup => exact ended_cleanup hs

section begins

theorem Sound.eraseTransaction (hs : m.Sound) : m.eraseTransaction m.nextTxnId = m.activeTransactions :=
  List.filter_eq_self.mpr fun t ht => by simpa using (hs.drawn t ht).ne

theorem begin_active (hs : m.Sound) : (m.call now .begin).2.activeTransactions =
    ⟨m.nextTxnId, m.latestCommittedSnapshot, false, now⟩ :: m.activeTransactions :=
  congrArg (_ :: ·) hs.eraseTransaction

theorem begin_pinned : (m.call now .begin).2.pinnedSnapshots =
    insert m.latestCommittedSnapshot m.pinnedSnapshots := rfl

theorem begin_next : (m.call now .begin).2.nextTxnId = m.nextTxnId + 1 := rfl

end begins

theorem sound_new (txnTimeout : ℤ) : (new txnTimeout).Sound := ⟨by simp [new], by simp [new]⟩

theorem Sound.call (hs : m.Sound) : (m.call now c).2.Sound := by
  by_cases hc : c = .begin
  · subst hc
    refine ⟨fun t ht => ?_, ?_⟩
    · rw [begin_active hs] at ht
      rw [begin_next]
      rcases List.mem_cons.mp ht with rfl | ht
      · exact Nat.lt_succ_self _
      · exact (hs.drawn t ht).trans (Nat.lt_succ_self _)
    · rw [begin_active hs, List.map_cons, List.nodup_cons]
      refine ⟨fun h => ?_, hs.nodup⟩
      obtain ⟨t, ht, hid⟩ := List.mem_map.mp h
      exact (hs.drawn t ht).ne hid
  · exact hs.ended (ended_call hs hc)

@[simp] theorem after_nil (m : MVCCManager) : m.after [] = m := rfl

@[simp] theorem after_snoc (m : MVCCManager) (cs : List (ℕ × MVCCCall)) (now : ℕ) (c : MVCCCall) :
    m.after (cs ++ [(now, c)]) = ((m.after cs).call now c).2 := by
  simp [after]

theorem Sound.after (hs : m.Sound) (cs : List (ℕ × MVCCCall)) : (m.after cs).Sound := by
  induction cs generalizing m with
  | nil => exact hs
  | cons c cs ih => exact ih hs.call

/-- A call keeps the pins in step with the table exactly if it ends no transaction whose snapshot
another one still reads. -/
theorem PinsActive.call_iff (hs : m.Sound) (hp : m.PinsActive) :
    (m.call now c).2.PinsActive ↔ m.Unshared now c := by
  simp only [PinsActive, isSnapshotPinned, decide_eq_true_eq] at hp ⊢
  by_cases hc : c = .begin
  · subst hc
    refine ⟨fun _ t _ he => absurd he (by simp [ends]), fun _ s => ?_⟩
    rw [begin_active hs, begin_pinned, Finset.mem_insert, hp]
    simp [eq_comm]
  · have he : Ended (fun t => m.ends now t c = true) m (m.call now c).2 := ended_call hs hc
    constructor
    · intro h t ht hte u hu hue hr
      have hpin := (h u.readSnapshotId).mpr ⟨u, (he.active u).mpr ⟨hu, by simp [hue]⟩, rfl⟩
      exact ((he.pinned _).mp hpin).2 t ht hte hr.symm
    · intro h s
      rw [he.pinned, hp]
      constructor
      · rintro ⟨⟨u, hu, rfl⟩, hne⟩
        exact ⟨u, (he.active u).mpr ⟨hu, fun hue => hne u hu hue rfl⟩, rfl⟩
      · rintro ⟨u, hu, rfl⟩
        obtain ⟨hu, hue⟩ := (he.active u).mp hu
        exact ⟨⟨u, hu, rfl⟩, fun t ht hte hr => h t ht hte u hu (by simpa using hue) hr.symm⟩

/-- The pins track the active transactions throughout a sequence of calls exactly if no call of it
ends a transaction whose snapshot another one still reads. -/
theorem pins_track_active_iff (txnTimeout : ℤ) (cs : List (ℕ × MVCCCall)) :
    (∀ cs', cs' <+: cs → ((new txnTimeout).after cs').PinsActive) ↔
      ∀ cs' now c, cs' ++ [(now, c)] <+: cs → ((new txnTimeout).after cs').Unshared now c := by
  have hs : ∀ cs', ((new txnTimeout).after cs').Sound := fun cs' => (sound_new _).after cs'
  constructor
  · intro h cs' now c hpre
    have h' := h _ hpre
    rw [after_snoc] at h'
    exact (PinsActive.call_iff (hs cs') (h cs' ((List.prefix_append _ _).trans hpre))).mp h'
  · intro h cs'
    induction cs' using List.reverseRecOn with
    | nil => exact fun _ s => by simp [isSnapshotPinned, new]
    | append_singleton cs' c ih =>
      intro hpre
      rw [after_snoc]
      exact (PinsActive.call_iff (hs cs') (ih ((List.prefix_append _ _).trans hpre))).mpr
        (h cs' c.1 c.2 hpre)

/-- Two transactions read the same snapshot; when one is aborted, the pin of the other is gone. -/
theorem pins_lost_when_shared : ¬ ∀ (txnTimeout : ℤ) (cs : List (ℕ × MVCCCall)),
    (cs.map Prod.fst).Pairwise (· ≤ ·) → ((new txnTimeout).after cs).PinsActive := by
  intro h
  have := (h 300 [(0, .begin), (1, .begin), (2, .abort 1)] (by decide) 0).mpr
    ⟨⟨2, 0, false, 1⟩, by decide, rfl⟩
  exact absurd this (by decide)

end MVCCManager
end IceLog
