import IceLog.Db.Evolution
import Mathlib.Algebra.BigOperators.Group.List.Basic
import Mathlib.Algebra.Ring.Int.Defs
import Mathlib.Data.Nat.Find

/-! The file counts that the snapshots of a table record, added up to some snapshot. -/
namespace IceLog

open Serial

variable {db db' : Db} {id n s : ℕ} {x : SnapshotRec} {v : Slice}

/-- The files that the snapshot has added less those that it has deleted, if it counts up to `s`. -/
def Slice.counted (v : Slice) (s n : ℕ) : Option ℤ :=
  (v.snapshots n).bind fun x =>
    if n ≤ s then some (x.addedFilesCount - x.deletedFilesCount) else none

namespace Db

/-- What the snapshots of the table `id` up to `s` have added less what they have deleted. -/
def netFiles (db : Db) (id s : ℕ) : ℤ :=
  (db.snapshots.select fun n x => if x.tableId == id && decide (n ≤ s) then
    some (x.addedFilesCount - x.deletedFilesCount) else none).sum

theorem counted_slice : (db.snapshots.row n).bind (fun x =>
    if x.tableId == id && decide (n ≤ s) then some (x.addedFilesCount - x.deletedFilesCount)
    else none) = (db.slice id).counted s n := by
  simp only [Slice.counted, slice, Rows.only]
  cases db.snapshots.row n with
  | none => rfl
  | some x => by_cases hx : x.tableId = id <;> simp [hx, Option.filter_some]

theorem netFiles_congr {s' : ℕ}
    (h : ∀ n, (db'.slice id).counted s' n = (db.slice id).counted s n) :
    db'.netFiles id s' = db.netFiles id s := by
  rw [netFiles, netFiles, Rows.select_congr]
  intro n
  rw [counted_slice, counted_slice, h]

theorem netFiles_eq_zero (h : ∀ n x, (db.slice id).snapshots n = some x → s < n) :
    db.netFiles id s = 0 := by
  have hnil : (db.snapshots.select fun n x => if x.tableId == id && decide (n ≤ s) then
      some (x.addedFilesCount - x.deletedFilesCount) else none) = [] := by
    refine List.eq_nil_iff_forall_not_mem.mpr fun b hb => ?_
    obtain ⟨n, x, hx, hb⟩ := Rows.mem_select.mp hb
    split at hb
    · rename_i hc
      simp only [Bool.and_eq_true, beq_iff_eq, decide_eq_true_eq] at hc
      exact absurd (h n x (slice_snapshots.mpr ⟨hx, hc.1⟩)) (Nat.not_lt.mpr hc.2)
    · cases hb
  rw [netFiles, hnil, List.sum_nil]

/-- A new snapshot counts from its own id on. -/
theorem netFiles_snoc (hlt : ∀ k y, (db.slice id).snapshots k = some y → k < n)
    (h : (db'.slice id).snapshots = ((db.slice id).insertSnapshot n x).snapshots) (s : ℕ) :
    db'.netFiles id s =
      db.netFiles id s + if n ≤ s then x.addedFilesCount - x.deletedFilesCount else 0 := by
  have hsnoc := @Rows.select_snoc _ _ db.snapshots db'.snapshots (fun n x =>
    if x.tableId == id && decide (n ≤ s) then some (x.addedFilesCount - x.deletedFilesCount)
    else none) n ?_ ?_
  · have hself : (db'.slice id).counted s n =
        if n ≤ s then some (x.addedFilesCount - x.deletedFilesCount) else none := by
      simp [Slice.counted, h, Slice.insertSnapshot]
    rw [netFiles, hsnoc, counted_slice, hself, List.sum_append, netFiles]
    split <;> simp
  · intro k y b hy hb
    split at hb
    · rename_i hc
      simp only [Bool.and_eq_true, beq_iff_eq] at hc
      exact hlt k y (slice_snapshots.mpr ⟨hy, hc.1⟩)
    · cases hb
  · intro k hk
    rw [counted_slice, counted_slice, Slice.counted, Slice.counted, h]
    simp [Slice.insertSnapshot, hk]

end Db

/-! Between two stored snapshots nothing changes. -/

/-- The last stored snapshot up to `s`. -/
theorem Slice.exists_last (v : Slice) (s : ℕ) : (∀ n x, v.snapshots n = some x → s < n) ∨
      ∃ m y, v.snapshots m = some y ∧ ∀ n x, v.snapshots n = some x → (n ≤ s ↔ n ≤ m) := by
  by_cases hnone : ∀ n x, v.snapshots n = some x → s < n
  · exact .inl hnone
  refine .inr ?_
  simp only [not_forall, not_lt] at hnone
  obtain ⟨k, y, hk, hks⟩ := hnone
  let P : ℕ → Prop := fun m => (v.snapshots m).isSome = true
  have hP : P (Nat.findGreatest P s) := Nat.findGreatest_spec hks (by simp [P, hk])
  obtain ⟨z, hz⟩ := Option.isSome_iff_exists.mp hP
  refine ⟨_, z, hz, fun n x hn => ⟨fun hns => ?_, fun hm => hm.trans (Nat.findGreatest_le s)⟩⟩
  exact Nat.le_findGreatest hns (by simp [P, hn])

theorem Slice.WellFormed.visible_congr {next m s : ℕ} (h : v.WellFormed next)
    (hm : ∀ n x, v.snapshots n = some x → (n ≤ s ↔ n ≤ m)) : v.visible s = v.visible m := by
  funext p
  rw [Slice.visible, Slice.visible]
  cases hp : v.partitions p with
  | none => rfl
  | some x =>
    have hstored : ∀ k, (v.snapshots k).isSome = true → (k ≤ s ↔ k ≤ m) := by
      intro k hk
      obtain ⟨y, hy⟩ := Option.isSome_iff_exists.mp hk
      exact hm k y hy
    have hfrom := hstored _ (h.stored p x hp)
    have hv : x.visibleAt s = x.visibleAt m := by
      simp only [PartitionRec.visibleAt, decide_eq_decide.mpr hfrom]
      cases hd : x.deletedSnapshotId with
      | none => rfl
      | some d =>
        have hto := hstored d (h.tombstoned p x d hp hd).1
        simp only [Option.any_some, ← Nat.not_le, decide_not, decide_eq_decide.mpr hto]
    rw [Option.bind_some, Option.bind_some, hv]

/-- Before the first snapshot nothing is visible. -/
theorem Slice.WellFormed.visible_none {next s : ℕ} (h : v.WellFormed next)
    (hs : ∀ n x, v.snapshots n = some x → s < n) (p : ℕ) : v.visible s p = none := by
  rw [Slice.visible]
  cases hp : v.partitions p with
  | none => rfl
  | some x =>
    obtain ⟨y, hy⟩ := Option.isSome_iff_exists.mp (h.stored p x hp)
    have hlt := hs _ y hy
    simp [PartitionRec.visibleAt, Nat.not_le.mpr hlt]

theorem Slice.counted_congr {m s : ℕ} (hm : ∀ n x, v.snapshots n = some x → (n ≤ s ↔ n ≤ m))
    (n : ℕ) : v.counted s n = v.counted m n := by
  rw [Slice.counted, Slice.counted]
  cases hn : v.snapshots n with
  | none => rfl
  | some x => simp [hm n x hn]

end IceLog
