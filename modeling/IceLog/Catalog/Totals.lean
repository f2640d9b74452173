import IceLog.Catalog.PartitionRegistry
import IceLog.Data.Checked

/-! The loops over the partitions as they are run on `int64_t`, where an overflow has no result. -/
namespace IceLog

def FitsInt64 (n : ℤ) : Prop := -(2 ^ 63) ≤ n ∧ n < 2 ^ 63

instance : DecidablePred FitsInt64 := fun n =>
  inferInstanceAs (Decidable (-(2 ^ 63) ≤ n ∧ n < 2 ^ 63))

/-- The loop of `get_stats` and of `GetTableMetadata`: the rows and the bytes. -/
def addTotals (parts : List PartitionRow) : Option (ℤ × ℤ) :=
  parts.foldlM (fun (totals : ℤ × ℤ) p => do
    let totalRows ← Checked.add FitsInt64 totals.1 p.rowCount
    let totalBytes ← Checked.add FitsInt64 totals.2 p.sizeBytes
    return (totalRows, totalBytes)) (0, 0)

/-- `get_stats` from the loop on. -/
def PartitionRegistry.addStats (parts : List PartitionRow) : Option PartitionStats := do
  let (totalRows, totalBytes) ← addTotals parts
  return {
    totalPartitions := parts.length
    totalRows := totalRows
    totalBytes := totalBytes
    avgSizeBytes := if parts.length > 0 then totalBytes.tdiv parts.length else 0 }

/-- All running sums of the rows and of the bytes are in the range of `int64_t`. -/
def SumsFit (parts : List PartitionRow) : Prop :=
  Checked.Fits FitsInt64 (parts.map PartitionRow.rowCount) ∧
    Checked.Fits FitsInt64 (parts.map PartitionRow.sizeBytes)

instance (parts : List PartitionRow) : Decidable (SumsFit parts) :=
  inferInstanceAs (Decidable (_ ∧ _))

variable {parts : List PartitionRow}

/-- The loop gives the sums unless it overflows on the way. -/
theorem addTotals_eq : addTotals parts = if SumsFit parts then
    some ((parts.map PartitionRow.rowCount).sum, (parts.map PartitionRow.sizeBytes).sum)
    else none := by
  have h0 : FitsInt64 0 := by decide
  rw [addTotals, Checked.foldlM_both, Checked.foldlM_add_zero h0, Checked.foldlM_add_zero h0]
  by_cases hr : Checked.Fits FitsInt64 (parts.map PartitionRow.rowCount)
  · by_cases hb : Checked.Fits FitsInt64 (parts.map PartitionRow.sizeBytes)
    · rw [if_pos hr, if_pos hb, if_pos ⟨hr, hb⟩]
      rfl
    · rw [if_pos hr, if_neg hb, if_neg fun h : SumsFit parts => hb h.2]
      rfl
  · rw [if_neg hr, if_neg fun h : SumsFit parts => hr h.1]
    rfl

/-- The loops answer the exact sums, and `get_stats` the truncated quotient. -/
structure ExactTotals (parts : List PartitionRow) : Prop where
  totals : addTotals parts =
    some ((parts.map PartitionRow.rowCount).sum, (parts.map PartitionRow.sizeBytes).sum)
  stats : PartitionRegistry.addStats parts = some {
    totalPartitions := parts.length
    totalRows := (parts.map PartitionRow.rowCount).sum
    totalBytes := (parts.map PartitionRow.sizeBytes).sum
    avgSizeBytes := if parts.length > 0 then
      (parts.map PartitionRow.sizeBytes).sum.tdiv parts.length else 0 }

theorem exactTotals_iff : ExactTotals parts ↔ SumsFit parts := by
  constructor
  · intro h
    by_contra hno
    have := h.totals
    rw [addTotals_eq, if_neg hno] at this
    cases this
  · intro h
    have ht := @addTotals_eq parts
    rw [if_pos h] at ht
    exact ⟨ht, by rw [PartitionRegistry.addStats, ht]; rfl⟩

theorem PartitionRegistry.sumStats_eq : sumStats parts = {
    totalPartitions := parts.length
    totalRows := (parts.map PartitionRow.rowCount).sum
    totalBytes := (parts.map PartitionRow.sizeBytes).sum
    avgSizeBytes := if parts.length > 0 then
      (parts.map PartitionRow.sizeBytes).sum.tdiv parts.length else 0 } := by
  have hfold : ∀ (stats : PartitionStats), parts.foldl (fun stats p =>
      { stats with
        totalRows := stats.totalRows + p.rowCount
        totalBytes := stats.totalBytes + p.sizeBytes }) stats =
      { stats with
        totalRows := stats.totalRows + (parts.map PartitionRow.rowCount).sum
        totalBytes := stats.totalBytes + (parts.map PartitionRow.sizeBytes).sum } := by
    induction parts with
    | nil => intro stats; simp
    | cons p parts ih =>
      intro stats
      rw [List.foldl_cons, ih]
      simp [add_assoc]
  rw [sumStats, hfold]
  by_cases h : parts = []
  · subst h
    rfl
  · have hpos : 0 < parts.length := List.length_pos_iff.mpr h
    simp [hpos]

/-- What the stats are on integers they are then on `int64_t`. -/
theorem ExactTotals.addStats_eq (h : ExactTotals parts) :
    PartitionRegistry.addStats parts = some (PartitionRegistry.sumStats parts) := by
  rw [h.stats, PartitionRegistry.sumStats_eq]

end IceLog
