import Mathlib.Order.Bounds.Defs
import IceLog.Properties.Ancestors

/-! What a listing shows is what the chain of its snapshot has made: the `WHERE` clause of
`query_partitions`, `MVCCManager::is_visible` and `build_snapshot_chain` agree. -/
namespace IceLog

open Interleaved Serial Pointers

variable {pg : Postgres} {policy : Policy} {c : ServerConfig} {db : Db} {text : ℕ → String}
  {id p s n k : ℕ} {x : Snapshot} {t : String} {r : TableRec} {l : List Snapshot}

namespace Db

/-- The snapshots of the table up to `s`, the latest first. -/
def chainAt (text : ℕ → String) (db : Db) (id s : ℕ) : List Snapshot :=
  ((db.tableSnapshots text id).filter fun x => x.snapshotId ≤ s).reverse

theorem mem_chainAt : x ∈ db.chainAt text id s ↔
    x ∈ db.allSnapshots text ∧ x.tableId = id ∧ x.snapshotId ≤ s := by
  simp [chainAt, mem_tableSnapshots, and_assoc]

theorem chainAt_id (h : db.HasSnapshot id n) (hn : n ≤ s) :
    ∃ x ∈ db.chainAt text id s, x.snapshotId = n := by
  obtain ⟨x, hx, rfl⟩ := h
  exact ⟨x.toSnapshot text n, mem_chainAt.mpr ⟨mem_allSnapshots.mpr ⟨n, x, hx, rfl⟩, rfl, hn⟩, rfl⟩

theorem hasSnapshot_of_mem (h : x ∈ db.chainAt text id s) : db.HasSnapshot id x.snapshotId := by
  obtain ⟨hm, hid, -⟩ := mem_chainAt.mp h
  obtain ⟨n, x, hx, rfl⟩ := mem_allSnapshots.mp hm
  exact ⟨x, hx, Nat.cast_injective hid⟩

/-- A line can be cut off. -/
theorem LinkedFrom.upTo (h : LinkedFrom p (l.map link) n)
    (hl : l.Pairwise fun x y => x.snapshotId < y.snapshotId) (s : ℕ) :
    ∃ m, LinkedFrom p ((l.filter fun x => x.snapshotId ≤ s).map link) m := by
  induction l generalizing p with
  | nil => exact ⟨n, h⟩
  | cons a l ih =>
    obtain ⟨ha, hl⟩ := List.pairwise_cons.mp hl
    by_cases has : a.snapshotId ≤ s
    · obtain ⟨m, hm⟩ := ih h.2 hl
      rw [List.filter_cons_of_pos (by simpa using has)]
      exact ⟨m, h.1, hm⟩
    · have hnil : ((a :: l).filter fun x => x.snapshotId ≤ s) = [] := by
        rw [List.filter_eq_nil_iff]
        intro x hx
        rcases List.mem_cons.mp hx with rfl | hx
        · simpa using has
        · have hlt := ha x hx
          simp only [decide_eq_true_eq]
          omega
      rw [hnil]
      exact ⟨p, rfl⟩

/-- The chain from the latest snapshot of the table that is not after `s`. -/
theorem Histories.chainAt_returns (h : db.Histories) (hr : db.tables.row id = some r)
    (text : ℕ → String) (s : ℕ) :
    ∃ n, IsGreatest {m | (m = 0 ∨ db.HasSnapshot id m) ∧ m ≤ s} n ∧
      ChainReturns (db.allSnapshots text) n (db.chainAt text id s) := by
  have hlinked := h.linked id r hr
  have hlinks : (db.tableSnapshots text id).map link = _ := map_link_tableSnapshots
  rw [← hlinks] at hlinked
  have hsorted := tableSnapshots_sorted text db id
  obtain ⟨n, hn⟩ := hlinked.upTo hsorted s
  have hmem : ∀ m, m ∈ (((db.tableSnapshots text id).filter fun x => x.snapshotId ≤ s).map
      link).map Prod.fst ↔ db.HasSnapshot id m ∧ m ≤ s := by
    intro m
    rw [List.map_map, List.mem_map]
    constructor
    · rintro ⟨x, hx, rfl⟩
      have hx : x ∈ db.chainAt text id s := List.mem_reverse.mpr hx
      exact ⟨hasSnapshot_of_mem hx, (mem_chainAt.mp hx).2.2⟩
    · rintro ⟨hm, hms⟩
      obtain ⟨x, hx, rfl⟩ := chainAt_id hm hms
      exact ⟨x, List.mem_reverse.mp hx, rfl⟩
  refine ⟨n, ⟨?_, ?_⟩, chainReturns_iff.mpr (path_of_linkedFrom (if_pos rfl) ?_ hn)⟩
  · rcases hn.end_mem with rfl | hm
    · exact ⟨.inl rfl, Nat.zero_le s⟩
    · obtain ⟨hm, hms⟩ := (hmem n).mp hm
      exact ⟨.inr hm, hms⟩
  · rintro m ⟨rfl | hm, hms⟩
    · exact Nat.zero_le n
    · refine hn.le ?_ ((hmem m).mpr ⟨hm, hms⟩)
      rw [List.map_map]
      exact List.pairwise_map.mpr (hsorted.filter _)
  · intro x hx
    exact h.lookup (List.mem_of_mem_filter hx)

/-- The `WHERE` clause asks for the chain: the commit that inserted the row is in it, and none that
deleted it is. -/
theorem WellFormed.visibleAt_iff (h : db.WellFormed) {row : PartitionRec}
    (hrow : db.partitions.row p = some row) (text : ℕ → String) (s : ℕ) :
    row.visibleAt s = true ↔
      (∃ x ∈ db.chainAt text row.tableId s, x.snapshotId = row.snapshotId) ∧
        ∀ x ∈ db.chainAt text row.tableId s, row.deletedSnapshotId ≠ some x.snapshotId := by
  have htombstone := h.tombstone p row hrow
  have hborn : row.snapshotId ≤ s ↔
      ∃ x ∈ db.chainAt text row.tableId s, x.snapshotId = row.snapshotId := by
    constructor
    · exact chainAt_id (h.stored p row hrow)
    · rintro ⟨x, hx, he⟩
      exact he ▸ (mem_chainAt.mp hx).2.2
  rw [PartitionRec.visibleAt, Bool.and_eq_true, decide_eq_true_eq, hborn]
  refine and_congr_right fun _ => ?_
  cases hd : row.deletedSnapshotId with
  | none =>
    rw [hd] at htombstone
    have hlive : row.isDeleted = false := by simpa using htombstone
    simp [hlive]
  | some m =>
    rw [hd] at htombstone
    have hdeleted : row.isDeleted = true := htombstone.mpr rfl
    simp only [hdeleted, Bool.not_true, Bool.false_or, Option.any_some, decide_eq_true_eq, ne_eq,
      Option.some.injEq]
    constructor
    · rintro hlt x hx rfl
      have hle := (mem_chainAt.mp hx).2.2
      omega
    · intro hno
      by_contra hle
      obtain ⟨x, hx, he⟩ : ∃ x ∈ db.chainAt text row.tableId s, x.snapshotId = m :=
        chainAt_id (h.tombstoned p row m hrow hd).1 (Nat.le_of_not_lt hle)
      exact hno x hx he.symm

end Db

/-- What can be seen of the table `id` at `s` is what `chain` has made. -/
structure SeenAs (db : Db) (all : List Snapshot) (id s : ℕ) (rows : List PartitionRow)
    (chain : List Snapshot) : Prop where
  visible : ∀ x ∈ all, x.tableId = id →
    (MVCCManager.isVisible x.snapshotId s = true ↔ x ∈ chain)
  listed : ∀ row, row ∈ rows ↔ ∃ p part, db.partitions.row p = some part ∧ part.tableId = id ∧
    part.toRow p = row ∧ (∃ x ∈ chain, x.snapshotId = part.snapshotId) ∧
      ∀ x ∈ chain, part.deletedSnapshotId ≠ some x.snapshotId

end IceLog
