import IceLog.Db.Evolution
import IceLog.Transaction.Snapshot

/-! Where the history of every table is one line, its snapshots are the chain of its current one. -/
namespace IceLog

open Pointers Serial

/-- The row as a snapshot, its timestamp printed by `text`. -/
def SnapshotRec.toSnapshot (text : ℕ → String) (n : ℕ) (x : SnapshotRec) : Snapshot where
  snapshotId := n
  parentSnapshotId := x.parentSnapshotId
  tableId := x.tableId
  operation := x.operation
  addedFilesCount := x.addedFilesCount
  deletedFilesCount := x.deletedFilesCount
  committedAt := text x.committedAt

namespace Db

variable {db : Db} {text : ℕ → String} {id p c n : ℕ} {l l' : List (ℕ × ℕ)} {s : Snapshot}
  {get : ℕ → Option Snapshot}

/-- All rows of `snapshots`, by increasing id. -/
def allSnapshots (text : ℕ → String) (db : Db) : List Snapshot :=
  db.snapshots.select fun n x => some (x.toSnapshot text n)

/-- Those of one table. -/
def tableSnapshots (text : ℕ → String) (db : Db) (id : ℕ) : List Snapshot :=
  db.snapshots.select fun n x => if x.tableId = id then some (x.toSnapshot text n) else none

/-- The histories of all tables are lines, and every snapshot is one of a stored table. -/
structure Histories (db : Db) : Prop where
  linked : db.Linked
  owned : ∀ n x, db.snapshots.row n = some x → (db.tables.row x.tableId).isSome = true

theorem linkedFrom_append :
    LinkedFrom p (l ++ l') c ↔ ∃ m, LinkedFrom p l m ∧ LinkedFrom m l' c := by
  induction l generalizing p with
  | nil =>
    constructor
    · exact fun h => ⟨p, rfl, h⟩
    · rintro ⟨m, rfl, h⟩
      exact h
  | cons a l ih =>
    simp only [List.cons_append, LinkedFrom, ih]
    constructor
    · rintro ⟨ha, m, h, h'⟩
      exact ⟨m, ⟨ha, h⟩, h'⟩
    · rintro ⟨m, ⟨ha, h⟩, h'⟩
      exact ⟨ha, m, h, h'⟩

theorem linkedFrom_concat {a : ℕ × ℕ} :
    LinkedFrom p (l ++ [a]) c ↔ LinkedFrom p l a.2 ∧ a.1 = c := by
  rw [linkedFrom_append]
  constructor
  · rintro ⟨m, h, ha, hc⟩
    rw [ha]
    exact ⟨h, hc⟩
  · rintro ⟨h, hc⟩
    exact ⟨a.2, h, rfl, hc⟩

/-- A line ends where it starts, or in its last element. -/
theorem LinkedFrom.end_mem (h : LinkedFrom p l c) : c = p ∨ c ∈ l.map Prod.fst := by
  induction l generalizing p with
  | nil => exact .inl (Eq.symm h)
  | cons a l ih =>
    rcases ih h.2 with rfl | hm
    · exact .inr List.mem_cons_self
    · exact .inr (List.mem_cons_of_mem _ hm)

theorem LinkedFrom.le (h : LinkedFrom p l c) (hl : (l.map Prod.fst).Pairwise (· < ·))
    (hn : n ∈ l.map Prod.fst) : n ≤ c := by
  induction l using List.reverseRecOn with
  | nil => cases hn
  | append_singleton l a ih =>
    obtain ⟨-, rfl⟩ := linkedFrom_concat.mp h
    rw [List.map_append, List.pairwise_append] at hl
    rw [List.map_append, List.mem_append] at hn
    rcases hn with hn | hn
    · exact (hl.2.2 n hn a.1 (by simp)).le
    · exact (show n = a.1 by simpa using hn).le

/-- The ids of a snapshot and of its parent. -/
def link (s : Snapshot) : ℕ × ℕ := (s.snapshotId, s.parentSnapshotId)

/-- The chain from the end of a line is the line backwards. -/
theorem path_of_linkedFrom {l : List Snapshot} (h0 : get 0 = none)
    (hs : ∀ s ∈ l, get s.snapshotId = some s) (h : LinkedFrom 0 (l.map link) c) :
    Path get Snapshot.parentSnapshotId c l.reverse := by
  induction l using List.reverseRecOn generalizing c with
  | nil =>
    obtain rfl : 0 = c := h
    exact h0
  | append_singleton l s ih =>
    rw [List.map_append, List.map_singleton, linkedFrom_concat] at h
    obtain ⟨h, rfl⟩ := h
    rw [List.reverse_append]
    exact ⟨hs s (by simp), ih (fun s' hs' => hs s' (by simp [hs'])) h⟩

theorem map_link_tableSnapshots : (db.tableSnapshots text id).map link = db.chain id := by
  rw [tableSnapshots, ← List.filterMap_eq_map, Rows.select_filterMap, chain]
  refine Rows.select_congr fun n => ?_
  congr 1
  funext x
  by_cases hx : x.tableId = id <;> simp [hx, link, SnapshotRec.toSnapshot]

theorem mem_allSnapshots :
    s ∈ db.allSnapshots text ↔ ∃ n x, db.snapshots.row n = some x ∧ x.toSnapshot text n = s := by
  simp [allSnapshots, Rows.mem_select]

theorem mem_tableSnapshots :
    s ∈ db.tableSnapshots text id ↔ s ∈ db.allSnapshots text ∧ s.tableId = id := by
  simp only [tableSnapshots, Rows.mem_select, mem_allSnapshots, Option.ite_none_right_eq_some,
    Option.some.injEq]
  constructor
  · rintro ⟨n, x, hx, rfl, rfl⟩
    exact ⟨⟨n, x, hx, rfl⟩, rfl⟩
  · rintro ⟨⟨n, x, hx, rfl⟩, hid⟩
    exact ⟨n, x, hx, Nat.cast_injective hid, rfl⟩

theorem tableSnapshots_sorted (text : ℕ → String) (db : Db) (id : ℕ) :
    (db.tableSnapshots text id).Pairwise fun s s' => s.snapshotId < s'.snapshotId := by
  refine Rows.select_sorted fun n x s hs => ?_
  obtain ⟨-, hs⟩ := Option.ite_none_right_eq_some.mp hs
  cases hs
  rfl

/-- The snapshots of a table up to one of them, and those after it. -/
structure Before (s : Snapshot) (older newer : List Snapshot) : Prop where
  linked : LinkedFrom 0 (older.map link) s.parentSnapshotId
  older : ∀ x ∈ older, x.snapshotId ≤ s.parentSnapshotId
  newer : ∀ x ∈ s :: newer, s.parentSnapshotId < x.snapshotId

theorem Histories.split (h : db.Histories) (hs : s ∈ db.tableSnapshots text id) :
    ∃ older newer, db.tableSnapshots text id = older ++ s :: newer ∧ Before s older newer := by
  obtain ⟨older, newer, he⟩ := List.append_of_mem hs
  have hsorted := tableSnapshots_sorted text db id
  have hlinked : ∃ c, LinkedFrom 0 ((db.tableSnapshots text id).map link) c := by
    obtain ⟨hm, hid⟩ := mem_tableSnapshots.mp hs
    obtain ⟨n, x, hx, rfl⟩ := mem_allSnapshots.mp hm
    obtain rfl : x.tableId = id := Nat.cast_injective hid
    obtain ⟨r, hr⟩ := Option.isSome_iff_exists.mp (h.owned n x hx)
    exact ⟨_, by rw [map_link_tableSnapshots]; exact h.linked _ r hr⟩
  refine ⟨older, newer, he, ?_⟩
  rw [he] at hsorted hlinked
  obtain ⟨c, hlinked⟩ := hlinked
  rw [List.map_append, linkedFrom_append] at hlinked
  obtain ⟨m, hl, hm, -⟩ := hlinked
  obtain rfl : s.parentSnapshotId = m := hm
  obtain ⟨hold, hnew, hacross⟩ := List.pairwise_append.mp hsorted
  have hlt : s.parentSnapshotId < s.snapshotId := by
    rcases hl.end_mem with h0 | hmem
    · rw [h0]
      obtain ⟨n, x, hx, rfl⟩ := mem_allSnapshots.mp (mem_tableSnapshots.mp hs).1
      exact (Rows.born hx).1
    · simp only [List.map_map, List.mem_map] at hmem
      obtain ⟨x, hx, he⟩ := hmem
      rw [← he]
      exact hacross x hx s List.mem_cons_self
  refine ⟨hl, fun x hx => hl.le ?_ ?_, fun x hx => ?_⟩
  · rw [List.map_map]
    exact List.pairwise_map.mpr hold
  · rw [List.map_map]
    exact List.mem_map.mpr ⟨x, hx, rfl⟩
  · rcases List.mem_cons.mp hx with rfl | hx
    · exact hlt
    · exact hlt.trans ((List.pairwise_cons.mp hnew).1 x hx)

theorem Histories.ordered (h : db.Histories) (text : ℕ → String) :
    Ordered (db.allSnapshots text) where
  distinct := by
    refine (List.pairwise_map.mpr ?_ : List.Pairwise (· ≠ ·) _)
    have hsorted : (db.allSnapshots text).Pairwise fun s s' => s.snapshotId < s'.snapshotId := by
      refine Rows.select_sorted fun n x s hs => ?_
      cases hs
      rfl
    exact hsorted.imp fun hlt => hlt.ne
  nonzero s hs := by
    obtain ⟨n, x, hx, rfl⟩ := mem_allSnapshots.mp hs
    exact (Rows.born hx).1.ne'
  parent_lt s hs := by
    obtain ⟨n, x, hx, he⟩ := mem_allSnapshots.mp hs
    have hs : s ∈ db.tableSnapshots text x.tableId := mem_tableSnapshots.mpr ⟨hs, by rw [← he]; rfl⟩
    obtain ⟨_, _, _, hb⟩ := h.split hs
    exact hb.newer s List.mem_cons_self

theorem Histories.lookup (h : db.Histories) (hs : s ∈ db.tableSnapshots text id) :
    lookupSnapshot (db.allSnapshots text) s.snapshotId = some s :=
  (h.ordered text).lookupSnapshot_iff.mpr ⟨(mem_tableSnapshots.mp hs).1, rfl⟩

/-- The chain from the parent of a snapshot has the snapshots of its table up to the parent. -/
theorem Histories.parent_chain (h : db.Histories) (hs : s ∈ db.tableSnapshots text id) :
    ∃ chain, ChainReturns (db.allSnapshots text) s.parentSnapshotId chain ∧
      ∀ x ∈ db.tableSnapshots text id, x ∈ chain ↔ x.snapshotId ≤ s.parentSnapshotId := by
  obtain ⟨older, newer, he, hb⟩ := h.split hs
  refine ⟨older.reverse, chainReturns_iff.mpr (path_of_linkedFrom (if_pos rfl) ?_ hb.linked), ?_⟩
  · intro x hx
    have hx : x ∈ db.tableSnapshots text id := he ▸ List.mem_append_left _ hx
    exact h.lookup hx
  · intro x hx
    rw [List.mem_reverse]
    refine ⟨hb.older x, fun hle => ?_⟩
    rw [he] at hx
    rcases List.mem_append.mp hx with hx | hx
    · exact hx
    · exact absurd (hb.newer x hx) (by omega)

/-- The chain from the current snapshot of a table has all its snapshots, the latest first. -/
theorem Histories.current_chain {r : TableRec} (h : db.Histories) (hr : db.tables.row id = some r) :
    ChainReturns (db.allSnapshots text) r.currentSnapshotId
      (db.tableSnapshots text id).reverse := by
  refine chainReturns_iff.mpr (path_of_linkedFrom (if_pos rfl) (fun _ => h.lookup) ?_)
  rw [map_link_tableSnapshots]
  exact h.linked id r hr

end Db
end IceLog
