import Mathlib.Logic.Function.Basic
import IceLog.Db.Sql

/-! What the database holds about one table id. The changes of one operation stay within one
table id, so the slices of all others keep; and each statement has a simple effect on the
slice it concerns. -/
namespace IceLog

open Serial

@[ext] structure Slice where
  table : Option TableRec
  history : ℕ → Option HistoryRec
  snapshots : ℕ → Option SnapshotRec
  partitions : ℕ → Option PartitionRec

namespace Slice

variable (v : Slice)

def empty : Slice := ⟨none, fun _ => none, fun _ => none, fun _ => none⟩

def mapTable (f : TableRec → TableRec) : Slice := { v with table := v.table.map f }

def insertHistory (h : ℕ) (r : HistoryRec) : Slice :=
  { v with history := Function.update v.history h (some r) }

def insertSnapshot (n : ℕ) (r : SnapshotRec) : Slice :=
  { v with snapshots := Function.update v.snapshots n (some r) }

def insertPartition (p : ℕ) (r : PartitionRec) : Slice :=
  { v with partitions := Function.update v.partitions p (some r) }

/-- Tombstone the live partitions of the given key. -/
def markDeleted (n : ℕ) (key : String) : Slice :=
  { v with partitions := fun p => (v.partitions p).map fun r =>
      if r.partitionKey == key && !r.isDeleted then r.markDeleted n else r }

def clearPartitions : Slice := { v with partitions := fun _ => none }

def clearSnapshots : Slice := { v with snapshots := fun _ => none }

def clearHistory : Slice := { v with history := fun _ => none }

def clearTable : Slice := { v with table := none }

end Slice

namespace Db

variable (db : Db) (id : ℕ)

def slice : Slice where
  table := db.tables.row id
  history := db.history.only fun _ r => r.tableId == id
  snapshots := db.snapshots.only fun _ r => r.tableId == id
  partitions := db.partitions.only fun _ r => r.of id

/-- The changes are to rows of the table `id` and leave them to it. -/
structure Within (p : Changes) : Prop where
  tables : db.tables.Local (fun k _ => k == id) p.tables
  history : db.history.Local (fun _ r => r.tableId == id) p.history
  snapshots : db.snapshots.Local (fun _ r => r.tableId == id) p.snapshots
  partitions : db.partitions.Local (fun _ r => r.of id) p.partitions
  transactions : p.transactions = Patch.none

/-- No row but that of `id` has the name. -/
def NameOf (name : String) : Prop :=
  ∀ k r, db.tables.row k = some r → r.tableName = name → k = id

section slices
variable {db} {id} {p q : Changes} {id' : ℕ}

theorem slice_snapshots {n : ℕ} {x : SnapshotRec} :
    (db.slice id).snapshots n = some x ↔ db.snapshots.row n = some x ∧ x.tableId = id := by
  simp [slice, Rows.only_eq_some]

theorem slice_history {k : ℕ} {x : HistoryRec} :
    (db.slice id).history k = some x ↔ db.history.row k = some x ∧ x.tableId = id := by
  simp [slice, Rows.only_eq_some]

theorem slice_partitions {n : ℕ} {x : PartitionRec} :
    (db.slice id).partitions n = some x ↔ db.partitions.row n = some x ∧ x.tableId = id := by
  simp [slice, Rows.only_eq_some, PartitionRec.of]

theorem slice_congr {db' : Db} (ht : db'.tables.row id = db.tables.row id)
    (hh : db'.history.row = db.history.row) (hs : db'.snapshots.row = db.snapshots.row)
    (hp : db'.partitions.row = db.partitions.row) : db'.slice id = db.slice id := by
  ext1
  · exact ht
  · funext k; simp [slice, Rows.only, hh]
  · funext k; simp [slice, Rows.only, hs]
  · funext k; simp [slice, Rows.only, hp]

theorem within_none : db.Within id {} :=
  ⟨Rows.local_none, Rows.local_none, Rows.local_none, Rows.local_none, rfl⟩

theorem Within.andThen (hp : db.Within id p) (hq : (db.apply p).Within id q) :
    db.Within id (p.andThen q) where
  tables := hp.tables.andThen hq.tables
  history := hp.history.andThen hq.history
  snapshots := hp.snapshots.andThen hq.snapshots
  partitions := hp.partitions.andThen hq.partitions
  transactions := by simp [Changes.andThen, hp.transactions, hq.transactions]

theorem only_key (t : Rows TableRec) : t.only (fun k _ => k == id) id = t.row id := by
  simp only [Rows.only]
  cases t.row id <;> simp

theorem Within.slice_of_ne (h : db.Within id p) (hne : id' ≠ id) :
    (db.apply p).slice id' = db.slice id' := by
  have hof : ∀ {a : ℕ}, (a == id) = true → (a == id') = false := by
    intro a ha
    obtain rfl := beq_iff_eq.mp ha
    simpa using Ne.symm hne
  ext1
  · show (db.tables.apply p.tables).row id' = db.tables.row id'
    cases hp : p.tables id' with
    | none => exact Rows.apply_row_of_none hp
    | some o =>
      have hl := h.tables id' o hp
      have hold : db.tables.row id' = none := by
        by_contra hr
        obtain ⟨r, hr⟩ := Option.ne_none_iff_exists'.mp hr
        exact hne (by simpa using hl.1 r hr)
      rw [hold]
      by_contra hr
      obtain ⟨r, hr⟩ := Option.ne_none_iff_exists'.mp hr
      rcases Rows.apply_row_eq_some hr with h' | ⟨h', -⟩
      · exact hne (by simpa using hl.2 r (by simpa [hp] using h'))
      · simp [hp] at h'
  · exact Rows.only_apply_of_disjoint h.history fun _ _ => hof
  · exact Rows.only_apply_of_disjoint h.snapshots fun _ _ => hof
  · exact Rows.only_apply_of_disjoint h.partitions fun _ _ => hof

end slices

/-! The statements of a transaction. -/

section statements
variable {db} {id} {pg : Postgres} {now : ℕ} {p : Changes}

@[simp] theorem slice_draw (q : Sql) (db : Db) (id : ℕ) : (q.draw db).slice id = db.slice id := by
  cases q <;> rfl

theorem draw_apply (q : Sql) (h : p.Drawn db) : (q.draw db).apply p = q.draw (db.apply p) := by
  cases q <;> try rfl
  · simp only [Sql.draw, apply, Rows.draw_apply _ _ h.tables]
  · simp only [Sql.draw, apply, Rows.draw_apply _ _ h.history]
  · simp only [Sql.draw, apply, Rows.draw_apply _ _ h.partitions]
  · simp only [Sql.draw, apply, Rows.draw_apply _ _ h.snapshots]
  · simp only [Sql.draw, apply, Rows.draw_apply _ _ h.transactions]

theorem within_tables {t : Patch TableRec} (h : db.tables.Local (fun k _ => k == id) t) :
    db.Within id { tables := t } :=
  ⟨h, Rows.local_none, Rows.local_none, Rows.local_none, rfl⟩

theorem within_history {t : Patch HistoryRec}
    (h : db.history.Local (fun _ r => r.tableId == id) t) : db.Within id { history := t } :=
  ⟨Rows.local_none, h, Rows.local_none, Rows.local_none, rfl⟩

theorem within_snapshots {t : Patch SnapshotRec}
    (h : db.snapshots.Local (fun _ r => r.tableId == id) t) : db.Within id { snapshots := t } :=
  ⟨Rows.local_none, Rows.local_none, h, Rows.local_none, rfl⟩

theorem within_partitions {t : Patch PartitionRec}
    (h : db.partitions.Local (fun _ r => r.of id) t) : db.Within id { partitions := t } :=
  ⟨Rows.local_none, Rows.local_none, Rows.local_none, h, rfl⟩

/-- An update of the live table of a name that is that of `id`. -/
theorem update_named {name : String} {f : TableRec → TableRec} (hn : db.NameOf id name)
    {t : Patch TableRec} (ht : t = db.tables.updateWhere (fun _ r => r.named name) f) :
    db.Within id { tables := t } ∧ (db.apply { tables := t }).slice id =
      (db.slice id).mapTable fun r => if r.named name then f r else r := by
  have hl : db.tables.Local (fun k _ => k == id) t := by
    subst ht
    refine Rows.local_updateWhere fun k r hr hc => ?_
    have hk := hn k r hr (by simp only [TableRec.named, Bool.and_eq_true, beq_iff_eq] at hc; exact hc.1)
    simp [hk]
  refine ⟨within_tables hl, ?_⟩
  have hrow : (db.tables.apply t).row id =
      (db.tables.row id).map fun r => if r.named name then f r else r := by
    rw [← only_key, ht, Rows.only_updateWhere (ht ▸ hl), only_key]
  ext1
  · exact hrow
  · simp [slice, Slice.mapTable]
  · simp [slice, Slice.mapTable]
  · simp [slice, Slice.mapTable]

variable {name schema summary op key : String} {version added deleted : ℤ} {n parent : ℕ}
  {part : PartitionRow}

theorem run_updateSchema (hn : db.NameOf id name) {res : PGresult Empty}
    (h : Sql.run pg now (.updateSchema schema version name) db = some (res, p)) :
    ∃ schema', pg.jsonb schema = some schema' ∧ db.Within id p ∧
      (db.apply p).slice id = (db.slice id).mapTable fun r =>
        if r.named name then { r with schemaJson := schema', schemaVersion := version } else r := by
  simp only [Sql.run, Option.bind_eq_bind, Option.bind_eq_some_iff, Option.some.injEq,
    Prod.mk.injEq] at h
  obtain ⟨schema', hs, -, rfl⟩ := h
  exact ⟨schema', hs, update_named hn rfl⟩

theorem run_softDelete (hn : db.NameOf id name) {res : PGresult Empty}
    (h : Sql.run pg now (.softDelete name) db = some (res, p)) :
    res = .command (Sql.affectedTables db p.tables) ∧ db.Within id p ∧
      (db.apply p).slice id = (db.slice id).mapTable fun r =>
        if r.named name then { r with isDeleted := true } else r := by
  simp only [Sql.run, Option.some.injEq, Prod.mk.injEq] at h
  obtain ⟨hr, rfl⟩ := h
  exact ⟨hr.symm, update_named hn rfl⟩

theorem run_updateCurrent (hn : db.NameOf id name) {res : PGresult Empty}
    (h : Sql.run pg now (.updateCurrent n name) db = some (res, p)) :
    db.Within id p ∧ (db.apply p).slice id = (db.slice id).mapTable fun r =>
      if r.named name then { r with currentSnapshotId := n } else r := by
  simp only [Sql.run] at h
  split at h
  · cases h
  · simp only [Option.some.injEq, Prod.mk.injEq] at h
    obtain ⟨-, rfl⟩ := h
    exact update_named hn rfl

theorem run_insertHistory {res : PGresult Empty}
    (h : Sql.run pg now (.insertHistory id version schema summary) db = some (res, p)) :
    ∃ schema', pg.jsonb schema = some schema' ∧ db.Within id p ∧
      (((Sql.insertHistory id version schema summary).draw db).apply p).slice id =
        (db.slice id).insertHistory db.history.next ⟨id, version, schema', now, summary⟩ := by
  simp only [Sql.run, Option.bind_eq_bind, Option.bind_eq_some_iff] at h
  obtain ⟨schema', hs, h⟩ := h
  split at h
  · cases h
  · simp only [Option.some.injEq, Prod.mk.injEq] at h
    obtain ⟨-, rfl⟩ := h
    refine ⟨schema', hs, within_history (Rows.local_write (Rows.row_next _) (by simp)), ?_⟩
    ext1
    · simp [slice, Slice.insertHistory, Sql.draw]
    · funext k
      simp only [slice, Slice.insertHistory, Sql.draw, apply_history, Function.update_apply]
      exact Rows.only_draw_write (by simp) k
    · simp [slice, Slice.insertHistory, Sql.draw]
    · simp [slice, Slice.insertHistory, Sql.draw]

theorem run_insertSnapshot {res : PGresult ℕ}
    (h : Sql.run pg now (.insertSnapshot id parent op added deleted) db = some (res, p)) :
    res = .tuples [db.snapshots.next] ∧ parent < maxBigint ∧ db.snapshots.next < maxBigint ∧
      db.Within id p ∧ (((Sql.insertSnapshot id parent op added deleted).draw db).apply p).slice id =
        (db.slice id).insertSnapshot db.snapshots.next ⟨id, parent, now, op, added, deleted⟩ := by
  simp only [Sql.run] at h
  split at h
  · cases h
  · rename_i hc
    simp only [Bool.or_eq_true, decide_eq_true_eq, not_or, not_le] at hc
    simp only [Option.some.injEq, Prod.mk.injEq] at h
    obtain ⟨rfl, rfl⟩ := h
    refine ⟨rfl, hc.1.1, hc.1.2, within_snapshots (Rows.local_write (Rows.row_next _) (by simp)), ?_⟩
    ext1
    · simp [slice, Slice.insertSnapshot, Sql.draw]
    · simp [slice, Slice.insertSnapshot, Sql.draw]
    · funext k
      simp only [slice, Slice.insertSnapshot, Sql.draw, apply_snapshots, Function.update_apply]
      exact Rows.only_draw_write (by simp) k
    · simp [slice, Slice.insertSnapshot, Sql.draw]

theorem run_insertPartition {res : PGresult Empty}
    (h : Sql.run pg now (.insertPartition id n part) db = some (res, p)) :
    ∃ stats, pg.jsonb part.columnStatsJson = some stats ∧ db.partitions.next < maxBigint ∧
      db.Within id p ∧ (((Sql.insertPartition id n part).draw db).apply p).slice id =
        (db.slice id).insertPartition db.partitions.next (part.toRec id n stats) := by
  simp only [Sql.run, Option.bind_eq_bind, Option.bind_eq_some_iff] at h
  obtain ⟨stats, hs, h⟩ := h
  split at h
  · cases h
  · rename_i hmax
    simp only [Bool.or_eq_true, decide_eq_true_eq, not_or, not_le] at hmax
    simp only [Option.some.injEq, Prod.mk.injEq] at h
    obtain ⟨-, rfl⟩ := h
    have hc : (part.toRec id n stats).of id = true := by simp [PartitionRow.toRec, PartitionRec.of]
    refine ⟨stats, hs, hmax.1.1, within_partitions (Rows.local_write (Rows.row_next _) hc), ?_⟩
    ext1
    · simp [slice, Slice.insertPartition, Sql.draw]
    · simp [slice, Slice.insertPartition, Sql.draw]
    · simp [slice, Slice.insertPartition, Sql.draw]
    · funext k
      simp only [slice, Slice.insertPartition, Sql.draw, apply_partitions, Function.update_apply]
      exact Rows.only_draw_write hc k

theorem run_markDeleted {res : PGresult Empty}
    (h : Sql.run pg now (.markDeleted n id key) db = some (res, p)) :
    db.Within id p ∧ (db.apply p).slice id = (db.slice id).markDeleted n key := by
  simp only [Sql.run] at h
  split at h
  · cases h
  · simp only [Option.some.injEq, Prod.mk.injEq] at h
    obtain ⟨-, rfl⟩ := h
    have hl : db.partitions.Local (fun _ r => r.of id) (db.partitions.updateWhere
        (fun _ r => r.of id && r.partitionKey == key && !r.isDeleted) fun r => r.markDeleted n) := by
      refine Rows.local_updateWhere fun k r _ hc => ?_
      simp only [Bool.and_eq_true] at hc
      exact ⟨hc.1.1, by simpa [PartitionRec.of, PartitionRec.markDeleted] using hc.1.1⟩
    refine ⟨within_partitions hl, ?_⟩
    ext1
    · simp [slice, Slice.markDeleted]
    · simp [slice, Slice.markDeleted]
    · simp [slice, Slice.markDeleted]
    · funext k
      simp only [slice, Slice.markDeleted, apply_partitions]
      rw [Rows.only_updateWhere hl]
      cases hr : db.partitions.only (fun _ r => r.of id) k with
      | none => rfl
      | some r =>
        have := (Rows.only_eq_some.mp hr).2
        simp [this]

theorem run_deletePartitions {res : PGresult Empty}
    (h : Sql.run pg now (.deletePartitions id) db = some (res, p)) :
    db.Within id p ∧ (db.apply p).slice id = (db.slice id).clearPartitions := by
  simp only [Sql.run, Option.some.injEq, Prod.mk.injEq] at h
  obtain ⟨-, rfl⟩ := h
  have hl : db.partitions.Local (fun _ r => r.of id)
      (db.partitions.deleteWhere fun _ r => r.of id) :=
    Rows.local_deleteWhere fun k r _ hc => hc
  refine ⟨within_partitions hl, ?_⟩
  ext1
  · simp [slice, Slice.clearPartitions]
  · simp [slice, Slice.clearPartitions]
  · simp [slice, Slice.clearPartitions]
  · funext k
    simp only [slice, Slice.clearPartitions, apply_partitions]
    rw [Rows.only_deleteWhere hl, Option.filter_eq_none_iff]
    intro r hr
    simp [(Rows.only_eq_some.mp hr).2]

theorem run_deleteSnapshots {res : PGresult Empty}
    (h : Sql.run pg now (.deleteSnapshots id) db = some (res, p)) :
    db.Within id p ∧ (db.apply p).slice id = (db.slice id).clearSnapshots := by
  simp only [Sql.run] at h
  split at h
  · cases h
  · simp only [Option.some.injEq, Prod.mk.injEq] at h
    obtain ⟨-, rfl⟩ := h
    have hl : db.snapshots.Local (fun _ r => r.tableId == id)
        (db.snapshots.deleteWhere fun _ r => r.tableId == id) :=
      Rows.local_deleteWhere fun k r _ hc => hc
    refine ⟨within_snapshots hl, ?_⟩
    ext1
    · simp [slice, Slice.clearSnapshots]
    · simp [slice, Slice.clearSnapshots]
    · funext k
      simp only [slice, Slice.clearSnapshots, apply_snapshots]
      rw [Rows.only_deleteWhere hl, Option.filter_eq_none_iff]
      intro r hr
      simp [(Rows.only_eq_some.mp hr).2]
    · simp [slice, Slice.clearSnapshots]

theorem run_deleteHistory {res : PGresult Empty}
    (h : Sql.run pg now (.deleteHistory id) db = some (res, p)) :
    db.Within id p ∧ (db.apply p).slice id = (db.slice id).clearHistory := by
  simp only [Sql.run, Option.some.injEq, Prod.mk.injEq] at h
  obtain ⟨-, rfl⟩ := h
  have hl : db.history.Local (fun _ r => r.tableId == id)
      (db.history.deleteWhere fun _ r => r.tableId == id) :=
    Rows.local_deleteWhere fun k r _ hc => hc
  refine ⟨within_history hl, ?_⟩
  ext1
  · simp [slice, Slice.clearHistory]
  · funext k
    simp only [slice, Slice.clearHistory, apply_history]
    rw [Rows.only_deleteWhere hl, Option.filter_eq_none_iff]
    intro r hr
    simp [(Rows.only_eq_some.mp hr).2]
  · simp [slice, Slice.clearHistory]
  · simp [slice, Slice.clearHistory]

theorem run_deleteTable (hn : db.NameOf id name) {res : PGresult Empty}
    (h : Sql.run pg now (.deleteTable name) db = some (res, p)) :
    db.Within id p ∧ (db.apply p).slice id =
      { db.slice id with table := (db.tables.row id).filter fun r => !(r.tableName == name) } := by
  simp only [Sql.run] at h
  split at h
  · cases h
  · simp only [Option.some.injEq, Prod.mk.injEq] at h
    obtain ⟨-, rfl⟩ := h
    have hl : db.tables.Local (fun k _ => k == id)
        (db.tables.deleteWhere fun _ r => r.tableName == name) := by
      refine Rows.local_deleteWhere fun k r hr hc => ?_
      simpa using hn k r hr (beq_iff_eq.mp hc)
    refine ⟨within_tables hl, ?_⟩
    ext1
    · show (db.tables.apply _).row id = _
      rw [← only_key, Rows.only_deleteWhere hl, only_key]
    · simp [slice]
    · simp [slice]
    · simp [slice]

/-- A row under the next key, about which nothing has been stored. -/
theorem slice_insertTable {schema spec props : String} (row : TableRec)
    (h : db.slice db.tables.next = .empty) :
    (((Sql.insertTable name schema spec props).draw db).apply
        { tables := Patch.write db.tables.next row }).slice db.tables.next =
      { Slice.empty with table := some row } ∧
    ∀ k, k ≠ db.tables.next → (((Sql.insertTable name schema spec props).draw db).apply
      { tables := Patch.write db.tables.next row }).slice k = db.slice k := by
  have hl : ((Sql.insertTable name schema spec props).draw db).Within db.tables.next
      { tables := Patch.write db.tables.next row } :=
    within_tables (Rows.local_write (Rows.row_next _) (by simp))
  constructor
  · rw [Slice.ext_iff] at h
    ext1
    · show (db.tables.draw.apply _).row _ = _
      rw [Rows.apply_row_of_some (Patch.write_self _ _) (Rows.pos _) (Nat.lt_succ_self _)]
    · simpa [Db.slice, Sql.draw] using h.2.1
    · simpa [Db.slice, Sql.draw] using h.2.2.1
    · simpa [Db.slice, Sql.draw] using h.2.2.2
  · intro k hk
    rw [hl.slice_of_ne hk, slice_draw]

end statements
end Db
end IceLog
