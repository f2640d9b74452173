import IceLog.Data.Rows
import Mathlib.Data.Int.Notation

/-! The relations of `init_db.sql`, restricted to the columns that some statement reads, and
the rows in which the client returns them. -/
namespace IceLog

open Serial

/-- `static_cast<int32_t>`. -/
def toInt32 (n : ℤ) : ℤ := n.bmod (2 ^ 32)

/-- A row of `tables`; its key is `table_id`. -/
structure TableRec where
  tableName : String
  schemaJson : String
  schemaVersion : ℤ := 1
  partitionSpec : String
  currentSnapshotId : ℕ := 0
  properties : String
  isDeleted : Bool := false
deriving DecidableEq

/-- A row of `schema_history`. -/
structure HistoryRec where
  tableId : ℕ
  schemaVersion : ℤ
  schemaJson : String
  changedAt : ℕ
  changeSummary : String
deriving DecidableEq

/-- A row of `snapshots`; its key is `snapshot_id`. -/
structure SnapshotRec where
  tableId : ℕ
  parentSnapshotId : ℕ
  committedAt : ℕ
  operation : String
  addedFilesCount : ℤ
  deletedFilesCount : ℤ
deriving DecidableEq

/-- A row of `partitions`; its key is `partition_id`. -/
structure PartitionRec where
  tableId : ℕ
  snapshotId : ℕ
  partitionKey : String
  dataFilePath : String
  fileFormat : String
  rowCount : ℤ
  sizeBytes : ℤ
  columnStats : String
  isDeleted : Bool := false
  deletedSnapshotId : Option ℕ := none
deriving DecidableEq

/-- A row of `transactions`; its key is `txn_id`. -/
structure TransactionRec where
  clientId : String
  readSnapshotId : ℕ
  status : String
  isolationLevel : String
deriving DecidableEq

structure TableRow where
  tableId : ℕ
  tableName : String
  schemaJson : String
  schemaVersion : ℤ
  partitionSpec : String
  currentSnapshotId : ℕ
  propertiesJson : String
deriving DecidableEq

structure PartitionRow where
  partitionId : ℕ
  tableId : ℕ
  snapshotId : ℕ
  partitionKey : String
  dataFilePath : String
  fileFormat : String
  rowCount : ℤ
  sizeBytes : ℤ
  columnStatsJson : String
deriving DecidableEq

structure SnapshotRow where
  snapshotId : ℕ
  tableId : ℕ
  parentSnapshotId : ℕ
  operation : String
  addedFilesCount : ℤ
  deletedFilesCount : ℤ
  committedAt : ℕ
deriving DecidableEq

structure SchemaVersion where
  version : ℤ
  schemaJson : String
  changedAt : Option ℕ
  changeSummary : String
deriving DecidableEq

def TableRec.toRow (id : ℕ) (r : TableRec) : TableRow :=
  ⟨id, r.tableName, r.schemaJson, r.schemaVersion, r.partitionSpec, r.currentSnapshotId,
    r.properties⟩

def SnapshotRec.toRow (id : ℕ) (r : SnapshotRec) : SnapshotRow :=
  ⟨id, r.tableId, r.parentSnapshotId, r.operation, r.addedFilesCount, r.deletedFilesCount,
    r.committedAt⟩

def PartitionRec.toRow (id : ℕ) (r : PartitionRec) : PartitionRow :=
  ⟨id, r.tableId, r.snapshotId, r.partitionKey, r.dataFilePath, r.fileFormat, r.rowCount,
    r.sizeBytes, r.columnStats⟩

def HistoryRec.toVersion (r : HistoryRec) : SchemaVersion :=
  ⟨r.schemaVersion, r.schemaJson, some r.changedAt, r.changeSummary⟩

/-- A live row of the given name. -/
def TableRec.named (name : String) (r : TableRec) : Bool := r.tableName == name && !r.isDeleted

/-- The visibility filter: `snapshot_id <= s AND (is_deleted = false OR deleted_snapshot_id > s)`. -/
def PartitionRec.visibleAt (s : ℕ) (r : PartitionRec) : Bool :=
  r.snapshotId ≤ s && (!r.isDeleted || r.deletedSnapshotId.any fun d => s < d)

structure Db where
  tables : Rows TableRec
  history : Rows HistoryRec
  snapshots : Rows SnapshotRec
  partitions : Rows PartitionRec
  transactions : Rows TransactionRec

/-- The row changes of a statement or of an open transaction. -/
structure Changes where
  tables : Patch TableRec := Patch.none
  history : Patch HistoryRec := Patch.none
  snapshots : Patch SnapshotRec := Patch.none
  partitions : Patch PartitionRec := Patch.none
  transactions : Patch TransactionRec := Patch.none

namespace Changes

def andThen (p q : Changes) : Changes :=
  ⟨p.tables.andThen q.tables, p.history.andThen q.history, p.snapshots.andThen q.snapshots,
    p.partitions.andThen q.partitions, p.transactions.andThen q.transactions⟩

/-- The two write no row in common. -/
structure Apart (p q : Changes) : Prop where
  tables : p.tables.Apart q.tables
  history : p.history.Apart q.history
  snapshots : p.snapshots.Apart q.snapshots
  partitions : p.partitions.Apart q.partitions
  transactions : p.transactions.Apart q.transactions

/-- Every changed key has been drawn. -/
structure Drawn (p : Changes) (db : Db) : Prop where
  tables : ∀ id, p.tables id ≠ none → id < db.tables.next
  history : ∀ id, p.history id ≠ none → id < db.history.next
  snapshots : ∀ id, p.snapshots id ≠ none → id < db.snapshots.next
  partitions : ∀ id, p.partitions id ≠ none → id < db.partitions.next
  transactions : ∀ id, p.transactions id ≠ none → id < db.transactions.next

def apartBelow (n : ℕ) {α : Type} (p q : Patch α) : Bool :=
  (List.range n).all fun id => (p id).isNone || (q id).isNone

/-- The test behind a row lock: `Apart`, for changes to drawn keys. -/
def apart (db : Db) (p q : Changes) : Bool :=
  apartBelow db.tables.next p.tables q.tables && apartBelow db.history.next p.history q.history &&
  apartBelow db.snapshots.next p.snapshots q.snapshots &&
  apartBelow db.partitions.next p.partitions q.partitions &&
  apartBelow db.transactions.next p.transactions q.transactions

theorem Apart.symm {p q : Changes} (h : p.Apart q) : q.Apart p :=
  ⟨h.tables.symm, h.history.symm, h.snapshots.symm, h.partitions.symm, h.transactions.symm⟩

theorem Apart.andThen {p q r : Changes} (hp : p.Apart r) (hq : q.Apart r) :
    (p.andThen q).Apart r :=
  ⟨hp.tables.andThen hq.tables, hp.history.andThen hq.history,
    hp.snapshots.andThen hq.snapshots, hp.partitions.andThen hq.partitions,
    hp.transactions.andThen hq.transactions⟩

theorem none_apart (q : Changes) : Apart {} q :=
  ⟨fun _ => .inl rfl, fun _ => .inl rfl, fun _ => .inl rfl, fun _ => .inl rfl,
    fun _ => .inl rfl⟩

theorem apartBelow_apart {n : ℕ} {α : Type} {p q : Patch α} (h : apartBelow n p q = true)
    (hq : ∀ id, q id ≠ none → id < n) : p.Apart q := by
  intro id
  by_cases hn : q id = none
  · exact .inr hn
  · have := List.all_eq_true.mp h id (List.mem_range.mpr (hq id hn))
    simpa [Option.isNone_iff_eq_none] using this

theorem apart_sound {db : Db} {p q : Changes} (h : apart db p q = true) (hq : q.Drawn db) :
    p.Apart q := by
  simp only [apart, Bool.and_eq_true] at h
  exact ⟨apartBelow_apart h.1.1.1.1 hq.tables, apartBelow_apart h.1.1.1.2 hq.history,
    apartBelow_apart h.1.1.2 hq.snapshots, apartBelow_apart h.1.2 hq.partitions,
    apartBelow_apart h.2 hq.transactions⟩

theorem drawn_none (db : Db) : Drawn {} db :=
  ⟨by simp, by simp, by simp, by simp, by simp⟩

theorem drawn_tables {db : Db} {t : Patch TableRec} (h : ∀ id, t id ≠ none → id < db.tables.next) :
    Drawn { tables := t } db :=
  ⟨h, by simp, by simp, by simp, by simp⟩

theorem drawn_history {db : Db} {t : Patch HistoryRec}
    (h : ∀ id, t id ≠ none → id < db.history.next) : Drawn { history := t } db :=
  ⟨by simp, h, by simp, by simp, by simp⟩

theorem drawn_snapshots {db : Db} {t : Patch SnapshotRec}
    (h : ∀ id, t id ≠ none → id < db.snapshots.next) : Drawn { snapshots := t } db :=
  ⟨by simp, by simp, h, by simp, by simp⟩

theorem drawn_partitions {db : Db} {t : Patch PartitionRec}
    (h : ∀ id, t id ≠ none → id < db.partitions.next) : Drawn { partitions := t } db :=
  ⟨by simp, by simp, by simp, h, by simp⟩

theorem drawn_transactions {db : Db} {t : Patch TransactionRec}
    (h : ∀ id, t id ≠ none → id < db.transactions.next) : Drawn { transactions := t } db :=
  ⟨by simp, by simp, by simp, by simp, h⟩

@[simp] theorem none_andThen (p : Changes) : ({} : Changes).andThen p = p := by
  cases p
  simp [andThen]

end Changes

namespace Db

def empty : Db := ⟨.empty, .empty, .empty, .empty, .empty⟩

def apply (db : Db) (p : Changes) : Db :=
  ⟨db.tables.apply p.tables, db.history.apply p.history, db.snapshots.apply p.snapshots,
    db.partitions.apply p.partitions, db.transactions.apply p.transactions⟩

@[simp] theorem apply_tables (db : Db) (p : Changes) :
    (db.apply p).tables = db.tables.apply p.tables := rfl

@[simp] theorem apply_history (db : Db) (p : Changes) :
    (db.apply p).history = db.history.apply p.history := rfl

@[simp] theorem apply_snapshots (db : Db) (p : Changes) :
    (db.apply p).snapshots = db.snapshots.apply p.snapshots := rfl

@[simp] theorem apply_partitions (db : Db) (p : Changes) :
    (db.apply p).partitions = db.partitions.apply p.partitions := rfl

@[simp] theorem apply_transactions (db : Db) (p : Changes) :
    (db.apply p).transactions = db.transactions.apply p.transactions := rfl

@[simp] theorem apply_none (db : Db) : db.apply {} = db := by
  cases db
  simp [apply]

theorem apply_apply (db : Db) (p q : Changes) : (db.apply p).apply q = db.apply (p.andThen q) := by
  simp [apply, Changes.andThen, Rows.apply_apply]

/-- The live tables of the given name, with their ids. -/
def named (db : Db) (name : String) : List (ℕ × TableRec) :=
  db.tables.select fun id r => if r.named name then some (id, r) else none

/-- The live table of the given name, with its id. -/
def find (db : Db) (name : String) : Option (ℕ × TableRec) := (db.named name).head?

/-- The partitions of a table that are visible at a snapshot, by increasing id. -/
def partitionsAt (db : Db) (tableId s : ℕ) : List PartitionRow :=
  db.partitions.select fun id r =>
    if r.tableId == tableId && r.visibleAt s then some (r.toRow id) else none

end Db
end IceLog
