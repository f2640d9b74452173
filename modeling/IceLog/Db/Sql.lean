import IceLog.Db.Schema

/-! The SQL statements that the client sends with parameters, and what each does to the rows it
sees. A statement either violates a constraint or has a result and a set of row changes. -/
namespace IceLog

open Serial

/-- The two input conversions of PostgreSQL whose grammar is not part of the repository. -/
structure Postgres where
  /-- `text::jsonb::text`; nothing if the text is not JSON. -/
  jsonb : String → Option String
  /-- The input function of `BIGINT`. -/
  bigint : String → Option ℤ

/-- The first value that does not fit `BIGINT`. -/
def maxBigint : ℕ := 2 ^ 63

/-- The statements that are sent with parameters. -/
inductive Sql where
  | selectTableId (name : String)
  | insertTable (name schema spec properties : String)
  | selectTable (name : String)
  | updateSchema (schema : String) (version : ℤ) (name : String)
  | insertHistory (tableId : ℕ) (version : ℤ) (schema summary : String)
  | renameTable (newName oldName : String)
  | deletePartitions (tableId : ℕ)
  | deleteSnapshots (tableId : ℕ)
  | deleteHistory (tableId : ℕ)
  | deleteTable (name : String)
  | softDelete (name : String)
  | selectTables (limit : ℕ) (offset : String)
  | selectPartitions (tableId snapshotId : ℕ)
  | selectPartitionsPaged (tableId snapshotId : ℕ) (lastPartitionId : ℤ) (limit : ℕ)
  | insertPartition (tableId snapshotId : ℕ) (part : PartitionRow)
  | markDeleted (deletedSnapshotId tableId : ℕ) (key : String)
  | insertSnapshot (tableId parentSnapshotId : ℕ) (operation : String) (added deleted : ℤ)
  | selectSnapshot (tableId snapshotId : ℕ)
  | selectSnapshots (tableId limit : ℕ)
  | selectCurrent (name : String)
  | updateCurrent (snapshotId : ℕ) (name : String)
  | insertTransaction (clientId : String) (readSnapshotId : ℕ) (isolation : String)
  | updateStatus (status : String) (txnId : ℕ)
  | selectHistoryAt (tableId : ℕ) (version : ℤ)
  | selectHistory (tableId : ℕ)
deriving DecidableEq

namespace Sql

/-- What a row of the result holds. -/
abbrev Row : Sql → Type
  | selectTableId _ | insertSnapshot .. | selectCurrent _ | insertTransaction .. => ℕ
  | selectTable _ | selectTables .. => TableRow
  | selectPartitions .. | selectPartitionsPaged .. => PartitionRow
  | selectSnapshot .. | selectSnapshots .. => SnapshotRow
  | selectHistoryAt .. | selectHistory _ => SchemaVersion
  | _ => Empty

end Sql

/-- A `PGresult`: an error, a command status with the affected rows, or tuples. -/
inductive PGresult (α : Type) where
  | error
  | command (affected : ℕ)
  | tuples (rows : List α)

/-- Newest first, as `ORDER BY committed_at DESC`. -/
def newestFirst (rows : List SnapshotRow) : List SnapshotRow :=
  rows.mergeSort fun a b => b.committedAt ≤ a.committedAt

/-- The partitions a purge or read of `tableId` concerns. -/
def PartitionRec.of (tableId : ℕ) (r : PartitionRec) : Bool := r.tableId == tableId

def PartitionRec.markDeleted (n : ℕ) (r : PartitionRec) : PartitionRec :=
  { r with isDeleted := true, deletedSnapshotId := some n }

/-- The row that `insert_partition` stores. -/
def PartitionRow.toRec (tableId snapshotId : ℕ) (stats : String) (p : PartitionRow) :
    PartitionRec where
  tableId := tableId
  snapshotId := snapshotId
  partitionKey := p.partitionKey
  dataFilePath := p.dataFilePath
  fileFormat := p.fileFormat
  rowCount := p.rowCount
  sizeBytes := p.sizeBytes
  columnStats := stats

namespace Sql

/-- The sequence a statement draws from, whether or not it succeeds. -/
def draw : Sql → Db → Db
  | insertTable .., db => { db with tables := db.tables.draw }
  | insertHistory .., db => { db with history := db.history.draw }
  | insertSnapshot .., db => { db with snapshots := db.snapshots.draw }
  | insertPartition .., db => { db with partitions := db.partitions.draw }
  | insertTransaction .., db => { db with transactions := db.transactions.draw }
  | _, db => db

def affectedTables (db : Db) (p : Patch TableRec) : ℕ := Rows.affected db.tables.next p

/-- `UNIQUE (table_name)` after all rows that `p` changes took the name `name`. -/
def clashes (db : Db) (p : Patch TableRec) (name : String) : Bool :=
  affectedTables db p != 0 &&
    (affectedTables db p != 1 ||
      db.tables.exist fun id r => (p id).isNone && r.tableName == name)

/-- Some row refers to a table that `p` deletes. -/
def tableReferenced (db : Db) (p : Patch TableRec) : Bool :=
  (db.history.exist fun _ r => (p r.tableId).isSome) ||
  (db.snapshots.exist fun _ r => (p r.tableId).isSome) ||
  db.partitions.exist fun _ r => (p r.tableId).isSome

/-- The statement `q`, run at the time `now` of its transaction on the rows `db` it sees; nothing
if it violates a constraint or a parameter does not fit its column. -/
def run (pg : Postgres) (now : ℕ) : (q : Sql) → Db → Option (PGresult q.Row × Changes)
  | selectTableId name, db => some (.tuples ((db.named name).map Prod.fst), {})
  | insertTable name schema spec properties, db => do
    let schema ← pg.jsonb schema
    let properties ← pg.jsonb properties
    if maxBigint ≤ db.tables.next then none
    else if db.tables.exist fun _ r => r.tableName == name then some (.command 0, {})
    else
      let row : TableRec := {
        tableName := name, schemaJson := schema, partitionSpec := spec, properties := properties }
      some (.command 1, { tables := Patch.write db.tables.next row })
  | selectTable name, db => some (.tuples ((db.named name).map fun p => p.2.toRow p.1), {})
  | updateSchema schema version name, db => do
    let schema ← pg.jsonb schema
    let p := db.tables.updateWhere (fun _ r => r.named name)
      fun r => { r with schemaJson := schema, schemaVersion := version }
    some (.command (affectedTables db p), { tables := p })
  | insertHistory tableId version schema summary, db => do
    let schema ← pg.jsonb schema
    if maxBigint ≤ db.history.next || (db.tables.row tableId).isNone then none
    else
      let row : HistoryRec := ⟨tableId, version, schema, now, summary⟩
      some (.command 1, { history := Patch.write db.history.next row })
  | renameTable newName oldName, db =>
    let p := db.tables.updateWhere (fun _ r => r.named oldName)
      fun r => { r with tableName := newName }
    if clashes db p newName then none
    else some (.command (affectedTables db p), { tables := p })
  | deletePartitions tableId, db =>
    let p := db.partitions.deleteWhere fun _ r => r.of tableId
    some (.command (Rows.affected db.partitions.next p), { partitions := p })
  | deleteSnapshots tableId, db =>
    let p := db.snapshots.deleteWhere fun _ r => r.tableId == tableId
    if db.partitions.exist fun _ r => (p r.snapshotId).isSome then none
    else some (.command (Rows.affected db.snapshots.next p), { snapshots := p })
  | deleteHistory tableId, db =>
    let p := db.history.deleteWhere fun _ r => r.tableId == tableId
    some (.command (Rows.affected db.history.next p), { history := p })
  | deleteTable name, db =>
    let p := db.tables.deleteWhere fun _ r => r.tableName == name
    if tableReferenced db p then none
    else some (.command (affectedTables db p), { tables := p })
  | softDelete name, db =>
    let p := db.tables.updateWhere (fun _ r => r.named name) fun r => { r with isDeleted := true }
    some (.command (affectedTables db p), { tables := p })
  | selectTables limit offset, db => do
    let offset ← pg.bigint offset
    if offset < 0 then none
    else some (.tuples (((db.tables.select fun id r =>
      if r.isDeleted then none else some (r.toRow id)).drop offset.toNat).take limit), {})
  | selectPartitions tableId snapshotId, db =>
    if maxBigint ≤ snapshotId then none
    else some (.tuples (db.partitionsAt tableId snapshotId), {})
  | selectPartitionsPaged tableId snapshotId lastPartitionId limit, db =>
    if maxBigint ≤ snapshotId then none
    else some (.tuples (((db.partitionsAt tableId snapshotId).filter fun r =>
      lastPartitionId < r.partitionId).take limit), {})
  | insertPartition tableId snapshotId part, db => do
    let stats ← pg.jsonb part.columnStatsJson
    if maxBigint ≤ db.partitions.next || (db.tables.row tableId).isNone ||
      (db.snapshots.row snapshotId).isNone then none
    else
      let row := part.toRec tableId snapshotId stats
      some (.command 1, { partitions := Patch.write db.partitions.next row })
  | markDeleted deletedSnapshotId tableId key, db =>
    if maxBigint ≤ deletedSnapshotId then none
    else
      let p := db.partitions.updateWhere
        (fun _ r => r.of tableId && r.partitionKey == key && !r.isDeleted)
        fun r => r.markDeleted deletedSnapshotId
      some (.command (Rows.affected db.partitions.next p), { partitions := p })
  | insertSnapshot tableId parentSnapshotId operation added deleted, db =>
    if maxBigint ≤ parentSnapshotId || maxBigint ≤ db.snapshots.next ||
      (db.tables.row tableId).isNone then none
    else
      let row : SnapshotRec := ⟨tableId, parentSnapshotId, now, operation, added, deleted⟩
      some (.tuples [db.snapshots.next], { snapshots := Patch.write db.snapshots.next row })
  | selectSnapshot tableId snapshotId, db =>
    if maxBigint ≤ snapshotId then none
    else some (.tuples (db.snapshots.select fun id r =>
      if r.tableId == tableId && id == snapshotId then some (r.toRow id) else none), {})
  | selectSnapshots tableId limit, db =>
    some (.tuples ((newestFirst (db.snapshots.select fun id r =>
      if r.tableId == tableId then some (r.toRow id) else none)).take limit), {})
  | selectCurrent name, db =>
    some (.tuples ((db.named name).map fun p => p.2.currentSnapshotId), {})
  | updateCurrent snapshotId name, db =>
    if maxBigint ≤ snapshotId then none
    else
      let p := db.tables.updateWhere (fun _ r => r.named name)
        fun r => { r with currentSnapshotId := snapshotId }
      some (.command (affectedTables db p), { tables := p })
  | insertTransaction clientId readSnapshotId isolation, db =>
    if maxBigint ≤ readSnapshotId || maxBigint ≤ db.transactions.next then none
    else
      let row : TransactionRec := ⟨clientId, readSnapshotId, "active", isolation⟩
      some (.tuples [db.transactions.next],
        { transactions := Patch.write db.transactions.next row })
  | updateStatus status txnId, db =>
    if maxBigint ≤ txnId then none
    else
      let p := db.transactions.updateWhere (fun id _ => id == txnId)
        fun r => { r with status := status }
      some (.command (Rows.affected db.transactions.next p), { transactions := p })
  | selectHistoryAt tableId version, db =>
    some (.tuples (db.history.select fun _ r =>
      if r.tableId == tableId && r.schemaVersion == version then some r.toVersion else none), {})
  | selectHistory tableId, db =>
    some (.tuples ((db.history.select fun _ r =>
      if r.tableId == tableId then some r.toVersion else none).mergeSort
        fun a b => b.version ≤ a.version), {})

end Sql
end IceLog
