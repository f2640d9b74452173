import IceLog.Server.State

/-! The database client: each function sends its statements and reads their results. Strings go
to the database through `c_str()`, so what follows a NUL is lost. -/
namespace IceLog

open Interleaved

/-- `s.c_str()` as the database reads it. -/
def cStr (s : String) : String := String.ofList (s.toList.takeWhile (· ≠ '\x00'))

abbrev exec (conn : Conn) (k : Command) : Code Bool := atomically (.exec conn k)

abbrev execParams (conn : Conn) (q : Sql) : Code (PGresult q.Row) :=
  atomically (.execParams conn q)

namespace PGresult

variable {α : Type}

/-- `PQresultStatus(res) == PGRES_COMMAND_OK`. -/
def commandOk : PGresult α → Bool
  | .command _ => true
  | _ => false

/-- The first row of a `PGRES_TUPLES_OK`. -/
def first : PGresult α → Option α
  | .tuples rows => rows.head?
  | _ => none

/-- All rows of a `PGRES_TUPLES_OK`. -/
def all : PGresult α → Option (List α)
  | .tuples rows => some rows
  | _ => none

/-- `PGRES_COMMAND_OK` with at least one affected row. -/
def someAffected : PGresult α → Bool
  | .command affected => affected != 0
  | _ => false

end PGresult

namespace PgClient

variable (conn : Conn) (tableName : String)

def getTableId : Code (Option ℕ) := do
  let res ← execParams conn (.selectTableId (cStr tableName))
  return res.first

def createTable (schemaJson partitionSpec propertiesJson : String) : Code Bool := do
  let res ← execParams conn
    (.insertTable (cStr tableName) (cStr schemaJson) (cStr partitionSpec) (cStr propertiesJson))
  return res.someAffected

def getTable : Code (Option TableRow) := do
  let res ← execParams conn (.selectTable (cStr tableName))
  return res.first

def updateTableSchema (newSchemaJson : String) (newVersion : ℤ) (changeSummary : String) :
    Code Bool := do
  let res ← execParams conn (.updateSchema (cStr newSchemaJson) newVersion (cStr tableName))
  if !res.commandOk then return false
  match ← getTableId conn tableName with
  | none => return false
  | some tableId =>
    let res ← execParams conn
      (.insertHistory tableId newVersion (cStr newSchemaJson) (cStr changeSummary))
    return res.commandOk

def renameTable (oldName newName : String) : Code Bool := do
  let res ← execParams conn (.renameTable (cStr newName) (cStr oldName))
  return res.commandOk

def dropTable (purge : Bool) : Code Bool := do
  if purge then
    match ← getTableId conn tableName with
    | none => return false
    | some tableId =>
      -- the results of the three deletions are ignored
      let _ ← execParams conn (.deletePartitions tableId)
      let _ ← execParams conn (.deleteSnapshots tableId)
      let _ ← execParams conn (.deleteHistory tableId)
      let res ← execParams conn (.deleteTable (cStr tableName))
      return res.commandOk
  else
    let res ← execParams conn (.softDelete (cStr tableName))
    return res.someAffected

def listTables (pageSize : ℤ) (pageToken : String) : Code (List TableRow) := do
  let res ← execParams conn (.selectTables (if pageSize > 0 then pageSize.toNat else 100)
    (if pageToken = "" then "0" else cStr pageToken))
  return res.all.getD []

def queryPartitions (snapshotId : ℕ) : Code (Option (List PartitionRow)) := do
  match ← getTableId conn tableName with
  | none => return none
  | some tableId =>
    let res ← execParams conn (.selectPartitions tableId snapshotId)
    return res.all

def queryPartitionsPaged (snapshotId : ℕ) (pageSize lastPartitionId : ℤ) :
    Code (Option (List PartitionRow)) := do
  match ← getTableId conn tableName with
  | none => return none
  | some tableId =>
    let res ← execParams conn (.selectPartitionsPaged tableId snapshotId lastPartitionId
      (if pageSize > 0 then pageSize.toNat else 1000))
    return res.all

/-- The parameters of a new partition as the database reads them. -/
def partitionParams (part : PartitionRow) : PartitionRow :=
  { part with
    partitionKey := cStr part.partitionKey
    dataFilePath := cStr part.dataFilePath
    fileFormat := cStr part.fileFormat
    columnStatsJson := if part.columnStatsJson = "" then "\x7b\x7d" else cStr part.columnStatsJson }

def insertPartition (snapshotId : ℕ) (part : PartitionRow) : Code Bool := do
  match ← getTableId conn tableName with
  | none => return false
  | some tableId =>
    let res ← execParams conn (.insertPartition tableId snapshotId (partitionParams part))
    return res.commandOk

def markPartitionDeleted (partitionKey : String) (deletedSnapshotId : ℕ) : Code Bool := do
  match ← getTableId conn tableName with
  | none => return false
  | some tableId =>
    let res ← execParams conn (.markDeleted deletedSnapshotId tableId (cStr partitionKey))
    return res.commandOk

def insertSnapshot (parentSnapshotId : ℕ) (operation : String) (addedCount deletedCount : ℤ) :
    Code ℕ := do
  match ← getTableId conn tableName with
  | none => return 0
  | some tableId =>
    let res ← execParams conn
      (.insertSnapshot tableId parentSnapshotId (cStr operation) addedCount deletedCount)
    return res.first.getD 0

def getSnapshot (snapshotId : ℕ) : Code (Option SnapshotRow) := do
  match ← getTableId conn tableName with
  | none => return none
  | some tableId =>
    let res ← execParams conn (.selectSnapshot tableId snapshotId)
    return res.first

def listSnapshots (limit : ℤ) : Code (List SnapshotRow) := do
  match ← getTableId conn tableName with
  | none => return []
  | some tableId =>
    let res ← execParams conn
      (.selectSnapshots tableId (if limit > 0 then limit.toNat else 50))
    return res.all.getD []

def getCurrentSnapshot : Code ℕ := do
  let res ← execParams conn (.selectCurrent (cStr tableName))
  return res.first.getD 0

def updateTableSnapshot (snapshotId : ℕ) : Code Bool := do
  let res ← execParams conn (.updateCurrent snapshotId (cStr tableName))
  return res.commandOk

def insertTransaction (clientId : String) (readSnapshotId : ℕ) (isolation : String) :
    Code ℕ := do
  let res ← execParams conn (.insertTransaction (cStr clientId) readSnapshotId (cStr isolation))
  return res.first.getD 0

def updateTransactionStatus (txnId : ℕ) (status : String) : Code Bool := do
  let res ← execParams conn (.updateStatus (cStr status) txnId)
  return res.commandOk

end PgClient
end IceLog
