import IceLog.Catalog.CatalogManager
import IceLog.Catalog.PartitionRegistry
import IceLog.Catalog.SchemaStore

/-! The remote procedures, and the operations of the registry under them as entry points of
their own. -/
namespace IceLog

open Interleaved

structure PartitionInfo where
  partitionKey : String
  dataFilePath : String
  rowCount : ℤ
  sizeBytes : ℤ
  snapshotId : ℕ := 0
  fileFormat : String := ""
deriving DecidableEq

inductive Alteration where
  | newSchemaJson (schemaJson : String)
  | newPartitionSpec (spec : String)
  | rename (newName : String)
  | notSet
deriving DecidableEq

inductive IsolationLevel where
  | snapshot
  | readCommitted
deriving DecidableEq

inductive Request where
  | createTable (tableName schemaJson partitionSpec : String)
      (properties : List (String × String))
  | getTableMetadata (tableName : String) (snapshotId : ℕ)
  | alterTable (tableName : String) (alteration : Alteration)
  | dropTable (tableName : String) (purge : Bool)
  | listTables (pageSize : ℤ) (pageToken : String)
  | getPartitions (tableName : String) (snapshotId : ℕ) (pageSize : ℤ) (pageToken : String)
  | getPartitionStats (tableName : String)
  | commitSnapshot (tableName : String) (newPartitions : List PartitionInfo)
      (deletedPartitionKeys : List String) (parentSnapshotId : ℕ) (operation : String)
  | getSnapshot (tableName : String) (snapshotId : ℕ)
  | listSnapshots (tableName : String) (limit : ℤ)
  | beginTransaction (clientId : String) (isolation : IsolationLevel)
  | commitTransaction (txnId : ℕ)
  | abortTransaction (txnId : ℕ)
  -- the registry's own operations
  | partitions (tableName : String) (snapshotId : ℕ)
  | partitionsPaged (tableName : String) (snapshotId : ℕ) (pageSize lastPartitionId : ℤ)
  | stats (tableName : String)
  | commit (tableName : String) (parentSnapshotId : ℕ) (operation : String)
      (newPartitions : List PartitionRow) (deletedPartitionKeys : List String)
deriving DecidableEq

structure TableMetadata where
  tableName : String
  schemaJson : String
  currentSnapshotId : ℕ
  schemaVersion : ℤ
  partitions : List PartitionInfo
  totalRowCount : ℤ
  totalSizeBytes : ℤ
deriving DecidableEq

structure SnapshotDetail where
  snapshotId : ℕ
  parentSnapshotId : ℕ
  operation : String
  addedPartitions : ℤ
  deletedPartitions : ℤ
  committedAt : ℕ
deriving DecidableEq

inductive Reply where
  | notFound (errorMsg : String)
  | operation (result : OperationResult)
  | metadata (table : TableMetadata)
  | tables (tables : List (String × ℕ))
  | partitionList (partitions : List PartitionInfo) (totalCount : ℤ) (nextPageToken : String)
  | partitionStats (stats : PartitionRegistry.PartitionStats)
  | snapshot (result : PartitionRegistry.CommitResult)
  | snapshotDetail (snapshot : SnapshotDetail)
  | snapshots (snapshots : List SnapshotDetail)
  | transaction (txnId readSnapshotId : ℕ)
  | rows (rows : Option (List PartitionRow))
deriving DecidableEq

def isBlank (c : Char) : Bool :=
  c = ' ' ∨ c = '\t' ∨ c = '\n' ∨ c = '\x0b' ∨ c = '\x0c' ∨ c = '\x0d'

/-- An optional sign, and what follows it. -/
def takeSign : List Char → Bool × List Char
  | '-' :: rest => (true, rest)
  | '+' :: rest => (false, rest)
  | rest => (false, rest)

/-- `std::stoll`: blanks, an optional sign, and digits up to the first other character. -/
def stoll (s : String) : Option ℤ :=
  let (negative, rest) := takeSign (s.toList.dropWhile isBlank)
  let digits := rest.takeWhile Char.isDigit
  if digits = [] then none
  else
    let value : ℕ := digits.foldl (fun n c => 10 * n + (c.toNat - '0'.toNat)) 0
    let signed : ℤ := if negative then -(value : ℤ) else value
    if -(2 ^ 63) ≤ signed ∧ signed < 2 ^ 63 then some signed else none

namespace PartitionRow

def toInfo (p : PartitionRow) : PartitionInfo where
  partitionKey := p.partitionKey
  dataFilePath := p.dataFilePath
  rowCount := p.rowCount
  sizeBytes := p.sizeBytes
  snapshotId := p.snapshotId
  fileFormat := p.fileFormat

end PartitionRow

/-- The row that `CommitSnapshot` builds; the fields the registry fills in are left at 0. -/
def PartitionInfo.toRow (p : PartitionInfo) : PartitionRow where
  partitionId := 0
  tableId := 0
  snapshotId := 0
  partitionKey := p.partitionKey
  dataFilePath := p.dataFilePath
  fileFormat := if p.fileFormat = "" then "parquet" else p.fileFormat
  rowCount := p.rowCount
  sizeBytes := p.sizeBytes
  columnStatsJson := "\x7b\x7d"

def SnapshotRow.toDetail (s : SnapshotRow) : SnapshotDetail where
  snapshotId := s.snapshotId
  parentSnapshotId := s.parentSnapshotId
  operation := s.operation
  addedPartitions := s.addedFilesCount
  deletedPartitions := s.deletedFilesCount
  committedAt := s.committedAt

/-- The properties as JSON text, without escapes. -/
def propertiesJson (properties : List (String × String)) : String :=
  if properties = [] then "\x7b\x7d"
  else
    let entries := properties.map fun (k, v) => "\"" ++ k ++ "\":\"" ++ v ++ "\""
    "\x7b" ++ ",".intercalate entries ++ "\x7d"

namespace MetadataServer

def createTable (tableName schemaJson partitionSpec : String)
    (properties : List (String × String)) : Code Reply := do
  let result ← CatalogManager.createTable tableName schemaJson partitionSpec
    (propertiesJson properties)
  return .operation result

def getTableMetadata (tableName : String) (requestedSnapshot : ℕ) : Code Reply := do
  match ← CatalogManager.getTable tableName with
  | none => return .notFound ("Table not found: " ++ tableName)
  | some table =>
    let readSnapshot ←
      if requestedSnapshot = 0 then atomically .loadSnapshot else pure requestedSnapshot
    let readSnapshot := if readSnapshot = 0 then table.currentSnapshotId else readSnapshot
    let parts ← PartitionRegistry.getPartitions tableName readSnapshot
    let parts := parts.getD []
    return .metadata {
      tableName := table.tableName
      schemaJson := table.schemaJson
      currentSnapshotId := readSnapshot
      schemaVersion := table.schemaVersion
      partitions := parts.map PartitionRow.toInfo
      totalRowCount := (parts.map PartitionRow.rowCount).sum
      totalSizeBytes := (parts.map PartitionRow.sizeBytes).sum }

/-- `AlterTable`. The new schema is checked only if the table is found, and a rejected
schema returns before the cache is invalidated. -/
def alterTable (tableName : String) : Alteration → Code Reply
  | .newSchemaJson newSchemaJson => do
    let current ← SchemaStore.getCurrentSchema tableName
    let err := current.elim "" fun c =>
      SchemaStore.validateSchemaChange c.schemaJson newSchemaJson
    if err ≠ "" then return .operation ⟨false, err⟩
    let result ← CatalogManager.alterTableSchema tableName newSchemaJson
      "schema evolution via AlterTable"
    let _ ← PartitionRegistry.invalidateTableCache tableName
    return .operation result
  | .rename newName => do
    let result ← CatalogManager.renameTable tableName newName
    let _ ← PartitionRegistry.invalidateTableCache tableName
    return .operation result
  | .newPartitionSpec _ => do
    let _ ← PartitionRegistry.invalidateTableCache tableName
    return .operation ⟨true, "partition spec update not yet implemented"⟩
  | .notSet => do
    let _ ← PartitionRegistry.invalidateTableCache tableName
    return .operation ⟨false, "No alteration specified"⟩

def dropTable (tableName : String) (purge : Bool) : Code Reply := do
  let result ← CatalogManager.dropTable tableName purge
  if result.success then
    let _ ← PartitionRegistry.invalidateTableCache tableName
  return .operation result

def listTables (pageSize : ℤ) (pageToken : String) : Code Reply := do
  let tables ← CatalogManager.listTables pageSize pageToken
  return .tables (tables.map fun t => (t.tableName, t.currentSnapshotId))

/-- The id after which a page starts. -/
def lastId (pageToken : String) : ℤ :=
  if pageToken = "" then 0 else (stoll pageToken).getD 0

def getPartitions (tableName : String) (snapshotId : ℕ) (pageSize : ℤ) (pageToken : String) :
    Code Reply := do
  let result ←
    if pageSize > 0 then
      PartitionRegistry.getPartitionsPaged tableName snapshotId pageSize (lastId pageToken)
    else PartitionRegistry.getPartitions tableName snapshotId
  match result with
  | none => return .notFound ("Table not found: " ++ tableName)
  | some rows =>
    let nextPageToken := if pageSize > 0 then
      (rows.getLast?.map fun p => toString p.partitionId).getD "" else ""
    return .partitionList (rows.map PartitionRow.toInfo) rows.length nextPageToken

def getPartitionStats (tableName : String) : Code Reply := do
  let stats ← PartitionRegistry.getStats tableName
  return .partitionStats stats

def commitSnapshot (tableName : String) (newPartitions : List PartitionInfo)
    (deletedPartitionKeys : List String) (parentSnapshotId : ℕ) (operation : String) :
    Code Reply := do
  let result ← PartitionRegistry.commitSnapshot tableName parentSnapshotId
    (if operation = "" then "append" else operation) (newPartitions.map PartitionInfo.toRow)
    deletedPartitionKeys
  return .snapshot result

def getSnapshot (tableName : String) (snapshotId : ℕ) : Code Reply :=
  withConnection fun conn => do
    match ← PgClient.getSnapshot conn tableName snapshotId with
    | none => return .notFound "Snapshot not found"
    | some snap => return .snapshotDetail snap.toDetail

def listSnapshots (tableName : String) (limit : ℤ) : Code Reply :=
  withConnection fun conn => do
    let snapshots ← PgClient.listSnapshots conn tableName limit
    return .snapshots (snapshots.map SnapshotRow.toDetail)

/-- `begin_transaction`: the draw of the id, the load and the insertion are separate. -/
def mvccBegin : Code (ℕ × ℕ) := do
  let txnId ← atomically .fetchAddTxnId
  let readSnapshot ← atomically .loadSnapshot
  atomically (.registerTransaction txnId readSnapshot)
  return (txnId, readSnapshot)

def beginTransaction (clientId : String) (isolation : IsolationLevel) : Code Reply := do
  let (txnId, readSnapshot) ← mvccBegin
  withConnection fun conn => do
    let _ ← PgClient.insertTransaction conn clientId readSnapshot
      (match isolation with
        | .readCommitted => "read_committed"
        | .snapshot => "snapshot")
    return .transaction txnId readSnapshot

def commitTransaction (txnId : ℕ) : Code Reply := do
  if ← atomically (.commitTransaction txnId) then
    let _ ← withConnection fun conn => PgClient.updateTransactionStatus conn txnId "committed"
    return .operation { success := true }
  else
    return .operation ⟨false, "Transaction " ++ toString txnId ++ " not found or expired"⟩

def abortTransaction (txnId : ℕ) : Code Reply := do
  atomically (.abortTransaction txnId)
  withConnection fun conn => do
    let _ ← PgClient.updateTransactionStatus conn txnId "aborted"
    return .operation { success := true }

end MetadataServer

/-- The code of a request. -/
def Request.code : Request → Code Reply
  | createTable tableName schemaJson partitionSpec properties =>
    MetadataServer.createTable tableName schemaJson partitionSpec properties
  | getTableMetadata tableName snapshotId => MetadataServer.getTableMetadata tableName snapshotId
  | alterTable tableName alteration => MetadataServer.alterTable tableName alteration
  | dropTable tableName purge => MetadataServer.dropTable tableName purge
  | listTables pageSize pageToken => MetadataServer.listTables pageSize pageToken
  | getPartitions tableName snapshotId pageSize pageToken =>
    MetadataServer.getPartitions tableName snapshotId pageSize pageToken
  | getPartitionStats tableName => MetadataServer.getPartitionStats tableName
  | commitSnapshot tableName newPartitions deletedPartitionKeys parentSnapshotId operation =>
    MetadataServer.commitSnapshot tableName newPartitions deletedPartitionKeys parentSnapshotId
      operation
  | getSnapshot tableName snapshotId => MetadataServer.getSnapshot tableName snapshotId
  | listSnapshots tableName limit => MetadataServer.listSnapshots tableName limit
  | beginTransaction clientId isolation => MetadataServer.beginTransaction clientId isolation
  | commitTransaction txnId => MetadataServer.commitTransaction txnId
  | abortTransaction txnId => MetadataServer.abortTransaction txnId
  | partitions tableName snapshotId =>
    (PartitionRegistry.getPartitions tableName snapshotId).bind fun r => .ret (.rows r)
  | partitionsPaged tableName snapshotId pageSize lastPartitionId =>
    (PartitionRegistry.getPartitionsPaged tableName snapshotId pageSize lastPartitionId).bind
      fun r => .ret (.rows r)
  | stats tableName =>
    (PartitionRegistry.getStats tableName).bind fun r => .ret (.partitionStats r)
  | commit tableName parentSnapshotId operation newPartitions deletedPartitionKeys =>
    (PartitionRegistry.commitSnapshot tableName parentSnapshotId operation newPartitions
      deletedPartitionKeys).bind fun r => .ret (.snapshot r)

/-- Which requests are made and how the database may answer them. -/
structure Policy where
  admits : Request → Bool
  allows : Request → Act → Outcome → Bool

/-- One server with its database. -/
def server (pg : Postgres) (policy : Policy) : System Act Act.Result Request Reply Outcome Server where
  code := Request.code
  admits := policy.admits
  perform := Server.perform pg
  allows := policy.allows
  drifts := Server.Drifts

end IceLog
