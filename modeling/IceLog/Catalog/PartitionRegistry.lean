import IceLog.Db.PgClient
import IceLog.Server.Guards

/-! Listing the partitions of a table, and committing snapshots of it. -/
namespace IceLog.PartitionRegistry

variable (tableName : String)

def makeCacheKey (snapshotId : ℕ) : String := tableName ++ ":" ++ toString snapshotId

def invalidateTableCache : Code ℕ := atomically (.cacheInvalidate (tableName ++ ":"))

/-- A read at 0 is a read at the latest snapshot: the one of the transaction counter, or while
that is 0 the current one of the table. -/
def readSnapshot (snapshotId : ℕ) : Code ℕ := do
  let readSnap ← if snapshotId = 0 then atomically .loadSnapshot else pure snapshotId
  if readSnap = 0 then
    withConnection fun conn => PgClient.getCurrentSnapshot conn tableName
  else
    return readSnap

def getPartitions (snapshotId : ℕ) : Code (Option (List PartitionRow)) :=
  withShared tableName do
    let readSnap ← readSnapshot tableName snapshotId
    let key := makeCacheKey tableName readSnap
    match ← atomically (.cacheGet key) with
    | some cached => return some cached
    | none =>
      withConnection fun conn => do
        match ← PgClient.queryPartitions conn tableName readSnap with
        | none => return none
        | some result =>
          atomically (.cachePut key result)
          return some result

def getPartitionsPaged (snapshotId : ℕ) (pageSize lastPartitionId : ℤ) :
    Code (Option (List PartitionRow)) :=
  withShared tableName do
    let readSnap ← readSnapshot tableName snapshotId
    withConnection fun conn =>
      PgClient.queryPartitionsPaged conn tableName readSnap pageSize lastPartitionId

structure PartitionStats where
  totalPartitions : ℤ := 0
  totalRows : ℤ := 0
  totalBytes : ℤ := 0
  avgSizeBytes : ℤ := 0
deriving DecidableEq

/-- The loop of `get_stats` over the partitions. -/
def sumStats (parts : List PartitionRow) : PartitionStats :=
  let stats : PartitionStats := parts.foldl (fun stats p =>
    { stats with
      totalRows := stats.totalRows + p.rowCount
      totalBytes := stats.totalBytes + p.sizeBytes })
    { totalPartitions := parts.length }
  if stats.totalPartitions > 0 then
    { stats with avgSizeBytes := stats.totalBytes.tdiv stats.totalPartitions }
  else stats

def getStats : Code PartitionStats :=
  withShared tableName do
    let snap ← atomically .loadSnapshot
    withConnection fun conn => do
      let snap ← if snap = 0 then PgClient.getCurrentSnapshot conn tableName else pure snap
      match ← PgClient.queryPartitions conn tableName snap with
      | none => return {}
      | some parts => return sumStats parts

structure CommitResult where
  success : Bool
  snapshotId : ℕ := 0
  errorMsg : String := ""
deriving DecidableEq

/-- The loop over the new partitions; the first one that cannot be inserted ends it. -/
def insertPartitions (conn : Conn) (newSnap : ℕ) :
    List PartitionRow → Code (Option PartitionRow)
  | [] => return none
  | part :: rest => do
    if ← PgClient.insertPartition conn tableName newSnap part then
      insertPartitions conn newSnap rest
    else
      return some part

/-- The loop over the deleted keys. -/
def markPartitionsDeleted (conn : Conn) (newSnap : ℕ) : List String → Code (Option String)
  | [] => return none
  | key :: rest => do
    if ← PgClient.markPartitionDeleted conn tableName key newSnap then
      markPartitionsDeleted conn newSnap rest
    else
      return some key

/-- `ROLLBACK` and the error. -/
def rollback (conn : Conn) (errorMsg : String) : Code CommitResult := do
  let _ ← exec conn .rollback
  return { success := false, errorMsg := errorMsg }

def commitSnapshot (parentSnapshotId : ℕ) (operation : String)
    (newPartitions : List PartitionRow) (deletedPartitionKeys : List String) :
    Code CommitResult :=
  withExclusive tableName <| withConnection fun conn => do
    let currentSnap ← PgClient.getCurrentSnapshot conn tableName
    if !MVCCManager.validateParentSnapshot parentSnapshotId currentSnap then
      return {
        success := false
        errorMsg := "Conflict: snapshot " ++ toString parentSnapshotId ++
          " is no longer current (current=" ++ toString currentSnap ++ ")" }
    let _ ← exec conn .begin
    let newSnap ← PgClient.insertSnapshot conn tableName parentSnapshotId operation
      (toInt32 newPartitions.length) (toInt32 deletedPartitionKeys.length)
    if newSnap = 0 then
      return ← rollback conn "Failed to insert snapshot record"
    match ← insertPartitions tableName conn newSnap newPartitions with
    | some part => rollback conn ("Failed to insert partition: " ++ part.partitionKey)
    | none =>
      match ← markPartitionsDeleted tableName conn newSnap deletedPartitionKeys with
      | some key => rollback conn ("Failed to mark partition deleted: " ++ key)
      | none =>
        if !(← PgClient.updateTableSnapshot conn tableName newSnap) then
          return ← rollback conn "Failed to update table snapshot pointer"
        let _ ← exec conn .commit
        let _ ← invalidateTableCache tableName
        return { success := true, snapshotId := newSnap }

end IceLog.PartitionRegistry
