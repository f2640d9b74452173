import IceLog.Db.PgClient
import IceLog.Server.Guards

/-! The table catalog: each operation takes the locks of the names it is given, then a
connection. -/
namespace IceLog

/-- The result of a catalog operation: `success` and `error_msg`. -/
structure OperationResult where
  success : Bool
  errorMsg : String := ""
deriving DecidableEq

namespace CatalogManager

variable (tableName : String)

def createTable (schemaJson partitionSpec propertiesJson : String) : Code OperationResult :=
  withExclusive tableName <| withConnection fun conn => do
    if ← PgClient.createTable conn tableName schemaJson partitionSpec propertiesJson then
      return { success := true }
    else
      return ⟨false, "Failed to create table (may already exist): " ++ tableName⟩

def getTable : Code (Option TableRow) :=
  withShared tableName <| withConnection fun conn => PgClient.getTable conn tableName

def alterTableSchema (newSchemaJson changeSummary : String) : Code OperationResult :=
  withExclusive tableName <| withConnection fun conn => do
    match ← PgClient.getTable conn tableName with
    | none => return ⟨false, "Table not found: " ++ tableName⟩
    | some existing =>
      let newVersion := toInt32 (existing.schemaVersion + 1)
      let _ ← exec conn .begin
      if ← PgClient.updateTableSchema conn tableName newSchemaJson newVersion changeSummary then
        let _ ← exec conn .commit
        return { success := true }
      else
        let _ ← exec conn .rollback
        return ⟨false, "Failed to update schema for: " ++ tableName⟩

/-- The two locks are taken in the order in which the client names the tables. -/
def renameTable (oldName newName : String) : Code OperationResult :=
  withExclusive oldName <| withExclusive newName <| withConnection fun conn => do
    if ← PgClient.renameTable conn oldName newName then
      return { success := true }
    else
      return ⟨false, "Failed to rename " ++ oldName ++ " to " ++ newName⟩

def dropTable (purge : Bool) : Code OperationResult :=
  withExclusive tableName <| withConnection fun conn => do
    let _ ← exec conn .begin
    if ← PgClient.dropTable conn tableName purge then
      let _ ← exec conn .commit
      return { success := true }
    else
      let _ ← exec conn .rollback
      return ⟨false, "Failed to drop table: " ++ tableName⟩

def listTables (pageSize : ℤ) (pageToken : String) : Code (List TableRow) :=
  withConnection fun conn => PgClient.listTables conn pageSize pageToken

end CatalogManager
end IceLog
