import IceLog.Db.PgClient
import IceLog.Server.Guards

/-! Reads of a table's schema and the check of a proposed one. -/
namespace IceLog.SchemaStore

variable (tableName : String)

def getCurrentSchema : Code (Option SchemaVersion) :=
  withShared tableName <| withConnection fun conn => do
    match ← PgClient.getTable conn tableName with
    | none => return none
    | some table => return some ⟨table.schemaVersion, table.schemaJson, none, "current"⟩

def getSchemaAtVersion (version : ℤ) : Code (Option SchemaVersion) :=
  withShared tableName <| withConnection fun conn => do
    match ← PgClient.getTableId conn tableName with
    | none => return none
    | some tableId =>
      let res ← execParams conn (.selectHistoryAt tableId version)
      return res.first

def listSchemaHistory : Code (List SchemaVersion) :=
  withShared tableName <| withConnection fun conn => do
    match ← PgClient.getTableId conn tableName with
    | none => return []
    | some tableId =>
      let res ← execParams conn (.selectHistory tableId)
      return res.all.getD []

/-- The error, or nothing if the change is valid. -/
def validateSchemaChange (_currentJson proposedJson : String) : String :=
  if proposedJson = "" ∨ proposedJson = "\x7b\x7d" then "Proposed schema cannot be empty"
  else if proposedJson.toList.head? ≠ some '\x7b' ∨ proposedJson.toList.getLast? ≠ some '\x7d' then
    "Proposed schema must be valid JSON object"
  else ""

end IceLog.SchemaStore
