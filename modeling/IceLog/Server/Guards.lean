import IceLog.Server.State

/-! The scopes that hold a table lock or a pooled connection. -/
namespace IceLog

open Interleaved

variable {α : Type}

/-- `auto guard = locks_.scoped_shared(table_name)` and the scope after it. -/
def withShared (table : String) (body : Code α) : Code α := do
  atomically (.lockShared table)
  body.guarded (atomically (.unlockShared table))

/-- `auto guard = locks_.scoped_exclusive(table_name)` and the scope after it. -/
def withExclusive (table : String) (body : Code α) : Code α := do
  atomically (.lockExclusive table)
  body.guarded (atomically (.unlockExclusive table))

/-- `auto conn = pool_.acquire()` and the scope after it. -/
def withConnection (body : Conn → Code α) : Code α := do
  match ← atomically .acquire with
  | none => .throw
  | some conn => (body conn).guarded (atomically (.release conn))

end IceLog
