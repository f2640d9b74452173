import Mathlib.Logic.Function.Basic
import IceLog.Db.Sql

/-! The database server: committed rows, and for each connection what its session is in the
middle of. Statements outside a transaction commit by themselves. -/
namespace IceLog

open Serial

/-- A `PGconn *`. -/
abbrev Conn := ℕ

inductive Session where
  | idle
  | inTransaction (startedAt : ℕ) (changes : Changes)
  | aborted
  | broken

/-- Outside any transaction. -/
def Session.Closed : Session → Prop
  | .idle | .broken => True
  | .inTransaction .. | .aborted => False

/-- The statements that are sent by `PQexec`. -/
inductive Command where
  | begin
  | commit
  | rollback
deriving DecidableEq

/-- The server runs a statement, reports an error, is gone, or runs it and is gone before its
answer arrives. A statement that fails may or may not have drawn from its sequence. -/
inductive Answer where
  | ok
  | fail (drawn : Bool)
  | lost (drawn : Bool)
  | unheard
deriving DecidableEq

structure Backend where
  db : Db
  session : Conn → Session := fun _ => .idle
  /-- The number of connections made so far. -/
  opened : ℕ
  clock : ℕ := 0

namespace Backend

variable (b : Backend) (c : Conn)

def setSession (s : Session) : Backend := { b with session := Function.update b.session c s }

def burn (drawn : Bool) (q : Sql) : Backend := if drawn then { b with db := q.draw b.db } else b

/-- Another open transaction has changed a row that `p` changes: its row lock is taken. -/
def waits (p : Changes) : Bool :=
  (List.range b.opened).any fun d => d != c && match b.session d with
    | .inTransaction _ q => !p.apart b.db q
    | _ => false

/-- `PQexec` of `BEGIN`, `COMMIT` or `ROLLBACK`, and whether it is answered by success. A
connection on which `BEGIN` fails is of no use any more. -/
def exec (k : Command) (a : Answer) : Bool × Backend :=
  match b.session c, a with
  | .broken, _ => (false, b)
  | _, .lost _ => (false, b.setSession c .broken)
  | .inTransaction _ p, .unheard =>
    match k with
    | .commit => (false, { b with db := b.db.apply p }.setSession c .broken)
    | _ => (false, b.setSession c .broken)
  | _, .unheard => (false, b.setSession c .broken)
  | .idle, .ok =>
    match k with
    | .begin => (true, b.setSession c (.inTransaction b.clock {}))
    | _ => (true, b)
  | .idle, .fail _ =>
    match k with
    | .begin => (false, b.setSession c .broken)
    | _ => (false, b)
  | .inTransaction _ p, .ok =>
    match k with
    | .begin => (true, b)
    | .commit => (true, { b with db := b.db.apply p }.setSession c .idle)
    | .rollback => (true, b.setSession c .idle)
  | .aborted, .ok =>
    match k with
    | .begin => (false, b)
    | _ => (true, b.setSession c .idle)
  | _, .fail _ =>
    match k with
    | .begin => (false, b.setSession c .aborted)
    | .commit => (false, b.setSession c .idle)
    | .rollback => (false, b.setSession c .broken)

/-- `PQexecParams`; nothing while it waits for a row lock. -/
def execParams (pg : Postgres) (q : Sql) (a : Answer) : Option (PGresult q.Row × Backend) :=
  match b.session c, a with
  | .broken, _ => some (.error, b)
  | .aborted, .lost _ | .aborted, .unheard => some (.error, b.setSession c .broken)
  | .aborted, _ => some (.error, b)
  | .idle, .lost drawn => some (.error, (b.burn drawn q).setSession c .broken)
  | .idle, .fail drawn => some (.error, b.burn drawn q)
  | .idle, .ok =>
    match q.run pg b.clock b.db with
    | none => some (.error, b.burn true q)
    | some (r, p) =>
      if b.waits c p then none else some (r, { b with db := (q.draw b.db).apply p })
  | .idle, .unheard =>
    match q.run pg b.clock b.db with
    | none => some (.error, (b.burn true q).setSession c .broken)
    | some (_, p) =>
      if b.waits c p then none
      else some (.error, { b with db := (q.draw b.db).apply p }.setSession c .broken)
  | .inTransaction _ _, .lost drawn => some (.error, (b.burn drawn q).setSession c .broken)
  | .inTransaction _ _, .unheard => some (.error, (b.burn true q).setSession c .broken)
  | .inTransaction _ _, .fail drawn => some (.error, (b.burn drawn q).setSession c .aborted)
  | .inTransaction t p, .ok =>
    match q.run pg t (b.db.apply p) with
    | none => some (.error, (b.burn true q).setSession c .aborted)
    | some (r, p') =>
      if b.waits c p' then none
      else some (r, { b with db := q.draw b.db }.setSession c (.inTransaction t (p.andThen p')))

end Backend
end IceLog
