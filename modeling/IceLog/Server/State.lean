import IceLog.Cache.LruCache
import IceLog.Concurrency.World
import IceLog.Db.Backend
import IceLog.Transaction.MvccManager

/-! The state that the requests of one server share, and the atomic actions on it: a table lock,
a pooled connection, a statement, one critical section of the cache or of the transaction
table. -/
namespace IceLog

open Interleaved

/-- A `std::shared_mutex`. -/
structure SharedMutex where
  writer : Option ℕ := none
  readers : Finset ℕ := ∅

namespace SharedMutex

variable (m : SharedMutex) (i : ℕ)

def lock : Option SharedMutex :=
  if m.writer = none ∧ m.readers = ∅ then some { m with writer := some i } else none

def lockShared : Option SharedMutex :=
  if m.writer = none then some { m with readers := insert i m.readers } else none

def unlock : SharedMutex := { m with writer := none }

def unlockShared : SharedMutex := { m with readers := m.readers.erase i }

end SharedMutex

structure Server where
  /-- The locks that `get_or_create` has made are those in use; any other is as if new. -/
  tableLocks : String → SharedMutex := fun _ => {}
  availableConnections : List Conn
  /-- The thread whose handle owns a connection. -/
  holder : Conn → Option ℕ := fun _ => none
  backend : Backend
  mvcc : MVCCManager
  cache : Cache String (List PartitionRow)
  steadyClock : ℕ := 0

inductive Act where
  | lockShared (table : String)
  | unlockShared (table : String)
  | lockExclusive (table : String)
  | unlockExclusive (table : String)
  | acquire
  | release (conn : Conn)
  | exec (conn : Conn) (k : Command)
  | execParams (conn : Conn) (q : Sql)
  | cacheGet (key : String)
  | cachePut (key : String) (rows : List PartitionRow)
  | cacheInvalidate (keyPrefix : String)
  | fetchAddTxnId
  | loadSnapshot
  | registerTransaction (txnId readSnapshot : ℕ)
  | commitTransaction (txnId : ℕ)
  | abortTransaction (txnId : ℕ)

/-- What an action answers; a failed `acquire` answers nothing. -/
abbrev Act.Result : Act → Type
  | lockShared _ | unlockShared _ | lockExclusive _ | unlockExclusive _ => Unit
  | acquire => Option Conn
  | release _ => Unit
  | exec _ _ => Bool
  | execParams _ q => PGresult q.Row
  | cacheGet _ => Option (List PartitionRow)
  | cachePut _ _ => Unit
  | cacheInvalidate _ | fetchAddTxnId | loadSnapshot => ℕ
  | registerTransaction _ _ => Unit
  | commitTransaction _ => Bool
  | abortTransaction _ => Unit

/-- What the surroundings decide about an action. -/
inductive Outcome where
  /-- The database answers, or a connection is found valid. -/
  | answer (a : Answer)
  /-- `PQreset` works. -/
  | reset (conn : Conn)
  /-- The connection is given up and another one is made in its place. -/
  | replaced (conn : Conn)
  /-- The connection is given up and no other can be made. -/
  | refused (conn : Conn)
  /-- The number of spurious failures of a compare-and-swap loop. -/
  | spurious (failures : ℕ)
deriving DecidableEq

abbrev Outcome.ok : Outcome := .answer .ok

namespace Server

variable (s : Server)

def setLock (table : String) (m : SharedMutex) : Server :=
  { s with tableLocks := Function.update s.tableLocks table m }

/-- `acquire` for the thread `i`: the front of the queue, once it is validated. -/
def acquire (i : ℕ) (o : Outcome) : Option (Option Conn × Server) :=
  match s.availableConnections with
  | [] => none
  | c :: rest =>
    let s := { s with availableConnections := rest }
    match s.backend.session c, o with
    | .broken, .reset c' =>
      if c' = c then
        some (some c, { s with
          holder := Function.update s.holder c (some i), backend := s.backend.setSession c .idle })
      else none
    | .broken, .replaced c' =>
      if c' = c then
        let d := s.backend.opened
        some (some d, { s with
          holder := Function.update s.holder d (some i)
          backend := { s.backend with opened := d + 1 }.setSession d .idle })
      else none
    | .broken, .refused c' => if c' = c then some (none, s) else none
    | .broken, _ => none
    | _, .answer .ok => some (some c, { s with holder := Function.update s.holder c (some i) })
    | _, _ => none

def release (c : Conn) : Server :=
  { s with
    availableConnections := s.availableConnections ++ [c]
    holder := Function.update s.holder c none }

/-- One action of the thread `i`; nothing if it blocks. -/
def perform (pg : Postgres) (o : Outcome) (i : ℕ) : (a : Act) → Server →
    Option (a.Result × Server)
  | .lockShared table, s =>
    ((s.tableLocks table).lockShared i).map fun m => ((), s.setLock table m)
  | .unlockShared table, s => some ((), s.setLock table ((s.tableLocks table).unlockShared i))
  | .lockExclusive table, s =>
    ((s.tableLocks table).lock i).map fun m => ((), s.setLock table m)
  | .unlockExclusive table, s => some ((), s.setLock table (s.tableLocks table).unlock)
  | .acquire, s => s.acquire i o
  | .release c, s => some ((), s.release c)
  | .exec c k, s =>
    match o with
    | .answer a =>
      let (r, b) := s.backend.exec c k a
      some (r, { s with backend := b })
    | _ => none
  | .execParams c q, s =>
    match o with
    | .answer a => (s.backend.execParams c pg q a).map fun (r, b) => (r, { s with backend := b })
    | _ => none
  | .cacheGet key, s =>
    let (r, cache) := s.cache.get key
    some (r, { s with cache := cache })
  | .cachePut key rows, s => (s.cache.put key rows).map fun cache => ((), { s with cache := cache })
  | .cacheInvalidate keyPrefix, s =>
    let (cache, removed) := s.cache.invalidateIf fun key => keyPrefix.toList.isPrefixOf key.toList
    some (removed, { s with cache := cache })
  | .fetchAddTxnId, s =>
    let (txnId, mvcc) := s.mvcc.fetchAddTxnId
    some (txnId, { s with mvcc := mvcc })
  | .loadSnapshot, s => some (s.mvcc.getLatestCommittedSnapshot, s)
  | .registerTransaction txnId readSnapshot, s =>
    some ((), { s with mvcc := s.mvcc.registerTransaction s.steadyClock txnId readSnapshot })
  | .commitTransaction txnId, s =>
    match o with
    | .spurious failures =>
      let (ok, mvcc) := s.mvcc.commitTransaction failures s.steadyClock txnId
      some (ok, { s with mvcc := mvcc })
    | _ => none
  | .abortTransaction txnId, s => some ((), { s with mvcc := s.mvcc.abortTransaction txnId })

/-- Both clocks may advance. -/
def Drifts (s s' : Server) : Prop :=
  ∃ steady clock, s.steadyClock ≤ steady ∧ s.backend.clock ≤ clock ∧
    s' = { s with steadyClock := steady, backend := { s.backend with clock := clock } }

end Server

/-- The code that runs on a thread of the server. -/
abbrev Code (α : Type) : Type := Prog Act Act.Result α

abbrev atomically (a : Act) : Code a.Result := Prog.perform a

end IceLog
