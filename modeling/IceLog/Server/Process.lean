import IceLog.Concurrency.Refinement
import IceLog.Lock.LockManager
import IceLog.Server.Runs

/-! The process behind the server: the lock manager with its two kinds of mutexes, and the pool
with its mutex and its condition variable. Each table lock and each use of the pool is taken and
given back in several steps; a statement, and a critical section of the cache or of the
transaction table, is one step. -/
namespace IceLog

open Interleaved

/-- The queue of the pool, the mutex that guards it, and the threads that wait on `cv_`. -/
structure PoolMonitor where
  mutex : Option ℕ := none
  sleeping : Finset ℕ := ∅
  /-- The threads that have been woken and do not have the mutex back. -/
  woken : Finset ℕ := ∅
  queue : List Conn
  /-- The connection that the owner of the mutex has popped and not yet handed out. -/
  popped : Option Conn := none

structure Process where
  locks : LockManager := {}
  pool : PoolMonitor
  holder : Conn → Option ℕ := fun _ => none
  backend : Backend
  mvcc : MVCCManager
  cache : Cache String (List PartitionRow)
  steadyClock : ℕ := 0

/-- Where a thread is in an action. -/
inductive Pc where
  | start
  | registry
  | missing
  | found (mutex : ℕ)
  | outside (mutex : ℕ)
  | unlocked
  /-- `release_shared` or `release_exclusive` has thrown, in the destructor of a guard. -/
  | terminated
  | pool
  | waiting
  | ready
  | popped (conn : Conn)
  | invalid (conn : Conn)
  | taken (conn : Option Conn)
  | pushing
  | pushed
  | notified
deriving DecidableEq

/-- The outcome of an action, and the thread that `notify_one` wakes. -/
structure Choice where
  outcome : Outcome
  woken : ℕ := 0

namespace Process

variable (p : Process)

/-- What the process comes to between two actions: a connection that is popped and not yet handed
out is still in the queue. -/
def toServer : Server where
  tableLocks := p.locks.lockOf
  availableConnections := p.pool.popped.toList ++ p.pool.queue
  holder := p.holder
  backend := p.backend
  mvcc := p.mvcc
  cache := p.cache
  steadyClock := p.steadyClock

/-- The process with the database, the transaction table and the cache of `s`. -/
def withMemory (s : Server) : Process :=
  { p with backend := s.backend, mvcc := s.mvcc, cache := s.cache }

def setRegistry (owner : Option ℕ) : Process := { p with locks := p.locks.setRegistry owner }

def setMutex (m : ℕ) (x : SharedMutex) : Process := { p with locks := p.locks.setMutex m x }

def setPool (owner : Option ℕ) : Process := { p with pool := { p.pool with mutex := owner } }

def wake (j : ℕ) : Process :=
  { p with pool := { p.pool with
      sleeping := p.pool.sleeping.erase j, woken := insert j p.pool.woken } }

/-- `std::lock_guard reg_lock(registry_mutex_)`. -/
def lockRegistry (i : ℕ) : Option (Pc × Process) :=
  if p.locks.registryMutex = none then some (.registry, p.setRegistry (some i)) else none

/-- `std::unique_lock lock(mutex_)`, or a `lock_guard`. -/
def lockPool (i : ℕ) (next : Pc) : Option (Pc × Process) :=
  if p.pool.mutex = none then some (next, p.setPool (some i)) else none

def getOrCreate (i : ℕ) (t : String) : Pc → Option (Pc × Process)
  | .start => p.lockRegistry i
  | .registry =>
    match p.locks.tableLocks t with
    | none => some (.missing, p)
    | some m => some (.found m, p)
  | .missing => some (.found (p.locks.emplace t).1, { p with locks := (p.locks.emplace t).2 })
  | .found m => some (.outside m, p.setRegistry none)
  | _ => none

/-- `acquire_shared` and `acquire_exclusive`, which differ in how they lock the mutex. -/
def acquireWith (lock : SharedMutex → Option SharedMutex) (i : ℕ) (t : String) :
    Pc → Option ((Pc ⊕ Unit) × Process)
  | .outside m => (lock (p.locks.mutex m)).map fun x => (.inr (), p.setMutex m x)
  | pc => (p.getOrCreate i t pc).map fun (pc, p) => (.inl pc, p)

def acquireShared (i : ℕ) : String → Pc → Option ((Pc ⊕ Unit) × Process) :=
  p.acquireWith (fun m => m.lockShared i) i

def acquireExclusive (i : ℕ) : String → Pc → Option ((Pc ⊕ Unit) × Process) :=
  p.acquireWith (fun m => m.lock i) i

/-- `release_shared` and `release_exclusive`, which differ in how they unlock the mutex. -/
def releaseWith (unlock : SharedMutex → SharedMutex) (i : ℕ) (t : String) :
    Pc → Option ((Pc ⊕ Unit) × Process)
  | .start => (p.lockRegistry i).map fun (pc, p) => (.inl pc, p)
  | .registry =>
    match p.locks.tableLocks t with
    | none => some (.inl .terminated, p)
    | some m => some (.inl (.found m), p)
  | .found m => some (.inl .unlocked, p.setMutex m (unlock (p.locks.mutex m)))
  | .unlocked => some (.inr (), p.setRegistry none)
  | _ => none

def releaseShared (i : ℕ) : String → Pc → Option ((Pc ⊕ Unit) × Process) :=
  p.releaseWith (fun m => m.unlockShared i) i

def releaseExclusive (i : ℕ) : String → Pc → Option ((Pc ⊕ Unit) × Process) :=
  p.releaseWith SharedMutex.unlock i

/-- The connection is handed out; nothing is popped any more. -/
def handOut (i : ℕ) (c : Conn) (b : Backend) : Process :=
  { p with
    pool := { p.pool with popped := none }
    holder := Function.update p.holder c (some i)
    backend := b }

/-- `ConnectionPool::acquire`. The wait gives up the mutex and sleeps in one step; it ends when
the thread is woken, perhaps for no reason, and the mutex is free. -/
def acquire (o : Outcome) (i : ℕ) : Pc → Option ((Pc ⊕ Option Conn) × Process)
  | .start => (p.lockPool i .pool).map fun (pc, p) => (.inl pc, p)
  | .pool =>
    if p.pool.queue = [] then
      some (.inl .waiting, { p with pool := { p.pool with
        mutex := none, sleeping := insert i p.pool.sleeping } })
    else some (.inl .ready, p)
  | .waiting =>
    if i ∈ p.pool.woken ∧ p.pool.mutex = none then
      some (.inl .pool, { p with pool := { p.pool with
        mutex := some i, woken := p.pool.woken.erase i } })
    else none
  | .ready =>
    match p.pool.queue with
    | [] => none
    | c :: rest =>
      some (.inl (.popped c), { p with pool := { p.pool with queue := rest, popped := some c } })
  | .popped c => -- `validate_connection`
    match p.backend.session c, o with
    | .broken, .reset c' =>
      if c' = c then
        some (.inl (.taken (some c)), p.handOut i c (p.backend.setSession c .idle))
      else none
    | .broken, .replaced c' | .broken, .refused c' =>
      if c' = c then some (.inl (.invalid c), p) else none
    | .broken, _ => none
    | _, .answer .ok => some (.inl (.taken (some c)), p.handOut i c p.backend)
    | _, _ => none
  | .invalid c => -- `create_connection`
    match o with
    | .replaced c' =>
      if c' = c then
        let d := p.backend.opened
        some (.inl (.taken (some d)),
          p.handOut i d ({ p.backend with opened := d + 1 }.setSession d .idle))
      else none
    | .refused c' =>
      if c' = c then
        some (.inl (.taken none), { p with pool := { p.pool with popped := none } })
      else none
    | _ => none
  | .taken r => some (.inr r, p.setPool none)
  | _ => none

/-- `ConnectionPool::release`. -/
def release (woken i : ℕ) (c : Conn) : Pc → Option ((Pc ⊕ Unit) × Process)
  | .start => (p.lockPool i .pushing).map fun (pc, p) => (.inl pc, p)
  | .pushing => some (.inl .pushed, { p with
      pool := { p.pool with queue := p.pool.queue ++ [c] }
      holder := Function.update p.holder c none })
  | .pushed =>
    if p.pool.sleeping = ∅ then some (.inl .notified, p)
    else if woken ∈ p.pool.sleeping then some (.inl .notified, p.wake woken)
    else none
  | .notified => some (.inr (), p.setPool none)
  | _ => none

/-- One step of the thread `i` in an action; nothing if it blocks. -/
def step (pg : Postgres) (o : Choice) (i : ℕ) : (a : Act) → Pc → Process →
    Option ((Pc ⊕ a.Result) × Process)
  | .lockShared t, pc, p => p.acquireShared i t pc
  | .unlockShared t, pc, p => p.releaseShared i t pc
  | .lockExclusive t, pc, p => p.acquireExclusive i t pc
  | .unlockExclusive t, pc, p => p.releaseExclusive i t pc
  | .acquire, pc, p => p.acquire o.outcome i pc
  | .release c, pc, p => p.release o.woken i c pc
  | a, .start, p =>
    (Server.perform pg o.outcome i a p.toServer).map fun (r, s) => (.inr r, p.withMemory s)
  | _, _, _ => none

/-- Both clocks may advance, and a thread that sleeps may wake for no reason. -/
inductive Drifts (p : Process) : Process → Prop
  | clocks {steady clock : ℕ} : p.steadyClock ≤ steady → p.backend.clock ≤ clock →
      Drifts p { p with steadyClock := steady, backend := { p.backend with clock := clock } }
  | spurious {j : ℕ} : j ∈ p.pool.sleeping → Drifts p (p.wake j)

end Process

/-- The process of one server with its database. -/
def process (pg : Postgres) (policy : Policy) :
    Machine Act Act.Result Request Reply Choice Pc Process where
  code := Request.code
  admits := policy.admits
  start := .start
  step := Process.step pg
  allows q a o := policy.allows q a o.outcome
  drifts := Process.Drifts

end IceLog
