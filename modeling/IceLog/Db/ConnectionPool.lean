import IceLog.Data.Custody
import IceLog.Db.Backend

/-! The connection pool and the handles on its connections, one step for each stretch of code
between two points where another thread can look at the pool. A handle is in use by one thread
at a time. -/
namespace IceLog

structure ConnectionHandle where
  conn : Option Conn := none
  /-- `pool_` is not null. -/
  pool : Bool := false
deriving DecidableEq

/-- `operator=` gives back what the handle has before it takes over what `other` has. -/
inductive HandleStage where
  | idle
  | assignedFrom (other : ℕ)
  | source
deriving DecidableEq

structure ConnectionPool where
  poolSize : ℕ
  availableConnections : List Conn := []
  /-- The connections that were made and are not finished. -/
  opened : Finset Conn := ∅
  /-- The handles that are alive. -/
  live : Finset ℕ := ∅
  handle : ℕ → ConnectionHandle := fun _ => {}
  stage : ℕ → HandleStage := fun _ => .idle

/-- How the first connection of the queue is found, and what becomes of it. -/
inductive Attempt where
  /-- `PQstatus` is `CONNECTION_OK`. -/
  | valid
  /-- `PQreset` works. -/
  | reset
  /-- The connection is finished and `PQconnectdb` returns another one. -/
  | replaced (conn : Conn)
  /-- The connection is finished and no other can be made. -/
  | refused
deriving DecidableEq

/-- A step of some thread on the handle `h`. -/
inductive PoolAction where
  | acquire (h : ℕ) (o : Attempt)
  | acquireWithTimeout (h : ℕ) (o : Attempt)
  /-- The wait of `acquire_with_timeout` ends with an empty queue. -/
  | timedOut (h : ℕ)
  | construct (h : ℕ)
  | moveConstruct (h other : ℕ)
  | beginAssign (h other : ℕ)
  | endAssign (h : ℕ)
  | destroy (h : ℕ)
deriving DecidableEq

namespace ConnectionPool

variable (s : ConnectionPool)

/-- One iteration of the constructor: the connection that `create_connection` returns. -/
def connect : Option Conn → Option ConnectionPool
  | none => some s
  | some c =>
    if c ∈ s.opened then none
    else some { s with
      availableConnections := s.availableConnections ++ [c], opened := insert c s.opened }

def connectAll (s : ConnectionPool) : List (Option Conn) → Option ConnectionPool
  | [] => some s
  | c :: cs => (s.connect c).bind fun s => s.connectAll cs

/-- The constructor, with the result of each attempt to connect. -/
def new (poolSize : ℕ) (attempts : List (Option Conn)) : Option ConnectionPool :=
  if attempts.length = poolSize then connectAll { poolSize := poolSize } attempts else none

/-- The part that both kinds of `acquire` share, from the pop to the new connection. -/
def take (o : Attempt) : Option (Option Conn × ConnectionPool) :=
  match s.availableConnections with
  | [] => none
  | c :: rest =>
    match o with
    | .valid | .reset => some (some c, { s with availableConnections := rest })
    | .replaced d =>
      if d ∈ s.opened.erase c then none
      else some (some d, { s with
        availableConnections := rest, opened := insert d (s.opened.erase c) })
    | .refused =>
      some (none, { s with availableConnections := rest, opened := s.opened.erase c })

def release : Option Conn → ConnectionPool
  | none => s
  | some c => { s with availableConnections := s.availableConnections ++ [c] }

def setHandle (h : ℕ) (x : ConnectionHandle) : ConnectionPool :=
  { s with live := insert h s.live, handle := Function.update s.handle h x }

/-- `if (conn_ && pool_) pool_->release(conn_)`. -/
def giveBack (h : ℕ) : ConnectionPool :=
  if (s.handle h).pool then s.release (s.handle h).conn else s

/-- The handle is alive and no `operator=` is at work on it. -/
def usable (h : ℕ) : Prop := h ∈ s.live ∧ s.stage h = .idle

instance (h : ℕ) : Decidable (s.usable h) := inferInstanceAs (Decidable (_ ∧ _))

/-- A step; nothing if it blocks, or if the handles are not there to be used by it. -/
def perform (s : ConnectionPool) : PoolAction → Option ConnectionPool
  | .acquire h o =>
    if h ∈ s.live then none
    else (s.take o).map fun (conn, s) =>
      match conn with
      | none => s -- `acquire` throws
      | some c => s.setHandle h ⟨some c, true⟩
  | .acquireWithTimeout h o =>
    if h ∈ s.live then none else (s.take o).map fun (conn, s) => s.setHandle h ⟨conn, true⟩
  | .timedOut h =>
    if h ∈ s.live ∨ s.availableConnections ≠ [] then none else some (s.setHandle h {})
  | .construct h => if h ∈ s.live then none else some (s.setHandle h {})
  | .moveConstruct h other =>
    if h ∈ s.live ∨ ¬ s.usable other then none
    else some ((s.setHandle h (s.handle other)).setHandle other {})
  | .beginAssign h other =>
    if ¬ s.usable h ∨ ¬ s.usable other then none
    else if h = other then some s
    else some { s.giveBack h with
      stage := Function.update (Function.update s.stage h (.assignedFrom other)) other .source }
  | .endAssign h =>
    match s.stage h with
    | .assignedFrom other =>
      some { (s.setHandle h (s.handle other)).setHandle other {} with
        stage := Function.update (Function.update s.stage h .idle) other .idle }
    | _ => none
  | .destroy h =>
    if ¬ s.usable h then none
    else some { s.giveBack h with
      live := s.live.erase h, handle := Function.update s.handle h {} }

def performAll (s : ConnectionPool) : List PoolAction → Option ConnectionPool
  | [] => some s
  | a :: as => (s.perform a).bind fun s => s.performAll as

/-- `operator=` is at work on the handle, and what the handle had is back in the queue. -/
def assigned (h : ℕ) : Bool :=
  match s.stage h with
  | .assignedFrom _ => true
  | _ => false

/-- The connection that a handle owns. -/
def owns (h : ℕ) : Option Conn := if s.assigned h then none else (s.handle h).conn

/-- The number of live handles that hold a connection. -/
def held : ℕ := (s.live.filter fun h => (s.handle h).conn.isSome).card

end ConnectionPool

/-- Both kinds of `acquire` give up a connection here without another one in its place. -/
def PoolAction.isRefused : PoolAction → Bool
  | acquire _ .refused | acquireWithTimeout _ .refused => true
  | _ => false

end IceLog
