import IceLog.Catalog.Names
import IceLog.Concurrency.Contract
import IceLog.Db.Evolution
import IceLog.Server.Ownership

/-! The invariant of a server with its database, what a thread needs to know before an action,
and the promise that every action keeps to the other threads. -/
namespace IceLog

open Interleaved

abbrev ServerEvent : Type := Event Act Act.Result Request

abbrev Moment : Type := Hist Act Act.Result Request Server

namespace Server

abbrev db (s : Server) : Db := s.backend.db

/-- Thread `i` has some lock of the name. -/
def Locks (i : ℕ) (t : String) (s : Server) : Prop :=
  (s.tableLocks t).writer = some i ∨ i ∈ (s.tableLocks t).readers

end Server

namespace Request

/-- The names of tables that a request contains. -/
def tableNames : Request → List String
  | createTable t .. | getTableMetadata t _ | dropTable t _ | getPartitions t .. => [t]
  | getPartitionStats t | commitSnapshot t .. | getSnapshot t _ | listSnapshots t _ => [t]
  | partitions t _ | partitionsPaged t .. | stats t | commit t .. => [t]
  | alterTable t (.rename newName) => [t, newName]
  | alterTable t _ => [t]
  | listTables .. | beginTransaction .. | commitTransaction _ | abortTransaction _ => []

/-- A successful request leaves no live table under the name. -/
def Detaches (t : String) : Request → Prop
  | dropTable u _ => u = t
  | alterTable u (.rename _) => u = t
  | _ => False

instance (t : String) (q : Request) : Decidable (q.Detaches t) := by
  unfold Detaches
  split <;> infer_instance

/-- A successful request gives the table of the name a new schema. -/
def Alters (t : String) : Request → Prop
  | alterTable u (.newSchemaJson _) => u = t
  | _ => False

theorem Alters.not_detaches {t : String} {q : Request} (h : q.Alters t) (u : String) :
    ¬ q.Detaches u := by
  cases q with
  | alterTable _ a => cases a <;> simp_all [Alters, Detaches]
  | _ => exact h.elim

end Request

namespace Policy

/-- No table name contains a NUL. -/
def Clean (policy : Policy) : Prop :=
  ∀ q, policy.admits q = true → ∀ t ∈ q.tableNames, NulFree t

/-- The statement of `get_current_snapshot` does not fail. -/
def Steady (policy : Policy) : Prop :=
  ∀ q c t o, policy.allows q (.execParams c (.selectCurrent t)) o = true → o = .ok

end Policy

/-- A live table of the name is answered differently, or no longer. -/
def Db.Changed (t : String) (db db' : Db) : Prop :=
  (db.find t).isSome ∧ ∃ n, db'.queryPartitions t n ≠ db.queryPartitions t n

/-- Thread `j`, serving `q`, has changed the table `t` and not yet dropped its cache entries. -/
def OwesSince (j : ℕ) (q : Request) (t : String) : List (Server × ServerEvent) → Server → Prop
  | [], _ => False
  | (s, e) :: past, s' =>
    (∃ a r, e = .act j q a r ∧ s.db.Changed t s'.db) ∨
      (OwesSince j q t past s ∧ ∀ r, e ≠ .act j q (.cacheInvalidate (t ++ ":")) r)

def Owes (w : Moment) (j : ℕ) (q : Request) (t : String) : Prop := OwesSince j q t w.past w.now

/-- A cache entry is what the database answers, or some thread has yet to drop it. -/
def Coherent (w : Moment) : Prop :=
  ∀ t n rows, (PartitionRegistry.makeCacheKey t n, rows) ∈ w.now.cache.entries →
    w.now.db.queryPartitions t n = some rows ∨ ∃ j q, Owes w j q t

/-- The invariant. -/
structure Inv (policy : Policy) (w : Moment) : Prop where
  sound : w.now.Sound
  fresh : ∀ i, Fresh i w → Holds i {} w.now ∧ ∀ q t, ¬ Owes w i q t
  consistent : policy.Clean → w.now.db.Consistent
  linked : policy.Clean → policy.Steady → w.now.db.Linked
  /-- Who has yet to drop entries has the lock, or has taken the table off the name. -/
  debts : policy.Clean → ∀ j q t, Owes w j q t →
    (w.now.tableLocks t).writer = some j ∨ q.Detaches t
  coherent : policy.Clean → Coherent w

/-- Thread `i` commits a change to the table `id` from `s` to `db'`. -/
structure Writes (policy : Policy) (i : ℕ) (s : Server) (db' : Db) (id : ℕ) : Prop where
  before : ∀ r, s.db.tables.row id = some r → (s.tableLocks r.tableName).writer = some i
  after : ∀ r, db'.tables.row id = some r → (s.tableLocks r.tableName).writer = some i
  fresh : s.db.tables.row id = none → s.db.tables.next ≤ id
  change : TableChange policy.Steady db'.snapshots.next (s.db.slice id) (db'.slice id)

/-- What a transaction of the request `q` must be like when thread `i` commits it. -/
structure Committable (policy : Policy) (i : ℕ) (q : Request) (s : Server) (p : Changes) (t : String)
    (id : ℕ) : Prop where
  lock : (s.tableLocks t).writer = some i
  found : ∃ r, s.db.find t = some (id, r)
  within : s.db.Within id p
  names : ∀ r, (s.db.apply p).tables.row id = some r → r.tableName = t
  change : TableChange policy.Steady s.db.snapshots.next (s.db.slice id) ((s.db.apply p).slice id)
  detached : q.Detaches t → ∀ r, (s.db.apply p).tables.row id = some r → r.isDeleted = true
  alters : ∀ r r', s.db.tables.row id = some r → (s.db.apply p).tables.row id = some r' →
    r'.schemaVersion ≠ r.schemaVersion → q.Alters t
  kept : ¬ q.Detaches t → ∃ r, (s.db.apply p).tables.row id = some r ∧ r.isDeleted = false

/-- What thread `i` needs to know before a statement. -/
def StatementNeeds (policy : Policy) (i : ℕ) (q : Request) (c : Conn) (s : Server) : Sql → Prop
  | .insertTable name .. => (s.backend.session c).Closed ∧
      (policy.Clean → (s.tableLocks name).writer = some i)
  | .renameTable newName oldName => (s.backend.session c).Closed ∧
      (policy.Clean → (s.tableLocks newName).writer = some i ∧
        (s.tableLocks oldName).writer = some i ∧ newName ≠ oldName ∧ q.Detaches oldName)
  | .updateSchema .. | .insertHistory .. | .deletePartitions _ | .deleteSnapshots _
  | .deleteHistory _ | .deleteTable _ | .softDelete _ | .insertPartition .. | .markDeleted ..
  | .insertSnapshot .. | .updateCurrent .. => s.backend.session c ≠ .idle
  | .insertTransaction .. | .updateStatus .. => (s.backend.session c).Closed
  | _ => True

/-- What thread `i`, serving `q`, needs to know before an action. -/
def Needs (policy : Policy) (i : ℕ) (q : Request) (a : Act) (w : Moment) : Prop :=
  match a with
  | .lockShared _ => Holds i {} w.now
  | .lockExclusive t => Holds i {} w.now ∨ ∃ oldName,
      q = .alterTable oldName (.rename t) ∧ Holds i { exclusive := [oldName] } w.now
  | .unlockShared t => Holds i { shared := [t] } w.now
  | .unlockExclusive t => (w.now.tableLocks t).writer = some i ∧
      (policy.Clean → ∀ q', Owes w i q' t → q'.Detaches t)
  | .acquire => ∀ c, w.now.holder c ≠ some i
  | .release c => w.now.holder c = some i ∧ (w.now.backend.session c).Closed
  | .exec c k => w.now.holder c = some i ∧ (k = .commit → policy.Clean → ∀ u p,
      w.now.backend.session c = .inTransaction u p →
        ∃ t id, Committable policy i q w.now p t id)
  | .execParams c sql => w.now.holder c = some i ∧ StatementNeeds policy i q c w.now sql
  | .cacheGet key => ∃ t n, key = PartitionRegistry.makeCacheKey t n ∧
      i ∈ (w.now.tableLocks t).readers
  | .cachePut key rows => ∃ t n, key = PartitionRegistry.makeCacheKey t n ∧
      i ∈ (w.now.tableLocks t).readers ∧
        (policy.Clean → w.now.db.queryPartitions t n = some rows)
  | _ => True

/-- What every step promises. -/
structure Promise (policy : Policy) (w : Moment) (e : ServerEvent) (s : Server) : Prop where
  inv : Inv policy (w.next e s)
  keeps : ∀ j, e.actor ≠ some j → Server.Keeps j w.now s
  nextLe : w.now.db.NextLe s.db
  writes : policy.Clean → ∀ id, s.db.slice id = w.now.db.slice id ∨
    ∃ i, e.actor = some i ∧ Writes policy i w.now s.db id
  debts : policy.Clean → ∀ j q t, Owes (w.next e s) j q t → Owes w j q t ∨
    ((w.now.tableLocks t).writer = some j ∧ (q.Detaches t → s.db.find t = none))
  alters : policy.Clean → ∀ id r r', w.now.db.tables.row id = some r →
    s.db.tables.row id = some r' → r'.schemaVersion ≠ r.schemaVersion →
      ∃ i q conn x, e = .act i q (.exec conn .commit) x ∧ q.Alters r.tableName
  kept : policy.Clean → ∀ id r, w.now.db.tables.row id = some r → r.isDeleted = false →
    (∀ i q a x, e = .act i q a x → ¬ q.Detaches r.tableName) →
      ∃ r', s.db.tables.row id = some r' ∧ r'.tableName = r.tableName ∧ r'.isDeleted = false

section owes
variable {w : Moment} {e : ServerEvent} {s : Server} {i j : ℕ} {q q' : Request} {t : String}
  {a : Act} {r : a.Result}

theorem owes_next : Owes (w.next e s) j q t ↔
    (∃ a r, e = .act j q a r ∧ w.now.db.Changed t s.db) ∨
      (Owes w j q t ∧ ∀ r, e ≠ .act j q (.cacheInvalidate (t ++ ":")) r) := Iff.rfl

theorem Owes.of_next_of_ne (he : e.actor ≠ some j) :
    Owes (w.next e s) j q t ↔ Owes w j q t := by
  rw [owes_next]
  constructor
  · rintro (⟨a, r, rfl, -⟩ | ⟨h, -⟩)
    · exact absurd rfl he
    · exact h
  · exact fun h => .inr ⟨h, fun r hr => he (hr ▸ rfl)⟩

theorem Db.SameRows.not_changed {db db' : Db} (h : db.SameRows db') : ¬ db.Changed t db' :=
  fun ⟨_, n, hn⟩ => hn ((h.sameTable t).queryPartitions n)

theorem Owes.of_next (hrows : w.now.db.SameRows s.db) (h : Owes (w.next e s) j q t) :
    Owes w j q t := by
  rcases owes_next.mp h with ⟨-, -, -, hc⟩ | ⟨h, -⟩
  · exact absurd hc hrows.not_changed
  · exact h

theorem Owes.fresh (hf : Fresh i w) : ¬ Owes w i q t := by
  obtain ⟨past, now⟩ := w
  induction past generalizing now with
  | nil => exact id
  | cons p past ih =>
    obtain ⟨s, e⟩ := p
    have he : e.actor ≠ some i := hf (s, e) (by simp)
    have hf' : Fresh i (⟨past, s⟩ : Moment) := fun p hp => hf p (List.mem_cons_of_mem _ hp)
    exact fun h => ih s hf' ((Owes.of_next_of_ne (w := ⟨past, s⟩) he).mp h)

/-- Who owes has acted. -/
theorem Owes.acted (h : Owes w j q t) : ∃ s a r, (s, .act j q a r) ∈ w.past := by
  obtain ⟨past, now⟩ := w
  induction past generalizing now with
  | nil => exact absurd h id
  | cons p past ih =>
    obtain ⟨s, e⟩ := p
    rcases h with ⟨a, r, rfl, -⟩ | ⟨h, -⟩
    · exact ⟨s, a, r, List.mem_cons_self ..⟩
    · obtain ⟨s', a, r, hm⟩ := ih s h
      exact ⟨s', a, r, List.mem_cons_of_mem _ hm⟩

end owes
end IceLog
