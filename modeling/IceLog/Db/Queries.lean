import IceLog.Db.Evolution
import IceLog.Db.PgClient

/-! What the statements of readers answer: functions of the rows of one table. -/
namespace IceLog

open Serial

variable {pg : Postgres} {α β γ : Type} {name : String} {s : ℕ}

/-- `f` depends on the table of the name only. -/
def About (name : String) (f : Db → α) : Prop :=
  ∀ db db' : Db, Db.SameTable name db db' → f db' = f db

/-- `f` depends on nothing but what is stored for the table, its own row apart. -/
def AboutSlice (f : Db → ℕ → β) : Prop :=
  ∀ db db' : Db, ∀ id, (db'.slice id).clearTable = (db.slice id).clearTable → f db' id = f db id

/-- The client makes `f` of the rows out of what the statement answers. -/
structure Sql.Yields (pg : Postgres) (sql : Sql) (g : PGresult sql.Row → β) (f : Db → β) : Prop where
  ok : ∀ db now r p, sql.run pg now db = some (r, p) → g r = f db
  violated : ∀ db now, sql.run pg now db = none → g .error = f db

theorem about_find_map (name : String) (g : ℕ × TableRec → α) :
    About name fun db => (db.find name).map g := fun _ _ h => by simp only [h.find]

/-- The current snapshot of a table, 0 if there is no such table. -/
def Db.current (db : Db) (name : String) : ℕ :=
  ((db.find name).map fun p => p.2.currentSnapshotId).getD 0

theorem about_current (name : String) : About name fun db => db.current name := fun _ _ h => by
  simp only [Db.current, h.find]

theorem head?_map_named (db : Db) (name : String) (g : ℕ × TableRec → α) :
    ((db.named name).map g).head? = (db.find name).map g := by
  simp [Db.find]

/-- What `f` makes of the table of the name. -/
def Db.ofTable {β : Type} (f : Db → ℕ → β) (failed : β) (name : String) (db : Db) : β :=
  ((db.find name).map fun p => f db p.1).getD failed

theorem AboutSlice.about {f : Db → ℕ → β} (hf : AboutSlice f) (failed : β) (name : String) :
    About name (Db.ofTable f failed name) := by
  intro db db' hd
  simp only [Db.ofTable, hd.find]
  cases hfind : db.find name with
  | none => rfl
  | some p =>
    obtain ⟨id, r⟩ := p
    simp [hf _ _ _ (congrArg Slice.clearTable (hd.slice id r hfind))]

theorem AboutSlice.comp {f : Db → ℕ → β} (hf : AboutSlice f) (g : β → γ) :
    AboutSlice fun db id => g (f db id) :=
  fun db db' id h => congrArg g (hf db db' id h)

/-! The row of a table. -/

theorem yields_tableId : (Sql.selectTableId name).Yields pg PGresult.first
    fun db => (db.find name).map Prod.fst where
  ok db now r p h := by
    cases h
    exact head?_map_named db _ _
  violated db now h := by cases h

theorem yields_table : (Sql.selectTable name).Yields pg PGresult.first
    fun db => (db.find name).map fun p => p.2.toRow p.1 where
  ok db now r p h := by
    cases h
    exact head?_map_named db _ _
  violated db now h := by cases h

theorem yields_current : (Sql.selectCurrent name).Yields pg (fun res => res.first.getD 0)
    fun db => db.current name where
  ok db now r p h := by
    cases h
    exact congrArg (Option.getD · 0) (head?_map_named db _ _)
  violated db now h := by cases h

/-! The partitions of a table. -/

/-- The partitions at `s`, of which `l` is kept; nothing if `s` does not fit its column. -/
def Db.listed (l : List PartitionRow → List PartitionRow) (s : ℕ) (db : Db) (id : ℕ) :
    Option (List PartitionRow) :=
  if maxBigint ≤ s then none else some (l (db.partitionsAt id s))

theorem aboutSlice_listed (l : List PartitionRow → List PartitionRow) (s : ℕ) :
    AboutSlice (Db.listed l s) := fun db db' id h => by
  have hv : (db'.slice id).partitions = (db.slice id).partitions := (congrArg Slice.partitions h :)
  have hp : db'.partitionsAt id s = db.partitionsAt id s :=
    Db.partitionsAt_congr (by funext p; simp only [Slice.visible, hv])
  rw [Db.listed, Db.listed, hp]

theorem ofTable_listed (l : List PartitionRow → List PartitionRow) (s : ℕ) (name : String)
    (db : Db) : Db.ofTable (Db.listed l s) none name db = (db.queryPartitions name s).map l := by
  simp only [Db.ofTable, Db.listed, Db.queryPartitions]
  split
  · cases db.find name <;> rfl
  · cases db.find name <;> rfl

/-- One page of a listing. -/
def page (limit : ℕ) (last : ℤ) (rows : List PartitionRow) : List PartitionRow :=
  (rows.filter fun r => last < r.partitionId).take limit

/-- The `LIMIT` of a paged query. -/
def pageLimit (pageSize : ℤ) : ℕ := if pageSize > 0 then pageSize.toNat else 1000

/-- A query whose snapshot may be out of range. -/
theorem yields_of_range {sql : Sql} {s : ℕ} {rows : Db → List sql.Row} {g : PGresult sql.Row → β}
    {f : Db → β} (hrun : ∀ now db, sql.run pg now db =
      if maxBigint ≤ s then none else some (.tuples (rows db), {}))
    (hf : ∀ db, f db = if maxBigint ≤ s then g .error else g (.tuples (rows db))) :
    sql.Yields pg g f where
  ok db now r p h := by
    rw [hrun] at h
    split at h
    · cases h
    · rename_i hs
      cases h
      rw [hf, if_neg hs]
  violated db now h := by
    rw [hrun] at h
    split at h
    · rename_i hs
      rw [hf, if_pos hs]
    · cases h

theorem yields_partitions (s id : ℕ) : (Sql.selectPartitions id s).Yields pg PGresult.all
    fun db => Db.listed (fun rows => rows) s db id :=
  yields_of_range (s := s) (fun _ _ => rfl) fun _ => rfl

theorem yields_page (s id limit : ℕ) (last : ℤ) :
    (Sql.selectPartitionsPaged id s last limit).Yields pg PGresult.all
      fun db => Db.listed (page limit last) s db id :=
  yields_of_range (s := s) (fun _ _ => rfl) fun _ => rfl

/-! The other rows of a table. -/

theorem aboutSlice_snapshots (f : ℕ → SnapshotRec → Option β) : AboutSlice fun db id =>
    db.snapshots.select fun k r => if r.tableId = id then f k r else none := by
  intro db db' id h
  refine Rows.select_congr fun k => ?_
  have hv : ∀ d : Db, ((d.snapshots.row k).bind fun r => if r.tableId = id then f k r else none) =
      ((d.slice id).snapshots k).bind (f k) := by
    intro d
    simp only [Db.slice, Rows.only]
    cases d.snapshots.row k with
    | none => rfl
    | some r => by_cases hr : r.tableId = id <;> simp [hr, Option.filter_some]
  have h : (db'.slice id).snapshots = (db.slice id).snapshots := (congrArg Slice.snapshots h :)
  rw [hv, hv, h]

theorem aboutSlice_history (f : HistoryRec → Option β) : AboutSlice fun db id =>
    db.history.select fun _ r => if r.tableId = id then f r else none := by
  intro db db' id h
  refine Rows.select_congr fun k => ?_
  have hv : ∀ d : Db, ((d.history.row k).bind fun r => if r.tableId = id then f r else none) =
      ((d.slice id).history k).bind f := by
    intro d
    simp only [Db.slice, Rows.only]
    cases d.history.row k with
    | none => rfl
    | some r => by_cases hr : r.tableId = id <;> simp [hr, Option.filter_some]
  have h : (db'.slice id).history = (db.slice id).history := (congrArg Slice.history h :)
  rw [hv, hv, h]

/-- The snapshot of the given id, if it is one of the table. -/
def Db.snapshotAt (s : ℕ) (db : Db) (id : ℕ) : Option SnapshotRow :=
  if maxBigint ≤ s then none
  else (db.snapshots.select fun k r => if r.tableId = id then
    if k = s then some (r.toRow k) else none else none).head?

/-- The latest snapshots of the table. -/
def Db.snapshotsOf (limit : ℕ) (db : Db) (id : ℕ) : List SnapshotRow :=
  (newestFirst (db.snapshots.select fun k r =>
    if r.tableId = id then some (r.toRow k) else none)).take limit

def Db.historyAt (version : ℤ) (db : Db) (id : ℕ) : Option SchemaVersion :=
  (db.history.select fun _ r => if r.tableId = id then
    if r.schemaVersion = version then some r.toVersion else none else none).head?

def Db.historyOf (db : Db) (id : ℕ) : List SchemaVersion :=
  (db.history.select fun _ r => if r.tableId = id then some r.toVersion else none).mergeSort
    fun a b => b.version ≤ a.version

/-- The `LIMIT` of a listing of snapshots. -/
def snapshotLimit (limit : ℤ) : ℕ := if limit > 0 then limit.toNat else 50

theorem aboutSlice_snapshotAt (s : ℕ) : AboutSlice (Db.snapshotAt s) := by
  intro db db' id h
  have := (aboutSlice_snapshots fun k r => if k = s then some (r.toRow k) else none).comp List.head?
  simp only [Db.snapshotAt]
  split
  · rfl
  · exact this db db' id h

theorem aboutSlice_snapshotsOf (limit : ℕ) : AboutSlice (Db.snapshotsOf limit) :=
  (aboutSlice_snapshots fun k r => some (r.toRow k)).comp fun rows => (newestFirst rows).take limit

theorem aboutSlice_historyAt (version : ℤ) : AboutSlice (Db.historyAt version) :=
  (aboutSlice_history fun r => if r.schemaVersion = version then some r.toVersion else none).comp
    List.head?

theorem aboutSlice_historyOf : AboutSlice Db.historyOf :=
  (aboutSlice_history fun r => some r.toVersion).comp fun rows =>
    rows.mergeSort fun a b => b.version ≤ a.version

theorem yields_snapshot (s id : ℕ) : (Sql.selectSnapshot id s).Yields pg PGresult.first
    fun db => Db.snapshotAt s db id := by
  refine yields_of_range (s := s) (fun _ _ => rfl) fun db => ?_
  simp only [Db.snapshotAt, PGresult.first, Bool.and_eq_true, beq_iff_eq, ite_and]

theorem yields_snapshots (limit id : ℕ) : (Sql.selectSnapshots id limit).Yields pg
    (fun res => res.all.getD []) fun db => Db.snapshotsOf limit db id where
  ok db now r p h := by
    cases h
    simp [PGresult.all, Db.snapshotsOf]
  violated db now h := by cases h

theorem yields_historyAt (version : ℤ) (id : ℕ) : (Sql.selectHistoryAt id version).Yields pg
    PGresult.first fun db => Db.historyAt version db id where
  ok db now r p h := by
    cases h
    simp only [PGresult.first, Db.historyAt, Bool.and_eq_true, beq_iff_eq, ite_and]
  violated db now h := by cases h

theorem yields_history (id : ℕ) : (Sql.selectHistory id).Yields pg (fun res => res.all.getD [])
    fun db => Db.historyOf db id where
  ok db now r p h := by
    cases h
    simp [PGresult.all, Db.historyOf]
  violated db now h := by cases h

end IceLog
