import IceLog.Server.Invariant

/-! Which actions the code of a request can contain. -/
namespace IceLog

open Interleaved

/-- Whether the statement is a `SELECT`. -/
def Sql.selects : Sql → Bool
  | selectTableId _ | selectTable _ | selectTables .. | selectPartitions .. => true
  | selectPartitionsPaged .. | selectSnapshot .. | selectSnapshots .. | selectCurrent _ => true
  | selectHistoryAt .. | selectHistory _ => true
  | _ => false

/-- The snapshot number that a statement tombstones partitions with. -/
def Sql.tombstone : Sql → Option ℕ
  | markDeleted n .. => some n
  | _ => none

namespace Request

/-- Whether the request may change tables. -/
def mutates : Request → Bool
  | createTable .. | alterTable .. | dropTable .. | commitSnapshot .. | commit .. => true
  | _ => false

/-- The statements of a request. -/
def MayRun : Request → Sql → Prop
  | beginTransaction .., sql => ∃ clientId n isolation, sql = .insertTransaction clientId n isolation
  | commitTransaction txnId, sql => sql = .updateStatus "committed" txnId
  | abortTransaction txnId, sql => sql = .updateStatus "aborted" txnId
  | commitSnapshot .., sql | commit .., sql => sql.storesTransaction = false
  | q, sql => if q.mutates then sql.storesTransaction = false ∧ sql.tombstone = none
    else sql.selects = true

/-- The actions of a request. -/
def MayAct (q : Request) : Act → Prop
  | .lockShared t | .unlockShared t => t ∈ q.tableNames
  | .lockExclusive t | .unlockExclusive t => t ∈ q.tableNames ∧ q.mutates = true
  | .exec .. | .cacheInvalidate _ => q.mutates = true
  | .execParams _ sql => q.MayRun sql
  | .fetchAddTxnId | .registerTransaction .. => ∃ clientId isolation,
      q = .beginTransaction clientId isolation
  | .commitTransaction txnId => q = .commitTransaction txnId
  | .abortTransaction txnId => q = .abortTransaction txnId
  | .cachePut .. => q.mutates = false
  | .acquire | .release _ | .cacheGet _ | .loadSnapshot => True

end Request

variable {φ : Act → Prop} {α β : Type} {conn : Conn} {t : String}

/-- All actions of the program satisfy `φ`. -/
abbrev Acts (φ : Act → Prop) (p : Code α) : Prop := p.All fun a _ => φ a

/-- `φ` allows the statements of readers. -/
def MaySelect (φ : Act → Prop) : Prop := ∀ conn sql, sql.selects = true → φ (.execParams conn sql)

/-- `φ` allows the statements of those who change tables, tombstones apart. -/
def MayChange (φ : Act → Prop) : Prop :=
  ∀ conn sql, sql.storesTransaction = false → sql.tombstone = none → φ (.execParams conn sql)

theorem MayChange.select (h : MayChange φ) : MaySelect φ := by
  intro conn sql hs
  exact h conn sql (by cases sql <;> first | rfl | cases hs)
    (by cases sql <;> first | rfl | cases hs)

/-- `φ` allows tombstones of the number `n`. -/
def MayMark (φ : Act → Prop) (n : ℕ) : Prop :=
  ∀ conn sql, sql.tombstone = some n → φ (.execParams conn sql)

theorem mayMark (h : ∀ conn sql, sql.storesTransaction = false → φ (.execParams conn sql))
    (n : ℕ) : MayMark φ n :=
  fun conn sql hs => h conn sql (by cases sql <;> first | rfl | cases hs)

/-- `φ` allows the statements and commands of those who change tables. -/
structure MayEdit (φ : Act → Prop) : Prop where
  statement : MayChange φ
  command : ∀ conn k, φ (.exec conn k)

theorem MayEdit.select (h : MayEdit φ) : MaySelect φ := h.statement.select

/-- Anything but `COMMIT`. -/
def Act.noCommit (a : Act) : Prop := ∀ conn, a ≠ .exec conn .commit

/-- All actions of the program satisfy `φ`, and at most one is a `COMMIT`. -/
abbrev CommitsOnce (φ : Act → Prop) (p : Code α) : Prop :=
  p.All fun a k => φ a ∧ (¬ a.noCommit → ∀ r, Acts (fun a => φ a ∧ a.noCommit) (k r))

/-- `φ` allows a connection to be taken and given back. -/
structure MayConnect (φ : Act → Prop) : Prop where
  acquire : φ .acquire
  release : ∀ conn, φ (.release conn)

namespace Acts

theorem ret (x : α) : Acts φ (.ret x) := trivial

theorem bind {p : Code α} {f : α → Code β} (h : Acts φ p) (hf : ∀ x, Acts φ (f x)) :
    Acts φ (p.bind f) := Prog.All.bind h hf

theorem atomically {a : Act} (h : φ a) : Acts φ (IceLog.atomically a) := ⟨h, fun _ => trivial⟩

theorem guarded {p : Code α} {a : Act} {k : a.Result → Code Unit} (h : Acts φ p) (ha : φ a)
    (hk : ∀ r, Acts φ (k r)) : Acts φ (p.guarded (.act a k)) := Prog.All.guarded h ⟨ha, hk⟩

theorem withShared {p : Code α} (h : Acts φ p) (hl : φ (.lockShared t)) (hu : φ (.unlockShared t)) :
    Acts φ (IceLog.withShared t p) := ⟨hl, fun _ => guarded h hu fun _ => trivial⟩

theorem withExclusive {p : Code α} (h : Acts φ p) (hl : φ (.lockExclusive t))
    (hu : φ (.unlockExclusive t)) : Acts φ (IceLog.withExclusive t p) :=
  ⟨hl, fun _ => guarded h hu fun _ => trivial⟩

theorem withConnection {body : Conn → Code α} (hc : MayConnect φ) (h : ∀ c, Acts φ (body c)) :
    Acts φ (IceLog.withConnection body) := by
  refine ⟨hc.acquire, fun r => ?_⟩
  cases r with
  | none => trivial
  | some c => exact guarded (h c) (hc.release c) fun _ => trivial

/-- One statement of which the client keeps `g` of the result. -/
theorem statement {sql : Sql} (g : PGresult sql.Row → α) (h : φ (.execParams conn sql)) :
    Acts φ ((execParams conn sql).bind fun res => .ret (g res)) :=
  bind (atomically h) fun _ => ret _

/-! The client. -/

section select
variable (h : MaySelect φ)
include h

theorem getTableId : Acts φ (PgClient.getTableId conn t) := statement _ (h conn _ rfl)

theorem byId {f : ℕ → Code α} {x : α} (hf : ∀ id, Acts φ (f id)) :
    Acts φ ((PgClient.getTableId conn t).bind fun
      | none => .ret x
      | some id => f id) := by
  refine bind (getTableId h) fun r => ?_
  cases r with
  | none => exact ret _
  | some id => exact hf id

theorem getTable : Acts φ (PgClient.getTable conn t) := statement _ (h conn _ rfl)

theorem getCurrentSnapshot : Acts φ (PgClient.getCurrentSnapshot conn t) :=
  statement _ (h conn _ rfl)

theorem queryPartitions (n : ℕ) : Acts φ (PgClient.queryPartitions conn t n) :=
  byId h fun _ => statement _ (h conn _ rfl)

theorem queryPartitionsPaged (n : ℕ) (pageSize last : ℤ) :
    Acts φ (PgClient.queryPartitionsPaged conn t n pageSize last) :=
  byId h fun _ => statement _ (h conn _ rfl)

theorem getSnapshot (n : ℕ) : Acts φ (PgClient.getSnapshot conn t n) :=
  byId h fun _ => statement _ (h conn _ rfl)

theorem listSnapshots (limit : ℤ) : Acts φ (PgClient.listSnapshots conn t limit) :=
  byId h fun _ => statement _ (h conn _ rfl)

end select

section edit
variable (h : MayChange φ)
include h

theorem insertPartitions (n : ℕ) (news : List PartitionRow) :
    Acts φ (PartitionRegistry.insertPartitions t conn n news) := by
  induction news with
  | nil => exact ret _
  | cons part rest ih =>
    refine bind (byId h.select fun id => statement _ (h conn _ rfl rfl)) fun ok => ?_
    cases ok with
    | false => exact ret _
    | true => exact ih

theorem markPartitionsDeleted {n : ℕ} (hm : MayMark φ n) (keys : List String) :
    Acts φ (PartitionRegistry.markPartitionsDeleted t conn n keys) := by
  induction keys with
  | nil => exact ret _
  | cons key rest ih =>
    refine bind (byId h.select fun id => statement _ (hm conn _ rfl)) fun ok => ?_
    cases ok with
    | false => exact ret _
    | true => exact ih

theorem updateTableSchema (schema summary : String) (version : ℤ) :
    Acts φ (PgClient.updateTableSchema conn t schema version summary) := by
  refine bind (atomically (h conn _ rfl rfl)) fun res => ?_
  show Acts φ (if _ then _ else _)
  split
  · exact ret _
  · exact byId h.select fun id => statement _ (h conn _ rfl rfl)

theorem dropTable (purge : Bool) : Acts φ (PgClient.dropTable conn t purge) := by
  have hs : ∀ sql, sql.storesTransaction = false → sql.tombstone = none →
      Acts φ (execParams conn sql) := fun sql hs hm => atomically (h conn sql hs hm)
  unfold PgClient.dropTable
  cases purge with
  | true =>
    refine byId h.select fun id => ?_
    exact bind (hs _ rfl rfl) fun _ => bind (hs _ rfl rfl) fun _ => bind (hs _ rfl rfl) fun _ =>
      statement _ (h conn _ rfl rfl)
  | false => exact statement _ (h conn _ rfl rfl)

end edit

end Acts

namespace CommitsOnce

variable {p : Code α}

theorem acts (h : CommitsOnce φ p) : Acts φ p := h.mono fun _ _ h => h.1

theorem of_acts (h : Acts (fun a => φ a ∧ a.noCommit) p) : CommitsOnce φ p :=
  h.mono fun _ _ h => ⟨h.1, fun hc => absurd h.2 hc⟩

theorem bind {f : α → Code β} (h : Acts (fun a => φ a ∧ a.noCommit) p)
    (hf : ∀ x, CommitsOnce φ (f x)) : CommitsOnce φ (p.bind f) := by
  induction p with
  | ret x => exact hf x
  | throw => trivial
  | act a k ih => exact ⟨⟨h.1.1, fun hc => absurd h.1.2 hc⟩, fun r => ih r (h.2 r)⟩

theorem commit {f : Bool → Code α} (hc : φ (.exec conn .commit))
    (hf : ∀ ok, Acts (fun a => φ a ∧ a.noCommit) (f ok)) :
    CommitsOnce φ ((exec conn .commit).bind f) :=
  ⟨⟨hc, fun _ => hf⟩, fun ok => of_acts (hf ok)⟩

theorem guarded {a : Act} {k : a.Result → Code Unit} (h : CommitsOnce φ p)
    (ha : φ a ∧ a.noCommit) (hk : ∀ r, Acts (fun a => φ a ∧ a.noCommit) (k r)) :
    CommitsOnce φ (p.guarded (.act a k)) := by
  induction p with
  | ret x | throw => exact of_acts (Acts.guarded trivial ha hk)
  | act b l ih =>
    exact ⟨⟨h.1.1, fun hc r => Acts.guarded (h.1.2 hc r) ha hk⟩, fun r => ih r (h.2 r)⟩

theorem withExclusive (h : CommitsOnce φ p) (hl : φ (.lockExclusive t))
    (hu : φ (.unlockExclusive t)) : CommitsOnce φ (IceLog.withExclusive t p) := by
  refine bind (Acts.atomically ⟨hl, nofun⟩) fun _ => ?_
  exact guarded h ⟨hu, nofun⟩ fun _ => trivial

theorem withConnection {body : Conn → Code α} (hc : MayConnect φ)
    (h : ∀ c, CommitsOnce φ (body c)) : CommitsOnce φ (IceLog.withConnection body) := by
  refine ⟨⟨hc.acquire, fun hc => absurd nofun hc⟩, fun r => ?_⟩
  cases r with
  | none => trivial
  | some c => exact guarded (h c) ⟨hc.release c, nofun⟩ fun _ => trivial

end CommitsOnce

/-! The operations that change a table. -/

namespace Acts

section bodies
variable (h : MayEdit φ)
include h

theorem mayChange_noCommit : MayChange fun a => φ a ∧ a.noCommit :=
  fun conn sql hs hm => ⟨h.statement conn sql hs hm, nofun⟩

theorem command {k : Command} (hk : k ≠ .commit) :
    Acts (fun a => φ a ∧ a.noCommit) (exec conn k) :=
  atomically ⟨h.command conn k, by simp [Act.noCommit, hk]⟩

theorem rollback (msg : String) :
    Acts (fun a => φ a ∧ a.noCommit) (PartitionRegistry.rollback conn msg) :=
  bind (command h nofun) fun _ => ret _

theorem commitSnapshot_body (hm : ∀ n, MayMark φ n) (hi : φ (.cacheInvalidate (t ++ ":"))) (parent : ℕ)
    (op : String) (news : List PartitionRow) (dels : List String) : ∃ body,
      PartitionRegistry.commitSnapshot t parent op news dels =
        IceLog.withExclusive t (IceLog.withConnection body) ∧ ∀ conn, CommitsOnce φ (body conn) := by
  have hs := mayChange_noCommit h
  refine ⟨_, rfl, fun conn => ?_⟩
  refine CommitsOnce.bind (getCurrentSnapshot hs.select) fun current => ?_
  split
  · exact .of_acts (ret _)
  refine CommitsOnce.bind (command h nofun) fun _ => ?_
  refine CommitsOnce.bind (byId hs.select fun id => statement _ (hs conn _ rfl rfl)) fun n => ?_
  split
  · exact .of_acts (rollback h _)
  refine CommitsOnce.bind (insertPartitions hs n news) fun r => ?_
  cases r with
  | some part => exact .of_acts (rollback h _)
  | none =>
  have hm : MayMark (fun a => φ a ∧ a.noCommit) n := fun c sql hs => ⟨hm n c sql hs, nofun⟩
  refine CommitsOnce.bind (markPartitionsDeleted hs hm dels) fun r => ?_
  cases r with
  | some key => exact .of_acts (rollback h _)
  | none =>
  refine CommitsOnce.bind (statement _ (hs conn _ rfl rfl)) fun moved => ?_
  split
  · exact .of_acts (rollback h _)
  · exact .commit (h.command conn _) fun _ => bind (atomically ⟨hi, nofun⟩) fun _ => ret _

theorem alterTableSchema_body (schema summary : String) : ∃ body,
    CatalogManager.alterTableSchema t schema summary =
      IceLog.withExclusive t (IceLog.withConnection body) ∧ ∀ conn, CommitsOnce φ (body conn) := by
  have hs := mayChange_noCommit h
  refine ⟨_, rfl, fun conn => ?_⟩
  refine CommitsOnce.bind (getTable hs.select) fun table => ?_
  cases table with
  | none => exact .of_acts (ret _)
  | some existing =>
  refine CommitsOnce.bind (command h nofun) fun _ => ?_
  refine CommitsOnce.bind (updateTableSchema hs _ _ _) fun stored => ?_
  cases stored with
  | false => exact .of_acts (bind (command h nofun) fun _ => ret _)
  | true => exact .commit (h.command conn _) fun _ => ret _

theorem dropTable_body (purge : Bool) : ∃ body,
    CatalogManager.dropTable t purge = IceLog.withExclusive t (IceLog.withConnection body) ∧
      ∀ conn, CommitsOnce φ (body conn) := by
  have hs := mayChange_noCommit h
  refine ⟨_, rfl, fun conn => CommitsOnce.bind (command h nofun) fun _ => ?_⟩
  refine CommitsOnce.bind (dropTable hs purge) fun dropped => ?_
  cases dropped with
  | false => exact .of_acts (bind (command h nofun) fun _ => ret _)
  | true => exact .commit (h.command conn _) fun _ => ret _

end bodies

/-! The functions that read, under their locks. -/

section readers
variable (h : MaySelect φ) (hc : MayConnect φ) (hl : φ .loadSnapshot)
include h hc

theorem getTable_catalog (hs : φ (.lockShared t)) (hu : φ (.unlockShared t)) :
    Acts φ (CatalogManager.getTable t) :=
  withShared (withConnection hc fun _ => getTable h) hs hu

theorem getCurrentSchema (hs : φ (.lockShared t)) (hu : φ (.unlockShared t)) :
    Acts φ (SchemaStore.getCurrentSchema t) := by
  refine withShared (withConnection hc fun conn => bind (getTable h) fun table => ?_) hs hu
  cases table <;> exact ret _

theorem getSchemaAtVersion (version : ℤ) (hs : φ (.lockShared t)) (hu : φ (.unlockShared t)) :
    Acts φ (SchemaStore.getSchemaAtVersion t version) :=
  withShared (withConnection hc fun conn => byId h fun _ => statement _ (h conn _ rfl)) hs hu

theorem listSchemaHistory (hs : φ (.lockShared t)) (hu : φ (.unlockShared t)) :
    Acts φ (SchemaStore.listSchemaHistory t) :=
  withShared (withConnection hc fun conn => byId h fun _ => statement _ (h conn _ rfl)) hs hu

include hl

theorem readSnapshot (n : ℕ) : Acts φ (PartitionRegistry.readSnapshot t n) := by
  have hlast : ∀ m, Acts φ (if m = 0 then
      IceLog.withConnection fun conn => PgClient.getCurrentSnapshot conn t else .ret m) := by
    intro m
    split
    · exact withConnection hc fun _ => getCurrentSnapshot h
    · exact ret _
  unfold PartitionRegistry.readSnapshot
  split
  · exact bind (atomically hl) hlast
  · exact hlast n

theorem getPartitions (n : ℕ) (hg : ∀ key, φ (.cacheGet key))
    (hp : ∀ key rows, φ (.cachePut key rows)) (hs : φ (.lockShared t)) (hu : φ (.unlockShared t)) :
    Acts φ (PartitionRegistry.getPartitions t n) := by
  refine withShared (bind (readSnapshot h hc hl n) fun m => bind (atomically (hg _)) fun r => ?_)
    hs hu
  cases r with
  | some rows => exact ret _
  | none =>
    refine withConnection hc fun conn => bind (queryPartitions h m) fun rows => ?_
    cases rows with
    | none => exact ret _
    | some rows => exact bind (atomically (hp _ _)) fun _ => ret _

theorem getPartitionsPaged (n : ℕ) (pageSize last : ℤ) (hs : φ (.lockShared t))
    (hu : φ (.unlockShared t)) :
    Acts φ (PartitionRegistry.getPartitionsPaged t n pageSize last) :=
  withShared (bind (readSnapshot h hc hl n) fun m =>
    withConnection hc fun _ => queryPartitionsPaged h m pageSize last) hs hu

theorem getStats (hs : φ (.lockShared t)) (hu : φ (.unlockShared t)) :
    Acts φ (PartitionRegistry.getStats t) := by
  refine withShared (bind (atomically hl) fun m => withConnection hc fun conn => ?_) hs hu
  split
  · refine bind (getCurrentSnapshot h) fun m => bind (queryPartitions h m) fun rows => ?_
    cases rows <;> exact ret _
  · refine bind (ret m) fun m => bind (queryPartitions h m) fun rows => ?_
    cases rows <;> exact ret _

end readers
end Acts

namespace Request

variable {q : Request}

theorem mayConnect : MayConnect q.MayAct := ⟨trivial, fun _ => trivial⟩

theorem mayEdit (hq : q.mutates = true) : MayEdit q.MayAct where
  statement conn sql hs hm := by
    cases q <;> first | exact hs | exact ⟨hs, hm⟩ | cases hq
  command _ _ := hq

end Request

/-- The code of a request consists of its actions. -/
theorem code_acts (q : Request) : Acts q.MayAct q.code := by
  have hc : MayConnect q.MayAct := Request.mayConnect
  cases q with
  | createTable t schema spec properties =>
    refine Acts.bind (Acts.withExclusive (Acts.withConnection hc fun conn => ?_) ?_ ?_)
      fun _ => Acts.ret _
    · refine Acts.bind (Acts.statement _ ⟨rfl, rfl⟩) fun ok => ?_
      cases ok <;> exact Acts.ret _
    · exact ⟨by simp [Request.tableNames], rfl⟩
    · exact ⟨by simp [Request.tableNames], rfl⟩
  | getTableMetadata t s =>
    have ht : t ∈ (Request.getTableMetadata t s).tableNames := by simp [Request.tableNames]
    have hread : ∀ m (f : Option (List PartitionRow) → Reply),
        Acts (Request.getTableMetadata t s).MayAct
          ((PartitionRegistry.getPartitions t m).bind fun parts => .ret (f parts)) := fun m f =>
      Acts.bind (Acts.getPartitions (fun _ _ h => h) hc trivial m (fun _ => trivial)
        (fun _ _ => rfl) ht ht) fun _ => Acts.ret _
    refine Acts.bind (Acts.getTable_catalog (fun _ _ h => h) hc ht ht) fun table => ?_
    cases table with
    | none => exact Acts.ret _
    | some table =>
      show Acts _ (if s = 0 then _ else _)
      split
      · exact Acts.bind (Acts.atomically trivial) fun _ => hread _ _
      · exact hread _ _
  | alterTable t a =>
    have ht : t ∈ (Request.alterTable t a).tableNames := by
      cases a <;> simp [Request.tableNames]
    have hend : ∀ x : Reply, Acts (Request.alterTable t a).MayAct
        ((PartitionRegistry.invalidateTableCache t).bind fun _ => .ret x) :=
      fun x => Acts.bind (Acts.atomically rfl) fun _ => Acts.ret _
    have he : MayEdit (Request.alterTable t a).MayAct := Request.mayEdit rfl
    cases a with
    | newSchemaJson schema =>
      refine Acts.bind (Acts.getCurrentSchema he.select hc ht ht) fun current => ?_
      dsimp only
      split
      · exact Acts.ret _
      · obtain ⟨body, hbody, hb⟩ := Acts.alterTableSchema_body (t := t) he schema
          "schema evolution via AlterTable"
        rw [hbody]
        exact Acts.bind (Acts.withExclusive (Acts.withConnection hc fun conn => (hb conn).acts)
          ⟨ht, rfl⟩ ⟨ht, rfl⟩) fun _ => hend _
    | rename newName =>
      have hn : newName ∈ (Request.alterTable t (.rename newName)).tableNames := by
        simp [Request.tableNames]
      refine Acts.bind (Acts.withExclusive (Acts.withExclusive (Acts.withConnection hc fun conn => ?_)
        ⟨hn, rfl⟩ ⟨hn, rfl⟩) ⟨ht, rfl⟩ ⟨ht, rfl⟩) fun _ => hend _
      refine Acts.bind (Acts.statement _ ⟨rfl, rfl⟩) fun ok => ?_
      cases ok <;> exact Acts.ret _
    | newPartitionSpec | notSet => exact hend _
  | dropTable t purge =>
    have ht : t ∈ (Request.dropTable t purge).tableNames := by simp [Request.tableNames]
    obtain ⟨body, hbody, hb⟩ := Acts.dropTable_body (t := t)
      (Request.mayEdit (q := .dropTable t purge) rfl) purge
    show Acts _ ((CatalogManager.dropTable t purge).bind _)
    rw [hbody]
    refine Acts.bind (Acts.withExclusive (Acts.withConnection hc fun conn => (hb conn).acts)
      ⟨ht, rfl⟩ ⟨ht, rfl⟩) fun result => ?_
    dsimp only
    split
    · exact Acts.bind (Acts.atomically rfl) fun _ => Acts.ret _
    · exact Acts.ret _
  | listTables pageSize token =>
    exact Acts.bind (Acts.withConnection hc fun conn => Acts.statement _ rfl) fun _ => Acts.ret _
  | getPartitions t s pageSize token =>
    have ht : t ∈ (Request.getPartitions t s pageSize token).tableNames := by
      simp [Request.tableNames]
    change Acts _ (MetadataServer.getPartitions t s pageSize token)
    unfold MetadataServer.getPartitions
    split
    · refine Acts.bind (Acts.getPartitionsPaged (fun _ _ h => h) hc trivial s pageSize _ ht ht)
        fun r => ?_
      cases r <;> exact Acts.ret _
    · refine Acts.bind (Acts.getPartitions (fun _ _ h => h) hc trivial s (fun _ => trivial)
        (fun _ _ => rfl) ht ht) fun r => ?_
      cases r <;> exact Acts.ret _
  | getPartitionStats t =>
    have ht : t ∈ (Request.getPartitionStats t).tableNames := by simp [Request.tableNames]
    exact Acts.bind (Acts.getStats (fun _ _ h => h) hc trivial ht ht) fun _ => Acts.ret _
  | commitSnapshot t news dels parent op =>
    have ht : t ∈ (Request.commitSnapshot t news dels parent op).tableNames := by
      simp [Request.tableNames]
    obtain ⟨body, hbody, hb⟩ := Acts.commitSnapshot_body (t := t)
      (Request.mayEdit (q := .commitSnapshot t news dels parent op) rfl)
      (mayMark fun _ _ hs => hs) rfl parent
      (if op = "" then "append" else op) (news.map PartitionInfo.toRow) dels
    show Acts _ ((PartitionRegistry.commitSnapshot _ _ _ _ _).bind _)
    rw [hbody]
    exact Acts.bind (Acts.withExclusive (Acts.withConnection hc fun conn => (hb conn).acts)
      ⟨ht, rfl⟩ ⟨ht, rfl⟩) fun _ => Acts.ret _
  | getSnapshot t s =>
    refine Acts.withConnection hc fun conn => Acts.bind (Acts.getSnapshot (fun _ _ h => h) s)
      fun r => ?_
    cases r <;> exact Acts.ret _
  | listSnapshots t limit =>
    exact Acts.withConnection hc fun conn =>
      Acts.bind (Acts.listSnapshots (fun _ _ h => h) limit) fun _ => Acts.ret _
  | beginTransaction clientId isolation =>
    refine Acts.bind (Acts.bind (Acts.atomically ⟨_, _, rfl⟩) fun x =>
      Acts.bind (Acts.atomically trivial) fun n =>
      Acts.bind (Acts.atomically ⟨_, _, rfl⟩) fun _ => Acts.ret _) fun p => ?_
    exact Acts.withConnection hc fun conn =>
      Acts.bind (Acts.statement _ ⟨_, _, _, rfl⟩) fun _ => Acts.ret _
  | commitTransaction txnId =>
    refine Acts.bind (Acts.atomically rfl) fun ok => ?_
    cases ok with
    | true =>
      refine Acts.bind (Acts.withConnection hc fun conn => Acts.statement _ rfl) fun _ => Acts.ret _
    | false => exact Acts.ret _
  | abortTransaction txnId =>
    refine Acts.bind (Acts.atomically rfl) fun _ => ?_
    exact Acts.withConnection hc fun conn => Acts.bind (Acts.statement _ rfl) fun _ => Acts.ret _
  | partitions t s =>
    have ht : t ∈ (Request.partitions t s).tableNames := by simp [Request.tableNames]
    exact Acts.bind (Acts.getPartitions (fun _ _ h => h) hc trivial s (fun _ => trivial)
      (fun _ _ => rfl) ht ht) fun _ => Acts.ret _
  | partitionsPaged t s pageSize last =>
    have ht : t ∈ (Request.partitionsPaged t s pageSize last).tableNames := by
      simp [Request.tableNames]
    exact Acts.bind (Acts.getPartitionsPaged (fun _ _ h => h) hc trivial s pageSize last ht ht)
      fun _ => Acts.ret _
  | stats t =>
    have ht : t ∈ (Request.stats t).tableNames := by simp [Request.tableNames]
    exact Acts.bind (Acts.getStats (fun _ _ h => h) hc trivial ht ht) fun _ => Acts.ret _
  | commit t parent op news dels =>
    have ht : t ∈ (Request.commit t parent op news dels).tableNames := by
      simp [Request.tableNames]
    obtain ⟨body, hbody, hb⟩ := Acts.commitSnapshot_body (t := t)
      (Request.mayEdit (q := .commit t parent op news dels) rfl)
      (mayMark fun _ _ hs => hs) rfl parent op news dels
    show Acts _ ((PartitionRegistry.commitSnapshot _ _ _ _ _).bind _)
    rw [hbody]
    exact Acts.bind (Acts.withExclusive (Acts.withConnection hc fun conn => (hb conn).acts)
      ⟨ht, rfl⟩ ⟨ht, rfl⟩) fun _ => Acts.ret _

end IceLog
