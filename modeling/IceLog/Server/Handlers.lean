import IceLog.Server.Commits
import IceLog.Server.Listings
import IceLog.Server.Mutations

/-! What the handlers of the remote procedures do, and with it the contract of the server. -/
namespace IceLog

open Interleaved Serial

/-- What is read at some moment between `w` and `u` under a shared lock; `failed` if a statement
fails. -/
def ReadAt {α : Type} (policy : Policy) (others : Bool) (t : String) (f : Db → α) (failed : α)
    (w : Moment) (x : α) (u : Moment) : Prop :=
  ∃ m, Later policy others [] w m ∧ Later policy others [] m u ∧
    (Calm policy others [t] (cStr t) → x = f m.now.db ∨ (x = failed ∧ ¬ policy.Flawless))

variable {pg : Postgres} {policy : Policy} {others : Bool} {i : ℕ} {q : Request}
  {h : Held} {ds ts : List String} {w w' u v : Moment} {t : String} {c : Conn} {α : Type}

theorem durable_readAt (f : Db → α) (failed x : α) :
    Durable policy others ts (ReadAt policy others t f failed w x) :=
  fun _ _ hl ⟨m, hw, hm, hx⟩ => ⟨m, hw, hm.trans hl.forget, hx⟩

/-- A function that reads on a connection of its own, under a shared lock. -/
theorem safe_readShared {f : Db → α} {failed : α} {body : Conn → Code α}
    (ho : Own policy i q {} [] w)
    (hb : ∀ c v, Connected policy i q { shared := [t] } [] c policy.Flawless v →
      Safe (view pg policy others i q)
        (fun x u => Connected policy i q { shared := [t] } [] c policy.Flawless u ∧
          Reads policy others [t] policy.Flawless (cStr t) f failed v x u)
        (fun _ => False) (body c) v) :
    Safe (view pg policy others i q)
      (fun x u => Own policy i q {} [] u ∧ ReadAt policy others t f failed w x u)
      (fun u => Own policy i q {} [] u ∧ Later policy others [] w u)
      (withShared t (withConnection body)) w := by
  refine safe_withShared ho (fun x => durable_readAt f failed x) (durable_later w) fun v hv hl => ?_
  refine safe_withConnection (fun _ => []) hv rfl (fun x => durable_readAt f failed x)
    (durable_later w).lift (fun u hu => hl.trans hu.forget) fun c v' hc hl' => ?_
  refine (hb c v' (hc.at _)).mono (fun x u hu => ?_) fun _ => id
  obtain ⟨hc', hr⟩ := hu
  exact ⟨hc'.mono False.elim, u, hl.trans (hl'.forget.trans hr.1.forget), .refl u, hr.2⟩

/-- The row of a table. -/
def Db.tableRow (db : Db) (name : String) : Option TableRow :=
  (db.find name).map fun p => p.2.toRow p.1

/-- The current schema of a table. -/
def Db.currentSchema (db : Db) (name : String) : Option SchemaVersion :=
  (db.tableRow name).map fun r => ⟨r.schemaVersion, r.schemaJson, none, "current"⟩

theorem safe_catalog_getTable (ho : Own policy i q {} [] w) :
    Safe (view pg policy others i q)
      (fun x u => Own policy i q {} [] u ∧
        ReadAt policy others t (fun db => db.tableRow (cStr t)) none w x u)
      (fun u => Own policy i q {} [] u ∧ Later policy others [] w u) (CatalogManager.getTable t) w :=
  safe_readShared ho fun _ _ hc => safe_getTable hc fun hf => hf.statement _

theorem safe_getCurrentSchema (ho : Own policy i q {} [] w) :
    Safe (view pg policy others i q)
      (fun x u => Own policy i q {} [] u ∧ ReadAt policy others t (fun db =>
        (db.tableRow (cStr t)).map fun r => ⟨r.schemaVersion, r.schemaJson, none, "current"⟩) none
        w x u)
      (fun u => Own policy i q {} [] u ∧ Later policy others [] w u)
      (SchemaStore.getCurrentSchema t) w := by
  refine safe_readShared ho fun c v hc => ?_
  refine Safe.bind ((safe_getTable hc fun hf => hf.statement _).mono (fun x u hu => ?_) fun _ => id)
  obtain ⟨hc', hl, hx⟩ := hu
  have hx : Calm policy others [t] (cStr t) → x = u.now.db.tableRow (cStr t) ∨
      (x = none ∧ ¬ policy.Flawless) := hx
  let f (r : TableRow) : SchemaVersion := ⟨r.schemaVersion, r.schemaJson, none, "current"⟩
  have hf : About (cStr t) fun db : Db => (db.tableRow (cStr t)).map f := fun _ _ h => by
    simp only [Db.tableRow, h.find]
  have hx' : Calm policy others [t] (cStr t) → x.map f = (u.now.db.tableRow (cStr t)).map f ∨
      (x.map f = none ∧ ¬ policy.Flawless) := fun hcalm =>
    (hx hcalm).imp (congrArg _) fun hx => ⟨by rw [hx.1, Option.map_none], hx.2⟩
  cases x with
  | none => exact safe_connected_ret (durable_reads hf) hc' ⟨hl, hx'⟩
  | some row => exact safe_connected_ret (durable_reads hf) hc' ⟨hl, hx'⟩

theorem safe_getSchemaAtVersion {version : ℤ} (ho : Own policy i q {} [] w) :
    Safe (view pg policy others i q)
      (fun x u => Own policy i q {} [] u ∧ ReadAt policy others t
        (Db.ofTable (Db.historyAt version) none (cStr t)) none w x u)
      (fun u => Own policy i q {} [] u ∧ Later policy others [] w u)
      (SchemaStore.getSchemaAtVersion t version) w := by
  exact safe_readShared ho fun c v hc => safe_by_id (yields_historyAt version) (fun _ => rfl)
    (aboutSlice_historyAt version) hc (fun _ => rfl) (fun hf => hf.statement _)
    fun hf _ => hf.statement _

theorem safe_listSchemaHistory (ho : Own policy i q {} [] w) :
    Safe (view pg policy others i q)
      (fun x u => Own policy i q {} [] u ∧ ReadAt policy others t
        (Db.ofTable Db.historyOf [] (cStr t)) [] w x u)
      (fun u => Own policy i q {} [] u ∧ Later policy others [] w u)
      (SchemaStore.listSchemaHistory t) w := by
  exact safe_readShared ho fun c v hc => safe_by_id yields_history (fun _ => rfl)
    aboutSlice_historyOf hc (fun _ => rfl) (fun hf => hf.statement _) fun hf _ => hf.statement _

/-! The handlers. What a request called at `w` has returned by `u`, with its reply `x`. -/

/-- The reply to `GetPartitions`. -/
def listing (t : String) (pageSize : ℤ) : Option (List PartitionRow) → Reply
  | none => .notFound ("Table not found: " ++ t)
  | some rows => .partitionList (rows.map PartitionRow.toInfo) rows.length
    (if pageSize > 0 then (rows.getLast?.map fun p => toString p.partitionId).getD "" else "")

/-- What a call of `GetPartitions` or of one of the two functions under it lists. -/
def Lists (policy : Policy) (t : String) (s : ℕ) (pageSize last : ℤ) (w : Moment)
    (x : Option (List PartitionRow)) (u : Moment) : Prop :=
  if pageSize > 0 then
    Listed policy t s (Option.map (page (pageLimit pageSize) last)) false w x u
  else Listed policy t s id true w x u

/-- The reply to `GetTableMetadata`. -/
def metadata (table : TableRow) (readSnapshot : ℕ) (parts : List PartitionRow) : TableMetadata where
  tableName := table.tableName
  schemaJson := table.schemaJson
  currentSnapshotId := readSnapshot
  schemaVersion := table.schemaVersion
  partitions := parts.map PartitionRow.toInfo
  totalRowCount := (parts.map PartitionRow.rowCount).sum
  totalSizeBytes := (parts.map PartitionRow.sizeBytes).sum

/-- `GetTableMetadata` reads the row of the table, resolves the snapshot, and lists the
partitions. -/
structure Described (policy : Policy) (t : String) (s : ℕ) (w : Moment) (x : TableMetadata)
    (u : Moment) (table : TableRow) (n : ℕ) (parts : Option (List PartitionRow)) (m m' : Moment) :
    Prop where
  before : w.Before m
  row : policy.Clean → m.now.db.tableRow t = some table
  after : m.Before m'
  snapshot : if s = 0 then
    n = if m'.now.mvcc.latestCommittedSnapshot = 0 then table.currentSnapshotId
      else m'.now.mvcc.latestCommittedSnapshot
    else n = s
  listed : Listed policy t n id true m' parts u
  reply : x = metadata table n (parts.getD [])

/-- What the reply to a request says. -/
def Served (pg : Postgres) (policy : Policy) (others : Bool) (i : ℕ) (q : Request) (w : Moment) (x : Reply)
    (u : Moment) : Prop :=
  match q with
  | .partitions t s => ∃ r, x = .rows r ∧ Listed policy t s id true w r u
  | .partitionsPaged t s pageSize last => ∃ r, x = .rows r ∧
      Listed policy t s (Option.map (page (pageLimit pageSize) last)) false w r u
  | .getPartitions t s pageSize token => ∃ r, x = listing t pageSize r ∧
      Lists policy t s pageSize (MetadataServer.lastId token) w r u
  | .stats t | .getPartitionStats t => ∃ r, x = .partitionStats r ∧
      Listed policy t 0 statsOf false w r u
  | .getTableMetadata t s => (∃ e, x = .notFound e) ∨ ∃ r table n parts m m', x = .metadata r ∧
      Described policy t s w r u table n parts m m'
  | .commit t parent op news dels => ∃ r, x = .snapshot r ∧
      CommitAnswer pg policy others i q t parent op news dels w r u
  | .commitSnapshot t news dels parent op => ∃ r, x = .snapshot r ∧
      CommitAnswer pg policy others i q t parent (if op = "" then "append" else op)
        (news.map PartitionInfo.toRow) dels w r u
  | .createTable t schema spec properties => ∃ r, x = .operation r ∧ (r.success = true →
      Effected others i (CreateEffect pg t schema spec (propertiesJson properties)) w u)
  | .alterTable t (.newSchemaJson schema) => ∃ r, x = .operation r ∧ (r.success = true →
      Transacted policy others i q (fun v v' => Calm policy others [t] (cStr t) →
        TableEffect t (Altering pg schema "schema evolution via AlterTable") v v') w true u)
  | .alterTable t (.rename newName) => ∃ r, x = .operation r ∧ (r.success = true →
      Effected others i (RenameEffect t newName) w u)
  | .dropTable t purge => ∃ r, x = .operation r ∧
      Transacted policy others i q (fun v v' => Calm policy others [t] (cStr t) →
        TableEffect t (fun _ _ => Slice.Dropped purge) v v') w r.success u
  | .beginTransaction .. => ∃ y r, x = .transaction y r ∧ ∃ v : Moment, w.Before v ∧ v.Before u ∧
      v.now.mvcc.latestCommittedSnapshot = r
  | _ => True

section handlers

theorem Listed.until {f : Option (List PartitionRow) → α} {b : Bool} {x : α} {s : ℕ}
    (hx : Listed policy t s f b w x u) (hu : u.Before v) : Listed policy t s f b w x v := by
  obtain ⟨n, m, hr, hw, hm, hx⟩ := hx
  exact ⟨n, m, hr, hw, hm.trans hu, hx⟩

theorem Effected.since {E : Moment → Moment → Prop} (hl : Later policy others [] w v)
    (hx : Effected others i E v u) : Effected others i E w u := by
  obtain ⟨x, x', hv, hx, hu, hs, he⟩ := hx
  refine ⟨x, x', hl.before.trans hv, hx, hu, fun hf => ?_, he⟩
  obtain ⟨h₁, h₂, h₃⟩ := hs hf
  exact ⟨(hl.still hf).trans h₁, h₂, h₃.trans (hl.still hf).mvcc⟩

theorem Effected.until {E : Moment → Moment → Prop} (hx : Effected others i E w v)
    (hu : v.Before u) (hs : others = false → v.now.db.SameRows u.now.db ∧ u.now.mvcc = v.now.mvcc) :
    Effected others i E w u := by
  obtain ⟨x, x', hw, hx, hv, hs', he⟩ := hx
  refine ⟨x, x', hw, hx, hv.trans hu, fun hf => ?_, he⟩
  obtain ⟨h₁, h₂, h₃⟩ := hs' hf
  exact ⟨h₁, h₂.trans (hs hf).1, (hs hf).2.trans h₃⟩

theorem Transacted.since {E : Moment → Moment → Prop} {ok : Bool}
    (hl : Later policy others [] w v) (hx : Transacted policy others i q E v ok u) :
    Transacted policy others i q E w ok u := by
  cases hx with
  | failed hok hv => exact .failed hok (hl.trans hv)
  | dropped hok hv hs hc =>
    refine .dropped hok (hl.before.trans hv) (fun hf => ?_) hc
    exact ⟨(hl.still hf).rows.trans (hs hf).1, (hs hf).2.trans (hl.still hf).mvcc⟩
  | done hok he hc => exact .done hok (he.since hl) hc

/-- After the entries of the cache have been dropped. -/
theorem Transacted.until {E : Moment → Moment → Prop} (hx : Transacted policy others i q E w true v)
    (hu : v.Before u) (hs : others = false → v.now.db.SameRows u.now.db ∧ u.now.mvcc = v.now.mvcc) :
    Transacted policy others i q E w true u := by
  cases hx with
  | failed hok => cases hok
  | dropped hok hv hs' hc =>
    refine .dropped hok (hv.trans hu) (fun hf => ?_) hc
    exact ⟨(hs' hf).1.trans (hs hf).1, (hs hf).2.trans (hs' hf).2⟩
  | done hok he hc => exact .done hok (he.until hu hs) hc

/-- Handlers that throw owe nothing. -/
theorem safe_forget {p : Code α} {P : α → Moment → Prop} {E : Moment → Prop}
    (hp : Safe (view pg policy others i q) (fun x u => Own policy i q {} [] u ∧ P x u)
      (fun u => Own policy i q {} [] u ∧ E u) p w) :
    Safe (view pg policy others i q) (fun x u => Own policy i q {} [] u ∧ P x u)
      (Own policy i q {} []) p w :=
  hp.mono (fun _ _ h => h) fun _ h => h.1

/-- A handler that returns `f` of what a function returns. -/
theorem safe_reply {p : Code α} {f : α → Reply} {P : α → Moment → Prop} {E : Moment → Prop}
    {P' : Reply → Moment → Prop} (hP : ∀ x, Durable policy others [] (P' x))
    (hp : Safe (view pg policy others i q) (fun x u => Own policy i q {} [] u ∧ P x u)
      (fun u => Own policy i q {} [] u ∧ E u) p w)
    (hf : ∀ x u, P x u → P' (f x) u) :
    Safe (view pg policy others i q) (fun x u => Own policy i q {} [] u ∧ P' x u)
      (Own policy i q {} []) (p.bind fun x => .ret (f x)) w :=
  Safe.bind ((safe_forget hp).mono (fun x u hu => safe_ret hP hu.1 (hf x u hu.2)) fun _ h => h)

theorem durable_served (x : Reply) : Durable policy others [] (Served pg policy others i q w x) := by
  intro u u' hl hx
  unfold Served at hx ⊢
  split at hx
  · obtain ⟨r, hr, hx⟩ := hx
    exact ⟨r, hr, hx.until hl.before⟩
  · obtain ⟨r, hr, hx⟩ := hx
    exact ⟨r, hr, hx.until hl.before⟩
  · obtain ⟨r, hr, hx⟩ := hx
    refine ⟨r, hr, ?_⟩
    unfold Lists at hx ⊢
    split at hx <;> rename_i h
    · rw [if_pos h]
      exact hx.until hl.before
    · rw [if_neg h]
      exact hx.until hl.before
  · obtain ⟨r, hr, hx⟩ := hx
    exact ⟨r, hr, hx.until hl.before⟩
  · obtain ⟨r, hr, hx⟩ := hx
    exact ⟨r, hr, hx.until hl.before⟩
  · refine hx.imp_right ?_
    rintro ⟨r, table, n, parts, m, m', hr, hx⟩
    exact ⟨r, table, n, parts, m, m', hr, hx.before, hx.row, hx.after, hx.snapshot,
      hx.listed.until hl.before, hx.reply⟩
  · obtain ⟨r, hr, hx⟩ := hx
    exact ⟨r, hr, durable_transacted _ _ _ _ hl hx⟩
  · obtain ⟨r, hr, hx⟩ := hx
    exact ⟨r, hr, durable_transacted _ _ _ _ hl hx⟩
  · obtain ⟨r, hr, hx⟩ := hx
    exact ⟨r, hr, fun hok => durable_effected _ _ _ hl (hx hok)⟩
  · obtain ⟨r, hr, hx⟩ := hx
    exact ⟨r, hr, fun hok => durable_transacted _ _ _ _ hl (hx hok)⟩
  · obtain ⟨r, hr, hx⟩ := hx
    exact ⟨r, hr, fun hok => durable_effected _ _ _ hl (hx hok)⟩
  · obtain ⟨r, hr, hx⟩ := hx
    exact ⟨r, hr, durable_transacted _ _ _ _ hl hx⟩
  · obtain ⟨y, r, hr, v, hw, hv, hx⟩ := hx
    exact ⟨y, r, hr, v, hw, hv.trans hl.before, hx⟩
  · trivial

theorem safe_createTable_handler {schema spec : String} {properties : List (String × String)}
    (ho : Own policy i q {} [] w) (hn : policy.Clean → NulFree t)
    (hq : q = .createTable t schema spec properties) :
    Safe (view pg policy others i q)
      (fun x u => Own policy i q {} [] u ∧ Served pg policy others i q w x u) (Own policy i q {} [])
      (MetadataServer.createTable t schema spec properties) w := by
  subst hq
  exact safe_reply durable_served (safe_createTable ho hn) fun x u hu => ⟨x, rfl, hu⟩

theorem safe_getPartitions_handler {s : ℕ} {pageSize : ℤ} {token : String}
    (ho : Own policy i q {} [] w) (hn : policy.Clean → NulFree t)
    (hq : q = .getPartitions t s pageSize token) :
    Safe (view pg policy others i q)
      (fun x u => Own policy i q {} [] u ∧ Served pg policy others i q w x u) (Own policy i q {} [])
      (MetadataServer.getPartitions t s pageSize token) w := by
  subst hq
  have hend : ∀ (r : Option (List PartitionRow)) (u : Moment),
      Own policy i (.getPartitions t s pageSize token) {} [] u →
      Lists policy t s pageSize (MetadataServer.lastId token) w r u →
      Safe (view pg policy others i (.getPartitions t s pageSize token))
        (fun x u => Own policy i (.getPartitions t s pageSize token) {} [] u ∧
          Served pg policy others i (.getPartitions t s pageSize token) w x u)
        (Own policy i (.getPartitions t s pageSize token) {} [])
        (match r with
          | none => .ret (.notFound ("Table not found: " ++ t))
          | some rows =>
            let nextPageToken := if pageSize > 0 then
              (rows.getLast?.map fun p => toString p.partitionId).getD "" else ""
            .ret (.partitionList (rows.map PartitionRow.toInfo) rows.length nextPageToken)) u := by
    intro r u hu hx
    cases r <;> exact safe_ret durable_served hu ⟨_, rfl, hx⟩
  unfold MetadataServer.getPartitions
  by_cases hp : pageSize > 0
  · rw [if_pos hp]
    refine Safe.bind ((safe_forget (safe_getPartitionsPaged ho hn)).mono (fun r u hu => ?_)
      fun _ h => h)
    exact hend r u hu.1 (by rw [Lists, if_pos hp]; exact hu.2)
  · rw [if_neg hp]
    refine Safe.bind ((safe_forget (safe_getPartitions ho hn)).mono (fun r u hu => ?_)
      fun _ h => h)
    exact hend r u hu.1 (by rw [Lists, if_neg hp]; exact hu.2)

theorem safe_getTableMetadata {s : ℕ} (ho : Own policy i q {} [] w)
    (hn : policy.Clean → NulFree t) (hq : q = .getTableMetadata t s) :
    Safe (view pg policy others i q)
      (fun x u => Own policy i q {} [] u ∧ Served pg policy others i q w x u) (Own policy i q {} [])
      (MetadataServer.getTableMetadata t s) w := by
  subst hq
  refine Safe.bind ((safe_forget (safe_catalog_getTable ho)).mono (fun x u hu => ?_) fun _ h => h)
  obtain ⟨hu, m, hwm, hmu, hx⟩ := hu
  cases x with
  | none => exact safe_ret durable_served hu (.inl ⟨_, rfl⟩)
  | some table =>
    have hrow : policy.Clean → m.now.db.tableRow t = some table := by
      intro hc
      rcases hx (.of_clean hn (by simp) hc) with hx | ⟨hx, -⟩
      · rw [cStr_of_nulFree (hn hc)] at hx
        exact hx.symm
      · cases hx
    have hend : ∀ n m' v, m.Before m' → Own policy i (.getTableMetadata t s) {} [] v →
        m'.Before v → (if s = 0 then n = if m'.now.mvcc.latestCommittedSnapshot = 0 then
          table.currentSnapshotId else m'.now.mvcc.latestCommittedSnapshot else n = s) →
        Safe (view pg policy others i (.getTableMetadata t s))
          (fun x u => Own policy i (.getTableMetadata t s) {} [] u ∧
            Served pg policy others i (.getTableMetadata t s) w x u)
          (Own policy i (.getTableMetadata t s) {} [])
          ((PartitionRegistry.getPartitions t n).bind fun parts =>
            .ret (.metadata (metadata table n (parts.getD [])))) v := by
      intro n m' v hmm' hv hm'v hn'
      refine safe_reply durable_served (safe_getPartitions hv hn) fun parts u hu => .inr ?_
      exact ⟨_, table, n, parts, m, m', rfl, hwm.before, hrow, hmm', hn', hu.since hm'v, rfl⟩
    by_cases hs : s = 0
    · subst hs
      refine safe_loadSnapshot hu fun v v' hv' hl hl' => ?_
      exact hend _ v v' (hmu.before.trans hl.before) hv' hl'.before (by rw [if_pos rfl])
    · have := hend s m u .refl hu hmu.before (by rw [if_neg hs])
      simpa [hs, metadata] using this

theorem safe_alterTable {a : Alteration} (ho : Own policy i q {} [] w)
    (hn : policy.Clean → ∀ n ∈ q.tableNames, NulFree n) (hq : q = .alterTable t a) :
    Safe (view pg policy others i q)
      (fun x u => Own policy i q {} [] u ∧ Served pg policy others i q w x u) (Own policy i q {} [])
      (MetadataServer.alterTable t a) w := by
  subst hq
  have hend : ∀ (ds : List String) (x : Reply) (v : Moment), ds ⊆ [t] →
      Own policy i (.alterTable t a) {} ds v →
      (∀ u, v.Before u → (others = false → v.now.db.SameRows u.now.db ∧ u.now.mvcc = v.now.mvcc) →
        Served pg policy others i (.alterTable t a) w x u) →
      Safe (view pg policy others i (.alterTable t a))
        (fun x u => Own policy i (.alterTable t a) {} [] u ∧
          Served pg policy others i (.alterTable t a) w x u) (Own policy i (.alterTable t a) {} [])
        ((PartitionRegistry.invalidateTableCache t).bind fun _ => .ret x) v := by
    intro ds x v hds hv hx
    refine safe_cacheInvalidate hv fun u r hu hb hs _ => ?_
    have hnil : ds.filter (· ≠ t) = [] :=
      List.filter_eq_nil_iff.mpr fun x hx => by simpa using hds hx
    rw [hnil] at hu
    exact safe_ret durable_served hu (hx u hb hs)
  cases a with
  | newPartitionSpec spec => exact hend [] _ w (by simp) ho fun _ _ _ => trivial
  | notSet => exact hend [] _ w (by simp) ho fun _ _ _ => trivial
  | rename newName =>
    have hold : policy.Clean → NulFree t := fun hc => hn hc t (by simp [Request.tableNames])
    have hnew : policy.Clean → NulFree newName :=
      fun hc => hn hc newName (by simp [Request.tableNames])
    refine Safe.bind ((safe_renameTable ho rfl hold hnew).mono (fun x u hu => ?_) fun _ h => h.1)
    exact hend [t] _ u (by simp) hu.1 fun u' hb hs => ⟨x, rfl, fun hok => (hu.2 hok).until hb hs⟩
  | newSchemaJson schema =>
    have hnt : policy.Clean → NulFree t := fun hc => hn hc t (by simp [Request.tableNames])
    refine Safe.bind ((safe_forget (safe_getCurrentSchema ho)).mono (fun x u hu => ?_) fun _ h => h)
    obtain ⟨hu, m, hwm, hmu, -⟩ := hu
    dsimp only
    split
    · exact safe_ret durable_served hu ⟨_, rfl, by simp⟩
    · refine Safe.bind ((safe_forget (safe_alterTableSchema hu hnt rfl)).mono (fun x v hv => ?_)
        fun _ h => h)
      refine hend [] _ v (by simp) hv.1 fun u' hb hs => ⟨x, rfl, fun hok => ?_⟩
      have hx := hv.2
      rw [hok] at hx
      exact (hx.since (hwm.trans hmu)).until hb hs

theorem safe_dropTable_handler {purge : Bool} (ho : Own policy i q {} [] w)
    (hn : policy.Clean → NulFree t) (hq : q = .dropTable t purge) :
    Safe (view pg policy others i q)
      (fun x u => Own policy i q {} [] u ∧ Served pg policy others i q w x u) (Own policy i q {} [])
      (MetadataServer.dropTable t purge) w := by
  subst hq
  refine Safe.bind ((safe_dropTable ho hn rfl).mono (fun x u hu => ?_) fun _ h => h.1)
  obtain ⟨hu, hx⟩ := hu
  cases hok : x.success with
  | false =>
    rw [dropDebts, hok] at hu
    refine safe_ret durable_served hu ⟨x, rfl, hx⟩
  | true =>
    rw [dropDebts, hok, if_pos rfl] at hu
    rw [hok] at hx
    refine safe_cacheInvalidate hu fun u' r hu' hb hs _ => ?_
    have hnil : [t].filter (· ≠ t) = [] := by simp
    rw [hnil] at hu'
    exact safe_ret durable_served hu' ⟨x, rfl, hok ▸ hx.until hb hs⟩

/-- A function that only reads on a connection of its own. -/
theorem safe_readConnection {f : α → Reply} {body : Conn → Code α} (ho : Own policy i q {} [] w)
    (hq : ∀ x u, Served pg policy others i q w x u)
    (hb : ∀ c v, Connected policy i q {} [] c False v → Safe (view pg policy others i q)
      (fun _ u => Connected policy i q {} [] c False u ∧ True) (fun _ => False) (body c) v) :
    Safe (view pg policy others i q)
      (fun x u => Own policy i q {} [] u ∧ Served pg policy others i q w x u) (Own policy i q {} [])
      ((withConnection body).bind fun x => .ret (f x)) w := by
  refine safe_reply (P := fun _ _ => True) (E := fun _ => True) durable_served ?_ fun x u _ => hq _ _
  exact safe_withConnection (fun _ => []) ho rfl (fun _ => durable_true) durable_true
    (fun _ _ => trivial) fun c v hc _ => hb c v (hc.at False)

/-- A statement of which only success matters. -/
theorem safe_harmless {sql : Sql} (g : PGresult sql.Row → α) {sure : Prop} {exc : Moment → Prop}
    (hc : Connected policy i q h ds c sure w) (hs : sql.harmless = true) :
    Safe (view pg policy others i q) (fun _ u => Connected policy i q h ds c False u ∧ True) exc
      ((execParams c sql).bind fun res => .ret (g res)) w :=
  safe_answer g (hc.mono False.elim) hs False.elim (fun _ => durable_true) fun _ _ _ _ _ _ => trivial

theorem safe_beginTransaction {clientId : String} {isolation : IsolationLevel}
    (ho : Own policy i q {} [] w) (hq : q = .beginTransaction clientId isolation) :
    Safe (view pg policy others i q)
      (fun x u => Own policy i q {} [] u ∧ Served pg policy others i q w x u) (Own policy i q {} [])
      (MetadataServer.beginTransaction clientId isolation) w := by
  subst hq
  refine safe_mvcc ho (fun _ => trivial) (fun o s r s' hp => ?_) fun m₁ y v₁ hv₁ hwm hmv => ?_
  · cases hp
    exact ⟨_, rfl⟩
  refine safe_loadSnapshot hv₁ fun m v₂ hv₂ hl hl' => ?_
  refine safe_mvcc hv₂ (fun _ => trivial) (fun o s r s' hp => ?_) fun m₃ _ v₃ hv₃ hwm₃ hmv₃ => ?_
  · cases hp
    exact ⟨_, rfl⟩
  have hwm' : w.Before m := hwm.trans (hmv.trans hl.before)
  have hmv' : m.Before v₃ := hl'.before.trans (hwm₃.trans hmv₃)
  refine safe_forget (E := fun _ => True) ?_
  refine safe_withConnection (fun _ => []) hv₃ rfl durable_served durable_true
    (fun _ _ => trivial) fun c v hc hl₄ => ?_
  refine Safe.bind ((safe_answer (P := fun _ u => m.Before u) (fun res => res.first.getD 0)
    (hc.at False) rfl False.elim (fun _ => durable_before m)
    fun _ _ v' hl₅ _ _ => hmv'.trans (hl₄.before.trans hl₅.before)).mono
    (fun x u hu => ?_) fun _ he => he)
  exact safe_connected_ret (fun x => (durable_served x).lift) hu.1 ⟨y, _, rfl, m, hwm', hu.2, rfl⟩

theorem safe_commitTransaction {txnId : ℕ} (ho : Own policy i q {} [] w)
    (hq : q = .commitTransaction txnId) :
    Safe (view pg policy others i q)
      (fun x u => Own policy i q {} [] u ∧ Served pg policy others i q w x u) (Own policy i q {} [])
      (MetadataServer.commitTransaction txnId) w := by
  subst hq
  refine safe_mvcc ho (fun _ => trivial) (fun o s r s' hp => ?_) fun m r v hv hwm hmv => ?_
  · cases Server.perform_cases (a := .commitTransaction txnId) hp
    exact ⟨_, rfl⟩
  show Safe _ _ _ (if _ then _ else _) v
  split
  · exact safe_readConnection (f := fun _ => .operation { success := true }) hv
      (fun _ _ => trivial) fun c v' hc => safe_harmless _ hc rfl
  · exact safe_ret durable_served hv trivial

theorem safe_abortTransaction {txnId : ℕ} (ho : Own policy i q {} [] w)
    (hq : q = .abortTransaction txnId) :
    Safe (view pg policy others i q)
      (fun x u => Own policy i q {} [] u ∧ Served pg policy others i q w x u) (Own policy i q {} [])
      (MetadataServer.abortTransaction txnId) w := by
  subst hq
  refine safe_mvcc ho (fun _ => trivial) (fun o s r s' hp => ?_) fun m _ v hv hwm hmv => ?_
  · cases hp
    exact ⟨_, rfl⟩
  refine safe_forget (E := fun _ => True) ?_
  refine safe_withConnection (fun _ => []) hv rfl durable_served durable_true
    (fun _ _ => trivial) fun c v hc hl₄ => ?_
  refine Safe.bind ((safe_harmless (h := {}) PGresult.commandOk hc rfl).mono
    (fun x u hu => ?_) fun _ he => he)
  exact safe_connected_ret (fun x => (durable_served x).lift) hu.1 trivial

theorem safe_getSnapshot {s : ℕ} (ho : Own policy i (.getSnapshot t s) {} [] w) :
    Safe (view pg policy others i (.getSnapshot t s))
      (fun x u => Own policy i (.getSnapshot t s) {} [] u ∧
        Served pg policy others i (.getSnapshot t s) w x u) (Own policy i (.getSnapshot t s) {} [])
      (MetadataServer.getSnapshot t s) w := by
  refine safe_forget (E := fun _ => True) ?_
  refine safe_withConnection (fun _ => []) ho rfl durable_served durable_true
    (fun _ _ => trivial) fun c v hc hl => ?_
  refine Safe.bind ((safe_client_getSnapshot (hc.at False) False.elim).mono (fun x u hu => ?_)
    fun _ he => he)
  cases x <;> exact safe_connected_ret (fun x => (durable_served x).lift) hu.1 trivial

theorem safe_listSnapshots {limit : ℤ} (ho : Own policy i (.listSnapshots t limit) {} [] w) :
    Safe (view pg policy others i (.listSnapshots t limit))
      (fun x u => Own policy i (.listSnapshots t limit) {} [] u ∧
        Served pg policy others i (.listSnapshots t limit) w x u)
      (Own policy i (.listSnapshots t limit) {} []) (MetadataServer.listSnapshots t limit) w := by
  refine safe_forget (E := fun _ => True) ?_
  refine safe_withConnection (fun _ => []) ho rfl durable_served durable_true
    (fun _ _ => trivial) fun c v hc hl => ?_
  refine Safe.bind ((safe_client_listSnapshots (hc.at False) False.elim).mono (fun x u hu => ?_)
    fun _ he => he)
  exact safe_connected_ret (fun x => (durable_served x).lift) hu.1 trivial

/-- Every request does what it is said to do. -/
theorem safe_code (ho : Own policy i q {} [] w)
    (hn : policy.Clean → ∀ n ∈ q.tableNames, NulFree n) :
    Safe (view pg policy others i q)
      (fun x u => Own policy i q {} [] u ∧ Served pg policy others i q w x u) (Own policy i q {} [])
      q.code w := by
  cases q with
  | createTable t schema spec properties =>
    exact safe_createTable_handler ho (fun hc => hn hc t (by simp [Request.tableNames])) rfl
  | getTableMetadata t s =>
    exact safe_getTableMetadata ho (fun hc => hn hc t (by simp [Request.tableNames])) rfl
  | alterTable t a => exact safe_alterTable ho hn rfl
  | dropTable t purge =>
    exact safe_dropTable_handler ho (fun hc => hn hc t (by simp [Request.tableNames])) rfl
  | listTables pageSize token =>
    exact safe_readConnection ho (fun _ _ => trivial) fun c v hc => safe_harmless _ hc rfl
  | getPartitions t s pageSize token =>
    exact safe_getPartitions_handler ho (fun hc => hn hc t (by simp [Request.tableNames])) rfl
  | getPartitionStats t | stats t =>
    exact safe_reply durable_served
      (safe_getStats ho fun hc => hn hc t (by simp [Request.tableNames])) fun x u hx => ⟨x, rfl, hx⟩
  | commitSnapshot t news dels parent op =>
    exact safe_reply durable_served
      (safe_commitSnapshot ho (fun hc => hn hc t (by simp [Request.tableNames])) id)
      fun x u hx => ⟨x, rfl, hx⟩
  | commit t parent op news dels =>
    exact safe_reply durable_served
      (safe_commitSnapshot ho (fun hc => hn hc t (by simp [Request.tableNames])) id)
      fun x u hx => ⟨x, rfl, hx⟩
  | getSnapshot t s => exact safe_getSnapshot ho
  | listSnapshots t limit => exact safe_listSnapshots ho
  | beginTransaction clientId isolation => exact safe_beginTransaction ho rfl
  | commitTransaction txnId => exact safe_commitTransaction ho rfl
  | abortTransaction txnId => exact safe_abortTransaction ho rfl
  | partitions t s =>
    exact safe_reply durable_served
      (safe_getPartitions ho fun hc => hn hc t (by simp [Request.tableNames]))
      fun x u hx => ⟨x, rfl, hx⟩
  | partitionsPaged t s pageSize last =>
    exact safe_reply durable_served
      (safe_getPartitionsPaged ho fun hc => hn hc t (by simp [Request.tableNames]))
      fun x u hx => ⟨x, rfl, hx⟩

end handlers

end IceLog
