import IceLog.Server.Sequential

/-! All that can be read about a table, and what is answered while no request changes anything. -/
namespace IceLog

open Interleaved Serial

inductive TableRead where
  | getTable
  | getTableMetadata (snapshotId : ℕ)
  | getPartitions (snapshotId : ℕ) (pageSize : ℤ) (pageToken : String)
  | partitions (snapshotId : ℕ)
  | partitionsPaged (snapshotId : ℕ) (pageSize lastPartitionId : ℤ)
  | getPartitionStats
  | getSnapshot (snapshotId : ℕ)
  | listSnapshots (limit : ℤ)
  | getCurrentSchema
  | getSchemaAtVersion (version : ℤ)
  | listSchemaHistory

inductive ReadResult where
  | reply (x : Reply)
  | table (x : Option TableRow)
  | schema (x : Option SchemaVersion)
  | schemas (xs : List SchemaVersion)
deriving DecidableEq

/-- The partitions that a read at `n` lists, of which `l` is kept. -/
def Server.listedFor (s : Server) (t : String) (n : ℕ)
    (l : List PartitionRow → List PartitionRow) : Option (List PartitionRow) :=
  (s.db.queryPartitions (cStr t) (s.snapshotFor t n false)).map l

/-- The reply to `GetTableMetadata`. -/
def metadataReply (t : String) (n : ℕ) (parts : List PartitionRow) : Option TableRow → Reply
  | none => .notFound ("Table not found: " ++ t)
  | some table => .metadata (metadata table n parts)

namespace TableRead

variable (t : String)

def code : TableRead → Code ReadResult
  | getTable => (CatalogManager.getTable t).bind fun x => .ret (.table x)
  | getTableMetadata n => (MetadataServer.getTableMetadata t n).bind fun x => .ret (.reply x)
  | getPartitions n pageSize pageToken =>
    (MetadataServer.getPartitions t n pageSize pageToken).bind fun x => .ret (.reply x)
  | partitions n => (PartitionRegistry.getPartitions t n).bind fun x => .ret (.reply (.rows x))
  | partitionsPaged n pageSize last =>
    (PartitionRegistry.getPartitionsPaged t n pageSize last).bind fun x => .ret (.reply (.rows x))
  | getPartitionStats => (MetadataServer.getPartitionStats t).bind fun x => .ret (.reply x)
  | getSnapshot n => (MetadataServer.getSnapshot t n).bind fun x => .ret (.reply x)
  | listSnapshots limit => (MetadataServer.listSnapshots t limit).bind fun x => .ret (.reply x)
  | getCurrentSchema => (SchemaStore.getCurrentSchema t).bind fun x => .ret (.schema x)
  | getSchemaAtVersion version =>
    (SchemaStore.getSchemaAtVersion t version).bind fun x => .ret (.schema x)
  | listSchemaHistory => (SchemaStore.listSchemaHistory t).bind fun x => .ret (.schemas x)

/-- What the read answers in the state `s`. -/
def answer (s : Server) : TableRead → ReadResult
  | getTable => .table (s.db.tableRow (cStr t))
  | getTableMetadata n => .reply (metadataReply t (s.snapshotFor t n false)
      ((s.listedFor t n id).getD []) (s.db.tableRow (cStr t)))
  | getPartitions n pageSize pageToken => .reply (listing t pageSize (s.listedFor t n
      (if pageSize > 0 then page (pageLimit pageSize) (MetadataServer.lastId pageToken) else id)))
  | partitions n => .reply (.rows (s.listedFor t n id))
  | partitionsPaged n pageSize last =>
    .reply (.rows (s.listedFor t n (page (pageLimit pageSize) last)))
  | getPartitionStats => .reply (.partitionStats (statsOf (s.listedFor t 0 id)))
  | getSnapshot n => .reply (snapshotReply (Db.ofTable (Db.snapshotAt n) none (cStr t) s.db))
  | listSnapshots limit => .reply (snapshotsReply
      (Db.ofTable (Db.snapshotsOf (snapshotLimit limit)) [] (cStr t) s.db))
  | getCurrentSchema => .schema (s.db.currentSchema (cStr t))
  | getSchemaAtVersion version => .schema (Db.ofTable (Db.historyAt version) none (cStr t) s.db)
  | listSchemaHistory => .schemas (Db.ofTable Db.historyOf [] (cStr t) s.db)

end TableRead

variable {pg : Postgres} {policy : Policy} {i : ℕ} {q : Request} {α : Type} {w' : Moment}
  {tr : List (Act × Outcome)} {t : String} {c : ServerConfig} {n : ℕ}

/-- A read that is answered at all is answered so. -/
theorem Quiet.read_eq (h : Quiet pg c) (ht : NulFree t) (hi : c.thread i = none) (r : TableRead)
    {y : Option ReadResult} (hx : Solo (server pg .flawless) i q (r.code t) c.world tr y w') :
    y = some (r.answer t c.state) := by
  have ho : Own .flawless i q {} [] c.world := own_fresh h.reachable.inv (h.reachable.good.fresh i hi)
  have h₀ : Faultless tr := (solo_working h.unfailing h.working hx).2
  have hn : Policy.flawless.Clean → NulFree t := fun _ => ht
  have hrows := h.partitionsFor ht
  cases r with
  | getTable =>
    obtain ⟨x, rfl, hread⟩ := solo_bind_ret (g := ReadResult.table) (fun _ => rfl) hx
    rw [(solo_getTable ho hread).tells h₀]
    rfl
  | getTableMetadata m =>
    obtain ⟨x, rfl, hread⟩ := solo_bind_ret (g := ReadResult.reply) (fun _ => rfl) hx
    cases (solo_getTableMetadata ho hn hread).2 with
    | refused hr => exact absurd (h₀.1.symm.trans hr) Bool.false_ne_true
    | notFound _ _ hrow =>
      have hrow : c.state.db.tableRow (cStr t) = none :=
        hrow.resolve_left (by simp [h₀.fails Sql.readsTable])
      simp [TableRead.answer, hrow, metadataReply]
    | found _ hrow =>
      have hrow : c.state.db.tableRow (cStr t) = some _ := hrow
      simp [TableRead.answer, hrow, metadataReply, Server.listedFor, h₀.fails Sql.queries, hrows]
  | getPartitions m pageSize pageToken =>
    obtain ⟨x, rfl, hread⟩ := solo_bind_ret (g := ReadResult.reply) (fun _ => rfl) hx
    rw [(solo_getPartitions_handler ho hn hread).tells h₀, h₀.fails]
    simp only [TableRead.answer, Server.listedFor, Server.pageFor, hrows, Bool.false_eq_true,
      if_false]
    by_cases hp : pageSize > 0 <;> simp [hp]
  | partitions m =>
    obtain ⟨x, rfl, hread⟩ := solo_bind_ret (g := fun x => ReadResult.reply (.rows x)) (fun _ => rfl) hx
    rw [(solo_getPartitions ho hn hread).tells h₀, h₀.fails]
    simp [TableRead.answer, Server.listedFor, hrows]
  | partitionsPaged m pageSize last =>
    obtain ⟨x, rfl, hread⟩ := solo_bind_ret (g := fun x => ReadResult.reply (.rows x)) (fun _ => rfl) hx
    rw [(solo_getPartitionsPaged ho hn hread).tells h₀, h₀.fails]
    rfl
  | getPartitionStats =>
    obtain ⟨x, rfl, hread⟩ := solo_bind_ret (g := ReadResult.reply) (fun _ => rfl) hx
    rw [(solo_getPartitionStats ho hread).tells h₀, h₀.fails, h₀.loses]
    simp [TableRead.answer, Server.listedFor]
  | getSnapshot m =>
    obtain ⟨x, rfl, hread⟩ := solo_bind_ret (g := ReadResult.reply) (fun _ => rfl) hx
    rw [(solo_getSnapshot ho hread).tells h₀]
    rfl
  | listSnapshots limit =>
    obtain ⟨x, rfl, hread⟩ := solo_bind_ret (g := ReadResult.reply) (fun _ => rfl) hx
    rw [(solo_listSnapshots ho hread).tells h₀]
    rfl
  | getCurrentSchema =>
    obtain ⟨x, rfl, hread⟩ := solo_bind_ret (g := ReadResult.schema) (fun _ => rfl) hx
    rw [(solo_getCurrentSchema ho hread).tells h₀]
    rfl
  | getSchemaAtVersion version =>
    obtain ⟨x, rfl, hread⟩ := solo_bind_ret (g := ReadResult.schema) (fun _ => rfl) hx
    rw [(solo_getSchemaAtVersion ho hread).tells h₀]
    rfl
  | listSchemaHistory =>
    obtain ⟨x, rfl, hread⟩ := solo_bind_ret (g := ReadResult.schemas) (fun _ => rfl) hx
    rw [(solo_listSchemaHistory ho hread).tells h₀]
    rfl

/-- Every read is answered. -/
theorem Quiet.read_solo (h : Quiet pg c) (ht : NulFree t) (hi : c.thread i = none) (r : TableRead) :
    ∃ q tr x w', Solo (server pg .flawless) i q (r.code t) c.world tr x w' := by
  have hn : Policy.flawless.Clean → NulFree t := fun _ => ht
  have ho : ∀ q, Own .flawless i q {} [] c.world := fun q =>
    own_fresh h.reachable.inv (h.reachable.good.fresh i hi)
  -- a function whose actions can be performed, and the result that is made of its value
  have hsolo : ∀ {α : Type} {p : Code α} {post : α → Moment → Prop} {exc : Moment → Prop}
      (q : Request), Safe (view pg .flawless false i q) post exc p c.world → ¬ q.SelfRename →
      ∀ f : α → ReadResult, ∃ q tr x w',
        Solo (server pg .flawless) i q (p.bind fun x => .ret (f x)) c.world tr x w' := by
    intro α p post exc q hs hq f
    obtain ⟨tr, x, w', hx⟩ := hs.solo (J := fun s => Ready i s ∧ 1 ≤ s.cache.capacity)
      (fun u a _ hinv hneeds hr => by
        obtain ⟨o, s, s', ha, hp, hr'⟩ := hr.1.step h.unfailing hinv hneeds hq fun _ _ _ => hr.2
        exact ⟨o, s, s', ha, hp, hr', (perform_capacity hr.2 hp).symm ▸ hr.2⟩)
      (Prog.all_of_forall (φ := fun _ => True) (fun _ => trivial) p) ⟨h.ready i, h.capacity⟩
    exact ⟨q, tr, _, w', hx.map f⟩
  have hany : ¬ (Request.listTables 0 "").SelfRename := by rintro ⟨_, ⟨⟩⟩
  cases r with
  | getTable => exact hsolo _ (safe_catalog_getTable (ho (.listTables 0 ""))) hany _
  | getTableMetadata m =>
    exact hsolo (.getTableMetadata t m) (safe_getTableMetadata (ho _) hn rfl)
      (by rintro ⟨_, ⟨⟩⟩) _
  | getPartitions m pageSize pageToken =>
    exact hsolo (.getPartitions t m pageSize pageToken) (safe_getPartitions_handler (ho _) hn rfl)
      (by rintro ⟨_, ⟨⟩⟩) _
  | partitions m => exact hsolo _ (safe_getPartitions (ho (.listTables 0 "")) hn) hany _
  | partitionsPaged m pageSize last =>
    exact hsolo _ (safe_getPartitionsPaged (ho (.listTables 0 "")) hn) hany _
  | getPartitionStats =>
    exact hsolo (.getPartitionStats t) (safe_code (ho _) fun _ n hm => by
      rwa [List.mem_singleton.mp hm]) (by rintro ⟨_, ⟨⟩⟩) _
  | getSnapshot m => exact hsolo _ (safe_getSnapshot (ho _)) (by rintro ⟨_, ⟨⟩⟩) _
  | listSnapshots limit => exact hsolo _ (safe_listSnapshots (ho _)) (by rintro ⟨_, ⟨⟩⟩) _
  | getCurrentSchema => exact hsolo _ (safe_getCurrentSchema (ho (.listTables 0 ""))) hany _
  | getSchemaAtVersion version =>
    exact hsolo _ (safe_getSchemaAtVersion (ho (.listTables 0 ""))) hany _
  | listSchemaHistory => exact hsolo _ (safe_listSchemaHistory (ho (.listTables 0 ""))) hany _

/-- A call of `p` by a new thread, while no other does anything, returns `x` and nothing else. -/
def Answers (pg : Postgres) (policy : Policy) (c : ServerConfig) (p : Code α) (x : α) : Prop :=
  ∀ y, (∃ i q tr w', c.thread i = none ∧ Solo (server pg policy) i q p c.world tr (some y) w') ↔
    y = x

theorem Answers.unique {p : Code α} {x y : α} (hx : Answers pg policy c p x)
    (hy : Answers pg policy c p y) : x = y := (hy x).mp ((hx x).mpr rfl)

theorem Quiet.answers (h : Quiet pg c) (ht : NulFree t) (r : TableRead) :
    Answers pg .flawless c (r.code t) (r.answer t c.state) := by
  intro y
  constructor
  · rintro ⟨i, q, tr, w', hi, hx⟩
    exact Option.some.inj (h.read_eq ht hi r hx)
  · rintro rfl
    obtain ⟨i, hi⟩ := h.free
    obtain ⟨q, tr, x, w', hx⟩ := h.read_solo ht hi r
    obtain rfl := h.read_eq ht hi r hx
    exact ⟨i, q, tr, w', hi, hx⟩

/-- The row of a table can be read under any name, whatever the room in the cache. -/
theorem AtRest.answers_getTable (h : AtRest pg policy c) (t : String) :
    Answers pg policy c (TableRead.getTable.code t) (TableRead.getTable.answer t c.state) := by
  have ho : ∀ {i q}, c.thread i = none → Own policy i q {} [] c.world := fun hi =>
    own_fresh h.reachable.inv (h.reachable.good.fresh _ hi)
  have heq : ∀ {i q tr y w'}, c.thread i = none →
      Solo (server pg policy) i q (TableRead.getTable.code t) c.world tr y w' →
      y = some (TableRead.getTable.answer t c.state) := by
    intro i q tr y w' hi hx
    have h₀ : Faultless tr := (solo_working h.unfailing h.working hx).2
    obtain ⟨x, hy, hread⟩ := solo_bind_ret (g := ReadResult.table) (fun _ => rfl) hx
    rw [hy, (solo_getTable (ho hi) hread).tells h₀]
    rfl
  intro y
  constructor
  · rintro ⟨i, q, tr, w', hi, hx⟩
    exact Option.some.inj (heq hi hx)
  · rintro rfl
    obtain ⟨i, hi⟩ := h.free
    let keeps (a : Act) : Prop := ∀ key rows, a ≠ .cachePut key rows
    have hacts : Acts keeps (CatalogManager.getTable t) :=
      Acts.getTable_catalog (fun _ _ _ => nofun) ⟨nofun, fun _ => nofun⟩ nofun nofun
    have hsafe : Safe (view pg policy false i _) _ _ (CatalogManager.getTable t) c.world :=
      safe_catalog_getTable (ho (q := .listTables 0 "") hi)
    obtain ⟨tr, x, w', hx⟩ := hsafe.solo
      (fun u a hput hinv hneeds hr => hr.step h.unfailing hinv hneeds (by rintro ⟨_, ⟨⟩⟩)
        fun key rows ha => absurd ha (hput key rows)) hacts (h.ready i)
    have hx := hx.map ReadResult.table
    rw [heq hi hx] at hx
    exact ⟨i, _, tr, w', hi, hx⟩

/-! How the answers depend on the state. -/

/-- Nothing but the table and the counter matters. -/
theorem TableRead.answer_congr {s s' : Server} (r : TableRead)
    (hs : Db.SameTable (cStr t) s.db s'.db)
    (hm : s'.mvcc.latestCommittedSnapshot = s.mvcc.latestCommittedSnapshot) :
    r.answer t s' = r.answer t s := by
  have hrow : s'.db.tableRow (cStr t) = s.db.tableRow (cStr t) := about_find_map _ _ _ _ hs
  have hsnap : ∀ m, s'.snapshotFor t m false = s.snapshotFor t m false := by
    intro m
    simp only [Server.snapshotFor, hm, about_current _ _ _ hs]
  have hlist : ∀ m l, s'.listedFor t m l = s.listedFor t m l := by
    intro m l
    simp only [Server.listedFor, hsnap, hs.queryPartitions]
  have hof : ∀ {β : Type} {f : Db → ℕ → β} {x : β}, AboutSlice f →
      Db.ofTable f x (cStr t) s'.db = Db.ofTable f x (cStr t) s.db := fun hf => hf.about _ _ _ _ hs
  cases r with
  | getTable | getCurrentSchema => simp only [answer, Db.currentSchema, hrow]
  | getTableMetadata => simp only [answer, hrow, hsnap, hlist]
  | getPartitions | partitions | partitionsPaged | getPartitionStats => simp only [answer, hlist]
  | getSnapshot => simp only [answer, hof (aboutSlice_snapshotAt _)]
  | listSnapshots => simp only [answer, hof (aboutSlice_snapshotsOf _)]
  | getSchemaAtVersion => simp only [answer, hof (aboutSlice_historyAt _)]
  | listSchemaHistory => simp only [answer, hof aboutSlice_historyOf]

/-- What is answered about a table that there is not. -/
def TableRead.unknown (t : String) : TableRead → ReadResult
  | getTable => .table none
  | getTableMetadata _ | getPartitions .. => .reply (.notFound ("Table not found: " ++ t))
  | partitions _ | partitionsPaged .. => .reply (.rows none)
  | getPartitionStats => .reply (.partitionStats {})
  | getSnapshot _ => .reply (.notFound "Snapshot not found")
  | listSnapshots _ => .reply (.snapshots [])
  | getCurrentSchema | getSchemaAtVersion _ => .schema none
  | listSchemaHistory => .schemas []

theorem TableRead.answer_of_none {s : Server} (r : TableRead) (hf : s.db.find (cStr t) = none) :
    r.answer t s = r.unknown t := by
  have hrow : s.db.tableRow (cStr t) = none := by rw [Db.tableRow, hf]; rfl
  have hlist : ∀ m l, s.listedFor t m l = none := by
    intro m l
    simp only [Server.listedFor, Db.queryPartitions, hf]
    split <;> rfl
  have hof : ∀ {β : Type} {f : Db → ℕ → β} {x : β}, Db.ofTable f x (cStr t) s.db = x := by
    intro β f x
    rw [Db.ofTable, hf]
    rfl
  cases r with
  | getTable | getCurrentSchema => simp [answer, unknown, Db.currentSchema, hrow]
  | getTableMetadata => simp only [answer, unknown, hrow, metadataReply]
  | getPartitions | partitions | partitionsPaged | getPartitionStats =>
    simp [answer, unknown, hlist, listing, statsOf]
  | getSnapshot | listSnapshots | getSchemaAtVersion | listSchemaHistory =>
    simp [answer, unknown, hof, snapshotReply, snapshotsReply]

/-- The result with the name `newName` in the place of `oldName`. -/
def ReadResult.relabel (oldName newName : String) : ReadResult → ReadResult
  | reply (.notFound e) => reply (.notFound
      (if e = "Table not found: " ++ oldName then "Table not found: " ++ newName else e))
  | reply (.metadata m) => reply (.metadata { m with tableName := newName })
  | table x => table (x.map fun row => { row with tableName := newName })
  | x => x

/-- The same table under another name. -/
theorem TableRead.answer_relabel {s s' : Server} {oldName newName : String} {id : ℕ}
    {r : TableRec} (rd : TableRead) (hold : NulFree oldName) (hnew : NulFree newName)
    (hf : s.db.find oldName = some (id, r))
    (hf' : s'.db.find newName = some (id, { r with tableName := newName }))
    (hs : (s'.db.slice id).clearTable = (s.db.slice id).clearTable)
    (hm : s'.mvcc.latestCommittedSnapshot = s.mvcc.latestCommittedSnapshot) :
    rd.answer newName s' = (rd.answer oldName s).relabel oldName newName := by
  rw [← cStr_of_nulFree hold] at hf
  have hf' : s'.db.find (cStr newName) = some (id, { r with tableName := newName }) := by
    rwa [cStr_of_nulFree hnew]
  have hrow : s.db.tableRow (cStr oldName) = some (r.toRow id) := by rw [Db.tableRow, hf]; rfl
  have hrow' : s'.db.tableRow (cStr newName) = some { r.toRow id with tableName := newName } := by
    rw [Db.tableRow, hf']
    rfl
  have hsnap : ∀ m, s'.snapshotFor newName m false = s.snapshotFor oldName m false := by
    intro m
    simp only [Server.snapshotFor, hm, Db.current, hf, hf']
    rfl
  have hof : ∀ {β : Type} {f : Db → ℕ → β} {x : β}, AboutSlice f →
      Db.ofTable f x (cStr newName) s'.db = Db.ofTable f x (cStr oldName) s.db := by
    intro β f x hfs
    rw [Db.ofTable, Db.ofTable, hf, hf']
    exact hfs _ _ _ hs
  have hlist : ∀ m l, s'.listedFor newName m l = s.listedFor oldName m l := by
    intro m l
    simp only [Server.listedFor, hsnap, ← ofTable_listed]
    exact hof (aboutSlice_listed _ _)
  have hmsg : "Snapshot not found" ≠ "Table not found: " ++ oldName := by
    intro h
    have := congrArg (fun s => s.toList.head?) h
    simp at this
  cases rd with
  | getTable => simp [answer, ReadResult.relabel, hrow, hrow']
  | getCurrentSchema => simp [answer, ReadResult.relabel, Db.currentSchema, hrow, hrow']
  | getTableMetadata =>
    simp [answer, ReadResult.relabel, hrow, hrow', hsnap, hlist, metadataReply, metadata]
  | getPartitions m pageSize pageToken =>
    simp only [answer, hlist]
    cases s.listedFor oldName m _ <;> simp [listing, ReadResult.relabel]
  | partitions | partitionsPaged | getPartitionStats => simp [answer, hlist, ReadResult.relabel]
  | getSnapshot m =>
    simp only [answer, hof (aboutSlice_snapshotAt _)]
    cases Db.ofTable (Db.snapshotAt m) none (cStr oldName) s.db <;>
      simp [snapshotReply, ReadResult.relabel, hmsg]
  | listSnapshots =>
    simp [answer, hof (aboutSlice_snapshotsOf _), snapshotsReply, ReadResult.relabel]
  | getSchemaAtVersion => simp [answer, hof (aboutSlice_historyAt _), ReadResult.relabel]
  | listSchemaHistory => simp [answer, hof aboutSlice_historyOf, ReadResult.relabel]

end IceLog
