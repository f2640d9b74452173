import IceLog.Server.Answers

/-! What the reads of a table return to a thread that runs alone: a value read off the state in
which they begin. -/
namespace IceLog

open Interleaved Serial

variable {pg : Postgres} {policy : Policy} {i : ℕ} {q : Request} {α : Type} {h : Held}
  {w w' v : Moment} {tr tr' : List (Act × Outcome)} {x : Option α} {t : String} {conn : Conn} {n : ℕ}

/-! The functions that read the rows of a table under its lock. -/

theorem solo_reader {body : Conn → Code α} (ho : Own policy i q {} [] w)
    (hx : Solo (server pg policy) i q (withShared t (withConnection body)) w tr x w') :
    (refused tr = true ∧ x = none ∧ w.now.Still w'.now ∧ ∀ P, someStatement P tr = false) ∨
      ∃ conn v v' tr', Connected policy i q { shared := [t] } [] conn True v ∧ w.now.Still v.now ∧
        Solo (server pg policy) i q (body conn) v tr' x v' ∧ v'.now.Still w'.now ∧
        SameFaults tr tr' := by
  obtain ⟨v, v', tr', hv, hs, hbody, hs', hf⟩ := solo_shared ho hx
  rcases solo_connection hv rfl hbody with ⟨hr, hx, hs₁, hnone⟩ | hscope
  · exact .inl ⟨hf.refused.trans hr, hx, hs.trans (hs₁.trans hs'),
      fun P => (hf.statements P).trans (hnone P)⟩
  · obtain ⟨conn, u, u', tr₂, hu, hs₁, hbody, hs₂, hf₂⟩ := hscope
    exact .inr ⟨conn, u, u', tr₂, hu, hs.trans hs₁, hbody, hs₂.trans hs', hf.trans hf₂⟩

/-- What a function that reads with statements of the kind `p` answers, unless no connection can be
made: `f` of the database, or `failed`. -/
structure ReadsAs (p : Sql → Bool) (f : Db → α) (failed : α) (tr : List (Act × Outcome))
    (s s' : Server) (x : Option α) : Prop where
  still : s.Still s'
  others : ∀ p', (∀ sql, p sql = true → p' sql = false) → fails p' tr = false
  answer : (refused tr = true ∧ x = none) ∨ (refused tr = false ∧
    x = some (if fails p tr then failed else f s.db))

theorem ReadsAs.scope {p : Sql → Bool} {f : Db → α} {failed : α} {s s' : Server}
    (hf : ∀ db db', db.SameRows db' → f db' = f db) (hr : ReadsAs p f failed tr' s s' x)
    (hs : w.now.Still s) (hs' : s'.Still w'.now) (ht : SameFaults tr tr') :
    ReadsAs p f failed tr w.now w'.now x where
  still := hs.trans (hr.still.trans hs')
  others p' hp := (ht.fails p').trans (hr.others p' hp)
  answer := by
    rw [ht.refused, ht.fails, ← hf _ _ hs.rows]
    exact hr.answer

theorem readsAs_refused {p : Sql → Bool} {f : Db → α} {failed : α} {s s' : Server}
    (hr : refused tr = true) (hs : s.Still s') (hn : ∀ P, someStatement P tr = false) :
    ReadsAs p f failed tr s s' none :=
  ⟨hs, fun _ _ => hn _, .inl ⟨hr, rfl⟩⟩

/-- The answer where nothing fails. -/
theorem ReadsAs.tells {p : Sql → Bool} {f : Db → α} {failed : α} {s s' : Server}
    (hr : ReadsAs p f failed tr s s' x) (h₀ : Faultless tr) : x = some (f s.db) := by
  rcases hr.answer with ⟨href, -⟩ | ⟨-, hx⟩
  · exact absurd (h₀.1.symm.trans href) Bool.false_ne_true
  · rw [h₀.fails, if_neg Bool.false_ne_true] at hx
    exact hx

/-- A client function of which the caller makes `g`. -/
theorem ReadsAs.map {β : Type} {p : Sql → Bool} {f : Db → α} {failed : α} {s s' : Server}
    (hr : ReadsAs p f failed tr s s' x) (g : α → β) :
    ReadsAs p (fun db => g (f db)) (g failed) tr s s' (x.map g) where
  still := hr.still
  others := hr.others
  answer := by
    rcases hr.answer with ⟨href, rfl⟩ | ⟨href, rfl⟩
    · exact .inl ⟨href, rfl⟩
    · exact .inr ⟨href, congrArg some (apply_ite g _ _ _)⟩

theorem solo_bind_ret {β : Type} {p : Code α} {f : α → Code β} {g : α → β} {y : Option β}
    (hg : ∀ x, f x = .ret (g x)) (hx : Solo (server pg policy) i q (p.bind f) w tr y w') :
    ∃ x, y = x.map g ∧ Solo (server pg policy) i q p w tr x w' := by
  rcases Solo.bind_cases hx with ⟨x, v, tr₁, tr₂, rfl, hp, hret⟩ | ⟨rfl, hp⟩
  · rw [hg] at hret
    cases hret
    exact ⟨some x, rfl, by rwa [List.append_nil]⟩
  · exact ⟨none, rfl, hp⟩

theorem About.sameRows {name : String} {f : Db → α} (hf : About name f) {db db' : Db}
    (h : db.SameRows db') : f db' = f db := hf _ _ (h.sameTable name)

/-- The statement that reads the row of a table. -/
theorem solo_selectTable {x : Option (Option TableRow)}
    (hc : Connected policy i q h [] conn True w)
    (hx : Solo (server pg policy) i q (PgClient.getTable conn t) w tr x w') :
    ReadsAs Sql.readsTable (fun db => db.tableRow (cStr t)) none tr w.now w'.now x := by
  obtain ⟨a, rfl, hl, hres⟩ := solo_read yields_table hc rfl hx
  refine ⟨hl.later.still rfl, fun p' hp => ?_, .inr ⟨rfl, hres.trans (congrArg some ?_)⟩⟩
  · simp [fails, someStatement, hp (.selectTable (cStr t)) rfl]
  · by_cases ha : a = .ok
    · simp [fails, someStatement, ha, Db.tableRow]
    · simp [fails, someStatement, ha, Sql.readsTable, PGresult.first]

theorem solo_getTable {x : Option (Option TableRow)} (ho : Own policy i q {} [] w)
    (hx : Solo (server pg policy) i q (CatalogManager.getTable t) w tr x w') :
    ReadsAs Sql.readsTable (fun db => db.tableRow (cStr t)) none tr w.now w'.now x := by
  rcases solo_reader ho hx with ⟨hr, rfl, hs, hnone⟩ | hscope
  · exact readsAs_refused hr hs hnone
  · obtain ⟨conn, v, v', tr', hv, hs, hbody, hs', hf⟩ := hscope
    exact (solo_selectTable hv hbody).scope (fun _ _ => (about_find_map _ _).sameRows) hs hs' hf

theorem solo_getCurrentSchema {x : Option (Option SchemaVersion)} (ho : Own policy i q {} [] w)
    (hx : Solo (server pg policy) i q (SchemaStore.getCurrentSchema t) w tr x w') :
    ReadsAs Sql.readsTable (fun db => db.currentSchema (cStr t)) none tr w.now w'.now x := by
  rcases solo_reader ho hx with ⟨hr, rfl, hs, hnone⟩ | hscope
  · exact readsAs_refused hr hs hnone
  · obtain ⟨conn, v, v', tr', hv, hs, hbody, hs', hf⟩ := hscope
    obtain ⟨row, rfl, hquery⟩ := solo_bind_ret
      (g := Option.map fun row : TableRow => ⟨row.schemaVersion, row.schemaJson, none, "current"⟩)
      (by rintro (_ | _) <;> rfl) hbody
    refine ((solo_selectTable hv hquery).map _).scope (fun _ _ hrows => ?_) hs hs' hf
    simp only [Db.currentSchema, Db.tableRow, hrows.find]

/-- A function of two statements, of which the second is about the id that the first has found. -/
theorem readsAs_byId {β : Type} {sql : ℕ → Sql} {f : Db → ℕ → β} {failed : β}
    {g : ∀ id, PGresult (sql id).Row → β} {y : Option β}
    (hy : ∀ id, (sql id).Yields pg (g id) fun db => f db id) (herr : ∀ id, g id .error = failed)
    (hf : AboutSlice f) (hc : Connected policy i q h [] conn True w)
    (hs : ∀ id, (sql id).harmless = true)
    (hx : Solo (server pg policy) i q ((PgClient.getTableId conn t).bind fun
      | none => .ret failed
      | some id => (execParams conn (sql id)).bind fun res => .ret (g id res)) w tr y w') :
    ReadsAs (fun _ => true) (Db.ofTable f failed (cStr t)) failed tr w.now w'.now y := by
  obtain ⟨hl, hk, hres⟩ := solo_byId hy herr hf hc hs (p := fun _ => true) rfl (fun _ => rfl) hx
  refine ⟨hl.still rfl, fun p' hp => ?_, .inr ⟨hk.refused, hres⟩⟩
  refine hk.someStatement fun sql _ hs => ?_
  rw [hp sql hs, Bool.false_and]

theorem solo_getSchemaAtVersion {version : ℤ} {x : Option (Option SchemaVersion)}
    (ho : Own policy i q {} [] w)
    (hx : Solo (server pg policy) i q (SchemaStore.getSchemaAtVersion t version) w tr x w') :
    ReadsAs (fun _ => true) (Db.ofTable (Db.historyAt version) none (cStr t)) none tr w.now w'.now
      x := by
  rcases solo_reader ho hx with ⟨hr, rfl, hs, hnone⟩ | hscope
  · exact readsAs_refused hr hs hnone
  · obtain ⟨conn, v, v', tr', hv, hs, hbody, hs', hf⟩ := hscope
    have hreads := readsAs_byId (yields_historyAt version) (fun _ => rfl)
      (aboutSlice_historyAt version) hv (fun _ => rfl) hbody
    exact hreads.scope (fun _ _ => ((aboutSlice_historyAt version).about _ _).sameRows) hs hs' hf

theorem solo_listSchemaHistory {x : Option (List SchemaVersion)} (ho : Own policy i q {} [] w)
    (hx : Solo (server pg policy) i q (SchemaStore.listSchemaHistory t) w tr x w') :
    ReadsAs (fun _ => true) (Db.ofTable Db.historyOf [] (cStr t)) [] tr w.now w'.now x := by
  rcases solo_reader ho hx with ⟨hr, rfl, hs, hnone⟩ | hscope
  · exact readsAs_refused hr hs hnone
  · obtain ⟨conn, v, v', tr', hv, hs, hbody, hs', hf⟩ := hscope
    have hreads := readsAs_byId yields_history (fun _ => rfl) aboutSlice_historyOf hv
      (fun _ => rfl) hbody
    exact hreads.scope (fun _ _ => (aboutSlice_historyOf.about _ _).sameRows) hs hs' hf

/-! The two functions that read without a lock. -/

/-- The reply to `GetSnapshot`. -/
def snapshotReply : Option SnapshotRow → Reply
  | none => .notFound "Snapshot not found"
  | some snap => .snapshotDetail snap.toDetail

theorem solo_getSnapshot {x : Option Reply} (ho : Own policy i q {} [] w)
    (hx : Solo (server pg policy) i q (MetadataServer.getSnapshot t n) w tr x w') :
    ReadsAs (fun _ => true) (fun db => snapshotReply (Db.ofTable (Db.snapshotAt n) none (cStr t) db))
      (snapshotReply none) tr w.now w'.now x := by
  rcases solo_connection ho rfl hx with ⟨hr, rfl, hs, hnone⟩ | hscope
  · exact readsAs_refused hr hs hnone
  · obtain ⟨conn, v, v', tr', hv, hs, hbody, hs', hf⟩ := hscope
    obtain ⟨y, rfl, hquery⟩ := solo_bind_ret (g := snapshotReply) (by rintro (_ | _) <;> rfl) hbody
    have hreads := readsAs_byId (yields_snapshot n) (fun _ => rfl) (aboutSlice_snapshotAt n) hv
      (fun _ => rfl) hquery
    refine (hreads.map snapshotReply).scope (fun _ _ hrows => congrArg snapshotReply ?_) hs hs' hf
    exact ((aboutSlice_snapshotAt n).about _ _).sameRows hrows

/-- The reply to `ListSnapshots`. -/
def snapshotsReply (rows : List SnapshotRow) : Reply := .snapshots (rows.map SnapshotRow.toDetail)

theorem solo_listSnapshots {limit : ℤ} {x : Option Reply} (ho : Own policy i q {} [] w)
    (hx : Solo (server pg policy) i q (MetadataServer.listSnapshots t limit) w tr x w') :
    ReadsAs (fun _ => true) (fun db => snapshotsReply
      (Db.ofTable (Db.snapshotsOf (snapshotLimit limit)) [] (cStr t) db)) (snapshotsReply []) tr
      w.now w'.now x := by
  rcases solo_connection ho rfl hx with ⟨hr, rfl, hs, hnone⟩ | hscope
  · exact readsAs_refused hr hs hnone
  · obtain ⟨conn, v, v', tr', hv, hs, hbody, hs', hf⟩ := hscope
    obtain ⟨y, rfl, hquery⟩ := solo_bind_ret (g := snapshotsReply) (fun _ => rfl) hbody
    have hreads := readsAs_byId (yields_snapshots (snapshotLimit limit)) (fun _ => rfl)
      (aboutSlice_snapshotsOf _) hv (fun _ => rfl) hquery
    refine (hreads.map snapshotsReply).scope (fun _ _ hrows => congrArg snapshotsReply ?_) hs hs' hf
    exact ((aboutSlice_snapshotsOf _).about _ _).sameRows hrows

/-! The handlers that list partitions. -/

theorem ListsAs.map {β : Type} {f : ℕ → Bool → α} {failed : Bool} {s s' : Server}
    (hl : ListsAs f t n tr failed s s' x) (g : α → β) :
    ListsAs (fun m failed => g (f m failed)) t n tr failed s s' (x.map g) where
  serves := hl.serves
  latest := hl.latest
  answer := by
    rcases hl.answer with ⟨href, rfl, hf⟩ | ⟨href, rfl⟩
    · exact .inl ⟨href, rfl, hf⟩
    · exact .inr ⟨href, rfl⟩

theorem ListsAs.tells {f : ℕ → Bool → α} {failed : Bool} {s s' : Server}
    (hl : ListsAs f t n tr failed s s' x) (h₀ : Faultless tr) :
    x = some (f (s.snapshotFor t n false) failed) := by
  rcases hl.answer with ⟨href, -⟩ | ⟨-, hx⟩
  · exact absurd (h₀.1.symm.trans href) Bool.false_ne_true
  · rwa [h₀.fails] at hx

/-- The partitions of a page at `n`, or all of them if `pageSize` is not positive. -/
def Server.pageFor (s : Server) (t : String) (pageSize last : ℤ) (n : ℕ) :
    Option (List PartitionRow) :=
  if pageSize > 0 then (s.db.queryPartitions (cStr t) n).map (page (pageLimit pageSize) last)
  else s.partitionsFor t n

theorem solo_getPartitions_handler {pageSize : ℤ} {token : String} {x : Option Reply}
    (ho : Own policy i q {} [] w) (hn : policy.Clean → NulFree t)
    (hx : Solo (server pg policy) i q (MetadataServer.getPartitions t n pageSize token) w tr x w') :
    ListsAs (fun m failed => listing t pageSize
      (if failed then none else w.now.pageFor t pageSize (MetadataServer.lastId token) m)) t n tr
      (fails Sql.queries tr) w.now w'.now x := by
  unfold MetadataServer.getPartitions at hx
  by_cases hp : pageSize > 0
  · rw [if_pos hp] at hx
    obtain ⟨rows, rfl, hquery⟩ := solo_bind_ret (g := listing t pageSize)
      (by rintro (_ | rows) <;> rfl) hx
    simp only [Server.pageFor, if_pos hp]
    exact (solo_getPartitionsPaged ho hn hquery).map (listing t pageSize)
  · rw [if_neg hp] at hx
    obtain ⟨rows, rfl, hquery⟩ := solo_bind_ret (g := listing t pageSize)
      (by rintro (_ | rows) <;> rfl) hx
    simp only [Server.pageFor, if_neg hp]
    exact (solo_getPartitions ho hn hquery).map (listing t pageSize)

theorem solo_getPartitionStats {x : Option Reply} (ho : Own policy i q {} [] w)
    (hx : Solo (server pg policy) i q (MetadataServer.getPartitionStats t) w tr x w') :
    ListsAs (fun m failed => .partitionStats (statsOf
      (if failed then none else w.now.db.queryPartitions (cStr t) m))) t 0 tr
      (fails Sql.queries tr || loses Sql.readsCurrent tr) w.now w'.now x := by
  obtain ⟨stats, rfl, hquery⟩ := solo_bind_ret (g := Reply.partitionStats) (fun _ => rfl) hx
  exact (solo_getStats ho hquery).map Reply.partitionStats

/-- What `GetTableMetadata` answers, unless a connection that it needs cannot be made. -/
inductive DescribesAs (t : String) (n : ℕ) (tr : List (Act × Outcome)) (s : Server) :
    Option Reply → Prop
  | refused : refused tr = true → DescribesAs t n tr s none
  | notFound : refused tr = false → fails Sql.queries tr = false →
      fails Sql.readsTable tr = true ∨ s.db.tableRow (cStr t) = none →
      DescribesAs t n tr s (some (.notFound ("Table not found: " ++ t)))
  | found {table : TableRow} : refused tr = false → s.db.tableRow (cStr t) = some table →
      DescribesAs t n tr s (some (.metadata (metadata table (s.snapshotFor t n false)
        ((if fails Sql.queries tr then none
          else s.partitionsFor t (s.snapshotFor t n false)).getD []))))

/-- What follows the row of the table. -/
theorem solo_describe {m : ℕ} {table : TableRow} {x : Option Reply} (ho : Own policy i q {} [] w)
    (hn : policy.Clean → NulFree t) (hm : m = w.now.snapshotFor t n false)
    (hx : Solo (server pg policy) i q ((PartitionRegistry.getPartitions t m).bind fun parts =>
      .ret (.metadata (metadata table m (parts.getD [])))) w tr x w') :
    w.now.Serves w'.now ∧ ((refused tr = true ∧ x = none) ∨ (refused tr = false ∧
      x = some (.metadata (metadata table m ((if fails Sql.queries tr then none
        else w.now.partitionsFor t m).getD []))))) := by
  obtain ⟨parts, rfl, hquery⟩ := solo_bind_ret
    (g := fun parts : Option (List PartitionRow) =>
      Reply.metadata (metadata table m (parts.getD []))) (fun _ => rfl) hx
  obtain ⟨hserves, -, hans⟩ := solo_getPartitions ho hn hquery
  refine ⟨hserves, ?_⟩
  rcases hans with ⟨hr, rfl, -⟩ | ⟨hr, rfl⟩
  · exact .inl ⟨hr, rfl⟩
  · refine .inr ⟨hr, ?_⟩
    have hsame : w.now.snapshotFor t m (fails Sql.readsCurrent tr) = m := by
      by_cases h0 : m = 0
      · subst h0
        simp only [Server.snapshotFor] at hm ⊢
        split_ifs at hm ⊢ <;> simp_all
      · simp [Server.snapshotFor, h0]
    rw [hsame]
    rfl

theorem Db.current_of_tableRow {db : Db} {name : String} {table : TableRow}
    (h : db.tableRow name = some table) : db.current name = table.currentSnapshotId := by
  obtain ⟨⟨k, r⟩, hf, rfl⟩ := Option.map_eq_some_iff.mp h
  rw [Db.current, hf]
  rfl

theorem solo_getTableMetadata {x : Option Reply} (ho : Own policy i q {} [] w)
    (hn : policy.Clean → NulFree t)
    (hx : Solo (server pg policy) i q (MetadataServer.getTableMetadata t n) w tr x w') :
    w.now.Serves w'.now ∧ DescribesAs t n tr w.now x := by
  have hqueries : ∀ sql, Sql.readsTable sql = true → Sql.queries sql = false := by
    rintro (_ | _) <;> simp [Sql.queries, Sql.readsTable]
  rcases Solo.bind_cases hx with ⟨row, v, tr₁, tr₂, rfl, hget, hrest⟩ | ⟨rfl, hget⟩
  swap
  · obtain ⟨hs, -, ⟨hr, -⟩ | ⟨-, hrow⟩⟩ := solo_getTable ho hget
    · exact ⟨hs.serves, .refused hr⟩
    · cases hrow
  have hv : Own policy i q {} [] v := (hget.post (safe_catalog_getTable ho)).1
  obtain ⟨hs, hothers, ⟨-, hrow⟩ | ⟨hr, hrow⟩⟩ := solo_getTable ho hget
  · cases hrow
  have hrow := Option.some.inj hrow
  have hq := hothers _ hqueries
  cases row with
  | none =>
    cases hrest
    rw [List.append_nil]
    refine ⟨hs.serves, .notFound hr hq ?_⟩
    by_cases hf : fails Sql.readsTable tr₁ = true
    · exact .inl hf
    · rw [if_neg hf] at hrow
      exact .inr hrow.symm
  | some table =>
    have hf : fails Sql.readsTable tr₁ = false := by
      by_contra hf
      rw [Bool.not_eq_false] at hf
      rw [if_pos hf] at hrow
      cases hrow
    rw [if_neg (by simp [hf])] at hrow
    have hcurrent := Db.current_of_tableRow hrow.symm
    suffices H : ∃ u tr₃, v.now.Still u.now ∧ Own policy i q {} [] u ∧ SameFaults tr₂ tr₃ ∧
        Solo (server pg policy) i q
          ((PartitionRegistry.getPartitions t (w.now.snapshotFor t n false)).bind fun parts =>
            .ret (.metadata (metadata table (w.now.snapshotFor t n false) (parts.getD [])))) u tr₃ x
          w' by
      obtain ⟨u, tr₃, hs', hu, hsame, hrest⟩ := H
      have hall := hs.trans hs'
      obtain ⟨hserves, hans⟩ := solo_describe hu hn hall.snapshotFor.symm hrest
      refine ⟨hall.serves.trans hserves, ?_⟩
      rcases hans with ⟨hr', rfl⟩ | ⟨hr', rfl⟩
      · exact .refused (by rw [refused_append, hsame.refused, hr', Bool.or_true])
      · have hfound := @DescribesAs.found t n (tr₁ ++ tr₂) w.now table
          (by rw [refused_append, hr, hsame.refused, hr', Bool.false_or]) hrow.symm
        rw [fails_append, hq, Bool.false_or, hsame.fails] at hfound
        rw [hall.partitionsFor]
        exact hfound
    by_cases h0 : n = 0
    · dsimp only at hrest
      rw [if_pos h0] at hrest
      obtain ⟨u, tr₃, hu, hs', hsame, hrest⟩ := solo_loadSnapshot hv hrest
      refine ⟨u, tr₃, hs', hu, hsame, ?_⟩
      have hm : (if v.now.mvcc.latestCommittedSnapshot = 0 then table.currentSnapshotId
          else v.now.mvcc.latestCommittedSnapshot) = w.now.snapshotFor t n false := by
        simp only [Server.snapshotFor, h0, hs.mvcc, hcurrent]
        split_ifs <;> simp_all
      rw [hm] at hrest
      exact hrest
    · dsimp only at hrest
      rw [if_neg h0] at hrest
      refine ⟨v, tr₂, .refl _, hv, ⟨rfl, fun _ => rfl⟩, ?_⟩
      have hm : n = w.now.snapshotFor t n false := by simp [Server.snapshotFor, h0]
      rw [← hm]
      simpa [h0, metadata] using hrest

end IceLog
