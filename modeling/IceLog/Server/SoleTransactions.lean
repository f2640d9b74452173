import IceLog.Server.Views

/-! The transactions of the catalog on a connection that nobody disturbs: which of their statements
are carried out. -/
namespace IceLog

open Interleaved Serial

variable {pg : Postgres} {now : ℕ} {α : Type} {t : String} {conn : Conn} {db : Db} {v : View}
  {cache : Cache String (List PartitionRow)} {id n : ℕ} {r : TableRec}

/-- A transaction is open. -/
def View.Open : View → Prop
  | .within _ | .aborted => True
  | .idle _ | .ended => False

theorem inView_ended {k : Command} (hk : k ≠ .begin) (hv : v.Open) : k.inView v = some (true, .ended) := by
  cases k with
  | begin => exact absurd rfl hk
  | commit | rollback =>
    cases v with
    | within | aborted => rfl
    | idle | ended => exact hv.elim

/-- A function that first looks up the id of the table, and finds it. -/
theorem inView_byId (sql : ℕ → Sql) {fail : α} {g : ∀ id, PGresult (sql id).Row → α}
    (hf : db.find (cStr t) = some (id, r)) {res : PGresult (sql id).Row}
    (h : (sql id).inView pg now (.within db) = some (res, v)) :
    inView pg conn now ((PgClient.getTableId conn t).bind fun
      | none => .ret fail
      | some k => (execParams conn (sql k)).bind fun res => .ret (g k res)) (.within db, cache) =
      some (g id res, v, cache) := by
  refine (inView_bind inView_tableId).trans ?_
  rw [hf]
  exact inView_statement h _

theorem inView_byId_absent {sql : ℕ → Sql} {fail : α} {g : ∀ id, PGresult (sql id).Row → α}
    (hf : db.find (cStr t) = none) :
    inView pg conn now ((PgClient.getTableId conn t).bind fun
      | none => .ret fail
      | some k => (execParams conn (sql k)).bind fun res => .ret (g k res)) (.within db, cache) =
      some (fail, .within db, cache) := by
  refine (inView_bind inView_tableId).trans ?_
  rw [hf]
  rfl

/-! A commit. -/

section commit
variable {parent : ℕ} {op : String} {added deleted : ℤ} {part : PartitionRow}

theorem inView_insertSnapshot (hf : db.find (cStr t) = some (id, r)) (hp : parent < maxBigint)
    (hn : db.snapshots.next < maxBigint) :
    ∃ V, inView pg conn now (PgClient.insertSnapshot conn t parent op added deleted)
        (.within db, cache) = some (db.snapshots.next, .within V, cache) ∧ V.tables = db.tables ∧
      V.partitions = db.partitions ∧ (V.snapshots.row db.snapshots.next).isSome := by
  have hrun : (Sql.insertSnapshot id parent (cStr op) added deleted).run pg now db =
      some (.tuples [db.snapshots.next],
        { snapshots := Patch.write db.snapshots.next ⟨id, parent, now, cStr op, added, deleted⟩ }) := by
    simp only [Sql.run, (Db.row_of_find hf).1, not_le.mpr hp, not_le.mpr hn, decide_false,
      Option.isNone_some, Bool.or_self, Bool.false_eq_true, if_false]
  have hview : inView pg conn now (PgClient.insertSnapshot conn t parent op added deleted)
      (.within db, cache) = _ := inView_byId _ hf (Sql.inView_some hrun)
  refine ⟨_, hview, Rows.apply_none _, Rows.apply_none _, ?_⟩
  rw [Db.apply_snapshots, Rows.apply_row_of_some (Patch.write_self ..) db.snapshots.pos]
  · rfl
  · exact Nat.lt_succ_self _

theorem inView_insertSnapshot_refused (h : db.find (cStr t) = none ∨ maxBigint ≤ parent ∨
    maxBigint ≤ db.snapshots.next) :
    ∃ v, inView pg conn now (PgClient.insertSnapshot conn t parent op added deleted)
      (.within db, cache) = some (0, v, cache) ∧ v.Open := by
  cases hf : db.find (cStr t) with
  | none => exact ⟨_, inView_byId_absent hf, trivial⟩
  | some e =>
    obtain ⟨id, r⟩ := e
    have h := h.resolve_left (by rw [hf]; exact Option.some_ne_none _)
    have hrun : (Sql.insertSnapshot id parent (cStr op) added deleted).run pg now db = none := by
      rw [Sql.run, if_pos]
      rcases h with h | h <;> simp [h]
    exact ⟨_, inView_byId _ hf (Sql.inView_none hrun), trivial⟩

/-- The partition can be stored under the key. -/
def Postgres.Stores (pg : Postgres) (key : ℕ) (part : PartitionRow) : Prop :=
  (pg.jsonb (PgClient.partitionParams part).columnStatsJson).isSome = true ∧ key < maxBigint

instance (key : ℕ) (part : PartitionRow) : Decidable (pg.Stores key part) :=
  inferInstanceAs (Decidable (_ ∧ _))

/-- The first of the partitions that cannot be stored, where the next key is `key`. -/
def Postgres.firstRefused (pg : Postgres) : ℕ → List PartitionRow → Option PartitionRow
  | _, [] => none
  | key, part :: rest => if pg.Stores key part then pg.firstRefused (key + 1) rest else some part

theorem inView_insertPartition (hf : db.find (cStr t) = some (id, r))
    (hn : (db.snapshots.row n).isSome) (hs : pg.Stores db.partitions.next part) :
    ∃ V, inView pg conn now (PgClient.insertPartition conn t n part) (.within db, cache) =
        some (true, .within V, cache) ∧ V.tables = db.tables ∧ V.snapshots = db.snapshots ∧
      V.partitions.next = db.partitions.next + 1 := by
  let row (stats : String) := (PgClient.partitionParams part).toRec id n stats
  obtain ⟨hstats, hnext⟩ := hs
  obtain ⟨stats, hstats⟩ := Option.isSome_iff_exists.mp hstats
  have hrun : (Sql.insertPartition id n (PgClient.partitionParams part)).run pg now db =
      some (.command 1, { partitions := Patch.write db.partitions.next (row stats) }) := by
    obtain ⟨x, hx⟩ := Option.isSome_iff_exists.mp hn
    simp only [Sql.run, hstats, Option.bind_eq_bind, Option.bind_some, (Db.row_of_find hf).1, hx,
      not_le.mpr hnext, decide_false, Option.isNone_some, Bool.or_self, Bool.false_eq_true, if_false]
    rfl
  have hview : inView pg conn now (PgClient.insertPartition conn t n part) (.within db, cache) = _ :=
    inView_byId _ hf (Sql.inView_some hrun)
  exact ⟨_, hview, Rows.apply_none _, Rows.apply_none _, rfl⟩

theorem inView_insertPartition_refused (hf : db.find (cStr t) = some (id, r))
    (hs : ¬ pg.Stores db.partitions.next part) :
    inView pg conn now (PgClient.insertPartition conn t n part) (.within db, cache) =
      some (false, .aborted, cache) := by
  have hrun : (Sql.insertPartition id n (PgClient.partitionParams part)).run pg now db = none := by
    cases hstats : pg.jsonb (PgClient.partitionParams part).columnStatsJson with
    | none => simp only [Sql.run, hstats, Option.bind_eq_bind, Option.bind_none]
    | some stats =>
      have hnext : maxBigint ≤ db.partitions.next := by
        by_contra hlt
        exact hs ⟨by rw [hstats]; rfl, Nat.lt_of_not_le hlt⟩
      simp only [Sql.run, hstats, Option.bind_eq_bind, Option.bind_some, hnext, decide_true,
        Bool.true_or, if_true]
  exact inView_byId _ hf (Sql.inView_none hrun)

theorem inView_insertPartitions {parts : List PartitionRow} (hf : db.find (cStr t) = some (id, r))
    (hn : (db.snapshots.row n).isSome) :
    ∃ v, inView pg conn now (PartitionRegistry.insertPartitions t conn n parts) (.within db, cache) =
        some (pg.firstRefused db.partitions.next parts, v, cache) ∧ v.Open ∧
      (pg.firstRefused db.partitions.next parts = none → ∃ V, v = .within V ∧ V.tables = db.tables) := by
  induction parts generalizing db with
  | nil => exact ⟨_, rfl, trivial, fun _ => ⟨db, rfl, rfl⟩⟩
  | cons part rest ih =>
    by_cases hs : pg.Stores db.partitions.next part
    · obtain ⟨V, hV, htables, hsnapshots, hnext⟩ := inView_insertPartition hf hn hs
      have hf' : V.find (cStr t) = some (id, r) := (Db.find_congr htables).trans hf
      obtain ⟨v, hv, hopen, hstored⟩ := ih hf' (hsnapshots ▸ hn)
      rw [Postgres.firstRefused, if_pos hs, ← hnext]
      refine ⟨v, (inView_bind hV).trans hv, hopen, fun hnone => ?_⟩
      obtain ⟨W, rfl, hW⟩ := hstored hnone
      exact ⟨W, rfl, hW.trans htables⟩
    · rw [Postgres.firstRefused, if_neg hs]
      refine ⟨_, inView_bind (inView_insertPartition_refused hf hs), trivial, fun hnone => ?_⟩
      cases hnone

theorem inView_markPartitionsDeleted {keys : List String} (hf : db.find (cStr t) = some (id, r))
    (hn : n < maxBigint) :
    ∃ V, inView pg conn now (PartitionRegistry.markPartitionsDeleted t conn n keys)
        (.within db, cache) = some (none, .within V, cache) ∧ V.tables = db.tables := by
  induction keys generalizing db with
  | nil => exact ⟨db, rfl, rfl⟩
  | cons key rest ih =>
    obtain ⟨k, p, hrun⟩ : ∃ (k : ℕ) (p : Patch PartitionRec),
        (Sql.markDeleted n id (cStr key)).run pg now db = some (.command k, { partitions := p }) :=
      ⟨_, _, if_neg (not_le.mpr hn)⟩
    have hmark : inView pg conn now (PgClient.markPartitionDeleted conn t key n) (.within db, cache) =
        _ := inView_byId _ hf (Sql.inView_some hrun)
    have htables : (((Sql.markDeleted n id (cStr key)).draw db).apply { partitions := p }).tables =
        db.tables := Rows.apply_none _
    obtain ⟨V, hV, hkept⟩ := ih ((Db.find_congr htables).trans hf)
    exact ⟨V, (inView_bind hmark).trans hV, hkept.trans htables⟩

theorem inView_updateTableSnapshot (hn : n < maxBigint) :
    ∃ V, inView pg conn now (PgClient.updateTableSnapshot conn t n) (.within db, cache) =
      some (true, .within V, cache) := by
  obtain ⟨k, p, hrun⟩ : ∃ (k : ℕ) (p : Patch TableRec),
      (Sql.updateCurrent n (cStr t)).run pg now db = some (.command k, { tables := p }) :=
    ⟨_, _, if_neg (not_le.mpr hn)⟩
  exact ⟨_, inView_statement (Sql.inView_some hrun) _⟩

theorem Sql.inView_read {sql : Sql} {res : PGresult sql.Row} (hd : sql.draw db = db)
    (h : sql.run pg now db = some (res, {})) :
    sql.inView pg now (.idle db) = some (res, .idle db) := by
  refine Sql.inView_idle ?_
  rw [Sql.effect, h]
  show (res, (sql.draw db).apply {}) = _
  rw [hd, Db.apply_none]

theorem inView_getCurrentSnapshot :
    inView pg conn now (PgClient.getCurrentSnapshot conn t) (.idle db, cache) =
      some (db.current (cStr t), .idle db, cache) := by
  refine (inView_statement (Sql.inView_read rfl rfl) _).trans ?_
  show some (((db.named (cStr t)).map fun p => p.2.currentSnapshotId).head?.getD 0, _) = _
  rw [List.head?_map]
  rfl

theorem inView_rollback (hv : v.Open) (errorMsg : String) :
    ∃ u, inView pg conn now (PartitionRegistry.rollback conn errorMsg) (v, cache) =
      some ({ success := false, errorMsg := errorMsg }, u) :=
  ⟨_, inView_command (inView_ended (by rintro ⟨⟩) hv) _⟩

/-- What a commit answers. -/
def commitAnswer (pg : Postgres) (db : Db) (t : String) (parent : ℕ) (news : List PartitionRow) :
    PartitionRegistry.CommitResult :=
  let current := db.current (cStr t)
  if parent ≠ current then
    ⟨false, 0, "Conflict: snapshot " ++ toString parent ++ " is no longer current (current=" ++
      toString current ++ ")"⟩
  else if db.find (cStr t) = none ∨ maxBigint ≤ parent ∨ maxBigint ≤ db.snapshots.next then
    ⟨false, 0, "Failed to insert snapshot record"⟩
  else
    match pg.firstRefused db.partitions.next news with
    | some part => ⟨false, 0, "Failed to insert partition: " ++ part.partitionKey⟩
    | none => ⟨true, db.snapshots.next, ""⟩

variable {policy : Policy} {i : ℕ} {q : Request} {w w' : Moment} {tr : List (Act × Outcome)}

theorem solo_commit (hu : policy.Unfailing) {news : List PartitionRow} {dels : List String}
    {x : Option PartitionRegistry.CommitResult} (hpool : w.now.Pooled)
    (hx : Solo (server pg policy) i q (PartitionRegistry.commitSnapshot t parent op news dels) w tr x
      w') : x = some (commitAnswer pg w.now.db t parent news) := by
  refine solo_exclusively hu hpool hx fun conn => ?_
  generalize w.now.cache = cache
  generalize w.now.backend.clock = now
  generalize w.now.db = db
  simp only [Prog.bind_eq, Prog.pure_eq]
  rw [inView_bind inView_getCurrentSnapshot, commitAnswer]
  by_cases hparent : parent = db.current (cStr t)
  · rw [if_neg (by simp [MVCCManager.validateParentSnapshot, hparent]), if_neg (not_not.mpr hparent),
      show inView pg conn now ((exec conn .begin).bind _) (.idle db, cache) = _ from
        inView_command rfl _]
    by_cases hrefused : db.find (cStr t) = none ∨ maxBigint ≤ parent ∨ maxBigint ≤ db.snapshots.next
    · obtain ⟨v, hv, hopen⟩ : ∃ v, inView pg conn now (PgClient.insertSnapshot conn t parent op
          (toInt32 news.length) (toInt32 dels.length)) (.within db, cache) = some (0, v, cache) ∧
          v.Open := inView_insertSnapshot_refused hrefused
      rw [if_pos hrefused, inView_bind hv, if_pos rfl]
      exact inView_rollback hopen _
    · rw [if_neg hrefused]
      simp only [not_or, not_le] at hrefused
      obtain ⟨hlive, hp, hn⟩ := hrefused
      obtain ⟨⟨id, r⟩, hf⟩ := Option.ne_none_iff_exists'.mp hlive
      obtain ⟨V, hV, htables, hpartitions, hrow⟩ : ∃ V, inView pg conn now (PgClient.insertSnapshot conn
          t parent op (toInt32 news.length) (toInt32 dels.length)) (.within db, cache) =
            some (db.snapshots.next, .within V, cache) ∧ V.tables = db.tables ∧
          V.partitions = db.partitions ∧ (V.snapshots.row db.snapshots.next).isSome :=
        inView_insertSnapshot hf hp hn
      have hfV : V.find (cStr t) = some (id, r) := (Db.find_congr htables).trans hf
      obtain ⟨v, hv, hopen, hstored⟩ : ∃ v, inView pg conn now (PartitionRegistry.insertPartitions t
          conn db.snapshots.next news) (.within V, cache) =
            some (pg.firstRefused V.partitions.next news, v, cache) ∧ v.Open ∧
          (pg.firstRefused V.partitions.next news = none → ∃ W, v = .within W ∧ W.tables = V.tables) :=
        inView_insertPartitions hfV hrow
      rw [inView_bind hV, if_neg (Nat.ne_of_gt db.snapshots.pos), inView_bind hv]
      rw [hpartitions] at hstored ⊢
      cases hrest : pg.firstRefused db.partitions.next news with
      | some part => exact inView_rollback hopen _
      | none =>
        obtain ⟨W, rfl, hW⟩ := hstored hrest
        obtain ⟨X, hX, -⟩ : ∃ X, inView pg conn now (PartitionRegistry.markPartitionsDeleted t conn
            db.snapshots.next dels) (.within W, cache) = some (none, .within X, cache) ∧
            X.tables = W.tables :=
          inView_markPartitionsDeleted ((Db.find_congr hW).trans hfV) hn
        obtain ⟨Y, hY⟩ : ∃ Y, inView pg conn now (PgClient.updateTableSnapshot conn t
            db.snapshots.next) (.within X, cache) = some (true, .within Y, cache) :=
          inView_updateTableSnapshot hn
        exact ⟨_, (inView_bind hX).trans ((inView_bind hY).trans (inView_command rfl _))⟩
  · rw [if_pos (by simp [MVCCManager.validateParentSnapshot, hparent]), if_pos hparent]
    exact ⟨_, rfl⟩

end commit

/-! A table is dropped. -/

section drop
variable {policy : Policy} {i : ℕ} {q : Request} {w w' : Moment} {tr : List (Act × Outcome)}

theorem Sql.affected_named {name : String} {f : TableRec → TableRec} :
    affectedTables db (db.tables.updateWhere (fun _ x => x.named name) f) = 0 ↔
      db.find name = none := by
  rw [affectedTables, Rows.affected_eq_zero_iff fun k hk => (Rows.updateWhere_born hk).2,
    Db.find_eq_none_iff]
  exact forall_congr' fun k => Rows.updateWhere_eq_none

theorem inView_dropSoftly : ∃ V, inView pg conn now (PgClient.dropTable conn t false)
    (.within db, cache) = some ((db.find (cStr t)).isSome, .within V, cache) := by
  obtain ⟨n, p, hrun, hn⟩ : ∃ (n : ℕ) (p : Patch TableRec), (Sql.softDelete (cStr t)).run pg now db =
      some (.command n, { tables := p }) ∧ (n = 0 ↔ db.find (cStr t) = none) :=
    ⟨_, _, rfl, Sql.affected_named⟩
  have hview : inView pg conn now (PgClient.dropTable conn t false) (.within db, cache) = _ :=
    inView_statement (Sql.inView_some hrun) _
  refine ⟨_, hview.trans (congrArg (fun b => some (b, _)) ?_)⟩
  show (n != 0) = (db.find (cStr t)).isSome
  cases hf : db.find (cStr t) with
  | none => rw [hn.mpr hf]; rfl
  | some e =>
    have hne : n ≠ 0 := fun h0 => Option.some_ne_none e (hf.symm.trans (hn.mp h0))
    simpa using hne

theorem inView_dropTable_absent (hf : db.find (cStr t) = none) :
    inView pg conn now (PgClient.dropTable conn t true) (.within db, cache) =
      some (false, .within db, cache) := by
  refine (inView_bind inView_tableId).trans ?_
  rw [hf]
  rfl

/-- Once the partitions of the table are gone, no row refers to its snapshots. -/
theorem Db.Consistent.snapshots_unreferenced {V : Db} (hc : db.Consistent)
    (hs : V.snapshots = db.snapshots) (hp : ∀ k x, V.partitions.row k = some x →
      db.partitions.row k = some x ∧ x.of id = false) :
    ¬ (V.partitions.exist fun _ x =>
      (V.snapshots.deleteWhere (fun _ y => y.tableId == id) x.snapshotId).isSome) = true := by
  intro he
  obtain ⟨k, x, hx, hdel⟩ := Rows.exist_iff.mp he
  obtain ⟨o, ho⟩ := Option.isSome_iff_exists.mp hdel
  obtain ⟨y, hy, hyid, -⟩ := Rows.deleteWhere_eq_some.mp ho
  obtain ⟨hrow, hother⟩ := hp k x hx
  -- a partition is stored with a snapshot of its own table
  have hsome := (hc.wellFormed x.tableId).stored k x (Db.slice_partitions.mpr ⟨hrow, rfl⟩)
  obtain ⟨z, hz⟩ := Option.isSome_iff_exists.mp hsome
  obtain ⟨hz, hzid⟩ := Db.slice_snapshots.mp hz
  rw [hs] at hy
  cases hz.symm.trans hy
  rw [PartitionRec.of, ← hzid, hyid] at hother
  cases hother

/-- Once all of these rows are gone, no row refers to the table. -/
theorem Db.Consistent.table_unreferenced {V : Db} (hc : db.Consistent)
    (hf : db.find (cStr t) = some (id, r)) (ht : V.tables = db.tables)
    (hhistory : ∀ k x, V.history.row k = some x → (x.tableId == id) = false)
    (hsnapshots : ∀ k x, V.snapshots.row k = some x → (x.tableId == id) = false)
    (hpartitions : ∀ k x, V.partitions.row k = some x → x.of id = false) :
    ¬ Sql.tableReferenced V (V.tables.deleteWhere fun _ x => x.tableName == cStr t) = true := by
  have hown : ∀ k, (V.tables.deleteWhere (fun _ x => x.tableName == cStr t) k).isSome = true →
      k = id := by
    intro k hk
    obtain ⟨o, ho⟩ := Option.isSome_iff_exists.mp hk
    obtain ⟨x, hx, hname, -⟩ := Rows.deleteWhere_eq_some.mp ho
    obtain ⟨hr, hn⟩ := Db.row_of_find hf
    rw [ht] at hx
    exact hc.unique id r hr k x hx ((beq_iff_eq.mp hname).trans (Db.named_iff.mp hn).1.symm)
  intro href
  simp only [Sql.tableReferenced, Bool.or_eq_true, Rows.exist_iff] at href
  rcases href with (⟨k, x, hx, hk⟩ | ⟨k, x, hx, hk⟩) | ⟨k, x, hx, hk⟩
  · simpa [hown _ hk] using hhistory k x hx
  · simpa [hown _ hk] using hsnapshots k x hx
  · simpa [PartitionRec.of, hown _ hk] using hpartitions k x hx

/-- A purge deletes what refers to the table before the table itself. -/
theorem inView_purge (hc : db.Consistent) (hf : db.find (cStr t) = some (id, r)) :
    ∃ V, inView pg conn now (PgClient.dropTable conn t true) (.within db, cache) =
      some (true, .within V, cache) := by
  have hdeleted {sql : Sql} {V : Db} {res : PGresult sql.Row} {p : Changes}
      {f : PGresult sql.Row → Code Bool} (hd : sql.draw V = V) (hrun : sql.run pg now V = some (res, p)) :
      inView pg conn now ((execParams conn sql).bind f) (.within V, cache) =
        inView pg conn now (f res) (.within (V.apply p), cache) := by
    refine (inView_statement (Sql.inView_some hrun) f).trans ?_
    rw [hd]
  -- the partitions
  obtain ⟨V₁, p₁, n₁, hrun₁, hV₁, ht₁, hs₁, hparts₁⟩ : ∃ V₁ p₁ n₁,
      (Sql.deletePartitions id).run pg now db = some (.command n₁, p₁) ∧ db.apply p₁ = V₁ ∧
        V₁.tables = db.tables ∧ V₁.snapshots = db.snapshots ∧
        ∀ k x, V₁.partitions.row k = some x → db.partitions.row k = some x ∧ x.of id = false :=
    ⟨_, _, _, rfl, rfl, Rows.apply_none _, Rows.apply_none _,
      fun k x hx => Rows.row_deleteWhere.mp hx⟩
  -- then the snapshots
  obtain ⟨V₂, p₂, n₂, hrun₂, hV₂, ht₂, hparts₂, hsnaps₂⟩ : ∃ V₂ p₂ n₂,
      (Sql.deleteSnapshots id).run pg now V₁ = some (.command n₂, p₂) ∧ V₁.apply p₂ = V₂ ∧
        V₂.tables = V₁.tables ∧ V₂.partitions = V₁.partitions ∧
        ∀ k x, V₂.snapshots.row k = some x → (x.tableId == id) = false :=
    ⟨_, _, _, if_neg (hc.snapshots_unreferenced hs₁ hparts₁), rfl, Rows.apply_none _,
      Rows.apply_none _, fun k x hx => (Rows.row_deleteWhere.mp hx).2⟩
  -- and the history
  obtain ⟨V₃, p₃, n₃, hrun₃, hV₃, ht₃, hs₃, hparts₃, hhist₃⟩ : ∃ V₃ p₃ n₃,
      (Sql.deleteHistory id).run pg now V₂ = some (.command n₃, p₃) ∧ V₂.apply p₃ = V₃ ∧
        V₃.tables = V₂.tables ∧ V₃.snapshots = V₂.snapshots ∧ V₃.partitions = V₂.partitions ∧
        ∀ k x, V₃.history.row k = some x → (x.tableId == id) = false :=
    ⟨_, _, _, rfl, rfl, Rows.apply_none _, Rows.apply_none _, Rows.apply_none _,
      fun k x hx => (Rows.row_deleteWhere.mp hx).2⟩
  have hfree := hc.table_unreferenced hf (ht₃.trans (ht₂.trans ht₁)) hhist₃
    (fun k x hx => hsnaps₂ k x (hs₃ ▸ hx)) (fun k x hx => (hparts₁ k x (hparts₂ ▸ hparts₃ ▸ hx)).2)
  obtain ⟨n₄, p₄, hrun₄⟩ : ∃ n₄ p₄, (Sql.deleteTable (cStr t)).run pg now V₃ =
    some (.command n₄, p₄) := ⟨_, _, if_neg hfree⟩
  subst hV₁ hV₂ hV₃
  refine ⟨(((db.apply p₁).apply p₂).apply p₃).apply p₄, (inView_bind inView_tableId).trans ?_⟩
  rw [hf]
  exact (hdeleted rfl hrun₁).trans ((hdeleted rfl hrun₂).trans ((hdeleted rfl hrun₃).trans
    (hdeleted rfl hrun₄)))

theorem solo_dropTable (hu : policy.Unfailing) {purge : Bool} {x : Option OperationResult}
    (hpool : w.now.Pooled) (hc : w.now.db.Consistent)
    (hx : Solo (server pg policy) i q (CatalogManager.dropTable t purge) w tr x w') :
    x = some (if (w.now.db.find (cStr t)).isSome then { success := true }
      else ⟨false, "Failed to drop table: " ++ t⟩) := by
  refine solo_exclusively hu hpool hx fun conn => ?_
  generalize w.now.cache = cache
  generalize w.now.backend.clock = now
  generalize w.now.db = db at hc
  simp only [Prog.bind_eq, Prog.pure_eq]
  rw [show inView pg conn now ((exec conn .begin).bind _) (.idle db, cache) = _ from
    inView_command rfl _]
  obtain ⟨V, hV⟩ : ∃ V, inView pg conn now (PgClient.dropTable conn t purge) (.within db, cache) =
      some ((db.find (cStr t)).isSome, .within V, cache) := by
    cases purge with
    | false => exact inView_dropSoftly
    | true =>
      cases hf : db.find (cStr t) with
      | none => exact ⟨db, inView_dropTable_absent hf⟩
      | some e => exact inView_purge hc hf
  rw [inView_bind hV]
  cases db.find (cStr t) with
  | none => exact ⟨_, inView_command (inView_ended (v := .within V) (by rintro ⟨⟩) trivial) _⟩
  | some e => exact ⟨_, inView_command rfl _⟩

end drop

/-! The schema is changed. -/

section alter
variable {policy : Policy} {i : ℕ} {q : Request} {w w' : Moment} {tr : List (Act × Outcome)}
  {schema summary : String} {version : ℤ}

theorem Sql.run_updateSchema_live {name text : String} (now : ℕ) (version : ℤ) (hf : db.find name = some (id, r))
    (htext : pg.jsonb schema = some text) :
    ∃ n p, (Sql.updateSchema schema version name).run pg now db = some (.command n, p) ∧
      (db.apply p).find name ≠ none ∧ (db.apply p).history = db.history := by
  let change (x : TableRec) : TableRec := { x with schemaJson := text, schemaVersion := version }
  let p : Changes := { tables := db.tables.updateWhere (fun _ x => x.named name) change }
  refine ⟨affectedTables db p.tables, p, ?_, ?_, Rows.apply_none _⟩
  · simp only [Sql.run, htext, Option.bind_eq_bind, Option.bind_some]
    rfl
  · obtain ⟨hr, hnamed⟩ := Db.row_of_find hf
    obtain ⟨h0, hid⟩ := Rows.born hr
    intro hnone
    have hp : p.tables id = some (some (change r)) := by
      show db.tables.updateWhere (fun _ x => x.named name) change id = _
      exact Rows.updateWhere_eq_some.mpr ⟨r, hr, hnamed, rfl⟩
    have hrow : (db.apply p).tables.row id = _ := Rows.apply_row_of_some hp h0 hid
    have hother := Db.find_eq_none_iff.mp hnone id _ hrow
    cases hnamed.symm.trans hother

theorem Sql.run_insertHistory_live {text : String} (now : ℕ) (version : ℤ) (summary : String) (hr : db.tables.row id = some r)
    (htext : pg.jsonb schema = some text) (hn : db.history.next < maxBigint) :
    ∃ p, (Sql.insertHistory id version schema summary).run pg now db = some (.command 1, p) := by
  refine ⟨{ history := Patch.write db.history.next ⟨id, version, text, now, summary⟩ }, ?_⟩
  simp only [Sql.run, htext, Option.bind_eq_bind, Option.bind_some, hr, not_le.mpr hn, decide_false,
    Option.isNone_some, Bool.or_self, Bool.false_eq_true, if_false]

theorem inView_updateTableSchema (hf : db.find (cStr t) = some (id, r))
    (hs : (pg.jsonb (cStr schema)).isSome = true) (hn : db.history.next < maxBigint) :
    ∃ V, inView pg conn now (PgClient.updateTableSchema conn t schema version summary)
      (.within db, cache) = some (true, .within V, cache) := by
  obtain ⟨text, htext⟩ := Option.isSome_iff_exists.mp hs
  obtain ⟨n, p, hrun, hlive, hh⟩ := Sql.run_updateSchema_live now version hf htext
  obtain ⟨⟨k, x⟩, hfV⟩ := Option.ne_none_iff_exists'.mp hlive
  obtain ⟨p', hrun'⟩ :=
    Sql.run_insertHistory_live now version (cStr summary) (Db.row_of_find hfV).1 htext (hh ▸ hn)
  have hview : inView pg conn now (PgClient.updateTableSchema conn t schema version summary)
      (.within db, cache) = _ := inView_statement (Sql.inView_some hrun) _
  refine ⟨((Sql.insertHistory k version (cStr schema) (cStr summary)).draw (db.apply p)).apply p',
    hview.trans ?_⟩
  exact inView_byId (fun k => .insertHistory k version (cStr schema) (cStr summary)) hfV (Sql.inView_some hrun')

theorem inView_updateTableSchema_refused (hf : db.find (cStr t) = some (id, r))
    (h : ¬ ((pg.jsonb (cStr schema)).isSome = true ∧ db.history.next < maxBigint)) :
    ∃ v, inView pg conn now (PgClient.updateTableSchema conn t schema version summary)
      (.within db, cache) = some (false, v, cache) ∧ v.Open := by
  cases htext : pg.jsonb (cStr schema) with
  | none =>
    have hrun : (Sql.updateSchema (cStr schema) version (cStr t)).run pg now db = none := by
      simp only [Sql.run, htext, Option.bind_eq_bind, Option.bind_none]
    exact ⟨_, inView_statement (Sql.inView_none hrun) _, trivial⟩
  | some text =>
    have hn : maxBigint ≤ db.history.next := by
      by_contra hlt
      exact h ⟨by rw [htext]; rfl, Nat.lt_of_not_le hlt⟩
    obtain ⟨n, p, hrun, hlive, hh⟩ := Sql.run_updateSchema_live now version hf htext
    obtain ⟨⟨k, x⟩, hfV⟩ := Option.ne_none_iff_exists'.mp hlive
    have hrun' : (Sql.insertHistory k version (cStr schema) (cStr summary)).run pg now
        (db.apply p) = none := by
      simp only [Sql.run, htext, Option.bind_eq_bind, Option.bind_some, hh, hn, decide_true,
        Bool.true_or, if_true]
    have hview : inView pg conn now (PgClient.updateTableSchema conn t schema version summary)
        (.within db, cache) = _ := inView_statement (Sql.inView_some hrun) _
    exact ⟨.aborted, hview.trans (inView_byId (fun k => .insertHistory k version (cStr schema) (cStr summary)) hfV (Sql.inView_none hrun')), trivial⟩

/-- What a change of the schema answers that has passed the check of the handler. -/
def alterAnswer (pg : Postgres) (db : Db) (t schema : String) : OperationResult :=
  if db.find (cStr t) = none then ⟨false, "Table not found: " ++ t⟩
  else if (pg.jsonb (cStr schema)).isSome = true ∧ db.history.next < maxBigint then
    { success := true }
  else ⟨false, "Failed to update schema for: " ++ t⟩

theorem inView_getTable : inView pg conn now (PgClient.getTable conn t) (.idle db, cache) =
    some (db.tableRow (cStr t), .idle db, cache) := by
  refine (inView_statement (Sql.inView_read rfl rfl) _).trans ?_
  show some (((db.named (cStr t)).map fun p => p.2.toRow p.1).head?, _) = _
  rw [List.head?_map]
  rfl

theorem solo_alterTableSchema (hu : policy.Unfailing) {x : Option OperationResult}
    (hpool : w.now.Pooled)
    (hx : Solo (server pg policy) i q (CatalogManager.alterTableSchema t schema summary) w tr x w') :
    x = some (alterAnswer pg w.now.db t schema) := by
  refine solo_exclusively hu hpool hx fun conn => ?_
  generalize w.now.cache = cache
  generalize w.now.backend.clock = now
  generalize w.now.db = db
  simp only [Prog.bind_eq, Prog.pure_eq]
  rw [inView_bind inView_getTable, alterAnswer, Db.tableRow]
  cases hf : db.find (cStr t) with
  | none => exact ⟨_, rfl⟩
  | some e =>
    obtain ⟨id, r⟩ := e
    rw [if_neg (Option.some_ne_none _)]
    have hbegin {f : Bool → Code OperationResult} : inView pg conn now ((exec conn .begin).bind f)
        (.idle db, cache) = inView pg conn now (f true) (.within db, cache) := inView_command rfl f
    by_cases h : (pg.jsonb (cStr schema)).isSome = true ∧ db.history.next < maxBigint
    · obtain ⟨V, hV⟩ : ∃ V, inView pg conn now (PgClient.updateTableSchema conn t schema
          (toInt32 (r.schemaVersion + 1)) summary) (.within db, cache) = some (true, .within V, cache) :=
        inView_updateTableSchema hf h.1 h.2
      rw [if_pos h]
      exact ⟨_, hbegin.trans ((inView_bind hV).trans (inView_command rfl _))⟩
    · obtain ⟨v, hv, hopen⟩ : ∃ v, inView pg conn now (PgClient.updateTableSchema conn t schema
          (toInt32 (r.schemaVersion + 1)) summary) (.within db, cache) = some (false, v, cache) ∧
          v.Open := inView_updateTableSchema_refused hf h
      rw [if_neg h]
      exact ⟨_, hbegin.trans ((inView_bind hv).trans
        (inView_command (inView_ended (by rintro ⟨⟩) hopen) _))⟩

theorem solo_currentSchema (hu : policy.Unfailing) {x : Option (Option SchemaVersion)}
    (hpool : w.now.Pooled)
    (hx : Solo (server pg policy) i q (SchemaStore.getCurrentSchema t) w tr x w') :
    x = some (w.now.db.currentSchema (cStr t)) ∧ w'.now.Pooled ∧ w'.now.db = w.now.db := by
  refine solo_sharedly hu hpool hx fun conn => ?_
  refine (inView_bind inView_getTable).trans ?_
  rw [Db.currentSchema]
  cases w.now.db.tableRow (cStr t) <;> rfl

end alter
end IceLog
