import IceLog.Server.Decisions

/-! What each request that changes tables does to what is stored about them, one request after the
other; and that in a server each of them does it in one step. -/
namespace IceLog

open Interleaved Serial

/-- What is stored under each id. -/
abbrev Catalog : Type := ℕ → Slice

def Db.catalog (db : Db) : Catalog := db.slice

/-- The live table of the name. -/
def Catalog.Finds (V : Catalog) (t : String) (id : ℕ) (r : TableRec) : Prop :=
  (V id).table = some r ∧ r.named t = true

/-- What a request does that succeeds, and the number that it is told. If `steady`, the parent of a
commit is the current snapshot. -/
inductive Request.Does (pg : Postgres) (steady : Prop) : Request → ℕ → Catalog → Catalog → Prop
  | created {V : Catalog} {t schema spec : String} {properties : List (String × String)} {id : ℕ}
      {row : TableRec} :
      row.tableName = cStr t → pg.jsonb (cStr schema) = some row.schemaJson →
      row.schemaVersion = 1 → row.partitionSpec = cStr spec → row.currentSnapshotId = 0 →
      pg.jsonb (cStr (propertiesJson properties)) = some row.properties → row.isDeleted = false →
      -- neither a live table has the name nor one that has been dropped
      (∀ k r, (V k).table = some r → r.tableName ≠ cStr t) → V id = .empty →
      Does pg steady (.createTable t schema spec properties) 0 V
        (Function.update V id { Slice.empty with table := some row })
  | altered {V : Catalog} {t schema : String} {id : ℕ} {r : TableRec} {x : Slice} :
      V.Finds (cStr t) id r →
      (V id).Altered pg id schema "schema evolution via AlterTable" (toInt32 (r.schemaVersion + 1)) x →
      Does pg steady (.alterTable t (.newSchemaJson schema)) 0 V (Function.update V id x)
  | renamed {V : Catalog} {t newName : String} {id : ℕ} {r : TableRec} :
      V.Finds (cStr t) id r → (∀ k r', (V k).table = some r' → r'.tableName ≠ cStr newName) →
      Does pg steady (.alterTable t (.rename newName)) 0 V
        (Function.update V id { V id with table := some { r with tableName := cStr newName } })
  -- a table that is not there can be renamed to anything
  | absent {V : Catalog} {t newName : String} : (∀ id r, ¬ V.Finds (cStr t) id r) →
      Does pg steady (.alterTable t (.rename newName)) 0 V V
  | dropped {V : Catalog} {t : String} {purge : Bool} {id : ℕ} {r : TableRec} {x : Slice} :
      V.Finds (cStr t) id r → (V id).Dropped purge x →
      Does pg steady (.dropTable t purge) 0 V (Function.update V id x)
  | committed {V : Catalog} {q : Request} {call : CommitCall} {id n : ℕ} {r : TableRec} {x : Slice} :
      q.commitCall = some call → V.Finds (cStr call.tableName) id r →
      (steady → r.currentSnapshotId = call.parentSnapshotId) → r.currentSnapshotId < n →
      (∀ k, (V k).snapshots n = none) →
      (V id).CommittedAs pg id call.parentSnapshotId call.operation call.newPartitions
        call.deletedPartitionKeys n x →
      Does pg steady q n V (Function.update V id x)

variable {pg : Postgres} {policy : Policy} {i id n : ℕ} {q q' : Request} {a a' : Act} {r : a.Result}
  {r' : a'.Result} {c c' : ServerConfig} {e : ServerEvent} {t : String} {conn : Conn} {sql : Sql}
  {v w : Moment} {s : Server} {x : Reply} {db db' : Db} {P : Reply → Prop} {E : Moment → Moment → Prop}

/-! Which steps change something. -/

theorem Act.not_confirmed_error (conn : Conn) (sql : Sql) :
    ¬ (Act.execParams conn sql).Confirmed .error := by
  cases sql with
  | insertTable | renameTable => exact Bool.false_ne_true
  | _ => exact id

/-- A statement that gives a table a name has been carried out. Its answer may not have arrived. -/
inductive Naming (pg : Postgres) (s : Server) (o : Outcome) : (a : Act) → a.Result → Db → Prop
  | run {conn : Conn} {sql : Sql} {r res : PGresult sql.Row} {p : Changes} :
      sql.namesTables = true → sql.run pg s.backend.clock s.db = some (res, p) →
      o = .answer .ok ∧ r = res ∨ o = .answer .unheard ∧ r = .error →
      Naming pg s o (.execParams conn sql) r ((sql.draw s.db).apply p)

/-- An action other than a `COMMIT` leaves all rows, or gives a name. -/
theorem perform_names {o : Outcome} (ha : a.noCommit) (hn : Needs policy i q a w)
    (h : Server.perform pg o i a w.now = some (r, s)) :
    (w.now.db.SameRows s.db ∧ ¬ a.Confirmed r) ∨ Naming pg w.now o a r s.db := by
  cases Server.perform_cases h with
  | acquire hacq => cases hacq <;> exact .inl ⟨.refl _, id⟩
  | exec ho hx =>
    refine .inl ⟨?_, id⟩
    cases Backend.exec_cases hx with
    | moved hq => exact hq.sameRows
    | committed hk =>
      subst hk
      exact absurd rfl (ha _)
  | @execParams conn sql ans r b ho hx =>
    subst ho
    cases Backend.execParams_cases hx with
    | failed _ hq => exact .inl ⟨hq.sameRows, Act.not_confirmed_error conn sql⟩
    | added _ hσ =>
      refine .inl ⟨Db.sameRows_draw sql _, fun hc => ?_⟩
      -- names are not given in a transaction
      have hclosed : (w.now.backend.session conn).Closed := by
        cases sql with
        | insertTable => exact hn.2.1
        | renameTable => exact hn.2.1
        | _ => exact hc.elim
      rw [hσ] at hclosed
      exact hclosed
    | committed hidle hr _ hans =>
      rcases hn.2.outside hidle with hs | hs
      · refine .inl ⟨(Db.sameRows_draw sql _).trans (Sql.run_harmless hs hr _), fun hc => ?_⟩
        cases sql with
        | insertTable | renameTable => cases hs
        | _ => exact hc.elim
      · refine .inr (.run hs hr ?_)
        rcases hans with ⟨rfl, rfl, -⟩ | ⟨rfl, rfl, -⟩
        · exact .inl ⟨rfl, rfl⟩
        · exact .inr ⟨rfl, rfl⟩
  | _ => exact .inl ⟨.refl _, id⟩

/-- A step that changes rows, or is confirmed to have given a name. -/
def TakesEffect (w : Moment) (e : ServerEvent) (s : Server) : Prop :=
  ¬ w.now.db.SameRows s.db ∨ ∃ i q a r, e = .act i q a r ∧ a.Confirmed r

/-- What takes effect is an action that decides. -/
theorem Reachable.decides (h : Reachable pg policy c) (hs : Step (server pg policy) c e c')
    (he : TakesEffect c.world e c'.state) : ∃ i q a r, e = .act i q a r ∧ a.Decides := by
  rcases he with hm | ⟨i, q, a, r, rfl, hc⟩
  · cases hs with
    | call => exact absurd (.refl _) hm
    | @act i q a k r s hi hx =>
      refine ⟨i, q, a, r, rfl, ?_⟩
      obtain ⟨o, -, hx⟩ := hx
      by_cases ha : a.noCommit
      · rcases perform_names ha (h.needs hi) hx with ⟨hsame, -⟩ | hnaming
        · exact absurd hsame hm
        · generalize hdb : s.db = db at hnaming
          cases hnaming with
          | run hs => exact .inr ⟨_, _, rfl, hs⟩
      · exact .inl (not_noCommit.mp ha)
    | drift hd =>
      obtain ⟨_, _, -, -, rfl⟩ := hd
      exact absurd (.refl _) hm
  · exact ⟨i, q, a, r, rfl, .inr hc.namesTable⟩

/-- Nobody decides twice. -/
theorem Reachable.decides_once (h : Reachable pg policy c)
    (hs : Step (server pg policy) c (.act i q a r) c') (ha : a.Decides)
    (hb : (v.next (.act i q' a' r') s).Before c.world) : ¬ a'.Decides := by
  intro ha'
  obtain ⟨-, k, hl⟩ := h.at_action hs
  have hm : (⟨a', r'⟩ : Σ a : Act, a.Result) ∈ actionsOf i c.world :=
    mem_actionsOf.mpr ⟨_, q', hb.mem_past⟩
  obtain ⟨-, hcloses⟩ := q.deciding.leaves hl ⟨_, hm, ha'⟩
  exact hcloses.1.not_decides ha

/-! What the steps do. -/

theorem Db.find_iff (hu : db.UniqueNames) {r : TableRec} :
    db.find t = some (id, r) ↔ db.catalog.Finds t id r := Db.find_eq_some_iff hu

theorem Db.catalog_update (h : ∀ k, k ≠ id → db'.slice k = db.slice k) :
    db'.catalog = Function.update db.catalog id (db'.slice id) := by
  funext k
  by_cases hk : k = id
  · subst hk
    rw [Function.update_self]
    rfl
  · rw [Function.update_of_ne hk]
    exact h k hk

theorem Db.SameRows.catalog (h : db.SameRows db') : db'.catalog = db.catalog :=
  funext fun _ => h.slice _

/-- The parent of a commit that is checked. -/
theorem Slice.CommittedAs.parent {V W : Slice} {steady : Prop} {parent next : ℕ} {op : String}
    {news : List PartitionRow} {dels : List String} {r : TableRec}
    (h : V.CommittedAs pg id parent op news dels n W) (hc : TableChange steady next V W)
    (hr : V.table = some r) (hlt : r.currentSnapshotId < n) (hs : steady) :
    r.currentSnapshotId = parent := by
  obtain ⟨r₀, z, hr₀, ⟨now, y, hins, rfl⟩, rfl⟩ := h
  obtain rfl := Option.some.inj (hr₀.symm.trans hr)
  generalize hW : ({ y.markAll n dels with
    table := some { r₀ with currentSnapshotId := n } } : Slice) = W at hc
  have htable : W.table = some { r₀ with currentSnapshotId := n } := by rw [← hW]
  cases hc with
  | created => cases hr₀
  | renamed _ hv | altered _ _ hv | dropped hv =>
    cases hr₀.symm.trans hv
    exact absurd (congrArg TableRec.currentSnapshotId (Option.some.inj htable)) hlt.ne
  | purged => cases htable
  | @committed _ w' r' n' x hv _ _ _ hpar hg =>
    cases hr₀.symm.trans hv
    obtain rfl : n' = n := congrArg TableRec.currentSnapshotId (Option.some.inj htable)
    -- both say which snapshot has been stored
    have hsnap : (y.markAll n' dels).snapshots = w'.snapshots := by
      injection hW
    have hgrows : Slice.Grows n' _ _ := hins.grows.trans (Slice.markAll_grows dels y)
    rw [hgrows.snapshots, hg.snapshots] at hsnap
    have hx := congrFun hsnap n'
    simp only [Slice.insertSnapshot, Function.update_self, Option.some.injEq] at hx
    rw [← hpar hs, ← hx]

/-- The number of a commit has not been stored before. -/
theorem Slice.CommittedAs.stores {V W : Slice} {parent : ℕ} {op : String}
    {news : List PartitionRow} {dels : List String}
    (h : V.CommittedAs pg id parent op news dels n W) : ∃ x, W.snapshots n = some x := by
  obtain ⟨r, z, -, ⟨now, y, hins, rfl⟩, rfl⟩ := h
  have hgrows : Slice.Grows n _ _ := hins.grows.trans (Slice.markAll_grows dels y)
  exact ⟨_, (congrFun hgrows.snapshots n).trans (Function.update_self ..)⟩

/-- A `COMMIT` that changes rows moves the pointer as a commit does. -/
theorem Reachable.does_commit (h : Reachable pg policy c) (hc : policy.Clean) {call : CommitCall}
    (hcall : q.commitCall = some call) {b : Bool}
    (hs : Step (server pg policy) c (.act i q (.exec conn .commit) b) c')
    (hmoved : ¬ c.state.db.SameRows c'.state.db) :
    ∃ n, q.Does pg policy.Steady n c.state.db.catalog c'.state.db.catalog := by
  obtain ⟨n, heffect⟩ := h.commitEffect hc hcall hs hmoved
  obtain ⟨id, r, hf, -, hlt, hcommit, hothers⟩ := heffect.table
  have hlt : r.currentSnapshotId < n := hlt hc
  have hfinds := (Db.find_iff h.inv.sound.backend.unique).mp hf
  have hcatalog : c'.state.db.catalog = Function.update c.state.db.catalog id _ :=
    Db.catalog_update hothers
  refine ⟨n, hcatalog ▸ .committed hcall hfinds (fun hsteady => ?_) hlt (fun k => ?_) hcommit⟩
  · have hslices := (h.promise hs).writes hc id
    rcases hslices with hsame | ⟨_, -, hw⟩
    · -- the pointer has moved
      obtain ⟨r', z, hr', -, hw⟩ := hcommit
      obtain rfl := Option.some.inj (hr'.symm.trans hfinds.1)
      have htable := congrArg Slice.table (hw.symm.trans hsame)
      exact absurd (congrArg TableRec.currentSnapshotId
        (Option.some.inj (htable.trans hfinds.1))) hlt.ne'
    · exact hcommit.parent hw.change hfinds.1 hlt hsteady
  · obtain ⟨x, hx⟩ := hcommit.stores
    obtain ⟨hrow, hid⟩ := Db.slice_snapshots.mp hx
    refine Option.eq_none_iff_forall_ne_some.mpr fun y hy => ?_
    by_cases hk : k = id
    · subst hk
      have hle := ((h.inv.consistent hc).wellFormed k).snapshots r n y hfinds.1 hy
      omega
    · have hy : (c'.state.db.slice k).snapshots n = some y := by
        rw [hothers k hk]
        exact hy
      obtain ⟨hrow', hid'⟩ := Db.slice_snapshots.mp hy
      cases hrow.symm.trans hrow'
      exact hk (hid'.symm.trans hid)

theorem Reachable.does_alter (h : Reachable pg policy c) (hc : policy.Clean) {schema : String}
    {b : Bool} (hs : Step (server pg policy) c
      (.act i (.alterTable t (.newSchemaJson schema)) (.exec conn .commit) b) c')
    (hmoved : ¬ c.state.db.SameRows c'.state.db) :
    (Request.alterTable t (.newSchemaJson schema)).Does pg policy.Steady 0 c.state.db.catalog
      c'.state.db.catalog := by
  obtain ⟨id, r, hf, halt, hothers⟩ := (h.alterEffect hc hs hmoved).table
  have hfinds := (Db.find_iff h.inv.sound.backend.unique).mp hf
  have hcatalog : c'.state.db.catalog = Function.update c.state.db.catalog id _ :=
    Db.catalog_update hothers
  exact hcatalog ▸ .altered hfinds halt

/-- Where a request gives no names, what changes rows is its `COMMIT`. -/
theorem Reachable.commits_of_moved (h : Reachable pg policy c)
    (hs : Step (server pg policy) c (.act i q a r) c') (hm : ¬ c.state.db.SameRows c'.state.db)
    (hq : q.namingStatement = none) : a.Commits := by
  obtain ⟨_, _, _, _, heq, ha⟩ := h.decides hs (.inl hm)
  cases heq
  refine ha.resolve_right fun hn => ?_
  cases hs with
  | act hi =>
    have hl := h.traced.leaves i _ hi
    exact ((Request.unnaming hq).reaches hl.reaches).1 hn

/-- All that a request without names says to have done, its `COMMIT` has done. -/
theorem Reachable.effect_of_sole (h : Reachable pg policy c) (hq : q.Settles P)
    (hn : q.namingStatement = none) {b : Bool}
    (hs : Step (server pg policy) c (.act i q (.exec conn .commit) b) c')
    (hmoved : ¬ c.state.db.SameRows c'.state.db)
    (hserved : ∀ y u w, P y → Served pg policy.carrying true i q u y w → Effected true i E u w)
    (hE : ∀ v v' : Moment, E v v' → ¬ v.now.db.SameRows v'.now.db) : E c.world c'.world := by
  have h' := h.step hs
  have hw := hs.world_eq
  have hlast : (c.world.next (.act i q (.exec conn .commit) b) c'.state).Before c'.world := by
    rw [← hw]
    exact .refl
  have hm : Commits i q c.world c'.world := ⟨conn, b, c'.state, hlast⟩
  -- the thread sends no other `COMMIT`
  have hsame : ∀ {v : Moment} {q' : Request} {a : Act} {r : a.Result} {s : Server},
      (v.next (.act i q' a r) s).Before c'.world → a.Commits →
        v = c.world ∧ v.next (.act i q' a r) s = c'.world := by
    rintro v q' a r s hb ⟨conn', rfl⟩
    obtain rfl := h'.commits_unique hq hm ⟨conn', r, s, hb⟩
    obtain ⟨he, rfl⟩ := hb.next_unique hlast
    exact ⟨rfl, he ▸ hw.symm⟩
  have heffective : Effective i c'.world := by
    intro v q' a r s hb
    refine or_iff_not_imp_left.mpr fun ha => ?_
    obtain ⟨rfl, hv⟩ := hsame hb (not_noCommit.mp ha)
    have hnow : s = c'.state := congrArg World.now hv
    rwa [hnow]
  obtain ⟨⟨q₀, p⟩, hth, hreq⟩ := h'.commits_request hm
  obtain rfl : q₀ = q := hreq
  obtain ⟨u, y, tr, w, hx, hy, hcloses, hserved'⟩ := h'.settles hq hth hm heffective
  obtain ⟨v, v', -, ⟨q', a, r, s, rfl⟩, hb, -, he⟩ := hserved y u w hy hserved'
  have hchanged := hE _ _ he
  rcases hx.next_cases hcloses hb with hb | ⟨o, a, r, ha, heq, hx⟩
  · obtain ⟨d, d', hd, rfl, hsd, hwd, -⟩ := h'.step_of_before hb
    obtain ⟨th', hth', hreq'⟩ := h'.traced.request i q' _ r _ hb.mem_past
    cases hth.symm.trans hth'
    have hstate : d'.state = s := congrArg World.now hwd
    have ha := hd.commits_of_moved hsd (hstate ▸ hchanged) (hreq' ▸ hn)
    obtain ⟨hv, hv'⟩ := hsame hb ha
    rwa [hv', hv] at he
  · cases heq
    have hdb := perform_closes_db ha hx
    rw [World.next_now, hdb] at hchanged
    exact absurd (.refl _) hchanged

/-- A dropped table is not as it was. -/
theorem TableEffect.not_sameRows {purge : Bool} {v v' : Moment}
    (h : TableEffect t (fun _ _ => Slice.Dropped purge) v v') : ¬ v.now.db.SameRows v'.now.db := by
  obtain ⟨id, r, hf, hdrop, -⟩ := h.table
  intro hsame
  obtain ⟨hrow, hname⟩ := Db.row_of_find hf
  have hrow' : (v'.now.db.slice id).table = some r := (congrArg Slice.table (hsame.slice id)).trans hrow
  have hdeleted := hdrop.deleted hrow'
  rw [(Db.named_iff.mp hname).2] at hdeleted
  cases hdeleted

/-- A `COMMIT` of a drop that changes rows drops the table. -/
theorem Reachable.dropEffect (h : Reachable pg policy c) (hc : policy.Clean) {purge : Bool}
    {b : Bool} (hs : Step (server pg policy) c (.act i (.dropTable t purge) (.exec conn .commit) b) c')
    (hmoved : ¬ c.state.db.SameRows c'.state.db) :
    TableEffect t (fun _ _ => Slice.Dropped purge) c.world c'.world := by
  have hnul : NulFree t := hc _ (h.admits hs) t (List.mem_singleton_self t)
  refine h.effect_of_sole settles_dropTable rfl hs hmoved ?_ fun _ _ he => he.not_sameRows
  rintro y u w ⟨r, rfl, hr⟩ ⟨r', he, hans⟩
  cases he
  obtain ⟨v, v', huv, hact, hw, hf, he⟩ := hans.effected hr fun _ _ h => h
  exact ⟨v, v', huv, hact, hw, hf, he (.inr ⟨hc, by simp [cStr_of_nulFree hnul]⟩)⟩

theorem Reachable.does_drop (h : Reachable pg policy c) (hc : policy.Clean) {purge : Bool}
    {b : Bool} (hs : Step (server pg policy) c (.act i (.dropTable t purge) (.exec conn .commit) b) c')
    (hmoved : ¬ c.state.db.SameRows c'.state.db) :
    (Request.dropTable t purge).Does pg policy.Steady 0 c.state.db.catalog c'.state.db.catalog := by
  obtain ⟨id, r, hf, hdrop, hothers⟩ := (h.dropEffect hc hs hmoved).table
  have hfinds := (Db.find_iff h.inv.sound.backend.unique).mp hf
  have hcatalog : c'.state.db.catalog = Function.update c.state.db.catalog id _ :=
    Db.catalog_update hothers
  exact hcatalog ▸ .dropped hfinds hdrop

/-- A table that is created is stored under an id that has not been used. -/
theorem does_create {schema spec : String} {properties : List (String × String)} {row : TableRec}
    (hc : db.Consistent) (hname : row.tableName = cStr t)
    (hschema : pg.jsonb (cStr schema) = some row.schemaJson) (hversion : row.schemaVersion = 1)
    (hspec : row.partitionSpec = cStr spec) (hcur : row.currentSnapshotId = 0)
    (hprops : pg.jsonb (cStr (propertiesJson properties)) = some row.properties)
    (hdel : row.isDeleted = false)
    (hfree : ∀ id r, db.tables.row id = some r → r.tableName ≠ cStr t) {steady : Prop} :
    (Request.createTable t schema spec properties).Does pg steady 0 db.catalog
      (((Sql.insertTable (cStr t) (cStr schema) (cStr spec) (cStr (propertiesJson properties))).draw
        db).apply { tables := Patch.write db.tables.next row }).catalog := by
  have hempty : db.slice db.tables.next = .empty := (hc.wellFormed _).orphans (Rows.row_next _)
  obtain ⟨hslice, hothers⟩ := @Db.slice_insertTable db (cStr t) (cStr schema) (cStr spec)
    (cStr (propertiesJson properties)) row hempty
  rw [Db.catalog_update hothers, hslice]
  exact .created hname hschema hversion hspec hcur hprops hdel hfree hempty

/-- A statement that gives a name and takes effect. -/
theorem Reachable.does_name (h : Reachable pg policy c) (hc : policy.Clean)
    (hs : Step (server pg policy) c (.act i q a r) c')
    (he : TakesEffect c.world (.act i q a r) c'.state) (hn : a.NamesTable) :
    q.Does pg policy.Steady 0 c.state.db.catalog c'.state.db.catalog := by
  have hu := h.inv.sound.backend.unique
  have hnoCommit : a.noCommit := by
    obtain ⟨conn, sql, rfl, -⟩ := hn
    exact nofun
  cases hs with
  | @act _ _ _ k _ s hi hx =>
    obtain ⟨o, -, hx⟩ := hx
    have hneeds := h.needs hi
    have hl := h.traced.leaves i _ hi
    obtain ⟨conn, sql, hsql, rfl⟩ := ((Request.naming_acts q).reaches hl.reaches).1 hn
    show q.Does pg policy.Steady 0 c.state.db.catalog s.db.catalog
    have he : ¬ c.state.db.SameRows s.db ∨ (Act.execParams conn sql).Confirmed r := by
      rcases he with hm | ⟨_, _, _, _, heq, hconf⟩
      · exact .inl hm
      · cases heq
        exact .inr hconf
    rcases perform_names hnoCommit hneeds hx with ⟨hsame, hno⟩ | hnaming
    · exact (he.elim (· hsame) hno).elim
    · generalize s.db = db' at he hnaming
      cases hnaming with
      | @run _ _ _ res p _ hrun hans =>
        cases q with
        | createTable t schema spec properties =>
          cases hsql
          rcases Sql.run_insertTable hrun with ⟨rfl, rfl⟩ | ⟨row, hname, hschema, hversion, hspec, hcur,
            hprops, hdel, -, hfree, rfl⟩
          · -- the name is taken
            rcases he with hm | hconf
            · rw [Db.apply_none] at hm
              exact absurd (Db.sameRows_draw _ _) hm
            · rcases hans with ⟨-, rfl⟩ | ⟨-, rfl⟩ <;> cases hconf
          · exact does_create (h.inv.consistent hc) hname hschema hversion hspec hcur hprops hdel hfree
        | alterTable t alteration =>
          cases alteration with
          | rename newName =>
            cases hsql
            have hne : cStr newName ≠ cStr t := (hneeds.2.2 hc).2.2.1
            rcases Sql.run_renameTable_effect hu hrun with ⟨hnone, rfl⟩ | ⟨id, row, hf, -, -, hslice,
              hothers⟩
            · rw [Db.apply_none]
              refine .absent fun id r hfinds => ?_
              cases hnone.symm.trans ((Db.find_iff hu).mpr hfinds)
            · have hfinds := (Db.find_iff hu).mp hf
              have hcatalog : (c.state.db.apply p).catalog = Function.update c.state.db.catalog id _ :=
                Db.catalog_update hothers
              rw [hslice] at hcatalog
              show Request.Does _ _ _ _ _ (c.state.db.apply p).catalog
              rw [hcatalog]
              refine .renamed hfinds fun k r' hr' hname => ?_
              obtain ⟨hrow, hold⟩ := Db.row_of_find hf
              have hnamed := (Sql.run_renameTable hrun).2 id row hrow hold k r' hr' hname
              exact hne (hname.symm.trans (Db.named_iff.mp hnamed).1)
          | _ => cases hsql
        | _ => cases hsql

/-- What takes effect is what the request does. -/
theorem Reachable.does (h : Reachable pg policy c) (hc : policy.Clean)
    (hs : Step (server pg policy) c e c') (he : TakesEffect c.world e c'.state) :
    ∃ i q a r n, e = .act i q a r ∧
      q.Does pg policy.Steady n c.state.db.catalog c'.state.db.catalog := by
  obtain ⟨i, q, a, r, rfl, ha⟩ := h.decides hs he
  rcases ha with ⟨conn, rfl⟩ | ha
  · have hmoved : ¬ c.state.db.SameRows c'.state.db := by
      rcases he with hm | ⟨_, _, _, _, heq, hconf⟩
      · exact hm
      · cases heq
        exact hconf.elim
    obtain ⟨-, k, hl⟩ := h.at_action hs
    rcases Request.commits_cases hl with ⟨call, hcall⟩ | ⟨t, schema, rfl⟩ | ⟨t, purge, rfl⟩
    · obtain ⟨n, hdoes⟩ := h.does_commit hc hcall hs hmoved
      exact ⟨i, q, _, r, n, rfl, hdoes⟩
    · exact ⟨i, _, _, r, 0, rfl, h.does_alter hc hs hmoved⟩
    · exact ⟨i, _, _, r, 0, rfl, h.does_drop hc hs hmoved⟩
  · exact ⟨i, q, a, r, 0, rfl, h.does_name hc hs he ha⟩

/-- Nobody takes effect twice. -/
theorem Reachable.takesEffect_once (h : Reachable pg policy c)
    (hs : Step (server pg policy) c (.act i q a r) c')
    (he : TakesEffect c.world (.act i q a r) c'.state)
    (hb : (v.next (.act i q' a' r') s).Before c.world) : ¬ TakesEffect v (.act i q' a' r') s := by
  intro he'
  obtain ⟨_, _, _, _, heq, ha⟩ := h.decides hs he
  cases heq
  obtain ⟨d, d', hd, rfl, hsd, hw, -⟩ := h.step_of_before hb
  have hstate : d'.state = s := congrArg World.now hw
  obtain ⟨_, _, _, _, heq, ha'⟩ := hd.decides hsd (hstate ▸ he')
  cases heq
  exact h.decides_once hs ha hb ha'

/-- The stored tables as a sequential object. -/
def catalog (pg : Postgres) (policy : Policy) (hc : policy.Clean) :
    Linear (server pg policy) Catalog ℕ where
  good := Reachable pg policy
  abs s := s.db.catalog
  does := Request.Does pg policy.Steady
  effects := TakesEffect
  stable h hs := h.step hs
  rest _ _ hn := Db.SameRows.catalog (not_not.mp fun hm => hn (.inl hm))
  effect h hs he := h.does hc hs he
  once h hs he := h.takesEffect_once hs he

end IceLog
