import IceLog.Server.Edits
import IceLog.Server.Reads

/-! The operations of the table catalog that change a table: what each makes of it. -/
namespace IceLog

open Interleaved Serial

/-- A change of the stored table: to `base` it does what `f` says, and nothing to any other. -/
structure TableEffect (t : String) (f : ℕ → TableRec → Slice → Slice → Prop)
    (v v' : Moment) : Prop where
  table : ∃ id r, v.now.db.find (cStr t) = some (id, r) ∧
    f id r (v.now.db.slice id) (v'.now.db.slice id) ∧
    ∀ k, k ≠ id → v'.now.db.slice k = v.now.db.slice k

variable {pg : Postgres} {policy : Policy} {others : Bool} {i : ℕ} {q : Request}
  {h : Held} {ds : List String} {w w' v : Moment} {n t : String} {c : Conn}
  {id next : ℕ} {base : Slice} {φ ψ : Slice → Prop} {exc : Moment → Prop} {α : Type}

/-- What `COMMIT` makes of the table of a draft. -/
theorem Committed.tableEffect {v v' : Moment}
    (hc : Committed policy others i q h ds c (.edits (cStr t) id base next φ) v v')
    (hcalm : Calm policy others h.locked (cStr t)) {f : ℕ → TableRec → Slice → Slice → Prop}
    (hf : ∀ r V, base.table = some r → φ V → f id r base V) : TableEffect t f v v' := by
  obtain ⟨p, -, -, hD, hdb⟩ := hc.draft
  have he : Edits _ _ _ _ _ _ _ := hD hcalm
  obtain ⟨r, hr⟩ := he.found
  have hrow := (Db.row_of_find hr).1
  refine ⟨id, r, hr, ?_, fun k hk => ?_⟩
  · rw [he.base, hdb]
    exact hf r _ (he.base ▸ hrow) he.edited
  · rw [hdb]
    exact he.within.slice_of_ne hk

/-- Readers of a table do not notice a change that leaves its name and its partitions. -/
theorem Db.not_changed {db db' : Db} {r r' : TableRec} (hu : db'.UniqueNames)
    (hf : db.find t = some (id, r)) (hr' : (db'.slice id).table = some r')
    (hn : r'.named t = true) (hp : (db'.slice id).partitions = (db.slice id).partitions) :
    ¬ db.Changed t db' := by
  rintro ⟨-, s, hs⟩
  refine hs ?_
  have hf' : db'.find t = some (id, r') := (Db.find_eq_some_iff hu).mpr ⟨hr', hn⟩
  have hat : db'.partitionsAt id s = db.partitionsAt id s :=
    Db.partitionsAt_congr (by funext p; simp only [Slice.visible, hp])
  simp [Db.queryPartitions, hf, hf', hat]

section statements

/-- A statement whose result is ignored. -/
theorem safe_edit_ignored {sql : Sql} {k : PGresult sql.Row → Code α} {post : α → Moment → Prop}
    (ψ : Slice → Prop)
    (hx : InTransaction policy others i q h ds c (.edits n id base next φ) w)
    (hs : sql.autocommits = false)
    (hrun : Calm policy others h.locked n → ∀ db now r p', db.NameOf id n → φ (db.slice id) →
      sql.run pg now db = some (r, p') →
        db.Within id p' ∧ ψ (((sql.draw db).apply p').slice id))
    (H : ∀ r v, Later policy others h.locked w v →
      InTransaction policy others i q h ds c (.edits n id base next ψ) v →
      Safe (view pg policy others i q) post exc (k r) v) :
    Safe (view pg policy others i q) post exc ((execParams c sql).bind k) w := by
  refine safe_edit (fun _ => next) (fun _ => ψ) hx hs (fun hc db now r p' hn hnext hd hr => ?_)
    fun r v hl hv => H r v hl (hv.symm.imp And.right And.right)
  obtain ⟨hw, hψ⟩ := hrun hc db now r p' hn hd hr
  exact ⟨hw, hnext.trans (Db.nextLe_draw sql db).snapshots, hψ⟩

/-- A new schema for the table, and the entry in its history. -/
def Slice.Altered (pg : Postgres) (id : ℕ) (schema summary : String) (version : ℤ)
    (v w : Slice) : Prop :=
  ∃ r schema' k now, v.table = some r ∧ pg.jsonb (cStr schema) = some schema' ∧
    (∀ l y, v.history l = some y → l < k) ∧ w = { v with
      table := some { r with schemaJson := schema', schemaVersion := version } }.insertHistory k
        ⟨id, version, schema', now, cStr summary⟩

theorem safe_updateTableSchema {schema summary : String} {version : ℤ}
    (hx : InTransaction policy others i q h ds c (.edits (cStr t) id base next (Eq base)) w)
    (hb : Calm policy others h.locked (cStr t) → Live (cStr t) (Eq base)) :
    Safe (view pg policy others i q) (fun x v => Continues policy others i q h ds c
      (.edits (cStr t) id base next (base.Altered pg id schema summary version)) w
      (x = true) v) exc (PgClient.updateTableSchema c t schema version summary) w := by
  let φ (V : Slice) : Prop := ∃ r schema', base.table = some r ∧ r.named (cStr t) = true ∧
    pg.jsonb (cStr schema) = some schema' ∧
    V = { base with table := some { r with schemaJson := schema', schemaVersion := version } }
  have hφ : Live (cStr t) φ := by
    rintro V ⟨r, schema', hr, hn, -, rfl⟩
    exact ⟨_, rfl, hn⟩
  refine safe_edit (fun _ => next) (fun _ => φ) hx rfl ?_ fun r v hl hv => ?_
  · rintro hc db now r p' hn hnext rfl hr
    obtain ⟨schema', hs, hw, he⟩ := Db.run_updateSchema hn hr
    obtain ⟨row, hrow, hname⟩ := hb hc _ rfl
    refine ⟨hw, hnext, row, schema', hrow, hname, hs, he.trans ?_⟩
    simp [Slice.mapTable, hrow, hname]
  · show Safe _ _ _ (if _ then _ else _) v
    split
    · rename_i hcmd
      refine safe_continues_ret ⟨hl, by simp, ?_⟩
      rcases hv with ⟨-, hv⟩ | ⟨-, hv⟩
      · exact .inr hv
      · exact .mono (.inl hv) fun _ _ _ => trivial
    · rename_i hcmd
      have hv : Drafting policy others i q h ds c (.edits (cStr t) id base next φ) v := by
        rcases hv with ⟨rfl, -⟩ | ⟨-, hv⟩
        · exact absurd rfl hcmd
        · exact hv
      refine (safe_edit_by_id (fun k => .insertHistory k version (cStr schema) (cStr summary))
        false (fun _ res => res.commandOk) (fun x => x = true) (fun _ => next)
        (fun _ => base.Altered pg id schema summary version) (.inl hv) (fun _ => hφ)
        (fun _ => rfl) (by simp) (fun _ => by simp [PGresult.commandOk]) ?_).mono
          (fun x u hu => hu.trans hl) fun _ he => he
      rintro db now r p' - hnext ⟨row, schema', hrow, -, hs, hd⟩ hr
      obtain ⟨schema'', hs', hw, he⟩ := Db.run_insertHistory hr
      rw [hs] at hs'
      cases hs'
      have hfresh : ∀ l y, base.history l = some y → l < db.history.next := by
        intro l y hy
        have hy : (db.slice id).history l = some y := by rwa [hd]
        exact (Rows.born (Db.slice_history.mp hy).1).2
      exact ⟨hw, hnext, row, schema', _, now, hrow, hs, hfresh, he.trans (by rw [hd])⟩

/-- `drop_table` with `purge`, once the id is known. -/
theorem safe_purge
    (hx : InTransaction policy others i q h ds c (.edits (cStr t) id base next (Eq base)) w)
    (hb : Calm policy others h.locked (cStr t) → Live (cStr t) (Eq base)) :
    Safe (view pg policy others i q) (fun x v => Continues policy others i q h ds c
      (.edits (cStr t) id base next (· = Slice.empty)) w (x = true) v) exc
      ((execParams c (.deletePartitions id)).bind fun _ =>
        (execParams c (.deleteSnapshots id)).bind fun _ =>
        (execParams c (.deleteHistory id)).bind fun _ =>
        (execParams c (.deleteTable (cStr t))).bind fun res => .ret res.commandOk) w := by
  refine safe_edit_ignored (Eq base.clearPartitions) hx rfl ?_ fun _ u₁ hl₁ hx₁ => ?_
  · rintro - db now r p' - rfl hr
    obtain ⟨hw, he⟩ := Db.run_deletePartitions hr
    exact ⟨hw, he.symm⟩
  refine safe_edit_ignored (Eq base.clearPartitions.clearSnapshots) hx₁ rfl ?_
    fun _ u₂ hl₂ hx₂ => ?_
  · rintro - db now r p' - hd hr
    obtain ⟨hw, he⟩ := Db.run_deleteSnapshots hr
    exact ⟨hw, hd ▸ he.symm⟩
  refine safe_edit_ignored (Eq base.clearPartitions.clearSnapshots.clearHistory) hx₂ rfl ?_
    fun _ u₃ hl₃ hx₃ => ?_
  · rintro - db now r p' - hd hr
    obtain ⟨hw, he⟩ := Db.run_deleteHistory hr
    exact ⟨hw, hd ▸ he.symm⟩
  refine (safe_edit_answer PGresult.commandOk (fun x => x = true) (fun _ => next)
    (fun _ => (· = Slice.empty)) hx₃ rfl (by simp [PGresult.commandOk]) ?_).mono
      (fun x u hu => hu.trans (hl₁.trans (hl₂.trans hl₃))) fun _ he => he
  intro hc db now r p' hn hnext hd hr
  obtain ⟨hw, he⟩ := Db.run_deleteTable hn hr
  refine ⟨hw, hnext, he.trans ?_⟩
  obtain ⟨row, hrow, hname⟩ := hb hc _ rfl
  simp only [TableRec.named, Bool.and_eq_true, beq_iff_eq] at hname
  have hrow' : db.tables.row id = some row := by
    have : (db.slice id).table = base.table := by rw [← hd]; rfl
    exact this.trans hrow
  rw [← hd, hrow']
  simp [Slice.clearPartitions, Slice.clearSnapshots, Slice.clearHistory, Slice.empty, hname.1]

/-- What `drop_table` leaves of a table. -/
def Slice.Dropped (purge : Bool) (v w : Slice) : Prop :=
  if purge then w = Slice.empty
  else ∃ r, v.table = some r ∧ w = { v with table := some { r with isDeleted := true } }

theorem Slice.Dropped.tableChange {purge : Bool} {v w : Slice} {steady : Prop}
    (h : v.Dropped purge w) : TableChange steady next v w := by
  cases purge with
  | true =>
    obtain rfl : w = Slice.empty := h
    exact .purged v
  | false =>
    obtain ⟨r, hr, rfl⟩ := h
    exact .dropped hr

theorem Slice.Dropped.deleted {purge : Bool} {v w : Slice} {r : TableRec}
    (h : v.Dropped purge w) (hr : w.table = some r) : r.isDeleted = true := by
  cases purge with
  | true =>
    obtain rfl : w = Slice.empty := h
    cases hr
  | false =>
    obtain ⟨r, -, rfl⟩ := h
    cases hr
    rfl

theorem Slice.Dropped.schemaVersion {purge : Bool} {v w : Slice} {r r' : TableRec}
    (h : v.Dropped purge w) (hr : v.table = some r) (hr' : w.table = some r') :
    r'.schemaVersion = r.schemaVersion := by
  cases purge with
  | true =>
    obtain rfl : w = Slice.empty := h
    cases hr'
  | false =>
    obtain ⟨r₀, hr₀, rfl⟩ := h
    cases hr'
    rw [hr₀] at hr
    cases hr
    rfl

theorem safe_dropTable_client {purge : Bool}
    (hx : InTransaction policy others i q h ds c (.edits (cStr t) id base next (Eq base)) w)
    (hb : Calm policy others h.locked (cStr t) → Live (cStr t) (Eq base)) :
    Safe (view pg policy others i q) (fun x v => Continues policy others i q h ds c
      (.edits (cStr t) id base next (base.Dropped purge)) w (x = true) v) exc
      (PgClient.dropTable c t purge) w := by
  unfold PgClient.dropTable
  cases purge with
  | true =>
    rw [if_pos rfl]
    refine Safe.bind ((safe_editTableId hx hb).mono (fun x v hv => ?_) fun _ he => he)
    obtain ⟨hl, ⟨rfl, hv⟩ | ⟨hid, hv⟩⟩ := hv
    · exact safe_continues_ret (hv.continues (by simp) hl)
    · cases x with
      | none =>
        exact safe_continues_ret ⟨hl, by simp, .mono (.inl hv) fun _ _ _ => trivial⟩
      | some k =>
        have hk : ∀ {k' k : ℕ} {ψ : Slice → Prop} {u : Moment},
            (Calm policy others h.locked (cStr t) → k' = k) →
            Drafting policy others i q h ds c (.edits (cStr t) k base next ψ) u →
            Drafting policy others i q h ds c (.edits (cStr t) k' base next ψ) u :=
          fun hk hu => hu.mono fun hc db p he => hk hc ▸ he
        refine (safe_purge (.inl (hk (fun hc => Option.some.inj (hid hc)) hv)) hb).mono
          (fun x u hu => ⟨hl.trans hu.later, fun hx => ?_, hu.inTransaction⟩) fun _ he => he
        exact hk (fun hc => (Option.some.inj (hid hc)).symm) (hu.drafting hx)
  | false =>
    rw [if_neg Bool.false_ne_true]
    refine safe_edit_answer PGresult.someAffected (fun x => x = true) (fun _ => next)
      (fun _ => base.Dropped false) hx rfl (by simp [PGresult.someAffected]) ?_
    rintro hc db now r p' hn hnext rfl hr
    obtain ⟨-, hw, he⟩ := Db.run_softDelete hn hr
    obtain ⟨row, hrow, hname⟩ := hb hc _ rfl
    refine ⟨hw, hnext, row, hrow, he.trans ?_⟩
    simp [Slice.mapTable, hrow, hname]

theorem safe_dropTable_absent {purge : Bool} (hcalm : Calm policy others h.locked (cStr t))
    (hx : InTransaction policy others i q h ds c (.absent (cStr t)) w) :
    Safe (view pg policy others i q) (fun x v => x = false ∧ Later policy others h.locked w v ∧
      InTransaction policy others i q h ds c (.any (cStr t)) v) exc
      (PgClient.dropTable c t purge) w := by
  unfold PgClient.dropTable
  cases purge with
  | true =>
    rw [if_pos rfl]
    refine Safe.bind ((safe_absentTableId hcalm hx).mono (fun x v hv => ?_) fun _ he => he)
    obtain ⟨rfl, hl, hv⟩ := hv
    exact fun u hu => ⟨rfl, hl.trans (hv.rely hu).2, (hv.rely hu).1⟩
  | false =>
    rw [if_neg Bool.false_ne_true]
    refine safe_absentStatement PGresult.someAffected false hcalm hx rfl rfl
      fun db now r p hf hr => ?_
    simp only [Sql.run, Option.some.injEq, Prod.mk.injEq] at hr
    obtain ⟨rfl, -⟩ := hr
    have : Sql.affectedTables db (db.tables.updateWhere (fun _ r => r.named (cStr t))
        fun r => { r with isDeleted := true }) = 0 := by
      rw [Sql.affectedTables, Rows.affected_eq_zero_iff fun _ hk => (Rows.updateWhere_born hk).2]
      exact fun k => Rows.updateWhere_eq_none.mpr (Db.find_eq_none_iff.mp hf k)
    show (PGresult.command _ : PGresult Empty).someAffected = false
    rw [this]
    rfl

end statements

/-! The operations. -/

/-- What an operation of one statement answers, which is acknowledged if the statement is. -/
theorem safe_operation_ret {held : Held} {owed : List String} {E exc : Moment → Prop}
    {message : String} (ok : Bool) (hE : Durable policy others held.locked E)
    (hc : Connected policy i q held owed c False w) (hok : ok = true → E w) :
    Safe (view pg policy others i q)
      (fun (x : OperationResult) u =>
        Connected policy i q held owed c False u ∧ (x.success = true → E u)) exc
      (if ok = true then .ret { success := true } else .ret ⟨false, message⟩) w := by
  have hP : ∀ x : OperationResult, Durable policy others held.locked fun u =>
      x.success = true → E u := fun _ => .imp fun _ => hE
  split
  · rename_i h
    exact safe_connected_ret hP hc fun _ => hok h
  · exact safe_connected_ret hP hc (by simp)

/-- The table in hand is live, and consistent if all names are clean. -/
theorem live_base {u : Moment} (hfound : Calm policy others h.locked (cStr t) →
      ∃ r, u.now.db.find (cStr t) = some (id, r)) :
    Calm policy others h.locked (cStr t) → Live (cStr t) (Eq (u.now.db.slice id)) := by
  rintro hc _ rfl
  obtain ⟨r, hf⟩ := hfound hc
  exact ⟨r, Db.row_of_find hf⟩

/-- What remains to be dropped from the cache after `drop_table`. -/
def dropDebts (t : String) (x : OperationResult) : List String := if x.success then [t] else []

theorem safe_dropTable {purge : Bool} (ho : Own policy i q {} [] w)
    (hn : policy.Clean → NulFree t) (hq : q.Detaches t) :
    Safe (view pg policy others i q)
      (fun x u => Own policy i q {} (dropDebts t x) u ∧
        Transacted policy others i q (fun v v' => Calm policy others [t] (cStr t) →
          TableEffect t (fun _ _ => Slice.Dropped purge) v v') w x.success u)
      (fun u => Own policy i q {} [] u ∧ Later policy others [] w u)
      (CatalogManager.dropTable t purge) w := by
  refine safe_withExclusive (dropDebts t) ho (.inl rfl) (fun x => durable_transacted _ _)
    (durable_later w) (fun _ _ => hq) fun v _ hv hl => ?_
  refine safe_withConnection (dropDebts t) hv rfl (fun x => durable_transacted _ _)
    (durable_later w).lift (fun u hu => hl.trans hu.forget) fun c v' hc hl' => ?_
  refine safe_begin (cStr t) hc fun _ u hx hlu => ?_
  have hwu : Later policy others [] w u := hl.trans (hl'.forget.trans hlu.forget)
  rcases hx.open with ⟨id, hfound, hx⟩ | ⟨hcalm, hf, hx⟩
  · refine Safe.bind ((safe_dropTable_client hx (live_base hfound)).mono (fun x u₁ h₁ => ?_)
      fun _ he => he)
    have hl₁ := hwu.trans h₁.later.forget
    cases x with
    | false => exact safe_rollback_ret hl₁ h₁.inTransaction rfl rfl
    | true =>
      have hcl : policy.Clean → Calm policy others [t] (cStr t) := .of_clean hn (by simp)
      refine safe_commit_ret hl₁ (h₁.drafting rfl) rfl (fun hclean u' p ho' _ hk hD => ?_)
        fun u' u'' hc' => ⟨fun hcalm => hc'.tableEffect hcalm fun r V _ hV => hV, fun _ x hx _ => hx⟩
      have he := hD (hcl hclean)
      refine ⟨_, id, he.committable hk ?_ (fun V hV => ?_) (fun _ V r hV hr => ?_)
        (fun _ V r r' hV hr hr' => ?_) fun hd => absurd ?_ hd⟩
      · rw [cStr_of_nulFree (hn hclean)]
        exact (ho'.holds.writer t).mpr (by simp)
      · exact hV.tableChange
      · exact hV.deleted hr
      · exact hV.schemaVersion hr hr'
      · rwa [cStr_of_nulFree (hn hclean)]
  · refine Safe.bind ((safe_dropTable_absent hcalm hx).mono (fun x u₁ h₁ => ?_) fun _ he => he)
    obtain ⟨rfl, hl₁, hx₁⟩ := h₁
    exact safe_rollback_ret (hwu.trans hl₁.forget) hx₁ rfl rfl

/-- `alter_table_schema` stores the schema as the next version. -/
def Altering (pg : Postgres) (schema summary : String) (id : ℕ) (r : TableRec) :
    Slice → Slice → Prop :=
  Slice.Altered pg id schema summary (toInt32 (r.schemaVersion + 1))

theorem Slice.Altered.tableChange {schema summary : String} {version : ℤ} {v w : Slice}
    {steady : Prop} (h : v.Altered pg id schema summary version w)
    (hversion : ∀ r, v.table = some r → version = toInt32 (r.schemaVersion + 1)) :
    TableChange steady next v w := by
  obtain ⟨r, schema', k, now, hr, -, hk, rfl⟩ := h
  exact .altered k ⟨id, version, schema', now, cStr summary⟩ hr hk (hversion r hr)

theorem safe_alterTableSchema {schema summary : String} (ho : Own policy i q {} [] w)
    (hn : policy.Clean → NulFree t) (hq : q.Alters t) :
    Safe (view pg policy others i q)
      (fun x u => Own policy i q {} [] u ∧
        Transacted policy others i q (fun v v' => Calm policy others [t] (cStr t) →
          TableEffect t (Altering pg schema summary) v v') w x.success u)
      (fun u => Own policy i q {} [] u ∧ Later policy others [] w u)
      (CatalogManager.alterTableSchema t schema summary) w := by
  refine safe_withExclusive (fun _ => []) ho (.inl rfl) (fun x => durable_transacted _ _)
    (durable_later w) (by simp) fun v _ hv hl => ?_
  refine safe_withConnection (fun _ => []) hv rfl (fun x => durable_transacted _ _)
    (durable_later w).lift (fun u hu => hl.trans hu.forget) fun c v' hc hl' => ?_
  refine Safe.bind ((safe_getTable (hc.at False) False.elim).mono (fun x u hu => ?_) fun _ he => he)
  obtain ⟨hc, hr⟩ := hu
  have hwu : Later policy others [] w u := hl.trans (hl'.forget.trans hr.1.forget)
  cases x with
  | none => exact safe_transacted_ret hc (.failed rfl hwu)
  | some existing =>
  have hexisting : Calm policy others [t] (cStr t) → ∃ id r, u.now.db.find (cStr t) = some (id, r) ∧
      existing.schemaVersion = r.schemaVersion := by
    intro hcalm
    rcases hr.2 hcalm with he | ⟨he, -⟩
    · obtain ⟨⟨id, r⟩, hf, rfl⟩ := Option.map_eq_some_iff.mp he.symm
      exact ⟨id, r, hf, rfl⟩
    · cases he
  refine safe_begin (cStr t) hc fun _ u' hx hlu => ?_
  have hwu' := hwu.trans hlu.forget
  rcases hx.open with ⟨id, hfound, hx⟩ | ⟨hcalm, hf, -⟩
  · refine Safe.bind ((safe_updateTableSchema hx (live_base hfound)).mono (fun x u₁ h₁ => ?_)
      fun _ he => he)
    have hl₁ := hwu'.trans h₁.later.forget
    cases x with
    | false => exact safe_rollback_ret hl₁ h₁.inTransaction rfl rfl
    | true =>
      have hcl : policy.Clean → Calm policy others [t] (cStr t) := .of_clean hn (by simp)
      have hversion : Calm policy others [t] (cStr t) → ∀ r, (u'.now.db.slice id).table = some r →
          existing.schemaVersion = r.schemaVersion := by
        intro hcalm r hr
        obtain ⟨id', r', hf', hver⟩ := hexisting hcalm
        obtain ⟨r'', hf''⟩ := hfound hcalm
        have hsame := hlu.sameTable hcalm
        rw [hsame.find, hf'] at hf''
        cases hf''
        have hrow : (u'.now.db.slice id).table = some r' :=
          (Db.row_of_find (hsame.find.trans hf')).1
        rw [hrow] at hr
        cases hr
        exact hver
      refine safe_commit_ret hl₁ (h₁.drafting rfl) rfl (fun hclean u₂ p ho' _ hk hD => ?_)
        fun u₂ u₃ hc' => ⟨fun hcalm => hc'.tableEffect hcalm fun r V hr hV => ?_,
          fun hclean x hx hch => ?_⟩
      · have he := hD (hcl hclean)
        refine ⟨_, id, he.committable hk ?_ (fun V hV => hV.tableChange fun r hr => ?_)
          (fun hd => absurd hd (hq.not_detaches _)) (fun hq' => absurd ?_ hq') fun _ V r hV hr => ?_⟩
        · rw [cStr_of_nulFree (hn hclean)]
          exact (ho'.holds.writer t).mpr (by simp)
        · rw [hversion (hcl hclean) r hr]
        · rwa [cStr_of_nulFree (hn hclean)]
        · obtain ⟨r₀, schema', k, now, hr₀, -, -, rfl⟩ := hV
          rw [hr] at hr₀
          cases hr₀
          exact ⟨_, rfl, rfl⟩
      · rw [hversion hcalm r hr] at hV
        exact hV
      · obtain rfl : x = t := by simpa using hx
        obtain ⟨p, -, -, hD, hdb⟩ := hc'.draft
        have he : Edits _ _ _ _ _ _ _ := hD (hcl hclean)
        have hu₃ := (hc'.connected [x] (by simp) fun _ _ h _ => h).own.unique
        obtain ⟨r', hf₂⟩ := he.found
        obtain ⟨r, schema', k, now, hr, -, -, hV⟩ := he.edited
        rw [← hdb] at hV
        rw [cStr_of_nulFree (hn hclean)] at hf₂
        obtain ⟨hrow, hname⟩ := Db.row_of_find hf₂
        have hrr : u₂.now.db.tables.row id = some r := (congrArg Slice.table he.base).trans hr
        rw [hrr] at hrow
        cases hrow
        refine absurd hch (Db.not_changed hu₃ hf₂ (congrArg Slice.table hV) hname ?_)
        rw [hV, he.base]
        rfl
  · obtain ⟨id, r, hf', -⟩ := hexisting hcalm
    rw [(hlu.sameTable hcalm).find, hf'] at hf
    cases hf

/-! The two operations of one statement. -/

/-- `create_table` adds a row of the name, which no row had before. -/
structure CreateEffect (pg : Postgres) (t schema spec properties : String) (v v' : Moment) :
    Prop where
  row : ∃ row : TableRec, row.tableName = cStr t ∧ pg.jsonb (cStr schema) = some row.schemaJson ∧
    row.schemaVersion = 1 ∧ row.partitionSpec = cStr spec ∧ row.currentSnapshotId = 0 ∧
    pg.jsonb (cStr properties) = some row.properties ∧ row.isDeleted = false ∧
    v'.now.db = ((Sql.insertTable (cStr t) (cStr schema) (cStr spec) (cStr properties)).draw
      v.now.db).apply { tables := Patch.write v.now.db.tables.next row }
  free : ∀ id r, v.now.db.tables.row id = some r → r.tableName ≠ cStr t

theorem Db.named_iff {r : TableRec} : r.named n = true ↔ r.tableName = n ∧ r.isDeleted = false := by
  simp [TableRec.named]

theorem Db.not_changed_of_none {db db' : Db} (h : db.find t = none) : ¬ db.Changed t db' :=
  fun ⟨hs, _⟩ => by simp [h] at hs

theorem safe_createTable {schema spec properties : String} (ho : Own policy i q {} [] w)
    (hn : policy.Clean → NulFree t) :
    Safe (view pg policy others i q)
      (fun x u => Own policy i q {} [] u ∧
        (x.success = true → Effected others i (CreateEffect pg t schema spec properties) w u))
      (fun u => Own policy i q {} [] u ∧ True)
      (CatalogManager.createTable t schema spec properties) w := by
  have hP : ∀ (ts : List String) (x : OperationResult), Durable policy others ts fun u =>
      x.success = true → Effected others i (CreateEffect pg t schema spec properties) w u :=
    fun _ _ => .imp fun _ => durable_effected _
  refine safe_withExclusive (fun _ => []) ho (.inl rfl) (hP []) durable_true (by simp)
    fun v _ hv hl => ?_
  refine safe_withConnection (fun _ => []) hv rfl (hP _) durable_true (fun _ _ => trivial)
    fun c v' hc hl' => ?_
  refine safe_autocommit hc (fun u hu hclosed => ⟨hclosed, fun hclean => ?_⟩)
    (fun u hu _ => safe_operation_ret false (durable_effected _) hu (by simp))
    fun u u' r r' p now hlu hou hr hr' hb hdb hmvcc hcon => ?_
  · rw [cStr_of_nulFree (hn hclean)]
    exact (hu.holds.writer t).mpr (by simp)
  have hfind : ∀ db : Db, (∀ id r, db.tables.row id = some r → r.tableName ≠ cStr t) →
      policy.Clean → db.find t = none := by
    intro db hfree hclean
    rw [Db.find_eq_none_iff]
    intro k x hx
    by_contra hname
    have hname : x.named t = true := by simpa using hname
    exact hfree k x hx ((Db.named_iff.mp hname).1.trans (cStr_of_nulFree (hn hclean)).symm)
  rcases Sql.run_insertTable hr with ⟨rfl, rfl⟩ | ⟨row, hname, hs, hver, hspec, hcur, hprops, hdel, rfl,
    hfree, rfl⟩
  · have hc' : Connected policy i q { exclusive := [t] } [] c False u' := by
      refine hcon [] fun _ x _ hch => absurd hch (Db.SameRows.not_changed ?_)
      rw [hdb, Db.apply_none]
      exact Db.sameRows_draw _ _
    rcases hr' with rfl | rfl
    · exact safe_operation_ret false (durable_effected _) hc' (by simp)
    · exact safe_operation_ret false (durable_effected _) hc' (by simp)
  · have hc' : Connected policy i q { exclusive := [t] } [] c False u' := by
      refine hcon [] fun hclean x hx hch => ?_
      obtain rfl : x = t := by simpa using hx
      exact absurd hch (Db.not_changed_of_none (hfind _ hfree hclean))
    have hE : Effected others i (CreateEffect pg t schema spec properties) w u' := by
      have hwu := hl.trans (hl'.forget.trans hlu.forget)
      refine ⟨u, u', hwu.before, hb, .refl, fun hf => ?_,
        ⟨row, hname, hs, hver, hspec, hcur, hprops, hdel, hdb⟩, hfree⟩
      exact ⟨hwu.still hf, .refl _, hmvcc.trans (hwu.still hf).mvcc⟩
    rcases hr' with rfl | rfl
    · exact safe_operation_ret true (durable_effected _) hc' fun _ => hE
    · exact safe_operation_ret false (durable_effected _) hc' (by simp)

/-- `rename_table` gives the table of the old name the new name, if there is one. -/
inductive RenameEffect (oldName newName : String) (v v' : Moment) : Prop
  | absent : v.now.db.find (cStr oldName) = none → v.now.db.SameRows v'.now.db →
      RenameEffect oldName newName v v'
  | renamed {id : ℕ} {r : TableRec} : v.now.db.find (cStr oldName) = some (id, r) →
      v'.now.db.find (cStr newName) = some (id, { r with tableName := cStr newName }) →
      (cStr newName ≠ cStr oldName → v'.now.db.find (cStr oldName) = none) →
      v'.now.db.slice id =
        { v.now.db.slice id with table := some { r with tableName := cStr newName } } →
      (∀ k, k ≠ id → v'.now.db.slice k = v.now.db.slice k) → RenameEffect oldName newName v v'

theorem Sql.run_renameTable_effect {pg : Postgres} {now : ℕ} {db : Db} {res : PGresult Empty}
    {p : Changes} {newName oldName : String} (hu : db.UniqueNames)
    (h : Sql.run pg now (.renameTable newName oldName) db = some (res, p)) :
    (db.find oldName = none ∧ p = {}) ∨ ∃ id r, db.find oldName = some (id, r) ∧
      (db.apply p).find newName = some (id, { r with tableName := newName }) ∧
      (newName ≠ oldName → (db.apply p).find oldName = none ∧ db.find newName = none) ∧
      (db.apply p).slice id = { db.slice id with table := some { r with tableName := newName } } ∧
      ∀ k, k ≠ id → (db.apply p).slice k = db.slice k := by
  have hunique := Sql.run_unique hu h
  obtain ⟨hp, hfree⟩ := Sql.run_renameTable h
  cases hf : db.find oldName with
  | none =>
    refine .inl ⟨rfl, ?_⟩
    rw [hp]
    congr 1
    funext k
    exact Rows.updateWhere_eq_none.mpr (Db.find_eq_none_iff.mp hf k)
  | some found =>
    obtain ⟨id, r⟩ := found
    obtain ⟨hrow, hname⟩ := Db.row_of_find hf
    obtain ⟨hname', hdel⟩ := Db.named_iff.mp hname
    obtain ⟨hwithin, hslice⟩ := Db.update_named (f := fun r => { r with tableName := newName })
      (hname' ▸ hu id r hrow) rfl
    rw [← hp] at hwithin hslice
    have hslice' : (db.apply p).slice id =
        { db.slice id with table := some { r with tableName := newName } } := by
      rw [hslice, Slice.mapTable]
      simp [Db.slice, hrow, hname]
    have hrow' : (db.apply p).tables.row id = some { r with tableName := newName } :=
      congrArg Slice.table hslice'
    refine .inr ⟨id, r, rfl, ?_, fun hne => ⟨?_, ?_⟩, hslice', fun k hk => hwithin.slice_of_ne hk⟩
    · exact (Db.find_eq_some_iff hunique).mpr ⟨hrow', Db.named_iff.mpr ⟨rfl, hdel⟩⟩
    · rw [Db.find_eq_none_iff]
      intro k x hx
      by_contra hn
      obtain ⟨hn, -⟩ := Db.named_iff.mp (by simpa using hn : x.named oldName = true)
      by_cases hk : k = id
      · subst hk
        rw [hrow'] at hx
        cases hx
        exact hne hn
      · have hx' : db.tables.row k = some x :=
          (congrArg Slice.table (hwithin.slice_of_ne hk)).symm.trans hx
        exact hk (hu id r hrow k x hx' (hn.trans hname'.symm))
    · rw [Db.find_eq_none_iff]
      intro k x hx
      by_contra hn
      obtain ⟨hn, -⟩ := Db.named_iff.mp (by simpa using hn : x.named newName = true)
      exact hne (hn.symm.trans (Db.named_iff.mp (hfree id r hrow hname k x hx hn)).1)

theorem safe_renameTable {oldName newName : String} (ho : Own policy i q {} [] w)
    (hq : q = .alterTable oldName (.rename newName)) (hold : policy.Clean → NulFree oldName)
    (hnew : policy.Clean → NulFree newName) :
    Safe (view pg policy others i q)
      (fun x u => Own policy i q {} [oldName] u ∧
        (x.success = true → Effected others i (RenameEffect oldName newName) w u))
      (fun u => Own policy i q {} [] u ∧ True) (CatalogManager.renameTable oldName newName) w := by
  have hP : ∀ (ts : List String) (x : OperationResult), Durable policy others ts fun u =>
      x.success = true → Effected others i (RenameEffect oldName newName) w u :=
    fun _ _ => .imp fun _ => durable_effected _
  have hdet : q.Detaches oldName := by
    subst hq
    rfl
  refine safe_withExclusive (fun _ => [oldName]) ho (.inl rfl) (hP []) durable_true
    (fun _ _ => hdet) fun v _ hv hl => ?_
  refine safe_withExclusive (fun _ => [oldName]) hv (.inr ⟨oldName, hq, rfl⟩) (hP []) durable_true
    (fun _ hx => ?_) fun v₁ hne hv₁ hl₁ => ?_
  · obtain rfl : newName = oldName := by simpa using hx
    exact hdet
  have hne : newName ≠ oldName := by simpa using hne
  refine safe_withConnection (fun _ => [oldName]) hv₁ rfl (hP _) durable_true
    (fun _ _ => trivial) fun c v₂ hc hl₂ => ?_
  refine safe_autocommit hc (fun u hu hclosed => ⟨hclosed, fun hclean => ?_⟩)
    (fun u hu _ => safe_operation_ret false (durable_effected _) (hu.owe (by simp)) (by simp))
    fun u u' r r' p now hlu hou hr hr' hb hdb hmvcc hcon => ?_
  · rw [cStr_of_nulFree (hold hclean), cStr_of_nulFree (hnew hclean)]
    exact ⟨(hu.holds.writer newName).mpr (by simp), (hu.holds.writer oldName).mpr (by simp), hne,
      hq ▸ rfl⟩
  have hrun := Sql.run_renameTable_effect hou.unique hr
  have hdb : u'.now.db = u.now.db.apply p := hdb
  have hc' : Connected policy i q { exclusive := [newName, oldName] } [oldName] c False u' := by
    refine hcon [oldName] fun hclean x hx hch => ?_
    have hx : x = newName ∨ x = oldName := by simpa using hx
    rcases hx with rfl | rfl
    · exfalso
      rcases hrun with ⟨-, rfl⟩ | ⟨id, row, -, -, hnone, -⟩
      · refine Db.SameRows.not_changed ?_ hch
        rw [hdb, Db.apply_none]
        exact .refl _
      · rw [cStr_of_nulFree (hnew hclean), cStr_of_nulFree (hold hclean)] at hnone
        exact Db.not_changed_of_none (hnone hne).2 hch
    · simp
  have hE : Effected others i (RenameEffect oldName newName) w u' := by
    have hwu := hl.forget.trans (hl₁.forget.trans (hl₂.forget.trans hlu.forget))
    refine ⟨u, u', hwu.before, hb, .refl, fun hf => ⟨hwu.still hf, .refl _,
      hmvcc.trans (hwu.still hf).mvcc⟩, ?_⟩
    rcases hrun with ⟨hnone, rfl⟩ | ⟨id, row, hf, hf', hnone, hs, hs'⟩
    · refine .absent hnone ?_
      rw [hdb, Db.apply_none]
      exact .refl _
    · rw [← hdb] at hf' hnone hs
      exact .renamed hf hf' (fun hne => (hnone hne).1) hs fun k hk => by rw [hdb]; exact hs' k hk
  refine safe_operation_ret _ (durable_effected _) hc' fun _ => hE

end IceLog
