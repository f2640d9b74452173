import IceLog.Db.SchemaVersions
import IceLog.Properties.Contents
import IceLog.Server.CommitEvents

/-! What an acknowledged change has done to the database. -/
namespace IceLog

open Interleaved Serial

variable {pg : Postgres} {policy : Policy} {c : ServerConfig} {i k n parent : ℕ} {q : Request}
  {t schema spec newName op : String} {news : List PartitionRow} {dels : List String}
  {tr : List (Act × Outcome)} {w w' u v v' : Moment} {x : Reply} {db db' : Db} {b : Bool}

/-- The partitions that the commit `n` has stored in the table. -/
def Db.partitionsOf (db : Db) (tableId n : ℕ) : List PartitionRow :=
  db.partitions.select fun id r =>
    if r.tableId == tableId && r.snapshotId == n then some (r.toRow id) else none

/-- The table points to the commit `n`, which is stored with its partitions. -/
def Db.HasCommit (db : Db) (t : String) (parent n : ℕ) (news : List PartitionRow) : Prop :=
  ∃ k r s, db.find t = some (k, r) ∧ r.currentSnapshotId = n ∧
    db.snapshots.row n = some s ∧ s.tableId = k ∧ s.parentSnapshotId = parent ∧
    ((db.partitionsOf k n).map PartitionRow.toInfo).Perm (news.map (PartitionRow.infoAt n))

/-- The reply says that the request has succeeded. -/
def Reply.Acknowledges : Reply → Prop
  | .operation r => r.success = true
  | .snapshot r => r.success = true
  | _ => False

/-- `db'` has the change that the request asks for, where the database was `db` before. -/
def Request.TookEffect (pg : Postgres) (db db' : Db) : Request → Reply → Prop
  | .createTable t _ _ _, _ => ∃ k r, db.tables.row k = none ∧ db'.find t = some (k, r)
  | .alterTable t (.newSchemaJson schema), _ => ∃ k r r', db.find t = some (k, r) ∧
      db'.find t = some (k, r') ∧ pg.jsonb schema = some r'.schemaJson ∧
      r'.schemaVersion = toInt32 (r.schemaVersion + 1)
  | .alterTable t (.rename newName), _ => ∃ k r r', db.find t = some (k, r) ∧
      db'.find newName = some (k, r') ∧ db'.find t = none
  | .alterTable t (.newPartitionSpec spec), _ =>
      ∃ k r, db'.find t = some (k, r) ∧ r.partitionSpec = spec
  | .dropTable t _, _ => db'.find t = none
  | .commitSnapshot t news _ parent _, .snapshot r =>
      db'.HasCommit t parent r.snapshotId (news.map PartitionInfo.toRow)
  | .commit t parent _ news _, .snapshot r => db'.HasCommit t parent r.snapshotId news
  | _, _ => True

/-- The database keeps the strings of the partition. -/
structure PartitionRow.Spelled (part : PartitionRow) : Prop where
  key : NulFree part.partitionKey
  path : NulFree part.dataFilePath
  format : NulFree part.fileFormat

/-- What a successful request needs to take effect: names and contents that the database keeps as
they are, a `COMMIT` that is carried out, and a table to be renamed. -/
def Request.TakesEffect (pg : Postgres) (tr : List (Act × Outcome)) (db : Db) : Request → Prop
  | .createTable t _ _ _ => NulFree t
  | .alterTable t (.newSchemaJson schema) =>
      NulFree t ∧ pg.jsonb (cStr schema) = pg.jsonb schema ∧ carriedOut tr = true
  | .alterTable t (.rename newName) =>
      NulFree t ∧ NulFree newName ∧ newName ≠ t ∧ (db.find t).isSome
  | .alterTable t (.newPartitionSpec spec) =>
      ∃ k r, db.find t = some (k, r) ∧ r.partitionSpec = spec
  | .dropTable t _ => db.find t = none ∨ NulFree t ∧ carriedOut tr = true
  | .commitSnapshot t news _ _ _ =>
      NulFree t ∧ carriedOut tr = true ∧ ∀ part ∈ news, part.toRow.Spelled
  | .commit t _ _ news _ => NulFree t ∧ carriedOut tr = true ∧ ∀ part ∈ news, part.Spelled
  | _ => True

/-! What the database becomes. -/

/-- Only the table of the name `t`, as the database reads it, changes, as `f` says. -/
def Db.ChangedAt (t : String) (f : ℕ → TableRec → Slice → Slice → Prop) (db db' : Db) : Prop :=
  ∃ id r, db.find (cStr t) = some (id, r) ∧ f id r (db.slice id) (db'.slice id) ∧
    ∀ k, k ≠ id → db'.slice k = db.slice k

theorem TableEffect.changedAt {f : ℕ → TableRec → Slice → Slice → Prop}
    (h : TableEffect t f v v') (hb : db.SameRows v.now.db) (ha : v'.now.db.SameRows db') :
    db.ChangedAt t f db' := by
  obtain ⟨id, r, hf, hslice, hothers⟩ := h.table
  refine ⟨id, r, (hb.find _).symm.trans hf, ?_, fun k hk => ?_⟩
  · rw [← hb.slice id, ha.slice id]
    exact hslice
  · rw [ha.slice k, hothers k hk, hb.slice k]

theorem cStr_named {r : TableRec} (h : r.named (cStr t) = true) (h' : r.named t = true) :
    NulFree t := by
  rw [← cStr_eq_iff, ← (Db.named_iff.mp h).1, (Db.named_iff.mp h').1]

/-- What carries the name, and has changed, is the table that has changed. -/
theorem Db.ChangedAt.nulFree {f : ℕ → TableRec → Slice → Slice → Prop} {r r' : TableRec}
    (h : db.ChangedAt t f db') (hf : db.find t = some (k, r)) (hr : db'.tables.row k = r')
    (hne : r' ≠ r) : NulFree t := by
  obtain ⟨id, r₀, hf₀, -, hothers⟩ := h
  by_cases hk : k = id
  · subst hk
    obtain ⟨hrow₀, hname₀⟩ := Db.row_of_find hf₀
    obtain ⟨hrow, hname⟩ := Db.row_of_find hf
    cases hrow.symm.trans hrow₀
    exact cStr_named hname₀ hname
  · have hrow := (congrArg Slice.table (hothers k hk)).symm
    change db.tables.row k = db'.tables.row k at hrow
    rw [(Db.row_of_find hf).1, hr] at hrow
    exact absurd (Option.some.inj hrow).symm hne

/-- The outcome of a transaction all of whose `COMMIT`s are carried out, or none. -/
theorem Transacted.settled {E : Moment → Moment → Prop}
    (h : Transacted (.settling b) false i q E w true u) :
    if b = true then
      ∃ v v', E v v' ∧ w.now.db.SameRows v.now.db ∧ v'.now.db.SameRows u.now.db
    else w.now.db.SameRows u.now.db := by
  cases h with
  | failed hok => cases hok
  | dropped _ _ hsame hcommit =>
    obtain ⟨_, a, ha, hno⟩ := hcommit
    have hb : b = false := (beq_iff_eq.mp ha).symm.trans hno
    rw [hb, if_neg Bool.false_ne_true]
    exact (hsame rfl).1
  | done _ heffect hcommit =>
    obtain ⟨_, a, ha, hyes⟩ := hcommit
    have hb : b = true := (beq_iff_eq.mp ha).symm.trans hyes
    obtain ⟨v, v', -, -, -, hstill, he⟩ := heffect
    rw [if_pos hb]
    exact ⟨v, v', he, (hstill rfl).1.rows, (hstill rfl).2.1⟩

/-! Which changes take effect. -/

theorem Effected.created {properties : String} (hu : u.now.db.UniqueNames)
    (h : Effected false i (CreateEffect pg t schema spec properties) w u) :
    (∃ k r, w.now.db.tables.row k = none ∧ u.now.db.find t = some (k, r)) ↔ NulFree t := by
  obtain ⟨v, v', -, -, -, hstill, ⟨row, hname, -, -, -, -, -, hdel, hdb⟩, -⟩ := h
  obtain ⟨hbefore, hafter, -⟩ := hstill rfl
  have hold : w.now.db.tables.row = v.now.db.tables.row := hbefore.rows.tables.symm
  have hdraw : ((Sql.insertTable (cStr t) (cStr schema) (cStr spec) (cStr properties)).draw
      v.now.db).tables = v.now.db.tables.draw := rfl
  rw [hold]
  constructor
  · rintro ⟨k, r, hk, hf⟩
    obtain ⟨hrow, hnamed⟩ := Db.row_of_find hf
    rw [hafter.tables, hdb] at hrow
    rcases Rows.apply_row_eq_some hrow with hw | ⟨-, hr⟩
    · obtain ⟨-, hr⟩ := Patch.write_eq_some.mp hw
      cases hr
      exact cStr_named (Db.named_iff.mpr ⟨hname, hdel⟩) hnamed
    · rw [hdraw] at hr
      cases hk.symm.trans hr
  · intro ht
    have hrow : u.now.db.tables.row v.now.db.tables.next = some row := by
      rw [hafter.tables, hdb]
      have hwrite : Patch.write v.now.db.tables.next row v.now.db.tables.next = some (some row) :=
        Patch.write_eq_some.mpr ⟨rfl, rfl⟩
      obtain ⟨h0, hn⟩ := Rows.write_born (hwrite ▸ Option.some_ne_none _)
      exact Rows.apply_row_of_some hwrite h0 hn
    refine ⟨_, row, Rows.row_next _, (Db.find_eq_some_iff hu).mpr ⟨hrow, ?_⟩⟩
    exact Db.named_iff.mpr ⟨hname.trans (cStr_of_nulFree ht), hdel⟩

theorem Db.ChangedAt.altered {summary : String} (hu : db'.UniqueNames)
    (h : db.ChangedAt t (Altering pg schema summary) db') :
    (∃ k r r', db.find t = some (k, r) ∧ db'.find t = some (k, r') ∧
      pg.jsonb schema = some r'.schemaJson ∧ r'.schemaVersion = toInt32 (r.schemaVersion + 1)) ↔
      NulFree t ∧ pg.jsonb (cStr schema) = pg.jsonb schema := by
  constructor
  · rintro ⟨k, r, r', hf, hf', hjson, hversion⟩
    have ht : NulFree t := h.nulFree hf (Db.row_of_find hf').1 fun heq => by
      rw [heq] at hversion
      exact toInt32_add_one_ne _ hversion.symm
    obtain ⟨id, r₀, hf₀, ⟨r₁, schema', l, now, -, hjson', -, hw⟩, -⟩ := h
    rw [cStr_of_nulFree ht] at hf₀
    cases hf.symm.trans hf₀
    have hrow : db'.tables.row k = _ := congrArg Slice.table hw
    cases (Db.row_of_find hf').1.symm.trans hrow
    exact ⟨ht, hjson'.trans hjson.symm⟩
  · rintro ⟨ht, hjson⟩
    obtain ⟨id, r, hf, ⟨r₁, schema', l, now, hr₁, hjson', -, hw⟩, -⟩ := h
    obtain ⟨hr, hname⟩ := Db.row_of_find hf
    cases hr.symm.trans hr₁
    rw [cStr_of_nulFree ht] at hf hname
    exact ⟨id, r, _, hf, (Db.find_eq_some_iff hu).mpr ⟨congrArg Slice.table hw, hname⟩,
      hjson.symm.trans hjson', rfl⟩

theorem Db.ChangedAt.dropped {purge : Bool} (hu : db.UniqueNames)
    (h : db.ChangedAt t (fun _ _ => Slice.Dropped purge) db') :
    db'.find t = none ↔ db.find t = none ∨ NulFree t := by
  rw [Db.find_eq_none_iff]
  constructor
  · intro hgone
    cases hf : db.find t with
    | none => exact .inl rfl
    | some found =>
      obtain ⟨k, r⟩ := found
      refine .inr ?_
      obtain ⟨hrow, hname⟩ := Db.row_of_find hf
      obtain ⟨id, r₀, hf₀, -, hothers⟩ := h
      by_cases hk : k = id
      · subst hk
        obtain ⟨hrow₀, hname₀⟩ := Db.row_of_find hf₀
        cases hrow.symm.trans hrow₀
        exact cStr_named hname₀ hname
      · have hsame : db'.tables.row k = db.tables.row k := congrArg Slice.table (hothers k hk)
        exact absurd (hgone k r (hsame.trans hrow)) (by simp [hname])
  · intro hcond k r hr
    obtain ⟨id, r₀, hf₀, hdrop, hothers⟩ := h
    by_contra hname
    have hname : r.named t = true := by simpa using hname
    by_cases hk : k = id
    · subst hk
      have hdel := hdrop.deleted hr
      rw [(Db.named_iff.mp hname).2] at hdel
      cases hdel
    · have hsame : db'.tables.row k = db.tables.row k := congrArg Slice.table (hothers k hk)
      have hf := (Db.find_eq_some_iff hu).mpr ⟨hsame.symm.trans hr, hname⟩
      rcases hcond with hnone | ht
      · cases hnone.symm.trans hf
      · rw [cStr_of_nulFree ht] at hf₀
        cases hf₀.symm.trans hf
        exact hk rfl

theorem Effected.renamed (h : Effected false i (RenameEffect t newName) w u) :
    (∃ k r r', w.now.db.find t = some (k, r) ∧ u.now.db.find newName = some (k, r') ∧
      u.now.db.find t = none) ↔
      NulFree t ∧ NulFree newName ∧ newName ≠ t ∧ (w.now.db.find t).isSome := by
  obtain ⟨v, v', -, -, -, hstill, he⟩ := h
  obtain ⟨hbefore, hafter, -⟩ := hstill rfl
  rw [hafter.find, hafter.find, ← hbefore.rows.find]
  cases he with
  | absent hnone hsame =>
    rw [hsame.find, hsame.find]
    refine iff_of_false ?_ ?_
    · rintro ⟨k, r, r', hf, -, hgone⟩
      cases hf.symm.trans hgone
    · rintro ⟨ht, -, -, hsome⟩
      rw [cStr_of_nulFree ht] at hnone
      simp [hnone] at hsome
  | @renamed id r₀ hf₀ hnew hgone hslice hothers =>
    constructor
    · rintro ⟨k, r, r', hf, hf', hnone⟩
      have hne : newName ≠ t := by
        rintro rfl
        cases hnone.symm.trans hf'
      obtain ⟨hrow, hname⟩ := Db.row_of_find hf
      by_cases hk : k = id
      · subst hk
        obtain ⟨hrow₀, hname₀⟩ := Db.row_of_find hf₀
        obtain ⟨hrow', hname'⟩ := Db.row_of_find hf'
        cases hrow.symm.trans hrow₀
        cases hrow'.symm.trans (Db.row_of_find hnew).1
        exact ⟨cStr_named hname₀ hname, cStr_named (Db.row_of_find hnew).2 hname', hne,
          by simp [hf]⟩
      · -- a table that is not renamed keeps its name
        have hsame : v'.now.db.tables.row k = v.now.db.tables.row k :=
          congrArg Slice.table (hothers k hk)
        have := Db.find_eq_none_iff.mp hnone k r (hsame.trans hrow)
        simp [hname] at this
    · rintro ⟨ht, hn, hne, -⟩
      rw [cStr_of_nulFree ht] at hf₀ hgone
      rw [cStr_of_nulFree hn] at hnew hgone
      exact ⟨id, r₀, _, hf₀, hnew, hgone hne⟩

theorem added_infos {added : List (ℕ × PartitionRec)}
    (h : List.Forall₂ (fun part e => ∃ stats,
      e.2 = (PgClient.partitionParams part).toRec k n stats) news added) :
    (added.filterMap fun e =>
      Slice.rowsWhere (fun r => (r.snapshotId == n) = true) e.1 e.2).map PartitionRow.toInfo =
      news.map fun part => (PgClient.partitionParams part).infoAt n := by
  induction h with
  | nil => rfl
  | @cons part e news added he _ ih =>
    obtain ⟨stats, he⟩ := he
    have hrow : Slice.rowsWhere (fun r => (r.snapshotId == n) = true) e.1 e.2 =
        some (e.2.toRow e.1) := if_pos (by rw [he]; exact beq_self_eq_true n)
    have hcons := List.filterMap_cons_some (l := added) (f := fun e : ℕ × PartitionRec =>
      Slice.rowsWhere (fun r => (r.snapshotId == n) = true) e.1 e.2) hrow
    rw [hcons, List.map_cons, List.map_cons, ih, he]
    rfl

/-- What a commit stores under its number are its partitions, as the database reads them. -/
theorem Slice.CommittedAs.stored {N : ℕ} {v w : Slice}
    (h : v.CommittedAs pg k parent op news dels n w)
    (hv : ∀ id r, v.partitions id = some r → r.snapshotId < n)
    (hN : ∀ id r, w.partitions id = some r → id < N) :
    ((w.listed N (Slice.rowsWhere fun r => (r.snapshotId == n) = true)).map
      PartitionRow.toInfo).Perm (news.map fun part => (PgClient.partitionParams part).infoAt n) := by
  obtain ⟨r, _, -, ⟨now, z, hins, rfl⟩, rfl⟩ := h
  have hz : ∀ id r, z.partitions id = some r → id < N := fun id r hr =>
    hN id _ ((Slice.markAll_partitions id).trans (congrArg _ hr))
  obtain ⟨added, hadded, hperm⟩ := hins.listed hz
  -- a tombstone is the same row
  have hmarked : (z.markAll n dels).listed N
      (Slice.rowsWhere fun r => (r.snapshotId == n) = true) =
      z.listed N (Slice.rowsWhere fun r => (r.snapshotId == n) = true) := by
    refine List.filterMap_congr fun id _ => ?_
    rw [Slice.markAll_partitions]
    cases hx : z.partitions id with
    | none => rfl
    | some x =>
      simp only [Option.map_some, Option.bind_some]
      split <;> rfl
  have hnone : (v.insertSnapshot n ⟨k, parent, now, cStr op, toInt32 news.length,
      toInt32 dels.length⟩).listed N (Slice.rowsWhere fun r => (r.snapshotId == n) = true) = [] := by
    refine List.eq_nil_iff_forall_not_mem.mpr fun row hrow => ?_
    obtain ⟨id, x, -, hx, hrow⟩ := Slice.mem_listed.mp hrow
    have hlt := hv id x hx
    have heq := (Option.ite_none_right_eq_some.mp hrow).1
    exact absurd (beq_iff_eq.mp heq) hlt.ne
  have := (hperm PartitionRow (Slice.rowsWhere fun r => (r.snapshotId == n) = true)).map
    PartitionRow.toInfo
  rw [hnone, List.nil_append, added_infos hadded] at this
  show (((z.markAll n dels).listed N _).map _).Perm _
  rwa [hmarked]

theorem spelled_iff :
    (news.map fun part => (PgClient.partitionParams part).infoAt n).Perm
      (news.map (PartitionRow.infoAt n)) ↔ ∀ part ∈ news, part.Spelled := by
  constructor
  · intro hperm part hpart
    obtain ⟨part', -, heq⟩ := List.mem_map.mp (hperm.mem_iff.mpr (List.mem_map_of_mem hpart))
    have hread : ∀ {a b : String}, cStr a = b → NulFree b := fun h => h ▸ nulFree_cStr _
    exact ⟨hread (a := part'.partitionKey) (congrArg PartitionInfo.partitionKey heq),
      hread (a := part'.dataFilePath) (congrArg PartitionInfo.dataFilePath heq),
      hread (a := part'.fileFormat) (congrArg PartitionInfo.fileFormat heq)⟩
  · intro hall
    refine List.Perm.of_eq (List.map_congr_left fun part hpart => ?_)
    have hs := hall part hpart
    simp [PgClient.partitionParams, PartitionRow.infoAt, PartitionRow.toInfo,
      cStr_of_nulFree hs.key, cStr_of_nulFree hs.path, cStr_of_nulFree hs.format]

theorem Db.ChangedAt.committed (hu : db'.UniqueNames) (hold : db.Below n)
    (hnext : db.snapshots.next ≤ n)
    (h : db.ChangedAt t (fun id _ => Slice.CommittedAs pg id parent op news dels n) db') :
    db'.HasCommit t parent n news ↔ NulFree t ∧ ∀ part ∈ news, part.Spelled := by
  obtain ⟨id, r₀, hf₀, hcommit, hothers⟩ := h
  obtain ⟨hrow₀, hname₀⟩ := Db.row_of_find hf₀
  have hstored := hcommit.stored (N := db'.partitions.next)
    (fun id r hr => (hold id r (Db.slice_partitions.mp hr).1).stored)
    fun id r hr => (Rows.born (Db.slice_partitions.mp hr).1).2
  rw [← Db.select_eq_listed (fun r => r.snapshotId == n) (Nat.le_refl _)] at hstored
  change ((db'.partitionsOf id n).map PartitionRow.toInfo).Perm _ at hstored
  obtain ⟨r₁, _, hr₁, ⟨now, z, hins, rfl⟩, hw⟩ := hcommit
  cases hrow₀.symm.trans hr₁
  have hrow' : db'.tables.row id = some { r₀ with currentSnapshotId := n } :=
    congrArg Slice.table hw
  constructor
  · rintro ⟨k, r, s, hf, -, hs, hk, -, hperm⟩
    obtain rfl : k = id := by
      by_contra hne
      have hs' : (db'.slice k).snapshots n = some s := Db.slice_snapshots.mpr ⟨hs, hk⟩
      rw [hothers k hne] at hs'
      exact absurd (Rows.born (Db.slice_snapshots.mp hs').1).2 (Nat.not_lt.mpr hnext)
    obtain ⟨hrow, hname⟩ := Db.row_of_find hf
    cases hrow.symm.trans hrow'
    exact ⟨cStr_named hname₀ hname, spelled_iff.mp (hstored.symm.trans hperm)⟩
  · rintro ⟨ht, hspelled⟩
    rw [cStr_of_nulFree ht] at hname₀
    have hgrows : Slice.Grows n _ _ := hins.grows.trans (Slice.markAll_grows dels z)
    have hsnap : (db'.slice id).snapshots n = some ⟨id, parent, now, cStr op,
        toInt32 news.length, toInt32 dels.length⟩ := by
      rw [show (db'.slice id).snapshots = _ from (congrArg Slice.snapshots hw).trans
        hgrows.snapshots]
      simp [Slice.insertSnapshot]
    exact ⟨id, _, _, (Db.find_eq_some_iff hu).mpr ⟨hrow', hname₀⟩, rfl,
      (Db.slice_snapshots.mp hsnap).1, rfl, rfl, hstored.trans (spelled_iff.mpr hspelled)⟩

/-! The requests, each served alone, whatever statements fail. -/

section requests

variable (h : Reachable pg .any c) (hi : c.thread i = none)
  (hx : Solo (server pg .any) i q q.code (c.world.next (.call i q) c.state) tr (some x) w')
include h hi hx

theorem Reachable.served_alone : w'.now.db.UniqueNames ∧
    Served pg .any false i q (c.world.next (.call i q) c.state) x w' := by
  have ho := own_called (q := q) h.inv (h.good.fresh i hi)
  obtain ⟨ho', hserved⟩ := hx.post (safe_code ho fun hc => absurd hc Policy.any_not_clean)
  exact ⟨ho'.unique, hserved⟩

/-- A request whose `COMMIT`s have one outcome does what that outcome allows. -/
theorem Reachable.served_settled (hq : CommitsOnce (fun _ => True) q.code) :
    w'.now.db.UniqueNames ∧ Served pg (.settling (carriedOut tr)) false i q
      (c.world.next (.call i q) c.state) x w' := by
  have ho := own_called (q := q) h.inv (h.good.fresh i hi)
  have hsafe : ∀ policy, ¬ policy.Clean →
      Own policy i q {} [] (c.world.next (.call i q) c.state) →
      Safe (view pg policy false i q) (fun x u => Own policy i q {} [] u ∧
        Served pg policy false i q (c.world.next (.call i q) c.state) x u)
        (fun u => Own policy i q {} [] u) q.code (c.world.next (.call i q) c.state) :=
    fun policy hc ho => safe_code ho fun hclean => absurd hclean hc
  obtain ⟨ho', hserved⟩ := post_settled hx hq ho hsafe
  exact ⟨ho'.unique, hserved⟩

theorem Reachable.commit_took_effect {call : CommitCall} {r : PartitionRegistry.CommitResult}
    (hq : q.commitCall = some call) (hr : x = .snapshot r) (hok : r.success = true) :
    w'.now.db.HasCommit call.tableName call.parentSnapshotId r.snapshotId call.newPartitions ↔
      NulFree call.tableName ∧ carriedOut tr = true ∧
        ∀ part ∈ call.newPartitions, part.Spelled := by
  have ho := own_called (q := q) h.inv (h.good.fresh i hi)
  have hdetach : ∀ t, ¬ q.Detaches t := fun t => by
    cases q with
    | commit | commitSnapshot => exact id
    | _ => cases hq
  rw [Request.code_commitCall hq] at hx
  rcases Solo.bind_cases hx with ⟨r', u, tr₁, tr₂, rfl, hin, hrest⟩ | ⟨hnone, -⟩
  · cases hrest
    cases hr
    rw [List.append_nil]
    obtain ⟨ho', hans, hnum⟩ := post_settled hin commitsOnce_commitSnapshot ho
      fun policy hc ho => safe_commitSnapshot_numbered ho (fun h => absurd h hc) (hdetach _)
    obtain ⟨hn, -⟩ := hnum hok (.inl rfl)
    have hans : Transacted _ _ _ _ _ _ r.success _ := hans
    rw [hok] at hans
    have hsettled := hans.settled
    cases hcarried : carriedOut tr₁ with
    | true =>
      rw [hcarried, if_pos rfl] at hsettled
      obtain ⟨v, v', he, hb, ha⟩ := hsettled
      obtain ⟨id, row, hf, -, -, hcommit, hothers⟩ := (he (.inl rfl)).table
      have heffect : TableEffect call.tableName (fun id _ => Slice.CommittedAs pg id
        call.parentSnapshotId call.operation call.newPartitions call.deletedPartitionKeys
          r.snapshotId) v v' := ⟨id, row, hf, hcommit, hothers⟩
      rw [(heffect.changedAt hb ha).committed ho'.unique (h.drawn.rows.mono hn) hn]
      simp
    | false =>
      rw [hcarried, if_neg Bool.false_ne_true] at hsettled
      refine iff_of_false ?_ (by simp)
      rintro ⟨k, row, s, -, -, hs, -⟩
      rw [hsettled.snapshots] at hs
      exact absurd (Rows.born hs).2 (Nat.not_lt.mpr hn)
  · cases hnone

/-- A change of the schema that is acknowledged. -/
theorem Reachable.alteration_took_effect {y : OperationResult}
    (hq : q = .alterTable t (.newSchemaJson schema)) (hy : x = .operation y)
    (hok : y.success = true) :
    q.TookEffect pg c.state.db w'.now.db x ↔ q.TakesEffect pg tr c.state.db := by
  subst hq
  obtain ⟨hu, y', he, hserved⟩ := h.served_settled hi hx settles_alterTable.once
  cases hy.symm.trans he
  have hsettled := (hserved hok).settled
  cases hcarried : carriedOut tr with
  | true =>
    rw [hcarried, if_pos rfl] at hsettled
    obtain ⟨v, v', heffect, hb, ha⟩ := hsettled
    have hiff := ((heffect (.inl rfl)).changedAt hb ha).altered hu
    simp only [Request.TookEffect, Request.TakesEffect, hcarried, and_true]
    exact hiff
  | false =>
    rw [hcarried, if_neg Bool.false_ne_true] at hsettled
    refine iff_of_false ?_ (by simp [Request.TakesEffect, hcarried])
    rintro ⟨k, r, r', hf, hf', -, hversion⟩
    rw [hsettled.find] at hf'
    cases hf.symm.trans hf'
    exact toInt32_add_one_ne _ hversion.symm

theorem Reachable.drop_took_effect {purge : Bool} {y : OperationResult}
    (hq : q = .dropTable t purge) (hy : x = .operation y) (hok : y.success = true) :
    q.TookEffect pg c.state.db w'.now.db x ↔ q.TakesEffect pg tr c.state.db := by
  subst hq
  have honce : CommitsOnce (fun _ => True) (Request.dropTable t purge).code := by
    refine commitsOnce_dropTable.andThen fun r => ?_
    show Acts _ (ite _ _ _)
    split
    · exact Acts.bind (Acts.atomically ⟨trivial, nofun⟩) fun _ => Acts.ret _
    · exact Acts.ret _
  have hunique := (own_called (q := .dropTable t purge) h.inv (h.good.fresh i hi)).unique
  obtain ⟨hu, y', he, hserved⟩ := h.served_settled hi hx honce
  cases hy.symm.trans he
  rw [hok] at hserved
  have hsettled := hserved.settled
  cases hcarried : carriedOut tr with
  | true =>
    rw [hcarried, if_pos rfl] at hsettled
    obtain ⟨v, v', heffect, hb, ha⟩ := hsettled
    have hiff := ((heffect (.inl rfl)).changedAt hb ha).dropped hunique
    simp only [Request.TookEffect, Request.TakesEffect, hcarried, and_true]
    exact hiff
  | false =>
    rw [hcarried, if_neg Bool.false_ne_true] at hsettled
    simp only [Request.TookEffect, Request.TakesEffect, hcarried, Bool.false_eq_true, and_false,
      or_false]
    rw [hsettled.find]
    rfl

omit h hi in
/-- Nothing is done about a new partition spec. -/
theorem spec_took_effect (hq : q = .alterTable t (.newPartitionSpec spec)) :
    q.TookEffect pg c.state.db w'.now.db x ↔ q.TakesEffect pg tr c.state.db := by
  subst hq
  cases hx with
  | act _ hp hrest =>
    cases hrest
    cases hp
    rfl

/-- A request that is acknowledged has taken effect if and only if it could. -/
theorem acknowledged_iff (hok : x.Acknowledges) :
    q.TookEffect pg c.state.db w'.now.db x ↔ q.TakesEffect pg tr c.state.db := by
  cases q with
  | createTable t schema spec properties =>
    obtain ⟨hu, y, rfl, hserved⟩ := h.served_alone hi hx
    have hiff := (hserved hok).created hu
    exact hiff
  | alterTable t a =>
    cases a with
    | newSchemaJson schema =>
      obtain ⟨-, y, rfl, -⟩ := h.served_alone hi hx
      exact h.alteration_took_effect hi hx rfl rfl hok
    | rename newName =>
      obtain ⟨-, y, rfl, hserved⟩ := h.served_alone hi hx
      have hiff := (hserved hok).renamed
      exact hiff
    | newPartitionSpec spec => exact spec_took_effect hx rfl
    | notSet => rfl
  | dropTable t purge =>
    obtain ⟨-, y, rfl, -⟩ := h.served_alone hi hx
    exact h.drop_took_effect hi hx rfl rfl hok
  | commitSnapshot t news dels parent op =>
    obtain ⟨-, y, rfl, -⟩ := h.served_alone hi hx
    have hiff := h.commit_took_effect hi hx rfl rfl hok
    simp only [List.mem_map, forall_exists_index, and_imp, forall_apply_eq_imp_iff₂] at hiff
    exact hiff
  | commit t parent op news dels =>
    obtain ⟨-, y, rfl, -⟩ := h.served_alone hi hx
    exact h.commit_took_effect hi hx rfl rfl hok
  | _ => rfl

end requests

/-- The first commit of a file. -/
abbrev appendFile : Request := .commitSnapshot "t" [samplePartition "a" "f"] [] 0 "append"

/-- A commit all of whose statements succeed but the `COMMIT`, which is answered by `a`. -/
def commitAnswers (a : Answer) : List Outcome :=
  List.replicate 9 .ok ++ [.answer a] ++ List.replicate 3 .ok

/-- The file is stored. -/
theorem acknowledged_commit : ∃ (c : ServerConfig) (w' : Moment), c.state.db.snapshots.next = 1 ∧
    appendFile.TookEffect .plain c.state.db w'.now.db (.snapshot ⟨true, 1, ""⟩) := by
  let run (c : ServerConfig) := (server .plain .any).alone 1 appendFile appendFile.code
    (c.world.next (.call 1 appendFile) c.state) (commitAnswers .ok)
  let carried (c : ServerConfig) : Bool := carriedOut ((server .plain .any).trace 1 appendFile
    appendFile.code (c.world.next (.call 1 appendFile) c.state) (commitAnswers .ok))
  obtain ⟨c, h, hp⟩ := @reachable_of_check .plain .any
    (serve 0 (.createTable "t" "\x7b\x7d" "" []) 5)
    (fun c => (c.thread 1).isNone && c.state.db.snapshots.next == 1 && carried c &&
      (run c).any fun r => r.1 == some (.snapshot ⟨true, 1, ""⟩)) (by decide +kernel)
  simp only [run, carried, Bool.and_eq_true, Option.isNone_iff_eq_none, Option.any_eq_true,
    beq_iff_eq] at hp
  obtain ⟨⟨⟨hi, hnext⟩, hcarried⟩, ⟨x, w'⟩, hx, hok⟩ := hp
  dsimp only at hok
  subst hok
  refine ⟨c, w', hnext, (acknowledged_iff h hi (System.solo_of_alone hx) rfl).mpr ?_⟩
  refine ⟨by decide, hcarried, fun part hpart => ?_⟩
  obtain rfl := List.mem_singleton.mp hpart
  exact ⟨by decide, by decide, by decide⟩

/-- The `COMMIT` fails, and the answer is success. -/
theorem acknowledged_without_effect : ¬ ∀ (pg : Postgres) (c : ServerConfig) (i : ℕ) (q : Request)
    (tr : List (Act × Outcome)) (x : Reply) (w' : Moment), Reachable pg .any c →
    c.thread i = none →
    Solo (server pg .any) i q q.code (c.world.next (.call i q) c.state) tr (some x) w' →
    x.Acknowledges → q.TookEffect pg c.state.db w'.now.db x := by
  intro hall
  let run (c : ServerConfig) := (server .plain .any).alone 1 appendFile appendFile.code
    (c.world.next (.call 1 appendFile) c.state) (commitAnswers (.fail false))
  obtain ⟨c, h, hp⟩ := @reachable_of_check .plain .any
    (serve 0 (.createTable "t" "\x7b\x7d" "" []) 5)
    (fun c => (c.thread 1).isNone && (run c).any fun r =>
      r.1 == some (.snapshot ⟨true, 1, ""⟩) && (r.2.now.db.snapshots.row 1).isNone)
    (by decide +kernel)
  simp only [run, Bool.and_eq_true, Option.isNone_iff_eq_none, Option.any_eq_true,
    beq_iff_eq] at hp
  obtain ⟨hi, ⟨x, w'⟩, hx, hok, hnone⟩ := hp
  dsimp only at hok hnone
  subst hok
  obtain ⟨k, r, s, -, -, hs, -⟩ := hall .plain c 1 appendFile _ _ w' h hi
    (System.solo_of_alone hx) rfl
  cases hnone.symm.trans hs

end IceLog
