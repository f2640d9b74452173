import IceLog.Db.Backend
import IceLog.Db.Slice

/-! What holds of the open transactions of a backend at any time: each has changed only keys that
were drawn, no two have changed the same row, and none gives a table a new name. -/
namespace IceLog

open Serial

namespace Sql

/-- A statement changes rows that exist, and the row under the key it draws. -/
theorem run_drawn {pg : Postgres} {now : ℕ} {q : Sql} {db : Db} {res : PGresult q.Row}
    {p : Changes} (h : q.run pg now db = some (res, p)) : p.Drawn (q.draw db) := by
  cases q with
  | insertTable name schema spec properties =>
    simp only [Sql.run, Option.bind_eq_bind, Option.bind_eq_some_iff] at h
    obtain ⟨schema', -, props', -, h⟩ := h
    split at h
    · cases h
    · split at h
      · cases h
        exact Changes.drawn_none _
      · cases h
        exact Changes.drawn_tables fun _ hk => (Rows.write_born hk).2
  | updateSchema schema version name =>
    simp only [Sql.run, Option.bind_eq_bind, Option.bind_eq_some_iff] at h
    obtain ⟨schema', -, h⟩ := h
    cases h
    exact Changes.drawn_tables fun _ hk => (Rows.updateWhere_born hk).2
  | insertHistory tableId version schema summary =>
    simp only [Sql.run, Option.bind_eq_bind, Option.bind_eq_some_iff] at h
    obtain ⟨schema', -, h⟩ := h
    split at h <;> cases h
    exact Changes.drawn_history fun _ hk => (Rows.write_born hk).2
  | insertPartition tableId n part =>
    simp only [Sql.run, Option.bind_eq_bind, Option.bind_eq_some_iff] at h
    obtain ⟨stats, -, h⟩ := h
    split at h <;> cases h
    exact Changes.drawn_partitions fun _ hk => (Rows.write_born hk).2
  | selectTables limit offset =>
    simp only [Sql.run, Option.bind_eq_bind, Option.bind_eq_some_iff] at h
    obtain ⟨stats, -, h⟩ := h
    split at h <;> cases h
    exact Changes.drawn_none _
  | deletePartitions tableId =>
    simp only [Sql.run] at h
    cases h
    exact Changes.drawn_partitions fun _ hk => (Rows.deleteWhere_born hk).2
  | deleteHistory tableId =>
    simp only [Sql.run] at h
    cases h
    exact Changes.drawn_history fun _ hk => (Rows.deleteWhere_born hk).2
  | softDelete name =>
    simp only [Sql.run] at h
    cases h
    exact Changes.drawn_tables fun _ hk => (Rows.updateWhere_born hk).2
  | renameTable newName oldName =>
    simp only [Sql.run] at h
    split at h <;> cases h
    exact Changes.drawn_tables fun _ hk => (Rows.updateWhere_born hk).2
  | deleteSnapshots tableId =>
    simp only [Sql.run] at h
    split at h <;> cases h
    exact Changes.drawn_snapshots fun _ hk => (Rows.deleteWhere_born hk).2
  | deleteTable name =>
    simp only [Sql.run] at h
    split at h <;> cases h
    exact Changes.drawn_tables fun _ hk => (Rows.deleteWhere_born hk).2
  | markDeleted n tableId key =>
    simp only [Sql.run] at h
    split at h <;> cases h
    exact Changes.drawn_partitions fun _ hk => (Rows.updateWhere_born hk).2
  | insertSnapshot tableId parent op added deleted =>
    simp only [Sql.run] at h
    split at h <;> cases h
    exact Changes.drawn_snapshots fun _ hk => (Rows.write_born hk).2
  | updateCurrent n name =>
    simp only [Sql.run] at h
    split at h <;> cases h
    exact Changes.drawn_tables fun _ hk => (Rows.updateWhere_born hk).2
  | insertTransaction clientId n isolation =>
    simp only [Sql.run] at h
    split at h <;> cases h
    exact Changes.drawn_transactions fun _ hk => (Rows.write_born hk).2
  | updateStatus status txnId =>
    simp only [Sql.run] at h
    split at h <;> cases h
    exact Changes.drawn_transactions fun _ hk => (Rows.updateWhere_born hk).2
  | selectPartitions | selectPartitionsPaged | selectSnapshot =>
    simp only [Sql.run] at h
    split at h <;> cases h
    exact Changes.drawn_none _
  | selectTableId | selectTable | selectSnapshots | selectCurrent | selectHistoryAt
  | selectHistory =>
    simp only [Sql.run] at h
    cases h
    exact Changes.drawn_none _

end Sql

/-- No two rows have the same name. -/
def Db.UniqueNames (db : Db) : Prop :=
  ∀ id r, db.tables.row id = some r → db.NameOf id r.tableName

/-- Rows of `tables` are written under the names they have. -/
def Changes.KeepsNames (p : Changes) (db : Db) : Prop :=
  ∀ id r', p.tables id = some (some r') →
    ∃ r, db.tables.row id = some r ∧ r.tableName = r'.tableName

namespace Sql

/-- Whether the statement can give a table a name. -/
def namesTables : Sql → Bool
  | insertTable .. | renameTable .. => true
  | _ => false

/-- Whether the statement changes `transactions`. -/
def storesTransaction : Sql → Bool
  | insertTransaction .. | updateStatus .. => true
  | _ => false

/-- Whether the statement is sent outside of transactions only. -/
def autocommits (q : Sql) : Bool := q.namesTables || q.storesTransaction

theorem updateWhere_keepsNames {db : Db} {c : ℕ → TableRec → Bool} {f : TableRec → TableRec}
    (hf : ∀ r, (f r).tableName = r.tableName) :
    Changes.KeepsNames { tables := db.tables.updateWhere c f } db := by
  intro id r' h
  dsimp only at h
  obtain ⟨r, hr, -, h⟩ := Rows.updateWhere_eq_some.mp h
  cases h
  exact ⟨r, hr, (hf r).symm⟩

theorem keepsNames_of_none {db : Db} {p : Changes} (h : p.tables = Patch.none) :
    p.KeepsNames db := by
  intro id r' hr
  simp [h] at hr

theorem run_keepsNames {pg : Postgres} {now : ℕ} {q : Sql} {db : Db} {res : PGresult q.Row}
    {p : Changes} (hq : q.namesTables = false) (h : q.run pg now db = some (res, p)) :
    p.KeepsNames db := by
  cases q with
  | insertTable | renameTable => cases hq
  | updateSchema schema version name =>
    simp only [Sql.run, Option.bind_eq_bind, Option.bind_eq_some_iff] at h
    obtain ⟨schema', -, h⟩ := h
    cases h
    exact updateWhere_keepsNames fun _ => rfl
  | insertHistory | insertPartition | selectTables =>
    simp only [Sql.run, Option.bind_eq_bind, Option.bind_eq_some_iff] at h
    obtain ⟨x, -, h⟩ := h
    split at h <;> cases h
    exact keepsNames_of_none rfl
  | softDelete name =>
    simp only [Sql.run] at h
    cases h
    exact updateWhere_keepsNames fun _ => rfl
  | updateCurrent n name =>
    simp only [Sql.run] at h
    split at h <;> cases h
    exact updateWhere_keepsNames fun _ => rfl
  | deleteTable name =>
    simp only [Sql.run] at h
    split at h <;> cases h
    intro id r' hr
    dsimp only at hr
    obtain ⟨r, -, -, hr⟩ := Rows.deleteWhere_eq_some.mp hr
    cases hr
  | deleteSnapshots | markDeleted | insertSnapshot | insertTransaction | updateStatus
  | selectPartitions | selectPartitionsPaged | selectSnapshot =>
    simp only [Sql.run] at h
    split at h <;> cases h
    exact keepsNames_of_none rfl
  | selectTableId | selectTable | selectSnapshots | selectCurrent | selectHistoryAt
  | selectHistory | deletePartitions | deleteHistory =>
    simp only [Sql.run] at h
    cases h
    exact keepsNames_of_none rfl

theorem run_insertTable {pg : Postgres} {now : ℕ} {db : Db} {res : PGresult Empty} {p : Changes}
    {name schema spec props : String}
    (h : Sql.run pg now (.insertTable name schema spec props) db = some (res, p)) :
    (res = .command 0 ∧ p = {}) ∨ ∃ row : TableRec, row.tableName = name ∧
      pg.jsonb schema = some row.schemaJson ∧ row.schemaVersion = 1 ∧ row.partitionSpec = spec ∧
      row.currentSnapshotId = 0 ∧ pg.jsonb props = some row.properties ∧ row.isDeleted = false ∧
      res = .command 1 ∧ (∀ id r, db.tables.row id = some r → r.tableName ≠ name) ∧
      p = { tables := Patch.write db.tables.next row } := by
  simp only [Sql.run, Option.bind_eq_bind, Option.bind_eq_some_iff] at h
  obtain ⟨schema', hs, props', hp, h⟩ := h
  split at h
  · cases h
  · split at h
    · cases h
      exact .inl ⟨rfl, rfl⟩
    · rename_i hx
      cases h
      refine .inr ⟨_, rfl, hs, rfl, rfl, rfl, hp, rfl, rfl, ?_, rfl⟩
      intro id r hr hn
      exact hx (Rows.exist_iff.mpr ⟨id, r, hr, by simp [hn]⟩)

/-- A renaming that hits a row leaves no other row of the new name. -/
theorem run_renameTable {pg : Postgres} {now : ℕ} {db : Db} {res : PGresult Empty} {p : Changes}
    {newName oldName : String}
    (h : Sql.run pg now (.renameTable newName oldName) db = some (res, p)) :
    p = {
      tables := db.tables.updateWhere (fun _ r => r.named oldName)
        fun r => { r with tableName := newName } } ∧
    ∀ id r, db.tables.row id = some r → r.named oldName = true →
      ∀ k r', db.tables.row k = some r' → r'.tableName = newName → r'.named oldName = true := by
  simp only [Sql.run] at h
  split at h
  · cases h
  · rename_i hc
    cases h
    refine ⟨rfl, ?_⟩
    intro id r hr hn k r' hr' hn'
    by_contra hk
    have hne : affectedTables db (db.tables.updateWhere (fun _ r => r.named oldName)
        fun r => { r with tableName := newName }) ≠ 0 := by
      intro h0
      rw [affectedTables, Rows.affected_eq_zero_iff fun _ hk => (Rows.updateWhere_born hk).2] at h0
      have := h0 id
      simp [Rows.updateWhere, hr, hn] at this
    refine hc ?_
    simp only [clashes, Bool.and_eq_true, Bool.or_eq_true, bne_iff_ne, ne_eq]
    refine ⟨hne, .inr (Rows.exist_iff.mpr ⟨k, r', hr', ?_⟩)⟩
    simp [Rows.updateWhere, hr', hn', hk]

end Sql

/-- The rows under the keys that `p` changes are the same. -/
structure Changes.Frame (p : Changes) (db db' : Db) : Prop where
  tables : ∀ id, p.tables id ≠ none → db'.tables.row id = db.tables.row id
  history : ∀ id, p.history id ≠ none → db'.history.row id = db.history.row id
  snapshots : ∀ id, p.snapshots id ≠ none → db'.snapshots.row id = db.snapshots.row id
  partitions : ∀ id, p.partitions id ≠ none → db'.partitions.row id = db.partitions.row id

/-- No row that belongs to a table has changed. -/
structure Db.SameRows (db db' : Db) : Prop where
  tables : db'.tables.row = db.tables.row
  history : db'.history.row = db.history.row
  snapshots : db'.snapshots.row = db.snapshots.row
  partitions : db'.partitions.row = db.partitions.row

/-- The sequences have gone on. -/
structure Db.NextLe (db db' : Db) : Prop where
  tables : db.tables.next ≤ db'.tables.next
  history : db.history.next ≤ db'.history.next
  snapshots : db.snapshots.next ≤ db'.snapshots.next
  partitions : db.partitions.next ≤ db'.partitions.next
  transactions : db.transactions.next ≤ db'.transactions.next

namespace Db

variable {db db' db'' : Db} {p q : Changes}

theorem SameRows.refl (db : Db) : db.SameRows db := ⟨rfl, rfl, rfl, rfl⟩

theorem SameRows.trans (h : db.SameRows db') (h' : db'.SameRows db'') : db.SameRows db'' :=
  ⟨h'.tables.trans h.tables, h'.history.trans h.history, h'.snapshots.trans h.snapshots,
    h'.partitions.trans h.partitions⟩

theorem SameRows.slice (h : db.SameRows db') (id : ℕ) : db'.slice id = db.slice id :=
  slice_congr (by rw [h.tables]) h.history h.snapshots h.partitions

theorem NextLe.refl (db : Db) : db.NextLe db :=
  ⟨Nat.le_refl _, Nat.le_refl _, Nat.le_refl _, Nat.le_refl _, Nat.le_refl _⟩

theorem NextLe.trans (h : db.NextLe db') (h' : db'.NextLe db'') : db.NextLe db'' :=
  ⟨h.tables.trans h'.tables, h.history.trans h'.history, h.snapshots.trans h'.snapshots,
    h.partitions.trans h'.partitions, h.transactions.trans h'.transactions⟩

theorem nextLe_draw (q : Sql) (db : Db) : db.NextLe (q.draw db) := by
  cases q <;> exact ⟨by simp [Sql.draw], by simp [Sql.draw], by simp [Sql.draw],
    by simp [Sql.draw], by simp [Sql.draw]⟩

theorem sameRows_draw (q : Sql) (db : Db) : db.SameRows (q.draw db) := by
  cases q <;> exact ⟨rfl, rfl, rfl, rfl⟩

theorem nextLe_apply (db : Db) (p : Changes) : db.NextLe (db.apply p) :=
  ⟨Nat.le_refl _, Nat.le_refl _, Nat.le_refl _, Nat.le_refl _, Nat.le_refl _⟩

end Db

namespace Changes

variable {db db' db'' : Db} {p q : Changes}

theorem Drawn.mono (h : p.Drawn db) (hn : db.NextLe db') : p.Drawn db' :=
  ⟨fun id hp => (h.tables id hp).trans_le hn.tables,
    fun id hp => (h.history id hp).trans_le hn.history,
    fun id hp => (h.snapshots id hp).trans_le hn.snapshots,
    fun id hp => (h.partitions id hp).trans_le hn.partitions,
    fun id hp => (h.transactions id hp).trans_le hn.transactions⟩

theorem andThen_ne_none {α : Type} {t u : Patch α} {id : ℕ} (h : (t.andThen u) id ≠ none) :
    t id ≠ none ∨ u id ≠ none := by
  cases hu : u id with
  | none => exact .inl (by simpa [Patch.andThen, hu] using h)
  | some o => exact .inr (by simp)

theorem Drawn.andThen (hp : p.Drawn db) (hq : q.Drawn db) : (p.andThen q).Drawn db :=
  ⟨fun id h => (andThen_ne_none h).elim (hp.tables id) (hq.tables id),
    fun id h => (andThen_ne_none h).elim (hp.history id) (hq.history id),
    fun id h => (andThen_ne_none h).elim (hp.snapshots id) (hq.snapshots id),
    fun id h => (andThen_ne_none h).elim (hp.partitions id) (hq.partitions id),
    fun id h => (andThen_ne_none h).elim (hp.transactions id) (hq.transactions id)⟩

theorem Frame.of_sameRows (h : db.SameRows db') : p.Frame db db' :=
  ⟨fun _ _ => by rw [h.tables], fun _ _ => by rw [h.history], fun _ _ => by rw [h.snapshots],
    fun _ _ => by rw [h.partitions]⟩

theorem Frame.trans (h : p.Frame db db') (h' : p.Frame db' db'') : p.Frame db db'' :=
  ⟨fun id hp => (h'.tables id hp).trans (h.tables id hp),
    fun id hp => (h'.history id hp).trans (h.history id hp),
    fun id hp => (h'.snapshots id hp).trans (h.snapshots id hp),
    fun id hp => (h'.partitions id hp).trans (h.partitions id hp)⟩

theorem Frame.of_apart (h : p.Apart q) : p.Frame db (db.apply q) :=
  ⟨fun id hp => Rows.apply_row_of_none ((h.tables id).resolve_left hp),
    fun id hp => Rows.apply_row_of_none ((h.history id).resolve_left hp),
    fun id hp => Rows.apply_row_of_none ((h.snapshots id).resolve_left hp),
    fun id hp => Rows.apply_row_of_none ((h.partitions id).resolve_left hp)⟩

theorem KeepsNames.frame (h : p.KeepsNames db) (hf : p.Frame db db') : p.KeepsNames db' := by
  intro id r' hr'
  obtain ⟨r, hr, hn⟩ := h id r' hr'
  exact ⟨r, (hf.tables id (by simp [hr'])).trans hr, hn⟩

theorem KeepsNames.andThen (hp : p.KeepsNames db) (hq : q.KeepsNames (db.apply p)) :
    (p.andThen q).KeepsNames db := by
  intro id r' h
  cases hq' : q.tables id with
  | none => exact hp id r' (by simpa [Changes.andThen, Patch.andThen, hq'] using h)
  | some o =>
    obtain rfl : o = some r' := by simpa [Changes.andThen, Patch.andThen, hq'] using h
    obtain ⟨r, hr, hn⟩ := hq id r' hq'
    rcases Rows.apply_row_eq_some hr with h' | ⟨-, h'⟩
    · obtain ⟨r₀, hr₀, hn₀⟩ := hp id r h'
      exact ⟨r₀, hr₀, hn₀.trans hn⟩
    · exact ⟨r, h', hn⟩

/-- Where names are kept, they stay unique. -/
theorem KeepsNames.nameOf (h : p.KeepsNames db) {id : ℕ} {name : String}
    (hn : db.NameOf id name) : (db.apply p).NameOf id name := by
  intro k r hr hk
  rcases Rows.apply_row_eq_some hr with h' | ⟨-, h'⟩
  · obtain ⟨r₀, hr₀, hn₀⟩ := h k r h'
    exact hn k r₀ hr₀ (hn₀.trans hk)
  · exact hn k r h' hk

theorem KeepsNames.unique (h : p.KeepsNames db) (hu : db.UniqueNames) :
    (db.apply p).UniqueNames := by
  intro id r hr
  refine h.nameOf ?_
  rcases Rows.apply_row_eq_some hr with h' | ⟨-, h'⟩
  · obtain ⟨r₀, hr₀, hn₀⟩ := h id r h'
    exact hn₀ ▸ hu id r₀ hr₀
  · exact hu id r h'

end Changes

theorem Db.SameRows.unique {db db' : Db} (h : db.SameRows db') (hu : db.UniqueNames) :
    db'.UniqueNames := by
  simpa [UniqueNames, NameOf, h.tables] using hu

theorem Db.UniqueNames.insert {db db' : Db} {row : TableRec} (hu : db.UniqueNames) (n : ℕ)
    (hfree : ∀ id r, db.tables.row id = some r → r.tableName ≠ row.tableName)
    (h : ∀ k r, db'.tables.row k = some r → (k = n ∧ r = row) ∨ db.tables.row k = some r) :
    db'.UniqueNames := by
  intro id r hr k r' hr' hn
  rcases h id r hr with ⟨rfl, rfl⟩ | hr <;> rcases h k r' hr' with ⟨rfl, rfl⟩ | hr'
  · rfl
  · exact absurd hn (hfree k r' hr')
  · exact absurd hn.symm (hfree id r hr)
  · exact hu id r hr k r' hr' hn

theorem Db.UniqueNames.rename {db db' : Db} {newName oldName : String} (hu : db.UniqueNames)
    (hfree : ∀ id r, db.tables.row id = some r → r.named oldName = true →
      ∀ k r', db.tables.row k = some r' → r'.tableName = newName → r'.named oldName = true)
    (h : ∀ k r, db'.tables.row k = some r → ∃ r₀, db.tables.row k = some r₀ ∧
      ((r₀.named oldName = true ∧ r.tableName = newName) ∨
        (r₀.named oldName = false ∧ r = r₀))) : db'.UniqueNames := by
  intro id r hr k r' hr' hn
  obtain ⟨r₀, hr₀, ⟨ho, hname⟩ | ⟨ho, rfl⟩⟩ := h id r hr <;>
    obtain ⟨r₁, hr₁, ⟨ho', hname'⟩ | ⟨ho', rfl⟩⟩ := h k r' hr'
  · simp only [TableRec.named, Bool.and_eq_true, beq_iff_eq] at ho ho'
    exact hu id r₀ hr₀ k r₁ hr₁ (ho'.1.trans ho.1.symm)
  · have := hfree id r₀ hr₀ ho k r' hr₁ (hn.trans hname)
    simp [ho'] at this
  · have := hfree k r₁ hr₁ ho' id r hr₀ (hn.symm.trans hname')
    simp [ho] at this
  · exact hu id r hr₀ k r' hr₁ hn

/-- Whether the statement leaves all rows that belong to tables as they are. -/
def Sql.harmless : Sql → Bool
  | .insertTable .. | .updateSchema .. | .insertHistory .. | .renameTable ..
  | .deletePartitions _ | .deleteSnapshots _ | .deleteHistory _ | .deleteTable _ | .softDelete _
  | .insertPartition .. | .markDeleted .. | .insertSnapshot .. | .updateCurrent .. => false
  | _ => true

theorem Sql.run_harmless {pg : Postgres} {now : ℕ} {q : Sql} {db : Db} {res : PGresult q.Row}
    {p : Changes} (hq : q.harmless = true) (h : q.run pg now db = some (res, p)) (db' : Db) :
    db'.SameRows (db'.apply p) := by
  have hp : ∃ t, p = { transactions := t } := by
    cases q with
    | insertTransaction | updateStatus | selectPartitions | selectPartitionsPaged
    | selectSnapshot =>
      simp only [Sql.run] at h
      split at h <;> cases h
      exact ⟨_, rfl⟩
    | selectTables =>
      simp only [Sql.run, Option.bind_eq_bind, Option.bind_eq_some_iff] at h
      obtain ⟨x, -, h⟩ := h
      split at h <;> cases h
      exact ⟨_, rfl⟩
    | selectTableId | selectTable | selectSnapshots | selectCurrent | selectHistoryAt
    | selectHistory =>
      simp only [Sql.run] at h
      cases h
      exact ⟨_, rfl⟩
    | _ => cases hq
  obtain ⟨t, rfl⟩ := hp
  exact ⟨by simp, by simp, by simp, by simp⟩

theorem Sql.run_unique {pg : Postgres} {now : ℕ} {q : Sql} {db : Db} {res : PGresult q.Row}
    {p : Changes} (hu : db.UniqueNames) (h : q.run pg now db = some (res, p)) :
    ((q.draw db).apply p).UniqueNames := by
  have hsame := Db.sameRows_draw q db
  cases hq : q.namesTables with
  | false =>
    have hk : p.KeepsNames (q.draw db) := by
      simpa [Changes.KeepsNames, hsame.tables] using run_keepsNames hq h
    exact hk.unique (hsame.unique hu)
  | true =>
    cases q with
    | insertTable name schema spec props =>
      rcases run_insertTable h with ⟨-, rfl⟩ | ⟨row, rfl, -, -, -, -, -, -, -, hfree, rfl⟩
      · rw [Db.apply_none]
        exact hsame.unique hu
      · refine hu.insert db.tables.next hfree fun k r hr => ?_
        rcases Rows.apply_row_eq_some hr with h' | ⟨-, h'⟩
        · obtain ⟨hk, hr'⟩ := Patch.write_eq_some.mp h'
          exact .inl ⟨hk, Option.some.inj hr'⟩
        · exact .inr h'
    | renameTable newName oldName =>
      obtain ⟨rfl, hfree⟩ := run_renameTable h
      refine hu.rename hfree fun k r hr => ?_
      rcases Rows.apply_row_eq_some hr with h' | ⟨h', hr'⟩ <;> dsimp only at h'
      · obtain ⟨r₀, hr₀, hn, hr'⟩ := Rows.updateWhere_eq_some.mp h'
        cases hr'
        exact ⟨r₀, hr₀, .inl ⟨hn, rfl⟩⟩
      · exact ⟨r, hr', .inr ⟨Rows.updateWhere_eq_none.mp h' r hr', rfl⟩⟩
    | _ => cases hq

end IceLog
