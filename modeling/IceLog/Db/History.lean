import IceLog.Db.Evolution

/-! The committed database at two moments of one history. -/
namespace IceLog

open Serial

namespace TableChange

variable {steady : Prop} {next n : ℕ} {v v' : Slice} {r r' : TableRec} {x : SnapshotRec}

/-- A stored snapshot stays as long as the table does. -/
theorem snapshots (h : TableChange steady next v v')
    (hle : ∀ r, v.table = some r → n ≤ r.currentSnapshotId) (hx : v.snapshots n = some x)
    (hr' : v'.table = some r') : v'.snapshots n = some x := by
  cases h with
  | created => cases hx
  | renamed | altered | dropped => exact hx
  | purged => cases hr'
  | committed hr hlt _ _ _ hg =>
    have hn := (hle _ hr).trans_lt hlt
    exact (congrFun hg.snapshots n).trans (by simpa [Slice.insertSnapshot, hn.ne] using hx)

/-- A change that does not move the pointer stores no snapshot. -/
theorem snapshots_eq (h : TableChange steady next v v') (hr : v.table = some r)
    (hr' : v'.table = some r') (hcur : r'.currentSnapshotId = r.currentSnapshotId) :
    v'.snapshots = v.snapshots := by
  cases h with
  | created => cases hr
  | renamed | altered | dropped => rfl
  | purged => cases hr'
  | committed hv hlt =>
    cases hr.symm.trans hv
    cases hr'
    exact absurd hcur hlt.ne'

/-- A dropped table stays dropped. -/
theorem deleted (h : TableChange steady next v v') (hr : v.table = some r)
    (hr' : v'.table = some r') (hd : r.isDeleted = true) : r'.isDeleted = true := by
  cases h with
  | created => cases hr
  | renamed _ hv | altered _ _ hv | dropped hv | committed hv =>
    rw [hv] at hr
    cases hr
    cases hr'
    first | exact hd | rfl
  | purged => cases hr'

end TableChange

namespace Db

/-- `db'` is a later state of `db`. -/
structure Evolves (db db' : Db) : Prop where
  next : db.NextLe db'
  gone : ∀ id, id < db.tables.next → db.tables.row id = none → db'.tables.row id = none
  deleted : ∀ id r r', db.tables.row id = some r → db'.tables.row id = some r' →
    r.isDeleted = true → r'.isDeleted = true
  current : ∀ id r r', db.tables.row id = some r → db'.tables.row id = some r' →
    r.currentSnapshotId ≤ r'.currentSnapshotId
  visible : ∀ id r r' s, db.tables.row id = some r → db'.tables.row id = some r' →
    s ≤ r.currentSnapshotId ∨ r'.currentSnapshotId = r.currentSnapshotId →
      (db'.slice id).visible s = (db.slice id).visible s
  snapshots : ∀ id r r' n x, db.tables.row id = some r → db'.tables.row id = some r' →
    (db.slice id).snapshots n = some x → (db'.slice id).snapshots n = some x

variable {db db' db'' : Db} {id s : ℕ} {r r' : TableRec} {t : String} {steady : Prop}

theorem Evolves.refl (db : Db) : db.Evolves db where
  next := .refl db
  gone _ _ h := h
  deleted id r r' hr hr' hd := by
    rw [hr] at hr'
    cases hr'
    exact hd
  current id r r' hr hr' := by
    rw [hr] at hr'
    cases hr'
    exact Nat.le_refl _
  visible _ _ _ _ _ _ _ := rfl
  snapshots _ _ _ _ _ _ _ hx := hx

/-- A table that is stored later was stored in between. -/
theorem Evolves.row (h : db.Evolves db') (hr : db'.tables.row id = some r')
    (hid : id < db.tables.next) : ∃ r, db.tables.row id = some r := by
  cases hr₀ : db.tables.row id with
  | none =>
    rw [h.gone id hid hr₀] at hr
    cases hr
  | some r => exact ⟨r, rfl⟩

theorem Evolves.trans (h : db.Evolves db') (h' : db'.Evolves db'') : db.Evolves db'' := by
  have hmid : ∀ id r r'', db.tables.row id = some r → db''.tables.row id = some r'' →
      ∃ r', db'.tables.row id = some r' := fun id r r'' hr hr'' =>
    h'.row hr'' ((Rows.born hr).2.trans_le h.next.tables)
  refine ⟨h.next.trans h'.next, fun id hid hr => ?_, fun id r r'' hr hr'' hd => ?_,
    fun id r r'' hr hr'' => ?_, fun id r r'' s hr hr'' hs => ?_,
    fun id r r'' n x hr hr'' hx => ?_⟩
  · exact h'.gone id (hid.trans_le h.next.tables) (h.gone id hid hr)
  · obtain ⟨r', hr'⟩ := hmid id r r'' hr hr''
    exact h'.deleted id r' r'' hr' hr'' (h.deleted id r r' hr hr' hd)
  · obtain ⟨r', hr'⟩ := hmid id r r'' hr hr''
    exact (h.current id r r' hr hr').trans (h'.current id r' r'' hr' hr'')
  · obtain ⟨r', hr'⟩ := hmid id r r'' hr hr''
    have hle := h.current id r r' hr hr'
    have hle' := h'.current id r' r'' hr' hr''
    rw [h'.visible id r' r'' s hr' hr'' (by omega), h.visible id r r' s hr hr' (by omega)]
  · obtain ⟨r', hr'⟩ := hmid id r r'' hr hr''
    exact h'.snapshots id r' r'' n x hr' hr'' (h.snapshots id r r' n x hr hr' hx)

/-- One step changes each table in an allowed way, and adds tables under new keys only. -/
theorem Evolves.of_slices (hc : db.Consistent) (hn : db.NextLe db')
    (h : ∀ id, db'.slice id = db.slice id ∨
      ((db.tables.row id = none → db.tables.next ≤ id) ∧
        TableChange steady db'.snapshots.next (db.slice id) (db'.slice id))) :
    db.Evolves db' := by
  have hrow : ∀ {d : Db} {id : ℕ} {r : TableRec}, d.tables.row id = some r →
      (d.slice id).table = some r := id
  refine ⟨hn, fun id hid hr => ?_, fun id r r' hr hr' hd => ?_, fun id r r' hr hr' => ?_,
    fun id r r' s hr hr' hs => ?_, fun id r r' n x hr hr' hx => ?_⟩
  · rcases h id with he | ⟨hnew, -⟩
    · exact (congrArg Slice.table he).trans hr
    · exact absurd (hnew hr) (Nat.not_le_of_lt hid)
  · rcases h id with he | ⟨-, hch⟩
    · have := hrow hr'
      rw [he, hrow hr] at this
      cases this
      exact hd
    · exact hch.deleted (hrow hr) (hrow hr') hd
  · rcases h id with he | ⟨-, hch⟩
    · have := hrow hr'
      rw [he, hrow hr] at this
      cases this
      exact Nat.le_refl _
    · exact hch.current_le (hrow hr) (hrow hr')
  · rcases h id with he | ⟨-, hch⟩
    · rw [he]
    · have hle := hch.current_le (hrow hr) (hrow hr')
      exact hch.visible (hrow hr) (hrow hr') (by omega)
  · rcases h id with he | ⟨-, hch⟩
    · exact he ▸ hx
    · refine hch.snapshots (fun r₀ hr₀ => ?_) hx (hrow hr')
      exact ((hc.wellFormed id).snapshots r₀ n x hr₀ hx).2

/-- What is visible at a snapshot of a table stays so as long as the table is stored. -/
theorem Evolves.partitionsAt (h : db.Evolves db') (hr : db.tables.row id = some r)
    (hr' : db'.tables.row id = some r')
    (hs : s ≤ r.currentSnapshotId ∨ r'.currentSnapshotId = r.currentSnapshotId) :
    db'.partitionsAt id s = db.partitionsAt id s :=
  partitionsAt_congr (h.visible id r r' s hr hr' hs)

/-- The name stands for the same table at both moments. -/
theorem Evolves.queryPartitions (h : db.Evolves db') (hf : db.find t = some (id, r))
    (hf' : db'.find t = some (id, r'))
    (hs : s ≤ r.currentSnapshotId ∨ r'.currentSnapshotId = r.currentSnapshotId) :
    db'.queryPartitions t s = db.queryPartitions t s := by
  have := h.partitionsAt (row_of_find hf).1 (row_of_find hf').1 hs
  simp [Db.queryPartitions, hf, hf', this]

end Db
end IceLog
