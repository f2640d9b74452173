import IceLog.Db.History

/-! What is stored about a table is only added to: the rows stay as long as the table does, and all
that may happen to one is that a live partition is marked as deleted. -/
namespace IceLog

open Serial

/-- The partition goes on as it was stored, or has been marked by a commit after `n`. -/
inductive PartitionRec.KeptAs (n : ℕ) (r : PartitionRec) : PartitionRec → Prop
  | same : r.KeptAs n r
  | marked {d : ℕ} : r.isDeleted = false → n < d → r.KeptAs n (r.markDeleted d)

theorem PartitionRec.KeptAs.trans {m n : ℕ} {x y z : PartitionRec} (h : x.KeptAs m y)
    (h' : y.KeptAs n z) (hmn : m ≤ n) : x.KeptAs m z := by
  cases h with
  | same =>
    cases h' with
    | same => exact .same
    | marked hd hlt => exact .marked hd (hmn.trans_lt hlt)
  | marked hd hlt =>
    cases h' with
    | same => exact .marked hd hlt
    | marked hd' =>
      -- it has been marked already
      cases hd'

theorem PartitionRec.KeptAs.snapshotId {n : ℕ} {x y : PartitionRec} (h : x.KeptAs n y) :
    y.snapshotId = x.snapshotId := by
  cases h <;> rfl

namespace Slice

variable {n m : ℕ} {u v w : Slice} {r r' r'' : TableRec}

/-- A table that is stored as `r` in `v` is stored as `r'` in `w`, and nothing it had is lost. -/
structure Retains (v w : Slice) (r r' : TableRec) : Prop where
  partitionSpec : r'.partitionSpec = r.partitionSpec
  properties : r'.properties = r.properties
  current : r.currentSnapshotId ≤ r'.currentSnapshotId
  snapshots : ∀ n x, v.snapshots n = some x → w.snapshots n = some x
  history : ∀ k x, v.history k = some x → w.history k = some x
  partitions : ∀ p x, v.partitions p = some x →
    ∃ y, w.partitions p = some y ∧ x.KeptAs r.currentSnapshotId y
  /-- What is new comes after all that there was. -/
  committed : ∀ n x, w.snapshots n = some x → v.snapshots n = none → r.currentSnapshotId < n
  altered : ∀ k x, w.history k = some x → v.history k = none →
    ∀ k' x', v.history k' = some x' → k' < k
  inserted : ∀ p x, w.partitions p = some x → v.partitions p = none →
    r.currentSnapshotId < x.snapshotId
  dropped : r.isDeleted = true → w = v ∧ r' = r

theorem Retains.refl (v : Slice) (r : TableRec) : v.Retains v r r where
  partitionSpec := rfl
  properties := rfl
  current := Nat.le_refl _
  snapshots _ _ hx := hx
  history _ _ hx := hx
  partitions _ x hx := ⟨x, hx, .same⟩
  committed _ _ hx hnone := by
    rw [hx] at hnone
    cases hnone
  altered _ _ hx hnone := by
    rw [hx] at hnone
    cases hnone
  inserted _ _ hx hnone := by
    rw [hx] at hnone
    cases hnone
  dropped _ := ⟨rfl, rfl⟩

theorem Retains.trans (h : v.Retains w r r') (h' : w.Retains u r' r'') : v.Retains u r r'' := by
  refine ⟨h'.partitionSpec.trans h.partitionSpec, h'.properties.trans h.properties,
    h.current.trans h'.current, fun n x hx => h'.snapshots n x (h.snapshots n x hx),
    fun k x hx => h'.history k x (h.history k x hx), ?_, ?_, ?_, ?_, ?_⟩
  · intro p x hx
    obtain ⟨y, hy, hxy⟩ := h.partitions p x hx
    obtain ⟨z, hz, hyz⟩ := h'.partitions p y hy
    exact ⟨z, hz, hxy.trans hyz h.current⟩
  · intro n x hx hnone
    cases hw : w.snapshots n with
    | none => exact h.current.trans_lt (h'.committed n x hx hw)
    | some y => exact h.committed n y hw hnone
  · intro k x hx hnone k' x' hx'
    cases hw : w.history k with
    | none => exact h'.altered k x hx hw k' x' (h.history k' x' hx')
    | some y => exact h.altered k y hw hnone k' x' hx'
  · intro p x hx hnone
    cases hw : w.partitions p with
    | none => exact h.current.trans_lt (h'.inserted p x hx hw)
    | some y =>
      obtain ⟨z, hz, hyz⟩ := h'.partitions p y hw
      cases hx.symm.trans hz
      rw [hyz.snapshotId]
      exact h.inserted p y hw hnone
  · intro hd
    obtain ⟨rfl, rfl⟩ := h.dropped hd
    exact h'.dropped hd

/-- A change of the row of the table, and of nothing else. -/
theorem retains_row (hspec : r'.partitionSpec = r.partitionSpec)
    (hprops : r'.properties = r.properties) (hcur : r'.currentSnapshotId = r.currentSnapshotId)
    (hlive : r.isDeleted = false) : v.Retains { v with table := some r' } r r' where
  partitionSpec := hspec
  properties := hprops
  current := hcur.ge
  snapshots _ _ hx := hx
  history _ _ hx := hx
  partitions _ x hx := ⟨x, hx, .same⟩
  committed := (Retains.refl v r).committed
  altered := (Retains.refl v r).altered
  inserted := (Retains.refl v r).inserted
  dropped hd := by
    rw [hlive] at hd
    cases hd

/-- The statements of a commit as `n` keep what was stored before. -/
theorem Grows.kept (h : Grows n v w) (hm : m < n) {p : ℕ} {x : PartitionRec}
    (hx : v.partitions p = some x) : ∃ y, w.partitions p = some y ∧ x.KeptAs m y := by
  induction h with
  | refl => exact ⟨x, hx, .same⟩
  | tail _ hg ih =>
    obtain ⟨y, hy, hxy⟩ := ih
    cases hg with
    | @insert k r hk =>
      have hp : p ≠ k := by
        rintro rfl
        rw [hk] at hy
        cases hy
      exact ⟨y, by simpa [insertPartition, hp] using hy, hxy⟩
    | mark key =>
      simp only [markDeleted, hy, Option.map_some]
      split
      · rename_i hc
        simp only [Bool.and_eq_true, Bool.not_eq_true'] at hc
        exact ⟨_, rfl, hxy.trans (.marked hc.2 hm) (Nat.le_refl m)⟩
      · exact ⟨y, rfl, hxy⟩

end Slice

/-- Every change of a live table retains what it has, or is the purge. -/
theorem TableChange.retains {steady : Prop} {next next' : ℕ} {v v' : Slice} {r r' : TableRec}
    (h : TableChange steady next' v v') (hv : v.WellFormed next) (hr : v.table = some r)
    (hr' : v'.table = some r') (hlive : r.isDeleted = false) : v.Retains v' r r' := by
  cases h with
  | created => cases hr
  | purged => cases hr'
  | renamed newName hr₁ | dropped hr₁ =>
    cases hr.symm.trans hr₁
    cases hr'
    exact Slice.retains_row rfl rfl rfl hlive
  | altered k x hr₁ hk =>
    cases hr.symm.trans hr₁
    cases hr'
    have hrow : v.Retains { v with table := some { r with
        schemaJson := x.schemaJson, schemaVersion := x.schemaVersion } } r { r with
        schemaJson := x.schemaJson, schemaVersion := x.schemaVersion } :=
      Slice.retains_row rfl rfl rfl hlive
    refine { hrow with history := ?_, altered := ?_, dropped := ?_ }
    · intro k' y hy
      have hne := (hk k' y hy).ne
      simpa [Slice.insertHistory, hne] using hy
    · intro k' y hy hnone k'' y' hy'
      have heq : k' = k := by
        by_contra hne
        simp only [Slice.insertHistory, Function.update_of_ne hne] at hy
        rw [hnone] at hy
        cases hy
      rw [heq]
      exact hk k'' y' hy'
    · intro hd
      rw [hlive] at hd
      cases hd
  | @committed _ w r₁ n x hr₁ hlt _ _ _ hg =>
    cases hr.symm.trans hr₁
    cases hr'
    have hsnaps : w.snapshots = Function.update v.snapshots n (some x) := hg.snapshots
    refine ⟨rfl, rfl, hlt.le, fun k y hy => ?_, fun k y hy => ?_, fun p y hy => ?_,
      fun k y hy hnone => ?_, fun k y hy hnone => ?_, fun p y hy hnone => ?_, fun hd => ?_⟩
    · have hne := ((hv.snapshots r k y hr hy).2.trans_lt hlt).ne
      show w.snapshots k = some y
      rwa [hsnaps, Function.update_of_ne hne]
    · show w.history k = some y
      rw [hg.history]
      exact hy
    · exact hg.kept hlt hy
    · have heq : k = n := by
        by_contra hne
        change w.snapshots k = some y at hy
        rw [hsnaps, Function.update_of_ne hne, hnone] at hy
        cases hy
      rwa [heq]
    · change w.history k = some y at hy
      rw [hg.history] at hy
      change v.history k = some y at hy
      rw [hnone] at hy
      cases hy
    · rcases hg.partitions hy with ⟨z, hz, -⟩ | ⟨hn, -⟩
      · change v.partitions p = some z at hz
        rw [hnone] at hz
        cases hz
      · rwa [hn]
    · rw [hlive] at hd
      cases hd

namespace Db

variable {db db' db'' : Db} {steady : Prop}

/-- What `db` stores about a table is kept in `db'` unless the table has been purged as a whole, and
the id of a table that has been purged is not used again. -/
structure Retains (db db' : Db) : Prop where
  next : db.tables.next ≤ db'.tables.next
  kept : ∀ id r r', db.tables.row id = some r → db'.tables.row id = some r' →
    (db.slice id).Retains (db'.slice id) r r'
  gone : ∀ id, id < db.tables.next → db.tables.row id = none → db'.tables.row id = none
  whole : ∀ id, db'.tables.row id = none → db'.slice id = .empty

theorem Retains.refl (h : db.Consistent) : db.Retains db where
  next := Nat.le_refl _
  kept id r r' hr hr' := by
    rw [hr] at hr'
    cases hr'
    exact .refl _ _
  gone _ _ hr := hr
  whole id hr := (h.wellFormed id).orphans hr

theorem Retains.trans (h : db.Retains db') (h' : db'.Retains db'') : db.Retains db'' := by
  refine ⟨h.next.trans h'.next, fun id r r'' hr hr'' => ?_, fun id hid hr => ?_, h'.whole⟩
  · have hid : id < db'.tables.next := (Rows.born hr).2.trans_le h.next
    cases hr' : db'.tables.row id with
    | none =>
      rw [h'.gone id hid hr'] at hr''
      cases hr''
    | some r' => exact (h.kept id r r' hr hr').trans (h'.kept id r' r'' hr' hr'')
  · exact h'.gone id (hid.trans_le h.next) (h.gone id hid hr)

/-- One step that changes live tables only, and adds tables under new ids. -/
theorem Retains.of_slices (hc : db.Consistent) (hc' : db'.Consistent) (hn : db.NextLe db')
    (h : ∀ id, db'.slice id = db.slice id ∨
      ((db.tables.row id = none → db.tables.next ≤ id) ∧
        (∀ r, db.tables.row id = some r → r.isDeleted = false) ∧
          TableChange steady db'.snapshots.next (db.slice id) (db'.slice id))) :
    db.Retains db' := by
  refine ⟨hn.tables, fun id r r' hr hr' => ?_, fun id hid hr => ?_,
    fun id => (hc'.wellFormed id).orphans⟩
  · rcases h id with heq | ⟨-, hlive, hch⟩
    · have htable : (db.slice id).table = some r' := by
        rw [← heq]
        exact hr'
      cases hr.symm.trans htable
      rw [heq]
      exact .refl _ _
    · exact hch.retains (hc.wellFormed id) hr hr' (hlive r hr)
  · rcases h id with heq | ⟨hnew, -⟩
    · exact (congrArg Slice.table heq).trans hr
    · have hle := hnew hr
      omega

end Db
end IceLog
