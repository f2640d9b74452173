import Mathlib.Logic.Relation
import IceLog.Db.Isolation

/-! What may happen to one table from one committed state to the next, and what every such change
keeps: the snapshot ids grow, and what was visible at an old snapshot stays visible as it was. -/
namespace IceLog

open Serial

namespace Slice

variable {n : ℕ} {v w : Slice}

/-- What is stored about a table is consistent; `next` bounds the snapshot ids drawn so far. -/
structure WellFormed (next : ℕ) (v : Slice) : Prop where
  orphans : v.table = none → v = .empty
  current : ∀ r, v.table = some r → r.currentSnapshotId < next ∧ r.currentSnapshotId < maxBigint
  snapshots : ∀ r n x, v.table = some r → v.snapshots n = some x →
    0 < n ∧ n ≤ r.currentSnapshotId
  stored : ∀ p x, v.partitions p = some x → (v.snapshots x.snapshotId).isSome
  tombstone : ∀ p x, v.partitions p = some x → x.isDeleted = x.deletedSnapshotId.isSome
  tombstoned : ∀ p x d, v.partitions p = some x → x.deletedSnapshotId = some d →
    (v.snapshots d).isSome ∧ x.snapshotId ≤ d
  ids : ∀ p x, v.partitions p = some x → p < maxBigint

theorem empty_wellFormed (next : ℕ) : Slice.empty.WellFormed next :=
  ⟨fun _ => rfl, by simp [empty], by simp [empty], by simp [empty], by simp [empty],
    by simp [empty], by simp [empty]⟩

/-- The partition `p` as a reader at the snapshot `s` sees it. -/
def visible (v : Slice) (s p : ℕ) : Option PartitionRow :=
  (v.partitions p).bind fun r => if r.visibleAt s then some (r.toRow p) else none

/-- One statement of a commit as `n` that concerns the partitions. -/
inductive Grow (n : ℕ) : Slice → Slice → Prop
  | insert {v : Slice} {p : ℕ} {r : PartitionRec} : v.partitions p = none → p < maxBigint →
      r.snapshotId = n → r.isDeleted = false → r.deletedSnapshotId = none →
      Grow n v (v.insertPartition p r)
  | mark (v : Slice) (key : String) : Grow n v (v.markDeleted n key)

abbrev Grows (n : ℕ) : Slice → Slice → Prop := Relation.ReflTransGen (Grow n)

theorem Grows.table (h : Grows n v w) : w.table = v.table := by
  induction h with
  | refl => rfl
  | tail _ hg ih => cases hg <;> exact ih

theorem Grows.snapshots (h : Grows n v w) : w.snapshots = v.snapshots := by
  induction h with
  | refl => rfl
  | tail _ hg ih => cases hg <;> exact ih

theorem Grows.history (h : Grows n v w) : w.history = v.history := by
  induction h with
  | refl => rfl
  | tail _ hg ih => cases hg <;> exact ih

theorem visibleAt_markDeleted {r : PartitionRec} {s : ℕ} (hr : r.isDeleted = false) (hs : s < n) :
    (r.markDeleted n).visibleAt s = r.visibleAt s := by
  simp only [PartitionRec.visibleAt, PartitionRec.markDeleted, hr, hs, Bool.not_true, Bool.not_false,
    Option.any_some, decide_true, Bool.or_true, Bool.true_or, Bool.and_true]
  rfl

/-- Readers at earlier snapshots do not see a commit. -/
theorem Grow.visible (h : Grow n v w) {s : ℕ} (hs : s < n) : w.visible s = v.visible s := by
  funext p
  cases h with
  | @insert k r hk _ hn _ _ =>
    by_cases hp : p = k
    · subst hp
      have : r.visibleAt s = false := by
        simp [PartitionRec.visibleAt, hn, Nat.not_le_of_lt hs]
      simp [Slice.visible, insertPartition, hk, this]
    · simp [Slice.visible, insertPartition, hp]
  | mark key =>
    simp only [Slice.visible, markDeleted, Option.bind_map]
    cases hp : v.partitions p with
    | none => rfl
    | some r =>
      simp only [Option.bind_some, Function.comp_apply]
      split
      · rename_i hc
        simp only [Bool.and_eq_true, Bool.not_eq_true'] at hc
        rw [visibleAt_markDeleted hc.2 hs]
        rfl
      · rfl

theorem Grows.visible (h : Grows n v w) {s : ℕ} (hs : s < n) : w.visible s = v.visible s := by
  induction h with
  | refl => rfl
  | tail _ hg ih => rw [hg.visible hs, ih]

theorem Grows.ids (h : Grows n v w) (hv : ∀ p x, v.partitions p = some x → p < maxBigint) {p : ℕ}
    {x : PartitionRec} (hx : w.partitions p = some x) : p < maxBigint := by
  induction h generalizing x with
  | refl => exact hv p x hx
  | tail _ hg ih =>
    cases hg with
    | @insert k r _ hk _ _ _ =>
      by_cases hp : p = k
      · exact hp ▸ hk
      · exact ih (by simpa [insertPartition, hp] using hx)
    | mark key =>
      obtain ⟨y, hy, -⟩ := Option.map_eq_some_iff.mp hx
      exact ih hy

/-- A commit as `n` leaves the tombstone of a partition, or tombstones it. -/
def Tombstoned (n : ℕ) (x y : PartitionRec) : Prop :=
  (y.isDeleted = x.isDeleted ∧ y.deletedSnapshotId = x.deletedSnapshotId) ∨
    (y.isDeleted = true ∧ y.deletedSnapshotId = some n)

/-- Every partition is one from before, or one that the commit as `n` inserted. -/
theorem Grows.partitions (h : Grows n v w) {p : ℕ} {x : PartitionRec}
    (hx : w.partitions p = some x) :
    (∃ y, v.partitions p = some y ∧ x.snapshotId = y.snapshotId ∧ Tombstoned n y x) ∨
      (x.snapshotId = n ∧ ((x.isDeleted = false ∧ x.deletedSnapshotId = none) ∨
        (x.isDeleted = true ∧ x.deletedSnapshotId = some n))) := by
  induction h generalizing x with
  | refl => exact .inl ⟨x, hx, rfl, .inl ⟨rfl, rfl⟩⟩
  | tail _ hg ih =>
    cases hg with
    | @insert k r hk _ hn hd hd' =>
      by_cases hp : p = k
      · subst hp
        obtain rfl : r = x := by simpa [insertPartition] using hx
        exact .inr ⟨hn, .inl ⟨hd, hd'⟩⟩
      · exact ih (by simpa [insertPartition, hp] using hx)
    | mark key =>
      simp only [markDeleted, Option.map_eq_some_iff] at hx
      obtain ⟨y, hy, hx⟩ := hx
      have := ih hy
      split at hx
      · subst hx
        rcases this with ⟨z, hz, he, -⟩ | ⟨hn, -⟩
        · exact .inl ⟨z, hz, he, .inr ⟨rfl, rfl⟩⟩
        · exact .inr ⟨hn, .inr ⟨rfl, rfl⟩⟩
      · subst hx
        exact this

end Slice

/-- The changes of one table id that some operation commits. If `steady`, the parent of a new
snapshot is the current one; `next` bounds the snapshot ids drawn so far. -/
inductive TableChange (steady : Prop) (next : ℕ) : Slice → Slice → Prop
  | created {r : TableRec} : r.currentSnapshotId = 0 → r.schemaVersion = 1 →
      TableChange steady next .empty { Slice.empty with table := some r }
  | renamed {v : Slice} {r : TableRec} (newName : String) : v.table = some r →
      TableChange steady next v { v with table := some { r with tableName := newName } }
  | altered {v : Slice} {r : TableRec} (h : ℕ) (x : HistoryRec) :
      v.table = some r → (∀ k y, v.history k = some y → k < h) →
      x.schemaVersion = toInt32 (r.schemaVersion + 1) →
      TableChange steady next v ({ v with
        table := some { r with
          schemaJson := x.schemaJson, schemaVersion := x.schemaVersion } }.insertHistory h x)
  | dropped {v : Slice} {r : TableRec} : v.table = some r →
      TableChange steady next v { v with table := some { r with isDeleted := true } }
  | purged (v : Slice) : TableChange steady next v .empty
  | committed {v w : Slice} {r : TableRec} {n : ℕ} {x : SnapshotRec} : v.table = some r →
      r.currentSnapshotId < n → n < next → n < maxBigint →
      (steady → x.parentSnapshotId = r.currentSnapshotId) → Slice.Grows n (v.insertSnapshot n x) w →
      TableChange steady next v { w with table := some { r with currentSnapshotId := n } }

namespace TableChange

variable {steady : Prop} {next next' : ℕ} {v v' : Slice} {r r' : TableRec}

theorem wellFormed (h : TableChange steady next' v v') (hv : v.WellFormed next)
    (hn : next ≤ next') (h0 : 0 < next') : v'.WellFormed next' := by
  have mono : ∀ {r}, v.table = some r →
      r.currentSnapshotId < next' ∧ r.currentSnapshotId < maxBigint := fun hr =>
    ⟨(hv.current _ hr).1.trans_le hn, (hv.current _ hr).2⟩
  -- The row of the table stays, and its current snapshot.
  have htable : ∀ {w : Slice} {r r'}, v.table = some r → w.table = some r' →
      r'.currentSnapshotId = r.currentSnapshotId → w.snapshots = v.snapshots →
      w.partitions = v.partitions → w.WellFormed next' := by
    intro w r r' hr hr' hcur hs hp
    refine ⟨by simp [hr'], fun r₁ hr₁ => ?_, fun r₁ n x hr₁ hx => ?_, hs ▸ hp ▸ hv.stored,
      hp ▸ hv.tombstone, hs ▸ hp ▸ hv.tombstoned, hp ▸ hv.ids⟩
    · obtain rfl := Option.some.inj (hr'.symm.trans hr₁)
      exact hcur ▸ mono hr
    · obtain rfl := Option.some.inj (hr'.symm.trans hr₁)
      exact hcur ▸ hv.snapshots r n x hr (hs ▸ hx)
  cases h with
  | @created r hr _ =>
    refine ⟨by simp, ?_, by simp [Slice.empty], by simp [Slice.empty], by simp [Slice.empty],
      by simp [Slice.empty], by simp [Slice.empty]⟩
    intro r' hr'
    cases hr'
    simp [hr, h0, maxBigint]
  | renamed _ hr | altered _ _ hr | dropped hr => exact htable hr rfl rfl rfl rfl
  | purged => exact Slice.empty_wellFormed _
  | @committed _ w r n x hr hlt hnext hmax _ hg =>
    have hsnap : ∀ k, (v.snapshots k).isSome → (w.snapshots k).isSome := by
      intro k hk
      rw [hg.snapshots]
      by_cases hkn : k = n
      · simp [Slice.insertSnapshot, hkn]
      · simpa [Slice.insertSnapshot, hkn] using hk
    have hself : (w.snapshots n).isSome := by
      rw [hg.snapshots]
      simp [Slice.insertSnapshot]
    refine ⟨by simp, ?_, ?_, ?_, ?_, ?_, fun p y hy => hg.ids hv.ids hy⟩
    · intro r' hr'
      cases hr'
      exact ⟨hnext, hmax⟩
    · intro r' k y hr' hy
      cases hr'
      change w.snapshots k = some y at hy
      rw [hg.snapshots] at hy
      by_cases hkn : k = n
      · subst hkn
        exact ⟨Nat.zero_lt_of_lt hlt, Nat.le_refl _⟩
      · have := hv.snapshots r k y hr (by simpa [Slice.insertSnapshot, hkn] using hy)
        exact ⟨this.1, this.2.trans hlt.le⟩
    · intro p y hy
      rcases hg.partitions hy with ⟨z, hz, he, -⟩ | ⟨he, -⟩
      · exact he ▸ hsnap _ (hv.stored p z hz)
      · exact he ▸ hself
    · intro p y hy
      rcases hg.partitions hy with ⟨z, hz, -, ⟨hd, hd'⟩ | ⟨hd, hd'⟩⟩ | ⟨-, ⟨hd, hd'⟩ | ⟨hd, hd'⟩⟩
      · rw [hd, hd']
        exact hv.tombstone p z hz
      all_goals simp [hd, hd']
    · intro p y d hy hd
      rcases hg.partitions hy with ⟨z, hz, he, ⟨-, hd'⟩ | ⟨-, hd'⟩⟩ | ⟨he, ⟨-, hd'⟩ | ⟨-, hd'⟩⟩
      · obtain ⟨hstored, hle⟩ := hv.tombstoned p z d hz (hd' ▸ hd)
        exact ⟨hsnap _ hstored, he ▸ hle⟩
      · rw [hd'] at hd
        cases hd
        obtain ⟨x', hx'⟩ := Option.isSome_iff_exists.mp (hv.stored p z hz)
        exact ⟨hself, he ▸ ((hv.snapshots r _ _ hr hx').2.trans hlt.le)⟩
      · rw [hd'] at hd
        cases hd
      · rw [hd'] at hd
        cases hd
        exact ⟨hself, he.le⟩

/-- The pointer of a table only moves forward. -/
theorem current_le (h : TableChange steady next v v') (hr : v.table = some r)
    (hr' : v'.table = some r') : r.currentSnapshotId ≤ r'.currentSnapshotId := by
  cases h with
  | created => simp [Slice.empty] at hr
  | renamed _ hv | altered _ _ hv | dropped hv =>
    rw [hv] at hr
    cases hr
    cases hr'
    exact Nat.le_refl _
  | purged => simp [Slice.empty] at hr'
  | committed hv hlt =>
    rw [hv] at hr
    cases hr
    cases hr'
    exact hlt.le

/-- A change that does not move the pointer is invisible to readers, and one that does is
visible only from the new snapshot on. -/
theorem visible (h : TableChange steady next v v') (hr : v.table = some r)
    (hr' : v'.table = some r') {s : ℕ}
    (hs : r'.currentSnapshotId = r.currentSnapshotId ∨ s < r'.currentSnapshotId) :
    v'.visible s = v.visible s := by
  cases h with
  | created => simp [Slice.empty] at hr
  | renamed | altered | dropped => rfl
  | purged => simp [Slice.empty] at hr'
  | @committed _ w r₀ n x hv hlt _ _ _ hg =>
    rw [hv] at hr
    cases hr
    cases hr'
    have hsn : s < n := by
      rcases hs with h | h
      · simp only at h
        omega
      · exact h
    exact hg.visible hsn

/-- A table that a change stores anew is empty. -/
theorem of_none (h : TableChange steady next v v') (hv : v.table = none)
    (hr' : v'.table = some r') : v' = { Slice.empty with table := some r' } := by
  cases h with
  | created =>
    cases hr'
    rfl
  | renamed _ hr | altered _ _ hr | dropped hr | committed hr => cases hv.symm.trans hr
  | purged => cases hr'

/-- Less is asked of a change where less is assumed. -/
theorem of_steady {steady' : Prop} (h : TableChange steady next v v') (hs : steady' → steady) :
    TableChange steady' next v v' := by
  cases h with
  | created h₀ h₁ => exact .created h₀ h₁
  | renamed newName hr => exact .renamed newName hr
  | altered k x hr hk hx => exact .altered k x hr hk hx
  | dropped hr => exact .dropped hr
  | purged => exact .purged _
  | committed hr hlt hn hmax hpar hg => exact .committed hr hlt hn hmax (fun h => hpar (hs h)) hg

end TableChange

/-! The committed database as readers see it. -/
namespace Db

variable {db db' : Db} {id s n : ℕ} {name : String} {r : TableRec}

/-- What `query_partitions` finds. -/
def queryPartitions (db : Db) (name : String) (s : ℕ) : Option (List PartitionRow) :=
  if maxBigint ≤ s then none else (db.find name).map fun p => db.partitionsAt p.1 s

/-- Every table is consistent and the names are unique. -/
structure Consistent (db : Db) : Prop where
  unique : db.UniqueNames
  wellFormed : ∀ id, (db.slice id).WellFormed db.snapshots.next

theorem partitionsAt_eq {s' : ℕ} (h : (db'.slice id).visible s' = (db.slice id).visible s) :
    db'.partitionsAt id s' = db.partitionsAt id s := by
  refine Rows.select_congr fun p => ?_
  have hv : ∀ (d : Db) s, (d.partitions.row p).bind (fun r =>
      if r.tableId == id && r.visibleAt s then some (r.toRow p) else none) =
      (d.slice id).visible s p := by
    intro d s
    simp only [Slice.visible, slice, Rows.only, PartitionRec.of]
    cases d.partitions.row p with
    | none => rfl
    | some r => by_cases hr : r.tableId = id <;> simp [hr, Option.filter_some]
  rw [hv, hv, h]

theorem partitionsAt_congr (h : (db'.slice id).visible s = (db.slice id).visible s) :
    db'.partitionsAt id s = db.partitionsAt id s := partitionsAt_eq h

theorem partitionsAt_eq_nil (h : ∀ p, (db.slice id).visible s p = none) :
    db.partitionsAt id s = [] := by
  refine List.eq_nil_iff_forall_not_mem.mpr fun row hrow => ?_
  obtain ⟨p, x, hx, hsel⟩ := Rows.mem_select.mp hrow
  split at hsel
  · rename_i hvis
    simp only [Bool.and_eq_true, beq_iff_eq] at hvis
    have hnone := h p
    rw [Slice.visible, slice_partitions.mpr ⟨hx, hvis.1⟩, Option.bind_some, if_pos hvis.2] at hnone
    cases hnone
  · cases hsel

theorem mem_named {k : ℕ} : (k, r) ∈ db.named name ↔
    db.tables.row k = some r ∧ r.named name = true := by
  simp only [named, Rows.mem_select]
  constructor
  · rintro ⟨id, r', hr, h⟩
    split at h
    · rename_i hn
      cases h
      exact ⟨hr, hn⟩
    · cases h
  · rintro ⟨hr, hn⟩
    exact ⟨k, r, hr, if_pos hn⟩

theorem row_of_find (h : db.find name = some (id, r)) :
    db.tables.row id = some r ∧ r.named name = true :=
  mem_named.mp (List.mem_of_head? h)

theorem named_eq_nil_iff : db.named name = [] ↔ db.find name = none := by
  simp [find]

theorem find_eq_none_iff : db.find name = none ↔
    ∀ k r, db.tables.row k = some r → r.named name = false := by
  rw [← named_eq_nil_iff, List.eq_nil_iff_forall_not_mem]
  constructor
  · intro h k r hr
    by_contra hn
    exact h (k, r) (mem_named.mpr ⟨hr, by simpa using hn⟩)
  · rintro h ⟨k, r⟩ hm
    obtain ⟨hr, hn⟩ := mem_named.mp hm
    simp [h k r hr] at hn

/-- Where names are unique, the live table of a name is found. -/
theorem find_eq_some_iff (hu : db.UniqueNames) : db.find name = some (id, r) ↔
    db.tables.row id = some r ∧ r.named name = true := by
  refine ⟨row_of_find, fun ⟨hr, hn⟩ => ?_⟩
  cases hf : db.find name with
  | none => simp [find_eq_none_iff.mp hf id r hr] at hn
  | some p =>
    obtain ⟨hr', hn'⟩ := @row_of_find db p.1 name p.2 hf
    simp only [TableRec.named, Bool.and_eq_true, beq_iff_eq] at hn hn'
    have hid := hu id r hr p.1 p.2 hr' (hn'.1.trans hn.1.symm)
    rw [hid, hr, Option.some.injEq] at hr'
    rw [hr', ← hid]

/-- The same live table under the name, with the same contents. -/
structure SameTable (name : String) (db db' : Db) : Prop where
  find : db'.find name = db.find name
  slice : ∀ id r, db.find name = some (id, r) → db'.slice id = db.slice id

theorem SameTable.trans {db'' : Db} (h : SameTable name db db') (h' : SameTable name db' db'') :
    SameTable name db db'' :=
  ⟨h'.find.trans h.find,
    fun id r hf => (h'.slice id r (h.find.trans hf)).trans (h.slice id r hf)⟩

theorem SameTable.queryPartitions (h : SameTable name db db') (s : ℕ) :
    db'.queryPartitions name s = db.queryPartitions name s := by
  unfold Db.queryPartitions
  rw [h.find]
  cases hf : db.find name with
  | none => rfl
  | some p =>
    have := @partitionsAt_congr db db' p.1 s (by rw [h.slice p.1 p.2 hf])
    simp only [Option.map_some, this]

theorem find_congr (h : db'.tables = db.tables) : db'.find name = db.find name := by
  unfold Db.find named
  rw [h]

theorem SameRows.find (h : db.SameRows db') (name : String) : db'.find name = db.find name := by
  unfold Db.find named
  exact congrArg List.head? (Rows.select_congr fun k => by rw [h.tables])

theorem SameRows.sameTable (h : db.SameRows db') (name : String) : SameTable name db db' :=
  ⟨h.find name, fun id _ _ => h.slice id⟩

/-- A table that is found keeps its answers as long as its slice does. -/
theorem sameTable_of_slice (hu : db'.UniqueNames) (hf : db.find name = some (id, r))
    (h : db'.slice id = db.slice id) : SameTable name db db' := by
  obtain ⟨hr, hn⟩ := row_of_find hf
  have hr' : db'.tables.row id = some r := (congrArg Slice.table h).trans hr
  refine ⟨?_, fun id' r' hf' => ?_⟩
  · rw [hf, (find_eq_some_iff hu).mpr ⟨hr', hn⟩]
  · rw [hf] at hf'
    cases hf'
    exact h

/-- The stored snapshots of a table with their parents, by increasing id. -/
def chain (db : Db) (id : ℕ) : List (ℕ × ℕ) :=
  db.snapshots.select fun n x => if x.tableId == id then some (n, x.parentSnapshotId) else none

/-- Each snapshot of the list has the one before it as its parent, from `p` to `c`. -/
def LinkedFrom (p : ℕ) : List (ℕ × ℕ) → ℕ → Prop
  | [], c => p = c
  | (n, q) :: rest, c => q = p ∧ LinkedFrom n rest c

/-- The history of every stored table is one line that ends in its current snapshot. -/
def Linked (db : Db) : Prop :=
  ∀ id r, db.tables.row id = some r → LinkedFrom 0 (db.chain id) r.currentSnapshotId

theorem linkedFrom_snoc {p c q : ℕ} {l : List (ℕ × ℕ)} (h : LinkedFrom p l c) (hq : q = c) :
    LinkedFrom p (l ++ [(n, q)]) n := by
  induction l generalizing p with
  | nil => exact ⟨hq.trans (Eq.symm h), rfl⟩
  | cons a l ih => exact ⟨h.1, ih h.2⟩

theorem chain_congr (h : (db'.slice id).snapshots = (db.slice id).snapshots) :
    db'.chain id = db.chain id := by
  refine Rows.select_congr fun n => ?_
  have hv : ∀ d : Db, (d.snapshots.row n).bind (fun x =>
      if x.tableId == id then some (n, x.parentSnapshotId) else none) =
      ((d.slice id).snapshots n).map fun x => (n, x.parentSnapshotId) := by
    intro d
    simp only [slice, Rows.only]
    cases d.snapshots.row n with
    | none => rfl
    | some x => by_cases hx : x.tableId = id <;> simp [hx, Option.filter_some]
  rw [hv, hv, h]

/-- A new snapshot comes last in the chain. -/
theorem chain_snoc {x : SnapshotRec} (hlt : ∀ k y, (db.slice id).snapshots k = some y → k < n)
    (h : (db'.slice id).snapshots = ((db.slice id).insertSnapshot n x).snapshots) :
    db'.chain id = db.chain id ++ [(n, x.parentSnapshotId)] := by
  have hv : ∀ (d : Db) k, (d.snapshots.row k).bind (fun x =>
      if x.tableId == id then some (k, x.parentSnapshotId) else none) =
      ((d.slice id).snapshots k).map fun x => (k, x.parentSnapshotId) := by
    intro d k
    simp only [slice, Rows.only]
    cases d.snapshots.row k with
    | none => rfl
    | some x => by_cases hx : x.tableId = id <;> simp [hx, Option.filter_some]
  have hsnoc := @Rows.select_snoc _ _ db.snapshots db'.snapshots
    (fun k x => if x.tableId == id then some (k, x.parentSnapshotId) else none) n ?_ ?_
  · rw [chain, hsnoc, hv, h]
    simp [Slice.insertSnapshot, chain]
  · intro k y b hy hb
    split at hb
    · rename_i hid
      exact hlt k y (slice_snapshots.mpr ⟨hy, beq_iff_eq.mp hid⟩)
    · cases hb
  · intro k hk
    rw [hv, hv, h]
    simp [Slice.insertSnapshot, hk]

section slices
variable {steady : Prop}

theorem consistent_of_slices (hc : db.Consistent) (hu : db'.UniqueNames)
    (hn : db.snapshots.next ≤ db'.snapshots.next)
    (h : ∀ id, db'.slice id = db.slice id ∨
      TableChange steady db'.snapshots.next (db.slice id) (db'.slice id)) : db'.Consistent where
  unique := hu
  wellFormed id := by
    have hv := hc.wellFormed id
    rcases h id with h | h
    · rw [h]
      exact ⟨hv.orphans, fun r hr => ⟨(hv.current r hr).1.trans_le hn, (hv.current r hr).2⟩,
        hv.snapshots, hv.stored, hv.tombstone, hv.tombstoned, hv.ids⟩
    · exact h.wellFormed hv hn db'.snapshots.pos

theorem linked_of_slices (hc : db.Consistent) (hl : db.Linked) (hsteady : steady)
    (h : ∀ id, db'.slice id = db.slice id ∨
      TableChange steady db'.snapshots.next (db.slice id) (db'.slice id)) : db'.Linked := by
  intro id r' hr'
  change (db'.slice id).table = some r' at hr'
  rcases h id with h | h
  · rw [@chain_congr db db' id (by rw [h])]
    exact hl id r' (by rw [h] at hr'; exact hr')
  · have hlt := (hc.wellFormed id).snapshots
    have hlink := hl id
    change ∀ r, (db.slice id).table = some r → _ at hlink
    generalize hv : db.slice id = v at h hlt hlink
    generalize hv' : db'.slice id = v' at h hr'
    cases h with
    | created hr =>
      cases hr'
      have hnil : db'.chain id = [] := by
        rw [List.eq_nil_iff_forall_not_mem]
        rintro ⟨k, q⟩ hm
        obtain ⟨k', x, hx, hb⟩ := Rows.mem_select.mp hm
        split at hb
        · rename_i hid
          have := slice_snapshots.mpr ⟨hx, beq_iff_eq.mp hid⟩
          rw [hv'] at this
          cases this
        · cases hb
      rw [hnil, hr]
      rfl
    | renamed _ hr | dropped hr =>
      cases hr'
      rw [@chain_congr db db' id (by rw [hv, hv'])]
      have := hlink _ hr
      exact this
    | altered _ _ hr =>
      cases hr'
      rw [@chain_congr db db' id (by rw [hv, hv']; rfl)]
      have := hlink _ hr
      exact this
    | purged => cases hr'
    | @committed _ w r n x hr hcur hnext hmax hpar hg =>
      cases hr'
      have hsnoc : db'.chain id = db.chain id ++ [(n, x.parentSnapshotId)] := by
        refine chain_snoc (fun k y hy => ?_) ?_
        · rw [hv] at hy
          exact (hlt r k y hr hy).2.trans_lt hcur
        · rw [hv, hv']
          exact hg.snapshots
      rw [hsnoc]
      exact linkedFrom_snoc (hlink r hr) (hpar hsteady)

end slices
end Db
end IceLog
