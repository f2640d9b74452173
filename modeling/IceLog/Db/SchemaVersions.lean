import IceLog.Db.Evolution
import IceLog.Db.Queries

/-! The schema history of a table, and what every change of the table adds to it. -/
namespace IceLog

open Serial

theorem toInt32_of_lt {n : ℤ} (h0 : 0 ≤ n) (h : n < 2 ^ 31) : toInt32 n = n :=
  Int.bmod_eq_of_le (by omega) (by omega)

theorem toInt32_add_one (n : ℤ) : toInt32 (toInt32 n + 1) = toInt32 (n + 1) := by
  rw [toInt32, toInt32, toInt32, Int.bmod_add_bmod]

/-- A version is never the next one, wherever the type wraps around. -/
theorem toInt32_add_one_ne (n : ℤ) : toInt32 (n + 1) ≠ n := by
  intro h
  have : (n + 1) % 2 ^ 32 = n % 2 ^ 32 := by
    have hmod := @Int.bmod_emod (n + 1) (2 ^ 32)
    rw [show (n + 1).bmod (2 ^ 32) = n from h] at hmod
    exact_mod_cast hmod.symm
  omega

namespace Db

variable {db db' : Db} {id n : ℕ} {r : TableRec} {x : HistoryRec} {steady : Prop}

/-- The history of the table, oldest entry first. -/
def chronicle (db : Db) (id : ℕ) : List HistoryRec :=
  db.history.select fun _ x => if x.tableId = id then some x else none

theorem chronicle_row (db : Db) (id k : ℕ) : (db.history.row k).bind (fun x =>
    if x.tableId = id then some x else none) = (db.slice id).history k := by
  simp only [slice, Rows.only]
  cases db.history.row k with
  | none => rfl
  | some x => by_cases hx : x.tableId = id <;> simp [hx, Option.filter_some]

theorem chronicle_congr (h : (db'.slice id).history = (db.slice id).history) :
    db'.chronicle id = db.chronicle id := by
  refine Rows.select_congr fun k => ?_
  rw [chronicle_row, chronicle_row, h]

theorem chronicle_eq_nil (h : (db.slice id).history = fun _ => none) : db.chronicle id = [] := by
  rw [List.eq_nil_iff_forall_not_mem]
  intro x hm
  obtain ⟨k, y, hy, hb⟩ := Rows.mem_select.mp hm
  have hrow := chronicle_row db id k
  rw [hy, h] at hrow
  exact absurd (hb.symm.trans hrow) nofun

/-- A new entry comes last. -/
theorem chronicle_snoc (hlt : ∀ k y, (db.slice id).history k = some y → k < n)
    (h : (db'.slice id).history = ((db.slice id).insertHistory n x).history) :
    db'.chronicle id = db.chronicle id ++ [x] := by
  have hsnoc := @Rows.select_snoc _ _ db.history db'.history
    (fun _ x => if x.tableId = id then some x else none) n ?_ ?_
  · rw [chronicle, hsnoc, chronicle_row, h]
    simp [Slice.insertHistory, chronicle]
  · intro k y b hy hb
    split at hb
    · rename_i hid
      exact hlt k y (slice_history.mpr ⟨hy, hid⟩)
    · cases hb
  · intro k hk
    rw [chronicle_row, chronicle_row, h]
    simp [Slice.insertHistory, hk]

theorem historyOf_eq (db : Db) (id : ℕ) : db.historyOf id =
    ((db.chronicle id).map HistoryRec.toVersion).mergeSort fun a b => b.version ≤ a.version := by
  rw [historyOf, chronicle, ← List.filterMap_eq_map', Rows.select_filterMap]
  congr 2
  funext _ x
  by_cases hx : x.tableId = id <;> simp [hx]

/-- The history of the table has an entry for each version after the first, with the schema of
that version. -/
structure Recorded (db : Db) (id : ℕ) (r : TableRec) : Prop where
  version : r.schemaVersion = toInt32 ((db.chronicle id).length + 1)
  entry : ∀ (j : ℕ) (x : HistoryRec), (db.chronicle id)[j]? = some x →
    x.schemaVersion = toInt32 (j + 2)
  last : ∀ x, (db.chronicle id).getLast? = some x → x.schemaJson = r.schemaJson

/-- A table with the same history, version and schema. -/
theorem Recorded.congr {r' : TableRec} (h : db.Recorded id r)
    (hh : (db'.slice id).history = (db.slice id).history)
    (hv : r'.schemaVersion = r.schemaVersion) (hs : r'.schemaJson = r.schemaJson) :
    db'.Recorded id r' := by
  have hc := chronicle_congr hh
  refine ⟨?_, ?_, ?_⟩
  · rw [hv, hc, h.version]
  · rw [hc]
    exact h.entry
  · rw [hc, hs]
    exact h.last

/-- The next version, and its entry. -/
theorem Recorded.snoc {r' : TableRec} (h : db.Recorded id r)
    (hc : db'.chronicle id = db.chronicle id ++ [x])
    (hx : x.schemaVersion = toInt32 (r.schemaVersion + 1))
    (hv : r'.schemaVersion = x.schemaVersion) (hs : r'.schemaJson = x.schemaJson) :
    db'.Recorded id r' := by
  have hnext : x.schemaVersion = toInt32 ((db.chronicle id).length + 2) := by
    rw [hx, h.version, toInt32_add_one]
    congr 1
  refine ⟨?_, fun j y hj => ?_, fun y hy => ?_⟩
  · rw [hv, hnext, hc, List.length_append]
    congr 1
  · rw [hc] at hj
    rcases Nat.lt_or_ge j (db.chronicle id).length with hlt | hge
    · rw [List.getElem?_append_left hlt] at hj
      exact h.entry j y hj
    · rw [List.getElem?_append_right hge] at hj
      obtain ⟨h0, hy⟩ := List.getElem?_eq_some_iff.mp hj
      simp only [List.length_singleton] at h0
      have hj : j = (db.chronicle id).length := by omega
      subst hj
      simp only [Nat.sub_self, List.getElem_cons_zero] at hy
      rw [← hy, hnext]
  · rw [hc, List.getLast?_concat] at hy
    cases hy
    exact hs.symm

/-- Every change of a table leaves its history complete. -/
theorem recorded_of_slices (h : ∀ r, db.tables.row id = some r → db.Recorded id r)
    (hs : db'.slice id = db.slice id ∨
      TableChange steady db'.snapshots.next (db.slice id) (db'.slice id)) :
    ∀ r, db'.tables.row id = some r → db'.Recorded id r := by
  intro r' hr'
  change (db'.slice id).table = some r' at hr'
  change ∀ r, (db.slice id).table = some r → _ at h
  rcases hs with hs | hs
  · rw [hs] at hr'
    exact (h r' hr').congr (congrArg Slice.history hs) rfl rfl
  · generalize hv : db.slice id = v at h hs
    generalize hv' : db'.slice id = v' at hs hr'
    cases hs with
    | created _ hversion =>
      cases hr'
      have hnil : db'.chronicle id = [] := chronicle_eq_nil (by rw [hv']; rfl)
      refine ⟨?_, ?_, ?_⟩
      · rw [hversion, hnil]
        rfl
      · rw [hnil]
        nofun
      · rw [hnil]
        nofun
    | renamed _ hr | dropped hr =>
      cases hr'
      exact (h _ hr).congr (by rw [hv, hv']) rfl rfl
    | altered k x hr hk hx =>
      cases hr'
      refine (h _ hr).snoc (chronicle_snoc (n := k) ?_ ?_) hx rfl rfl
      · rw [hv]
        exact hk
      · rw [hv, hv']
        rfl
    | purged => cases hr'
    | committed hr _ _ _ _ hg =>
      cases hr'
      refine (h _ hr).congr ?_ rfl rfl
      rw [hv, hv']
      exact hg.history

/-- A table that stays is altered once, or keeps its schema. -/
theorem altered_of_slices {r' : TableRec} {next : ℕ} (hr : db.tables.row id = some r)
    (hr' : db'.tables.row id = some r')
    (hs : db'.slice id = db.slice id ∨ TableChange steady next (db.slice id) (db'.slice id)) :
    (r'.schemaVersion = r.schemaVersion ∧ r'.schemaJson = r.schemaJson ∧
        db'.chronicle id = db.chronicle id) ∨
      (r'.schemaVersion ≠ r.schemaVersion ∧ ∃ x, db'.chronicle id = db.chronicle id ++ [x]) := by
  change (db.slice id).table = some r at hr
  change (db'.slice id).table = some r' at hr'
  rcases hs with hs | hs
  · rw [hs, hr] at hr'
    cases hr'
    exact .inl ⟨rfl, rfl, chronicle_congr (congrArg Slice.history hs)⟩
  · generalize hv : db.slice id = v at hr hs
    generalize hv' : db'.slice id = v' at hr' hs
    cases hs with
    | created => cases hr
    | purged => cases hr'
    | renamed _ hr₁ | dropped hr₁ =>
      cases hr.symm.trans hr₁
      cases hr'
      exact .inl ⟨rfl, rfl, chronicle_congr (by rw [hv, hv'])⟩
    | committed hr₁ _ _ _ _ hg =>
      cases hr.symm.trans hr₁
      cases hr'
      refine .inl ⟨rfl, rfl, chronicle_congr ?_⟩
      rw [hv, hv']
      exact hg.history
    | altered k x hr₁ hk hx =>
      cases hr.symm.trans hr₁
      cases hr'
      refine .inr ⟨?_, x, chronicle_snoc (n := k) ?_ ?_⟩
      · intro heq
        exact toInt32_add_one_ne _ (hx.symm.trans heq)
      · rw [hv]
        exact hk
      · rw [hv, hv']
        rfl

end Db
end IceLog
