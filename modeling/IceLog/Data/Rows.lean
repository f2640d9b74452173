import Mathlib.Algebra.Order.Ring.Int
import Mathlib.Data.List.Basic
import Mathlib.Data.List.Range
import Mathlib.Data.Nat.Notation

/-! Relations whose primary key is drawn from a sequence, and the sets of row changes that a
transaction collects. -/
namespace Serial

variable {α β γ : Type}

/-- Keys below `next` have been drawn from the sequence; only these can name a row. -/
structure Rows (α : Type) where
  next : ℕ
  row : ℕ → Option α
  pos : 0 < next
  drawn : ∀ id, ¬ (0 < id ∧ id < next) → row id = none

/-- A change for each key: untouched, deleted (`some none`) or written. -/
abbrev Patch (α : Type) : Type := ℕ → Option (Option α)

namespace Patch

def none : Patch α := fun _ => Option.none

def write (id : ℕ) (r : α) : Patch α := fun k => if k = id then some (some r) else Option.none

/-- First `p`, then `q`. -/
def andThen (p q : Patch α) : Patch α := fun id => (q id).or (p id)

/-- No key is changed by both. -/
def Apart (p q : Patch α) : Prop := ∀ id, p id = Option.none ∨ q id = Option.none

@[simp] theorem none_apply (id : ℕ) : (none : Patch α) id = Option.none := rfl

@[simp] theorem none_andThen (p : Patch α) : none.andThen p = p := by
  funext id
  cases h : p id <;> simp [andThen, h]

@[simp] theorem andThen_none (p : Patch α) : p.andThen none = p := by
  funext id
  simp [andThen]

theorem write_self (id : ℕ) (r : α) : write id r id = some (some r) := by simp [write]

theorem write_of_ne {id k : ℕ} (r : α) (h : k ≠ id) : write id r k = Option.none := by
  simp [write, h]

theorem write_eq_some {id k : ℕ} {r : α} {o : Option α} :
    write id r k = some o ↔ k = id ∧ o = some r := by
  unfold write
  split
  · rename_i h
    simp [h, eq_comm]
  · rename_i h
    simp [h]

theorem Apart.symm {p q : Patch α} (h : p.Apart q) : q.Apart p := fun id => (h id).symm

theorem Apart.andThen {p q r : Patch α} (hp : p.Apart r) (hq : q.Apart r) :
    (p.andThen q).Apart r := by
  intro id
  rcases hp id with h | h
  · rcases hq id with h' | h'
    · exact .inl (by simp [Patch.andThen, h, h'])
    · exact .inr h'
  · exact .inr h

end Patch

namespace Rows

variable {t t' : Rows α} {p q : Patch α} {id : ℕ} {r : α}

@[ext] theorem ext (hn : t.next = t'.next) (hr : ∀ id, t.row id = t'.row id) : t = t' := by
  cases t; cases t'
  obtain rfl : _ = _ := hn
  obtain rfl : _ = _ := funext hr
  rfl

def empty : Rows α := ⟨1, fun _ => none, Nat.one_pos, fun _ _ => rfl⟩

/-- Take the next key, whether or not a row is then stored under it. -/
def draw (t : Rows α) : Rows α :=
  ⟨t.next + 1, t.row, Nat.succ_pos _, fun id h => t.drawn id (by omega)⟩

def apply (t : Rows α) (p : Patch α) : Rows α :=
  ⟨t.next, fun id => if 0 < id ∧ id < t.next then (p id).getD (t.row id) else none, t.pos,
    fun _ h => if_neg h⟩

/-- The rows for which `f` has a value, by increasing key. -/
def select (t : Rows α) (f : ℕ → α → Option β) : List β :=
  (List.range t.next).filterMap fun id => (t.row id).bind (f id)

def exist (t : Rows α) (c : ℕ → α → Bool) : Bool :=
  (List.range t.next).any fun id => (t.row id).any (c id)

/-- `UPDATE … SET f WHERE c`. -/
def updateWhere (t : Rows α) (c : ℕ → α → Bool) (f : α → α) : Patch α := fun id =>
  (t.row id).bind fun r => if c id r then some (some (f r)) else none

/-- `DELETE … WHERE c`. -/
def deleteWhere (t : Rows α) (c : ℕ → α → Bool) : Patch α := fun id =>
  (t.row id).bind fun r => if c id r then some none else none

/-- The rows that satisfy `c`. -/
def only (t : Rows α) (c : ℕ → α → Bool) (id : ℕ) : Option α := (t.row id).filter (c id)

/-- The patch turns rows that satisfy `c` into rows that satisfy `c`. -/
def Local (t : Rows α) (c : ℕ → α → Bool) (p : Patch α) : Prop :=
  ∀ id o, p id = some o → (∀ r, t.row id = some r → c id r = true) ∧ ∀ r, o = some r → c id r = true

/-- The number of keys below `n` that a patch changes. -/
def affected (n : ℕ) (p : Patch α) : ℕ := (List.range n).countP fun id => (p id).isSome

@[simp] theorem empty_row : (empty : Rows α).row id = none := rfl

@[simp] theorem draw_row (t : Rows α) : t.draw.row id = t.row id := rfl

@[simp] theorem draw_next (t : Rows α) : t.draw.next = t.next + 1 := rfl

@[simp] theorem apply_next (t : Rows α) (p : Patch α) : (t.apply p).next = t.next := rfl

theorem born (h : t.row id = some r) : 0 < id ∧ id < t.next := by
  by_contra hn
  rw [t.drawn id hn] at h
  cases h

theorem row_next (t : Rows α) : t.row t.next = none := t.drawn _ (by omega)

theorem apply_row_of_none (h : p id = none) : (t.apply p).row id = t.row id := by
  simp only [apply, h, Option.getD_none]
  split
  · rfl
  · rename_i hn
    exact (t.drawn id hn).symm

theorem apply_row_of_some {o : Option α} (h : p id = some o) (h0 : 0 < id) (hn : id < t.next) :
    (t.apply p).row id = o := by
  simp [apply, h, h0, hn]

theorem apply_row_eq_some (h : (t.apply p).row id = some r) :
    p id = some (some r) ∨ (p id = none ∧ t.row id = some r) := by
  cases hp : p id with
  | none => exact .inr ⟨rfl, (apply_row_of_none hp).symm.trans h⟩
  | some o =>
    have hb := born h
    rw [apply_next] at hb
    rw [apply_row_of_some hp hb.1 hb.2] at h
    exact .inl (by rw [h])

@[simp] theorem apply_none (t : Rows α) : t.apply Patch.none = t := by
  ext1
  · rfl
  · exact apply_row_of_none rfl

theorem apply_apply (t : Rows α) (p q : Patch α) :
    (t.apply p).apply q = t.apply (p.andThen q) := by
  ext1
  · rfl
  · rename_i id
    by_cases h : 0 < id ∧ id < t.next
    · cases hq : q id <;> simp [apply, Patch.andThen, h, hq]
    · rw [((t.apply p).apply q).drawn id h, (t.apply (p.andThen q)).drawn id h]

theorem draw_apply (t : Rows α) (p : Patch α) (h : ∀ id, p id ≠ none → id < t.next) :
    t.draw.apply p = (t.apply p).draw := by
  ext1
  · rfl
  · rename_i id
    cases hp : p id with
    | none => rw [apply_row_of_none hp, draw_row, draw_row, apply_row_of_none hp]
    | some o =>
      have hn := h id (by simp [hp])
      by_cases h0 : 0 < id
      · rw [draw_row, apply_row_of_some hp h0 hn,
          apply_row_of_some hp h0 (Nat.lt_succ_of_lt hn)]
      · rw [drawn _ id (by omega), drawn _ id (by omega)]

theorem affected_eq_zero_iff {n : ℕ} (h : ∀ id, p id ≠ none → id < n) :
    affected n p = 0 ↔ ∀ id, p id = none := by
  rw [affected, List.countP_eq_zero]
  constructor
  · intro ha id
    by_contra hp
    exact ha id (List.mem_range.mpr (h id hp)) (Option.isSome_iff_ne_none.mpr hp)
  · intro ha id _
    simp [ha id]

/-- A patch of no more than one row. -/
theorem affected_le_one (h : ∀ id id', p id ≠ none → p id' ≠ none → id = id') (n : ℕ) :
    affected n p ≤ 1 := by
  induction n with
  | zero => simp [affected]
  | succ n ih =>
    rw [affected, List.range_succ, List.countP_append]
    by_cases hn : p n = none
    · simp only [List.countP_singleton, hn]
      simpa [affected] using ih
    · have hbelow : (List.range n).countP (fun id => (p id).isSome) = 0 := by
        rw [List.countP_eq_zero]
        intro id hid hp
        have := h id n (Option.isSome_iff_ne_none.mp hp) hn
        have := List.mem_range.mp hid
        omega
      rw [hbelow, List.countP_singleton]
      split <;> omega

section locality
variable {c c' : ℕ → α → Bool} {cond : ℕ → α → Bool} {f : α → α}

theorem only_eq_some : t.only c id = some r ↔ t.row id = some r ∧ c id r = true := by
  simp [only, Option.filter_eq_some_iff]

theorem updateWhere_eq_some {o : Option α} : t.updateWhere cond f id = some o ↔
    ∃ r, t.row id = some r ∧ cond id r = true ∧ o = some (f r) := by
  simp only [updateWhere, Option.bind_eq_some_iff]
  constructor
  · rintro ⟨r, hr, h⟩
    split at h
    · rename_i hc
      exact ⟨r, hr, hc, (Option.some.inj h).symm⟩
    · cases h
  · rintro ⟨r, hr, hc, rfl⟩
    exact ⟨r, hr, if_pos hc⟩

theorem updateWhere_eq_none : t.updateWhere cond f id = none ↔
    ∀ r, t.row id = some r → cond id r = false := by
  cases hr : t.row id with
  | none => simp [updateWhere, hr]
  | some r => simp [updateWhere, hr]

theorem deleteWhere_eq_some {o : Option α} : t.deleteWhere cond id = some o ↔
    ∃ r, t.row id = some r ∧ cond id r = true ∧ o = none := by
  simp only [deleteWhere, Option.bind_eq_some_iff]
  constructor
  · rintro ⟨r, hr, h⟩
    split at h
    · rename_i hc
      exact ⟨r, hr, hc, (Option.some.inj h).symm⟩
    · cases h
  · rintro ⟨r, hr, hc, rfl⟩
    exact ⟨r, hr, if_pos hc⟩

/-- What is left after a deletion. -/
theorem row_deleteWhere : (t.apply (t.deleteWhere cond)).row id = some r ↔
    t.row id = some r ∧ cond id r = false := by
  cases hp : t.deleteWhere cond id with
  | none =>
    rw [apply_row_of_none hp]
    refine ⟨fun hr => ⟨hr, ?_⟩, fun h => h.1⟩
    by_contra hc
    have := deleteWhere_eq_some.mpr ⟨r, hr, by simpa using hc, rfl⟩
    cases hp.symm.trans this
  | some o =>
    obtain ⟨r', hr', hc, rfl⟩ := deleteWhere_eq_some.mp hp
    obtain ⟨h0, hn⟩ := born hr'
    rw [apply_row_of_some hp h0 hn]
    constructor
    · intro hnone
      cases hnone
    · rintro ⟨hr, hcond⟩
      cases hr.symm.trans hr'
      cases hcond.symm.trans hc

theorem updateWhere_born (h : t.updateWhere cond f id ≠ none) : 0 < id ∧ id < t.next := by
  cases hr : t.row id with
  | none => simp [updateWhere, hr] at h
  | some r => exact born hr

theorem deleteWhere_born (h : t.deleteWhere cond id ≠ none) : 0 < id ∧ id < t.next := by
  cases hr : t.row id with
  | none => simp [deleteWhere, hr] at h
  | some r => exact born hr

theorem write_born {k : ℕ} (h : Patch.write t.next r k ≠ none) : 0 < k ∧ k < t.draw.next := by
  by_cases hk : k = t.next
  · subst hk
    exact ⟨t.pos, Nat.lt_succ_self _⟩
  · exact absurd (Patch.write_of_ne r hk) h

theorem local_none : t.Local c Patch.none := by
  intro id o h
  simp at h

theorem Local.andThen (hp : t.Local c p) (hq : (t.apply p).Local c q) :
    t.Local c (p.andThen q) := by
  intro id o h
  cases hq' : q id with
  | none => exact hp id o (by simpa [Patch.andThen, hq'] using h)
  | some o' =>
    obtain rfl : o' = o := by simpa [Patch.andThen, hq'] using h
    refine ⟨fun r hr => ?_, (hq id o' hq').2⟩
    cases hp' : p id with
    | none => exact (hq id o' hq').1 r ((apply_row_of_none hp').trans hr)
    | some o => exact (hp id o hp').1 r hr

theorem Local.draw (h : t.Local c p) : t.draw.Local c p := h

/-- Only the rows under the changed keys matter. -/
theorem Local.congr {t' : Rows α} (h : t.Local c p)
    (hr : ∀ id, p id ≠ none → t'.row id = t.row id) : t'.Local c p := by
  intro id o ho
  rw [hr id (by simp [ho])]
  exact h id o ho

theorem local_updateWhere (h : ∀ id r, t.row id = some r → cond id r = true →
    c id r = true ∧ c id (f r) = true) : t.Local c (t.updateWhere cond f) := by
  intro id o ho
  obtain ⟨r, hr, hc, rfl⟩ := updateWhere_eq_some.mp ho
  obtain ⟨h₁, h₂⟩ := h id r hr hc
  refine ⟨fun r' hr' => ?_, fun r' hr' => ?_⟩
  · rw [hr] at hr'
    exact Option.some.inj hr' ▸ h₁
  · exact Option.some.inj hr' ▸ h₂

theorem local_deleteWhere (h : ∀ id r, t.row id = some r → cond id r = true → c id r = true) :
    t.Local c (t.deleteWhere cond) := by
  intro id o ho
  obtain ⟨r, hr, hc, rfl⟩ := deleteWhere_eq_some.mp ho
  refine ⟨fun r' hr' => ?_, fun r' hr' => by cases hr'⟩
  rw [hr] at hr'
  exact Option.some.inj hr' ▸ h id r hr hc

theorem local_write (hr : t.row id = none) (hc : c id r = true) : t.Local c (Patch.write id r) := by
  intro k o ho
  obtain ⟨rfl, rfl⟩ := Patch.write_eq_some.mp ho
  exact ⟨fun r' h => by simp [hr] at h, fun r' h => by cases h; exact hc⟩

/-- Rows of another kind are not affected. -/
theorem only_apply_of_disjoint (h : t.Local c p) (hd : ∀ id r, c id r = true → c' id r = false) :
    (t.apply p).only c' = t.only c' := by
  funext id
  cases hp : p id with
  | none => rw [only, only, apply_row_of_none hp]
  | some o =>
    have hold : t.only c' id = none := by
      rw [only, Option.filter_eq_none_iff]
      intro r hr
      simp [hd id r ((h id o hp).1 r hr)]
    rw [hold, only, Option.filter_eq_none_iff]
    intro r hr
    rcases apply_row_eq_some hr with h' | ⟨h', -⟩
    · simp [hd id r ((h id o hp).2 r (by simpa [hp] using h'))]
    · simp [hp] at h'

theorem only_apply (h : t.Local c p) (hb : p id ≠ none → 0 < id ∧ id < t.next) :
    (t.apply p).only c id = (p id).getD (t.only c id) := by
  cases hp : p id with
  | none => rw [only, apply_row_of_none hp]; rfl
  | some o =>
    obtain ⟨h0, hn⟩ := hb (by simp [hp])
    rw [only, apply_row_of_some hp h0 hn, Option.getD_some]
    cases o with
    | none => rfl
    | some r => simp [(h id _ hp).2 r rfl]

/-- What is applied to the same rows gives the same rows. -/
theorem only_apply_congr {t' : Rows α} (h : t'.only c id = t.only c id)
    (hp : p id ≠ none → id < t.next) (hn : t.next ≤ t'.next) :
    (t'.apply p).only c id = (t.apply p).only c id := by
  cases hpid : p id with
  | none => rw [only, only, apply_row_of_none hpid, apply_row_of_none hpid]; exact h
  | some o =>
    have hlt := hp (by simp [hpid])
    by_cases h0 : 0 < id
    · rw [only, only, apply_row_of_some hpid h0 hlt, apply_row_of_some hpid h0 (hlt.trans_le hn)]
    · rw [only, only, (t.apply p).drawn id (by omega), (t'.apply p).drawn id (by omega)]

theorem only_updateWhere (h : t.Local c (t.updateWhere cond f)) (id : ℕ) :
    (t.apply (t.updateWhere cond f)).only c id =
      (t.only c id).map fun r => if cond id r then f r else r := by
  rw [only_apply h updateWhere_born]
  cases hr : t.row id with
  | none => simp [updateWhere, only, hr]
  | some r =>
    by_cases hc : cond id r = true
    · have hl := (h id (some (f r)) (by simp [updateWhere, hr, hc])).1 r hr
      simp [updateWhere, only, hr, hc, hl, Option.filter_some]
    · cases hcr : c id r <;> simp [updateWhere, only, hr, hc, hcr, Option.filter_some]

theorem only_deleteWhere (h : t.Local c (t.deleteWhere cond)) (id : ℕ) :
    (t.apply (t.deleteWhere cond)).only c id = (t.only c id).filter fun r => !cond id r := by
  rw [only_apply h deleteWhere_born]
  cases hr : t.row id with
  | none => simp [deleteWhere, only, hr]
  | some r =>
    by_cases hc : cond id r = true
    · have hl := (h id none (by simp [deleteWhere, hr, hc])).1 r hr
      simp [deleteWhere, only, hr, hc, hl, Option.filter_some]
    · cases hcr : c id r <;> simp [deleteWhere, only, hr, hc, hcr, Option.filter_some]

/-- A row stored under the key just drawn. -/
theorem only_draw_write (hc : c t.next r = true) (id : ℕ) :
    (t.draw.apply (Patch.write t.next r)).only c id =
      if id = t.next then some r else t.only c id := by
  have hl : t.draw.Local c (Patch.write t.next r) := local_write t.row_next hc
  rw [only_apply hl write_born]
  split
  · rename_i hk
    subst hk
    rw [Patch.write_self]
    rfl
  · rename_i hk
    rw [Patch.write_of_ne r hk]
    rfl

end locality

@[simp] theorem select_empty (f : ℕ → α → Option β) : (empty : Rows α).select f = [] := by
  simp [select]

theorem select_eq_range {n : ℕ} (hn : t.next ≤ n) (f : ℕ → α → Option β) :
    t.select f = (List.range n).filterMap fun id => (t.row id).bind (f id) := by
  obtain ⟨k, rfl⟩ := Nat.exists_eq_add_of_le hn
  rw [select, List.range_add, List.filterMap_append]
  have hz : ((List.range k).map (t.next + ·)).filterMap
      (fun id => (t.row id).bind (f id)) = [] := by
    rw [List.filterMap_eq_nil_iff]
    intro id hid
    obtain ⟨j, -, rfl⟩ := List.mem_map.mp hid
    rw [t.drawn _ (by omega)]
    rfl
  rw [hz, List.append_nil]

theorem select_congr {f g : ℕ → α → Option β}
    (h : ∀ id, (t.row id).bind (f id) = (t'.row id).bind (g id)) : t.select f = t'.select g := by
  rw [select_eq_range (Nat.le_max_left t.next t'.next) f,
    select_eq_range (Nat.le_max_right t.next t'.next) g]
  exact List.filterMap_congr fun id _ => h id

theorem mem_select {f : ℕ → α → Option β} {b : β} :
    b ∈ t.select f ↔ ∃ id r, t.row id = some r ∧ f id r = some b := by
  simp only [select, List.mem_filterMap, Option.bind_eq_some_iff]
  constructor
  · rintro ⟨id, -, r, hr, hb⟩
    exact ⟨id, r, hr, hb⟩
  · rintro ⟨id, r, hr, hb⟩
    exact ⟨id, List.mem_range.mpr (born hr).2, r, hr, hb⟩

theorem exist_iff {c : ℕ → α → Bool} :
    t.exist c = true ↔ ∃ id r, t.row id = some r ∧ c id r = true := by
  simp only [exist, List.any_eq_true, Option.any_eq_true]
  constructor
  · rintro ⟨id, -, r, hr, hb⟩
    exact ⟨id, r, hr, hb⟩
  · rintro ⟨id, r, hr, hb⟩
    exact ⟨id, List.mem_range.mpr (born hr).2, r, hr, hb⟩

theorem select_filterMap (f : ℕ → α → Option β) (g : β → Option γ) :
    (t.select f).filterMap g = t.select fun id r => (f id r).bind g := by
  simp only [select, List.filterMap_filterMap, Option.bind_assoc]

/-- `select` lists by increasing key. -/
theorem select_sorted {f : ℕ → α → Option β} {key : β → ℕ}
    (h : ∀ id r b, f id r = some b → key b = id) :
    (t.select f).Pairwise fun a b => key a < key b := by
  rw [select, List.pairwise_filterMap]
  refine List.pairwise_lt_range.imp ?_
  intro i j hij a ha b hb
  obtain ⟨r, -, hr⟩ := Option.bind_eq_some_iff.mp ha
  obtain ⟨s, -, hs⟩ := Option.bind_eq_some_iff.mp hb
  rw [h i r a hr, h j s b hs]
  exact hij

/-- A row stored under the newest key of all comes last. -/
theorem select_snoc {f : ℕ → α → Option β} {n : ℕ}
    (hlt : ∀ id r b, t.row id = some r → f id r = some b → id < n)
    (hold : ∀ id, id ≠ n → (t'.row id).bind (f id) = (t.row id).bind (f id)) :
    t'.select f = t.select f ++ ((t'.row n).bind (f n)).toList := by
  have hzero : ∀ id, n ≤ id → (t.row id).bind (f id) = none := by
    intro id hid
    by_contra hne
    obtain ⟨b, hb⟩ := Option.ne_none_iff_exists'.mp hne
    obtain ⟨r, hr, hf⟩ := Option.bind_eq_some_iff.mp hb
    exact absurd (hlt id r b hr hf) (by omega)
  have split : ∀ u : Rows α, u.select f =
      ((List.range n).filterMap fun id => (u.row id).bind (f id)) ++
      ((List.range (t.next + t'.next + u.next + 1)).map (n + ·)).filterMap
        fun id => (u.row id).bind (f id) := by
    intro u
    rw [← List.filterMap_append, ← List.range_add]
    exact select_eq_range (by omega) f
  have tail : ((List.range (t.next + t'.next + t.next + 1)).map (n + ·)).filterMap
      (fun id => (t.row id).bind (f id)) = [] := by
    rw [List.filterMap_eq_nil_iff]
    intro id hid
    obtain ⟨j, -, rfl⟩ := List.mem_map.mp hid
    exact hzero _ (by omega)
  have tail' : ((List.range (t.next + t'.next + t'.next + 1)).map (n + ·)).filterMap
      (fun id => (t'.row id).bind (f id)) = ((t'.row n).bind (f n)).toList := by
    have rest : ((List.range (t.next + t'.next + t'.next)).map fun j => n + (j + 1)).filterMap
        (fun id => (t'.row id).bind (f id)) = [] := by
      rw [List.filterMap_eq_nil_iff]
      intro id hid
      obtain ⟨j, -, rfl⟩ := List.mem_map.mp hid
      rw [hold _ (by omega)]
      exact hzero _ (by omega)
    rw [List.range_succ_eq_map, List.map_cons, List.map_map, List.filterMap_cons]
    simp only [Nat.add_zero]
    have hcomp : ((n + ·) ∘ Nat.succ) = fun j => n + (j + 1) := by funext j; simp
    rw [hcomp, rest]
    cases (t'.row n).bind (f n) <;> rfl
  rw [split t, split t', tail, tail', List.append_nil]
  congr 1
  refine List.filterMap_congr fun id hid => hold id ?_
  have := List.mem_range.mp hid
  omega

end Rows
end Serial
