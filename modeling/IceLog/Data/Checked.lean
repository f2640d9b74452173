import Mathlib.Algebra.BigOperators.Group.List.Basic
import Mathlib.Data.List.Infix

/-! Loops that add up under an addition that has a result only within some range. -/
namespace Checked

variable {α β : Type} [AddMonoid α] (fits : α → Prop) [DecidablePred fits] {a b : α} {l : List α}

/-- An addition, if its result is within the range. -/
def add (a b : α) : Option α := if fits (a + b) then some (a + b) else none

/-- Every running sum of the list is within the range. -/
def Fits (l : List α) : Prop := ∀ xs ∈ l.inits, fits xs.sum

instance : Decidable (Fits fits l) := inferInstanceAs (Decidable (∀ xs ∈ l.inits, fits xs.sum))

variable {fits}

theorem add_eq_some : add fits a b = some (a + b) ↔ fits (a + b) := by
  by_cases h : fits (a + b) <;> simp [add, h]

theorem add_eq_none : add fits a b = none ↔ ¬ fits (a + b) := by
  by_cases h : fits (a + b) <;> simp [add, h]

/-- The loop from `a` on gives the exact sum, if it goes through. -/
theorem foldlM_add (ha : fits a) : l.foldlM (add fits) a =
    if ∀ xs ∈ l.inits, fits (a + xs.sum) then some (a + l.sum) else none := by
  induction l generalizing a with
  | nil => simp [ha]
  | cons x l ih =>
    rw [List.foldlM_cons]
    by_cases hx : fits (a + x)
    · have hcons : (∀ xs ∈ (x :: l).inits, fits (a + xs.sum)) ↔
          ∀ xs ∈ l.inits, fits (a + x + xs.sum) := by
        simp [ha, add_assoc]
      rw [add_eq_some.mpr hx, Option.bind_eq_bind, Option.bind_some, ih hx, List.sum_cons,
        ← add_assoc]
      exact if_congr hcons.symm rfl rfl
    · rw [add_eq_none.mpr hx, Option.bind_eq_bind, Option.bind_none, if_neg]
      intro h
      exact hx (by simpa using h [x] (by simp))

theorem foldlM_add_zero (h0 : fits 0) :
    l.foldlM (add fits) 0 = if Fits fits l then some l.sum else none := by
  rw [foldlM_add h0]
  simp only [zero_add]
  rfl

/-- One loop over two quantities is two loops. -/
theorem foldlM_both (f g : β → α) (xs : List β) (a b : α) :
    xs.foldlM (fun (s : α × α) x => do
      let a ← add fits s.1 (f x)
      let b ← add fits s.2 (g x)
      return (a, b)) (a, b) =
    do
      let a ← (xs.map f).foldlM (add fits) a
      let b ← (xs.map g).foldlM (add fits) b
      return (a, b) := by
  induction xs generalizing a b with
  | nil => rfl
  | cons x xs ih =>
    simp only [List.foldlM_cons, List.map_cons]
    cases ha : add fits a (f x) with
    | none => rfl
    | some a' =>
      cases hb : add fits b (g x) with
      | none =>
        simp only [Option.bind_eq_bind, Option.bind_some, Option.bind_none]
        cases (xs.map f).foldlM (add fits) a' <;> rfl
      | some b' => exact ih a' b'

end Checked
