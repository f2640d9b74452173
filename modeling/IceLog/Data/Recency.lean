import Mathlib.Data.List.Nodup
import Mathlib.Data.List.TakeWhile
import Mathlib.Data.Nat.Notation

/-! Lists in the order of last use, most recent first, of which only so many elements are kept. -/
namespace Recency

variable {α β : Type}

theorem takeWhile_filter {l : List α} {p q : α → Bool} (h : ∀ x, p x = false → q x = true) :
    (l.filter q).takeWhile p = (l.takeWhile p).filter q := by
  induction l with
  | nil => rfl
  | cons x l ih =>
    cases hp : p x with
    | false => simp [h x hp, hp]
    | true =>
      cases hq : q x with
      | false => simp [hp, hq, ih]
      | true => simp [hp, hq, ih]

section distinct
variable [DecidableEq α] {a b : α} {l : List α} {n : ℕ}

/-- `a` is used: it comes to the front. -/
def touch (a : α) (l : List α) : List α := a :: l.filter (· ≠ a)

/-- The elements of a history of uses, most recent first, each at its last use. -/
def distinct : List α → List α
  | [] => []
  | a :: l => touch a (distinct l)

theorem mem_touch : b ∈ touch a l ↔ b = a ∨ b ∈ l := by
  by_cases h : b = a <;> simp [touch, h]

theorem nodup_touch (h : l.Nodup) : (touch a l).Nodup := by
  refine List.nodup_cons.mpr ⟨?_, h.filter _⟩
  simp

@[simp] theorem mem_distinct : a ∈ distinct l ↔ a ∈ l := by
  induction l with
  | nil => rfl
  | cons b l ih => simp only [distinct, mem_touch, ih, List.mem_cons]

theorem nodup_distinct (l : List α) : (distinct l).Nodup := by
  induction l with
  | nil => exact List.nodup_nil
  | cons b l ih => exact nodup_touch ih

/-- What has been used after the last use of `a`. -/
theorem takeWhile_distinct (a : α) (l : List α) :
    (distinct l).takeWhile (· ≠ a) = distinct (l.takeWhile (· ≠ a)) := by
  induction l with
  | nil => rfl
  | cons x l ih =>
    by_cases hx : x = a
    · simp [distinct, touch, hx]
    · have hf := @takeWhile_filter _ (distinct l) (fun y => decide (y ≠ a))
        (fun y => decide (y ≠ x)) (fun y hy => by
          obtain rfl : y = a := by simpa using hy
          simpa using Ne.symm hx)
      simp only [distinct, touch, ne_eq, hx, not_false_eq_true, decide_true,
        List.takeWhile_cons_of_pos]
      simp only [ne_eq] at hf ih
      rw [hf, ih]

/-- An element is among the first `n` if there are fewer before it. -/
theorem mem_take_iff : a ∈ l.take n ↔ a ∈ l ∧ (l.takeWhile (· ≠ a)).length < n := by
  induction l generalizing n with
  | nil => simp
  | cons x l ih =>
    cases n with
    | zero => simp
    | succ n =>
      by_cases hx : x = a
      · simp [hx]
      · have hxa : a ≠ x := fun h => hx h.symm
        simp only [List.take_succ_cons, List.mem_cons, hxa, false_or, ih, ne_eq, hx,
          not_false_eq_true, decide_true, List.takeWhile_cons_of_pos, List.length_cons,
          Nat.add_lt_add_iff_right]

/-- In the order of last uses. -/
theorem pairwise_distinct (l : List α) :
    (distinct l).Pairwise fun x y => l.idxOf x < l.idxOf y := by
  induction l with
  | nil => exact .nil
  | cons a l ih =>
    refine List.pairwise_cons.mpr ⟨fun y hy => ?_, ?_⟩
    · have hne : a ≠ y := fun h => by simp [h] at hy
      rw [List.idxOf_cons_self, List.idxOf_cons_ne _ hne]
      exact Nat.succ_pos _
    · refine (ih.filter _).imp_of_mem fun {x y} hx hy hxy => ?_
      have hx : a ≠ x := fun h => by simp [h] at hx
      have hy : a ≠ y := fun h => by simp [h] at hy
      rw [List.idxOf_cons_ne _ hx, List.idxOf_cons_ne _ hy]
      omega

theorem take_filter_take (h : l.Nodup) (n : ℕ) (a : α) :
    ((l.take (n + 1)).filter (· ≠ a)).take n = (l.filter (· ≠ a)).take n := by
  induction l generalizing n with
  | nil => simp
  | cons x l ih =>
    obtain ⟨hx, hl⟩ := List.nodup_cons.mp h
    by_cases hxa : x = a
    · subst hxa
      have hfree : ∀ y ∈ l, decide (y ≠ x) = true := fun y hy => by
        simpa using fun h : y = x => hx (h ▸ hy)
      have htake := List.filter_eq_self.mpr fun y hy => hfree y (List.mem_of_mem_take (i := n) hy)
      rw [List.take_succ_cons, List.filter_cons_of_neg (by simp),
        List.filter_cons_of_neg (by simp), htake, List.filter_eq_self.mpr hfree,
        List.take_take, Nat.min_self]
    · rw [List.take_succ_cons, List.filter_cons_of_pos (by simpa using hxa),
        List.filter_cons_of_pos (by simpa using hxa)]
      cases n with
      | zero => rfl
      | succ n => rw [List.take_succ_cons, List.take_succ_cons, ih hl]

/-- Of a list that is cut after every use, nothing is lost that belongs to the first `n`. -/
theorem take_touch_take (h : l.Nodup) (n : ℕ) (a : α) :
    (touch a (l.take n)).take n = (touch a l).take n := by
  cases n with
  | zero => rfl
  | succ n => rw [touch, touch, List.take_succ_cons, List.take_succ_cons, take_filter_take h]

end distinct

/-! Two lists of which one is kept longer than the other. -/

section sublists
variable {l l' : List α} {d n : ℕ} {p : α → Bool}

theorem take_sublist_take (h : l.Sublist l') (hd : l'.length ≤ l.length + d) (n : ℕ) :
    (l.take n).Sublist (l'.take (n + d)) := by
  induction h generalizing n d with
  | slnil => simp
  | @cons l l' a h ih =>
    have hle := h.length_le
    cases d with
    | zero =>
      simp only [List.length_cons] at hd
      omega
    | succ d =>
      simp only [List.length_cons] at hd
      rw [← Nat.add_assoc, List.take_succ_cons]
      exact (ih (by omega) n).cons a
  | @cons_cons l l' a h ih =>
    cases n with
    | zero => simp
    | succ n =>
      simp only [List.length_cons] at hd
      rw [Nat.add_right_comm, List.take_succ_cons, List.take_succ_cons]
      exact (ih (by omega) n).cons_cons a

/-- No more is removed from the shorter list. -/
theorem length_filter_le (h : l.Sublist l') (p : α → Bool) :
    (l'.filter p).length + l.length ≤ (l.filter p).length + l'.length := by
  induction h with
  | slnil => rfl
  | @cons l l' a h ih =>
    cases hp : p a <;> simp only [List.filter_cons, hp, List.length_cons, if_true,
      Bool.false_eq_true, if_false] <;> omega
  | @cons_cons l l' a h ih =>
    cases hp : p a <;> simp only [List.filter_cons, hp, List.length_cons, if_true,
      Bool.false_eq_true, if_false] <;> omega

end sublists
end Recency
