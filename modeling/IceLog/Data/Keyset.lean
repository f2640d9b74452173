import Mathlib.Data.List.Basic
import Mathlib.Order.Lattice

/-! Paging through a list by the key of the last element that has been seen. -/
namespace Keyset

variable {α κ : Type} [LinearOrder κ] (key : α → κ)

/-- What follows the key `a`, at most `limit` elements of it. -/
def page (limit : ℕ) (a : κ) (l : List α) : List α := (l.filter fun x => a < key x).take limit

variable {key} {limit : ℕ} {a : κ} {b : α} {l p q : List α}

/-- What follows the last element of a first part is the rest. -/
theorem filter_of_getLast? (hl : (p ++ q).Pairwise fun x y => key x < key y)
    (hb : p.getLast? = some b) : (p ++ q).filter (fun x => key b < key x) = q := by
  obtain ⟨hp, -, hpq⟩ := List.pairwise_append.mp hl
  have hlast : b ∈ p := List.mem_of_getLast? hb
  have hle : ∀ x ∈ p, ¬ key b < key x := by
    obtain ⟨p', rfl⟩ := List.getLast?_eq_some_iff.mp hb
    intro x hx
    rcases List.mem_append.mp hx with hx | hx
    · exact ((List.pairwise_append.mp hp).2.2 x hx b (by simp)).not_gt
    · obtain rfl : x = b := by simpa using hx
      exact lt_irrefl _
  rw [List.filter_append, List.filter_eq_nil_iff.mpr fun x hx => by simpa using hle x hx,
    List.filter_eq_self.mpr fun x hx => by simpa using hpq b hlast x hx, List.nil_append]

/-- A page and what follows its last element make up what follows the cursor. -/
theorem page_append (hl : l.Pairwise fun x y => key x < key y)
    (hb : (page key limit a l).getLast? = some b) :
    page key limit a l ++ l.filter (fun x => key b < key x) = l.filter fun x => a < key x := by
  have hsplit : page key limit a l ++ (l.filter fun x => a < key x).drop limit =
      l.filter fun x => a < key x := List.take_append_drop limit _
  have hba : a < key b := by
    have := List.mem_of_mem_take (List.mem_of_getLast? hb)
    simpa using (List.mem_filter.mp this).2
  have hrest := filter_of_getLast? (hsplit ▸ hl.filter _) hb
  rw [hsplit, List.filter_filter] at hrest
  have hsame : l.filter (fun x => key b < key x) =
      l.filter fun x => decide (key b < key x) && decide (a < key x) :=
    List.filter_congr fun x _ => by
      by_cases hx : key b < key x
      · simp [hx, hba.trans hx]
      · simp [hx]
  rw [hsame, hrest, hsplit]

/-- Only after the last element the page is empty. -/
theorem page_eq_nil (hlimit : 0 < limit) (h : page key limit a l = []) :
    l.filter (fun x => a < key x) = [] := by
  rcases List.take_eq_nil_iff.mp h with h | h
  · omega
  · exact h

end Keyset
