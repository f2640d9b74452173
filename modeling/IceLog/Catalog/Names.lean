import Mathlib.Data.List.TakeWhile
import IceLog.Server.MetadataServer

/-! Strings that carry structure: names as the database reads them, cache keys, page tokens. -/
namespace IceLog

/-- No NUL character, so that `c_str()` keeps the whole string. -/
def NulFree (s : String) : Prop := '\x00' ∉ s.toList

instance (s : String) : Decidable (NulFree s) := inferInstanceAs (Decidable (¬ _))

theorem cStr_of_nulFree {s : String} (h : NulFree s) : cStr s = s := by
  rw [cStr, List.takeWhile_eq_self_iff.mpr, String.ofList_toList]
  intro c hc
  have hne : c ≠ '\x00' := fun h' => h (h' ▸ hc)
  simpa using hne

theorem nulFree_cStr (s : String) : NulFree (cStr s) := by
  intro h
  rw [cStr, String.toList_ofList] at h
  simpa using List.mem_takeWhile_imp h

theorem cStr_eq_iff {s : String} : cStr s = s ↔ NulFree s :=
  ⟨fun h => h ▸ nulFree_cStr s, cStr_of_nulFree⟩

@[simp] theorem cStr_cStr (s : String) : cStr (cStr s) = cStr s := cStr_of_nulFree (nulFree_cStr s)

/-- Two strings that end in a colon and a part without one. -/
theorem append_colon_inj {xs ys ds es : List Char} (hd : ':' ∉ ds) (he : ':' ∉ es)
    (h : xs ++ ':' :: ds = ys ++ ':' :: es) : xs = ys ∧ ds = es := by
  induction xs generalizing ys with
  | nil =>
    cases ys with
    | nil => exact ⟨rfl, by simpa using h⟩
    | cons y ys =>
      simp only [List.nil_append, List.cons_append, List.cons.injEq] at h
      exact absurd (h.2 ▸ List.mem_append_right _ (List.mem_cons_self ..)) hd
  | cons x xs ih =>
    cases ys with
    | nil =>
      simp only [List.nil_append, List.cons_append, List.cons.injEq] at h
      exact absurd (h.2 ▸ List.mem_append_right _ (List.mem_cons_self ..)) he
    | cons y ys =>
      simp only [List.cons_append, List.cons.injEq] at h
      obtain ⟨rfl, rfl⟩ := ih h.2
      exact ⟨by rw [h.1], rfl⟩

theorem toList_toString (n : ℕ) : (toString n).toList = Nat.toDigits 10 n := Nat.toList_repr

theorem colon_notMem_toString (n : ℕ) : ':' ∉ (toString n).toList := by
  rw [toList_toString]
  intro h
  have := Nat.isDigit_of_mem_toDigits (by omega) (by omega) h
  simp [Char.isDigit] at this

theorem toString_inj {m n : ℕ} (h : toString m = toString n) : m = n := by
  have h := congrArg String.toList h
  rw [toList_toString, toList_toString] at h
  rw [← @Nat.ofDigitChars_ten_toDigits m, h, Nat.ofDigitChars_ten_toDigits]

namespace PartitionRegistry

theorem toList_makeCacheKey (t : String) (n : ℕ) :
    (makeCacheKey t n).toList = t.toList ++ ':' :: (toString n).toList := by
  simp [makeCacheKey]

theorem makeCacheKey_inj {t u : String} {m n : ℕ} (h : makeCacheKey t m = makeCacheKey u n) :
    t = u ∧ m = n := by
  have h := congrArg String.toList h
  rw [toList_makeCacheKey, toList_makeCacheKey] at h
  obtain ⟨ht, hd⟩ := append_colon_inj (colon_notMem_toString m) (colon_notMem_toString n) h
  exact ⟨String.toList_inj.mp ht, toString_inj (String.toList_inj.mp hd)⟩

/-- The prefix that an invalidation removes. -/
theorem prefix_makeCacheKey (t : String) (n : ℕ) :
    (t ++ ":").toList.isPrefixOf (makeCacheKey t n).toList = true := by
  rw [toList_makeCacheKey, List.isPrefixOf_iff_prefix]
  exact ⟨(toString n).toList, by simp⟩

end PartitionRegistry

/-! Page tokens. -/

theorem stoll_toString {n : ℕ} (h : n < 2 ^ 63) : stoll (toString n) = some (n : ℤ) := by
  have hdigit : ∀ c ∈ Nat.toDigits 10 n, c.isDigit = true := fun c hc =>
    Nat.isDigit_of_mem_toDigits (by omega) (by omega) hc
  obtain ⟨c, cs, hcs⟩ := List.exists_cons_of_ne_nil (@Nat.toDigits_ne_nil n 10)
  have hc : c.isDigit = true := hdigit c (by simp [hcs])
  have hdrop : (Nat.toDigits 10 n).dropWhile isBlank = Nat.toDigits 10 n := by
    rw [hcs, List.dropWhile_cons_of_neg]
    simp only [isBlank, decide_eq_true_eq]
    rintro (rfl | rfl | rfl | rfl | rfl | rfl) <;> simp [Char.isDigit] at hc
  have htake : (Nat.toDigits 10 n).takeWhile Char.isDigit = Nat.toDigits 10 n :=
    List.takeWhile_eq_self_iff.mpr hdigit
  have hsign : takeSign (Nat.toDigits 10 n) = (false, Nat.toDigits 10 n) := by
    rw [hcs]
    unfold takeSign
    split
    · rename_i h
      rw [(List.cons.inj h).1] at hc
      simp [Char.isDigit] at hc
    · rename_i h
      rw [(List.cons.inj h).1] at hc
      simp [Char.isDigit] at hc
    · rfl
  have hvalue : (Nat.toDigits 10 n).foldl (fun n c => 10 * n + (c.toNat - '0'.toNat)) 0 = n := by
    rw [← Nat.ofDigitChars_eq_foldl, Nat.ofDigitChars_ten_toDigits]
  simp only [stoll, toList_toString, hdrop, hsign, htake, hvalue, Nat.toDigits_ne_nil, if_false]
  rw [if_neg Bool.false_ne_true, if_pos (by constructor <;> omega)]

end IceLog
