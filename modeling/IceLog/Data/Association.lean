import Mathlib.Data.List.Nodup

/-! Lists of pairs in which no key occurs twice. -/
namespace Association

variable {K V : Type} [DecidableEq K] {l : List (K × V)} {k : K} {v : V}

theorem lookup_of_mem (hn : (l.map Prod.fst).Nodup) (h : (k, v) ∈ l) : l.lookup k = some v := by
  obtain ⟨p, s, rfl⟩ := List.append_of_mem h
  refine List.lookup_eq_some_iff.mpr ⟨p, s, rfl, fun e he => ?_⟩
  rw [List.map_append, List.nodup_append] at hn
  have hne := hn.2.2 e.1 (List.mem_map_of_mem he) k (by simp)
  simpa using hne.symm

theorem mem_of_lookup_eq (h : l.lookup k = some v) : (k, v) ∈ l := by
  obtain ⟨p, s, rfl, -⟩ := List.lookup_eq_some_iff.mp h
  simp

theorem lookup_isSome_iff : (l.lookup k).isSome ↔ k ∈ l.map Prod.fst := by
  cases h : l.lookup k with
  | none =>
    rw [List.lookup_eq_none_iff] at h
    simp only [Option.isSome_none, Bool.false_eq_true, List.mem_map, false_iff]
    rintro ⟨e, he, rfl⟩
    simpa using h e he
  | some v => simpa using ⟨v, mem_of_lookup_eq h⟩

end Association
