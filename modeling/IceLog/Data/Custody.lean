import Mathlib.Algebra.BigOperators.Group.Finset.Basic
import Mathlib.Data.Finset.Option
import Mathlib.Data.List.Nodup

/-! Resources that each have one keeper: a queue, or one holder. -/
namespace Custody

variable {H C : Type} [DecidableEq H] [DecidableEq C] {queue rest : List C} {holds : H → Option C}
  {opened : Finset C} {h o : H} {c d : C}

/-- Every open resource is in the queue once or with one holder, and nothing else is. -/
structure Kept (queue : List C) (holds : H → Option C) (opened : Finset C) : Prop where
  queued : queue.Nodup
  apart : ∀ h c, holds h = some c → c ∉ queue
  unique : ∀ h h' c, holds h = some c → holds h' = some c → h = h'
  places : ∀ c, c ∈ opened ↔ c ∈ queue ∨ ∃ h, holds h = some c

omit [DecidableEq H] [DecidableEq C] in
theorem kept_none : Kept [] (fun _ : H => (none : Option C)) ∅ where
  queued := List.nodup_nil
  apart _ _ h := by cases h
  unique _ _ _ h := by cases h
  places c := by simp

omit [DecidableEq C] in
/-- A resource that nobody has is given to a holder without one. -/
theorem Kept.hand (hk : Kept queue holds opened) (hh : holds h = none) (hc : c ∉ queue)
    (hn : ∀ h', holds h' ≠ some c) {opened' : Finset C}
    (hp : ∀ x, x ∈ opened' ↔ x = c ∨ x ∈ opened) :
    Kept queue (Function.update holds h (some c)) opened' := by
  refine ⟨hk.queued, ?_, ?_, ?_⟩
  · intro h' x hx
    by_cases he : h' = h
    · subst he
      rw [Function.update_self] at hx
      exact Option.some.inj hx ▸ hc
    · rw [Function.update_of_ne he] at hx
      exact hk.apart h' x hx
  · intro h₁ h₂ x h₁x h₂x
    by_cases he₁ : h₁ = h <;> by_cases he₂ : h₂ = h
    · rw [he₁, he₂]
    · rw [he₁, Function.update_self] at h₁x
      rw [Function.update_of_ne he₂, ← h₁x] at h₂x
      exact (hn h₂ h₂x).elim
    · rw [he₂, Function.update_self] at h₂x
      rw [Function.update_of_ne he₁, ← h₂x] at h₁x
      exact (hn h₁ h₁x).elim
    · rw [Function.update_of_ne he₁] at h₁x
      rw [Function.update_of_ne he₂] at h₂x
      exact hk.unique h₁ h₂ x h₁x h₂x
  · intro x
    rw [hp, hk.places]
    constructor
    · rintro (rfl | hx | ⟨h', hx⟩)
      · exact .inr ⟨h, Function.update_self ..⟩
      · exact .inl hx
      · have hne : h' ≠ h := by
          rintro rfl
          simp [hh] at hx
        exact .inr ⟨h', (Function.update_of_ne hne _ _).trans hx⟩
    · rintro (hx | ⟨h', hx⟩)
      · exact .inr (.inl hx)
      · by_cases he : h' = h
        · subst he
          rw [Function.update_self] at hx
          exact .inl (Option.some.inj hx).symm
        · rw [Function.update_of_ne he] at hx
          exact .inr (.inr ⟨h', hx⟩)

omit [DecidableEq H] in
/-- The front of the queue is given up. -/
theorem Kept.lose (hk : Kept (c :: rest) holds opened) : Kept rest holds (opened.erase c) := by
  obtain ⟨hc, hrest⟩ := List.nodup_cons.mp hk.queued
  refine ⟨hrest, fun h x hx hm => hk.apart h x hx (List.mem_cons_of_mem _ hm), hk.unique, ?_⟩
  intro x
  rw [Finset.mem_erase, hk.places, List.mem_cons]
  constructor
  · rintro ⟨hne, (rfl | hx) | hx⟩
    · exact (hne rfl).elim
    · exact .inl hx
    · exact .inr hx
  · rintro (hx | ⟨h, hx⟩)
    · refine ⟨?_, .inl (.inr hx)⟩
      rintro rfl
      exact hc hx
    · refine ⟨?_, .inr ⟨h, hx⟩⟩
      rintro rfl
      exact hk.apart h x hx List.mem_cons_self

/-- The front of the queue goes to a holder without one. -/
theorem Kept.take (hk : Kept (c :: rest) holds opened) (hh : holds h = none) :
    Kept rest (Function.update holds h (some c)) opened := by
  have hc : c ∈ opened := (hk.places c).mpr (.inl List.mem_cons_self)
  refine hk.lose.hand hh (List.nodup_cons.mp hk.queued).1 ?_ fun x => ?_
  · intro h' hc'
    exact hk.apart h' c hc' List.mem_cons_self
  · by_cases hx : x = c <;> simp_all

/-- A new resource goes to a holder without one. -/
theorem Kept.gain (hk : Kept queue holds opened) (hh : holds h = none) (hd : d ∉ opened) :
    Kept queue (Function.update holds h (some d)) (insert d opened) := by
  rw [hk.places, not_or] at hd
  refine hk.hand hh hd.1 (fun h' hd' => hd.2 ⟨h', hd'⟩) fun x => ?_
  rw [Finset.mem_insert]

omit [DecidableEq H] in
/-- A new resource is put into the queue. -/
theorem Kept.push (hk : Kept queue holds opened) (hd : d ∉ opened) :
    Kept (queue ++ [d]) holds (insert d opened) := by
  rw [hk.places, not_or] at hd
  refine ⟨?_, ?_, hk.unique, ?_⟩
  · refine List.nodup_append.mpr ⟨hk.queued, List.nodup_singleton d, ?_⟩
    rintro x hx y hy rfl
    exact hd.1 (List.mem_singleton.mp hy ▸ hx)
  · intro h x hx hm
    rcases List.mem_append.mp hm with hm | hm
    · exact hk.apart h x hx hm
    · obtain rfl := List.mem_singleton.mp hm
      exact hd.2 ⟨h, hx⟩
  · intro x
    simp only [Finset.mem_insert, hk.places, List.mem_append, List.mem_singleton]
    tauto

omit [DecidableEq C] in
/-- A holder puts its resource back. -/
theorem Kept.give (hk : Kept queue holds opened) (hh : holds h = some c) :
    Kept (queue ++ [c]) (Function.update holds h none) opened := by
  have hcases : ∀ {h' : H} {x : C}, Function.update holds h none h' = some x →
      h' ≠ h ∧ holds h' = some x := by
    intro h' x hx
    by_cases he : h' = h
    · simp [he] at hx
    · exact ⟨he, (Function.update_of_ne he _ _).symm.trans hx⟩
  refine ⟨?_, ?_, ?_, ?_⟩
  · refine List.nodup_append.mpr ⟨hk.queued, List.nodup_singleton c, ?_⟩
    rintro x hx y hy rfl
    exact hk.apart h c hh (List.mem_singleton.mp hy ▸ hx)
  · intro h' x hx hm
    obtain ⟨hne, hx⟩ := hcases hx
    rcases List.mem_append.mp hm with hm | hm
    · exact hk.apart h' x hx hm
    · obtain rfl := List.mem_singleton.mp hm
      exact hne (hk.unique h' h x hx hh)
  · intro h₁ h₂ x h₁x h₂x
    exact hk.unique h₁ h₂ x (hcases h₁x).2 (hcases h₂x).2
  · intro x
    rw [hk.places, List.mem_append, List.mem_singleton]
    constructor
    · rintro (hx | ⟨h', hx⟩)
      · exact .inl (.inl hx)
      · by_cases he : h' = h
        · subst he
          exact .inl (.inr (Option.some.inj (hx.symm.trans hh)))
        · exact .inr ⟨h', (Function.update_of_ne he _ _).trans hx⟩
    · rintro ((hx | rfl) | ⟨h', hx⟩)
      · exact .inl hx
      · exact .inr ⟨h, hh⟩
      · exact .inr ⟨h', (hcases hx).2⟩

omit [DecidableEq C] in
/-- A holder passes what it has to one that has nothing. -/
theorem Kept.pass (hk : Kept queue holds opened) (hh : holds h = none) (hne : h ≠ o) :
    Kept queue (Function.update (Function.update holds o none) h (holds o)) opened := by
  -- whoever has a resource now is who had it, with `h` in the place of `o`
  have hcases : ∀ {h' : H} {x : C},
      Function.update (Function.update holds o none) h (holds o) h' = some x ↔
        (h' = h ∧ holds o = some x) ∨ (h' ≠ h ∧ h' ≠ o ∧ holds h' = some x) := by
    intro h' x
    by_cases he : h' = h
    · simp [he]
    · by_cases ho : h' = o
      · subst ho
        simp [he]
      · simp [he, ho]
  refine ⟨hk.queued, ?_, ?_, ?_⟩
  · intro h' x hx
    rcases hcases.mp hx with ⟨-, hx⟩ | ⟨-, -, hx⟩
    · exact hk.apart o x hx
    · exact hk.apart h' x hx
  · intro h₁ h₂ x h₁x h₂x
    rcases hcases.mp h₁x with ⟨he₁, ho₁⟩ | ⟨-, hne₁, ho₁⟩ <;>
      rcases hcases.mp h₂x with ⟨he₂, ho₂⟩ | ⟨-, hne₂, ho₂⟩
    · rw [he₁, he₂]
    · exact (hne₂ (hk.unique _ _ x ho₂ ho₁)).elim
    · exact (hne₁ (hk.unique _ _ x ho₁ ho₂)).elim
    · exact hk.unique _ _ x ho₁ ho₂
  · intro x
    rw [hk.places]
    refine or_congr_right ?_
    constructor
    · rintro ⟨h', hx⟩
      by_cases ho : h' = o
      · exact ⟨h, hcases.mpr (.inl ⟨rfl, ho ▸ hx⟩)⟩
      · refine ⟨h', hcases.mpr (.inr ⟨?_, ho, hx⟩)⟩
        rintro rfl
        simp [hh] at hx
    · rintro ⟨h', hx⟩
      rcases hcases.mp hx with ⟨-, hx⟩ | ⟨-, -, hx⟩
      · exact ⟨o, hx⟩
      · exact ⟨h', hx⟩

omit [DecidableEq H] in
/-- There are as many open resources as the queue and the holders have. -/
theorem Kept.card (hk : Kept queue holds opened) {live : Finset H}
    (hl : ∀ h c, holds h = some c → h ∈ live) :
    opened.card = queue.length + (live.filter fun h => (holds h).isSome).card := by
  let held := live.filter fun h => (holds h).isSome
  have hopened : opened = queue.toFinset ∪ held.biUnion fun h => (holds h).toFinset := by
    ext c
    simp only [hk.places, Finset.mem_union, List.mem_toFinset, Finset.mem_biUnion,
      Option.mem_toFinset, Option.mem_def]
    refine or_congr_right ?_
    constructor
    · rintro ⟨h, hc⟩
      exact ⟨h, Finset.mem_filter.mpr ⟨hl h c hc, by simp [hc]⟩, hc⟩
    · rintro ⟨h, -, hc⟩
      exact ⟨h, hc⟩
  have hapart : Disjoint queue.toFinset (held.biUnion fun h => (holds h).toFinset) := by
    rw [Finset.disjoint_left]
    intro c hc hm
    obtain ⟨h, -, hh⟩ := Finset.mem_biUnion.mp hm
    exact hk.apart h c (by simpa using hh) (List.mem_toFinset.mp hc)
  have hone : ∀ h ∈ held, (holds h).toFinset.card = 1 := by
    intro h hh
    obtain ⟨c, hc⟩ := Option.isSome_iff_exists.mp (Finset.mem_filter.mp hh).2
    simp [hc]
  rw [hopened, Finset.card_union_of_disjoint hapart, List.toFinset_card_of_nodup hk.queued,
    Finset.card_biUnion, Finset.sum_congr rfl hone, ← Finset.card_eq_sum_ones]
  intro h _ h' _ hne
  rw [Function.onFun, Finset.disjoint_left]
  intro c hc hc'
  exact hne (hk.unique h h' c (by simpa using hc) (by simpa using hc'))

end Custody
