import Mathlib.Data.Finset.Card
import Mathlib.Data.Fintype.EquivFin
import Mathlib.Data.List.Chain
import Mathlib.Logic.Relation
import Mathlib.Order.WellFounded

/-! Following pointers through stored records, and the cycles that keep such a walk from ending. -/
namespace Pointers

section cycles
variable {α : Type} {r : α → α → Prop} {s : Finset α}

/-- Where each element of a finite set has a successor in it, one comes back to itself. -/
theorem exists_cycle (hne : s.Nonempty) (h : ∀ a ∈ s, ∃ b ∈ s, r a b) :
    ∃ a ∈ s, Relation.TransGen r a a := by
  by_contra hno
  push Not at hno
  let after : s → s → Prop := fun b a => Relation.TransGen r a b
  have : IsTrans s after := ⟨fun _ _ _ hab hbc => hbc.trans hab⟩
  have : Std.Irrefl after := ⟨fun a ha => hno a a.2 ha⟩
  have hwf : WellFounded after := Finite.wellFounded_of_trans_of_irrefl after
  obtain ⟨a, ha⟩ := hne
  obtain ⟨m, -, hmin⟩ := hwf.has_min Set.univ ⟨⟨a, ha⟩, trivial⟩
  obtain ⟨b, hb, hr⟩ := h m m.2
  exact hmin ⟨b, hb⟩ trivial (.single hr)

/-- The elements on the way from `a` to `b` have successors among them, or `b` as one. -/
theorem exists_way {a b : α} (h : Relation.TransGen r a b) :
    ∃ s : Finset α, a ∈ s ∧ ∀ x ∈ s, ∃ y, (y ∈ s ∨ y = b) ∧ r x y := by
  classical
  induction h with
  | @single b hab =>
    refine ⟨{a}, Finset.mem_singleton_self a, fun x hx => ⟨b, .inr rfl, ?_⟩⟩
    rw [Finset.mem_singleton.mp hx]
    exact hab
  | @tail b c _ hbc ih =>
    obtain ⟨s, ha, hs⟩ := ih
    refine ⟨insert b s, Finset.mem_insert_of_mem ha, fun x hx => ?_⟩
    rcases Finset.mem_insert.mp hx with rfl | hx
    · exact ⟨c, .inr rfl, hbc⟩
    · obtain ⟨y, hy | rfl, hr⟩ := hs x hx
      · exact ⟨y, .inl (Finset.mem_insert_of_mem hy), hr⟩
      · exact ⟨y, .inl (Finset.mem_insert_self ..), hr⟩

/-- An element that comes back to itself does so within a finite set. -/
theorem exists_closed {a : α} (h : Relation.TransGen r a a) :
    ∃ s : Finset α, s.Nonempty ∧ ∀ x ∈ s, ∃ y ∈ s, r x y := by
  obtain ⟨s, ha, hs⟩ := exists_way h
  refine ⟨s, ⟨a, ha⟩, fun x hx => ?_⟩
  obtain ⟨y, hy | rfl, hr⟩ := hs x hx
  · exact ⟨y, hy, hr⟩
  · exact ⟨y, ha, hr⟩

end cycles

section walk
variable {K V : Type} (get : K → Option V) (next : V → K)

/-- The records on the way from `k`, if the walk ends within so many look-ups. -/
def trail : ℕ → K → Option (List V)
  | 0, _ => none
  | n + 1, k =>
    match get k with
    | none => some []
    | some v => (trail n (next v)).map (v :: ·)

/-- Each record of the list is where the one before it points, and the last points nowhere. -/
def Path : K → List V → Prop
  | k, [] => get k = none
  | k, v :: l => get k = some v ∧ Path (next v) l

/-- The record of `a` points to `b`. -/
def Points (a b : K) : Prop := ∃ v, get a = some v ∧ next v = b

variable {get next} {k a b : K} {v : V} {l l' : List V} {n : ℕ}

theorem trail_eq_some_iff : trail get next n k = some l ↔ Path get next k l ∧ l.length < n := by
  induction n generalizing k l with
  | zero => simp [trail]
  | succ n ih =>
    rw [trail]
    cases hk : get k with
    | none =>
      cases l with
      | nil => simp [Path, hk]
      | cons v l => simp [Path, hk]
    | some v =>
      simp only [Option.map_eq_some_iff, ih]
      cases l with
      | nil => simp [Path, hk]
      | cons w l =>
        simp only [Path, hk, Option.some.injEq, List.cons.injEq, List.length_cons]
        constructor
        · rintro ⟨l₁, ⟨hp, hl⟩, rfl, rfl⟩
          exact ⟨⟨rfl, hp⟩, by omega⟩
        · rintro ⟨⟨rfl, hp⟩, hl⟩
          exact ⟨l, ⟨hp, by omega⟩, rfl, rfl⟩

theorem Path.unique (h : Path get next k l) (h' : Path get next k l') : l = l' := by
  induction l generalizing k l' with
  | nil =>
    cases l' with
    | nil => rfl
    | cons v l' =>
      have := h.symm.trans h'.1
      cases this
  | cons v l ih =>
    cases l' with
    | nil =>
      have := h.1.symm.trans h'
      cases this
    | cons w l' =>
      obtain rfl := Option.some.inj (h.1.symm.trans h'.1)
      rw [ih h.2 h'.2]

theorem Path.no_cycle (h : Path get next k l) (ha : Relation.ReflTransGen (Points get next) k a) :
    ¬ Relation.TransGen (Points get next) a a := by
  induction l generalizing k a with
  | nil =>
    intro hc
    have hstart : ∀ b, ¬ Points get next k b := by
      rintro b ⟨v, hv, -⟩
      cases hv.symm.trans h
    rcases ha.cases_head with rfl | ⟨b, hb, -⟩
    · obtain ⟨b, hb, -⟩ := Relation.TransGen.head'_iff.mp hc
      exact hstart b hb
    · exact hstart b hb
  | cons v l ih =>
    intro hc
    have hone : ∀ b, Points get next k b → b = next v := by
      rintro b ⟨w, hw, rfl⟩
      obtain rfl := Option.some.inj (hw.symm.trans h.1)
      rfl
    rcases ha.cases_head with rfl | ⟨b, hb, hba⟩
    · -- the cycle goes through the next record
      obtain ⟨b, hb, hbk⟩ := Relation.TransGen.head'_iff.mp hc
      obtain rfl := hone b hb
      exact ih h.2 hbk hc
    · obtain rfl := hone b hb
      exact ih h.2 hba hc

theorem exists_path_of_next (hv : get k = some v) (h : ∃ l, Path get next (next v) l) :
    ∃ l, Path get next k l := by
  obtain ⟨l, hl⟩ := h
  exact ⟨v :: l, hv, hl⟩

/-- With finitely many records, a walk ends if and only if it meets no cycle. -/
theorem exists_path_iff {s : Finset K} (hs : ∀ k v, get k = some v → k ∈ s) :
    (∃ l, Path get next k l) ↔
      ¬ ∃ a, Relation.ReflTransGen (Points get next) k a ∧
        Relation.TransGen (Points get next) a a := by
  classical
  constructor
  · rintro ⟨l, hl⟩ ⟨a, ha, hc⟩
    exact hl.no_cycle ha hc
  · intro hno
    by_contra hend
    -- the keys from which the walk goes on for ever all have a successor among them
    let lost : K → Prop := fun a =>
      Relation.ReflTransGen (Points get next) k a ∧ ¬ ∃ l, Path get next a l
    have hstep : ∀ a, lost a → a ∈ s ∧ ∃ b, lost b ∧ Points get next a b := by
      rintro a ⟨ha, hla⟩
      cases hv : get a with
      | none => exact (hla ⟨[], hv⟩).elim
      | some v =>
        exact ⟨hs a v hv, next v, ⟨ha.tail ⟨v, hv, rfl⟩, fun h => hla (exists_path_of_next hv h)⟩,
          v, hv, rfl⟩
    have hk : lost k := ⟨.refl, hend⟩
    obtain ⟨a, ha, hc⟩ := @exists_cycle _ (Points get next) (s.filter lost)
      ⟨k, Finset.mem_filter.mpr ⟨(hstep k hk).1, hk⟩⟩ (fun a ha => by
        obtain ⟨-, b, hb, hp⟩ := hstep a (Finset.mem_filter.mp ha).2
        exact ⟨b, Finset.mem_filter.mpr ⟨(hstep b hb).1, hb⟩, hp⟩)
    exact hno ⟨a, (Finset.mem_filter.mp ha).2.1, hc⟩

theorem Path.last (h : Path get next k l) (hv : l.getLast? = some v) : get (next v) = none := by
  induction l generalizing k with
  | nil => cases hv
  | cons w l ih =>
    cases l with
    | nil =>
      cases hv
      exact h.2
    | cons x l =>
      rw [List.getLast?_cons_cons] at hv
      exact ih h.2 hv

section keys
variable {key : V → K} (hkey : ∀ k v, get k = some v → key v = k)

include hkey

theorem Path.stored (h : Path get next k l) (hv : v ∈ l) : get (key v) = some v := by
  induction l generalizing k with
  | nil => cases hv
  | cons w l ih =>
    rcases List.mem_cons.mp hv with rfl | hv
    · rw [hkey k v h.1]
      exact h.1
    · exact ih h.2 hv

/-- The path from a record on the path is the rest of it. -/
theorem Path.rest (h : Path get next k l) (hv : v ∈ l) :
    ∃ l', l' <:+ l ∧ Path get next (key v) l' := by
  induction l generalizing k with
  | nil => cases hv
  | cons w l ih =>
    rcases List.mem_cons.mp hv with rfl | hv
    · refine ⟨v :: l, List.suffix_refl _, ?_⟩
      rw [hkey k v h.1]
      exact h
    · obtain ⟨l', hl', hp⟩ := ih h.2 hv
      exact ⟨l', hl'.trans (List.suffix_cons ..), hp⟩

/-- A path meets each key once. -/
theorem Path.nodup (h : Path get next k l) : (l.map key).Nodup := by
  induction l generalizing k with
  | nil => exact List.nodup_nil
  | cons v l ih =>
    refine List.nodup_cons.mpr ⟨fun hm => ?_, ih h.2⟩
    obtain ⟨w, hw, he⟩ := List.mem_map.mp hm
    obtain ⟨l', hl', hp⟩ := h.2.rest hkey hw
    rw [he, hkey k v h.1] at hp
    have hlen := hl'.length_le
    rw [← h.unique hp, List.length_cons] at hlen
    omega

theorem Path.isChain (h : Path get next k l) : l.IsChain fun v w => next v = key w := by
  induction l generalizing k with
  | nil => exact .nil
  | cons v l ih =>
    refine List.isChain_cons.mpr ⟨?_, ih h.2⟩
    cases l with
    | nil => simp
    | cons w l =>
      rintro x ⟨⟩
      exact (hkey _ _ h.2.1).symm

theorem Path.length_le {s : Finset K} (h : Path get next k l)
    (hs : ∀ k v, get k = some v → k ∈ s) : l.length ≤ s.card := by
  classical
  have hsub : (l.map key).toFinset ⊆ s := by
    intro a ha
    obtain ⟨v, hv, rfl⟩ := List.mem_map.mp (List.mem_toFinset.mp ha)
    exact hs _ _ (h.stored hkey hv)
  calc l.length = (l.map key).toFinset.card := by
        rw [List.toFinset_card_of_nodup (h.nodup hkey), List.length_map]
    _ ≤ s.card := Finset.card_le_card hsub

omit hkey in
/-- Stored records that are linked up to the end make the path. -/
theorem path_of_isChain (hnil : l = [] → get k = none) (hhead : ∀ v, l.head? = some v → key v = k)
    (hchain : l.IsChain fun v w => next v = key w) (hstored : ∀ v ∈ l, get (key v) = some v)
    (hlast : ∀ v, l.getLast? = some v → get (next v) = none) : Path get next k l := by
  induction l generalizing k with
  | nil => exact hnil rfl
  | cons v l ih =>
    obtain ⟨hnext, hchain⟩ := List.isChain_cons.mp hchain
    refine ⟨?_, ih ?_ (fun w hw => (hnext w hw).symm) hchain
      (fun w hw => hstored w (List.mem_cons_of_mem _ hw)) fun w hw => ?_⟩
    · rw [← hhead v rfl]
      exact hstored v List.mem_cons_self
    · rintro rfl
      exact hlast v rfl
    · have hl : l ≠ [] := by
        rintro rfl
        cases hw
      exact hlast w (by rw [List.getLast?_cons_of_ne_nil hl, hw])

end keys

section descending
variable [Preorder K] (hlt : ∀ k v, get k = some v → next v < k)

include hlt

theorem exists_path [WellFoundedLT K] (k : K) : ∃ l, Path get next k l := by
  induction k using WellFoundedLT.induction with
  | _ k ih =>
    cases hv : get k with
    | none => exact ⟨[], hv⟩
    | some v => exact exists_path_of_next hv (ih _ (hlt k v hv))

variable {key : V → K} (hkey : ∀ k v, get k = some v → key v = k)

include hkey

theorem Path.le (h : Path get next k l) (hv : v ∈ l) : key v ≤ k := by
  induction l generalizing k with
  | nil => cases hv
  | cons w l ih =>
    rcases List.mem_cons.mp hv with rfl | hv
    · exact (hkey k v h.1).le
    · exact (ih h.2 hv).trans (hlt k w h.1).le

theorem Path.descending (h : Path get next k l) : (l.map key).Pairwise (· > ·) := by
  induction l generalizing k with
  | nil => exact List.Pairwise.nil
  | cons v l ih =>
    refine List.pairwise_cons.mpr ⟨fun a ha => ?_, ih h.2⟩
    obtain ⟨w, hw, rfl⟩ := List.mem_map.mp ha
    rw [hkey k v h.1]
    exact (h.2.le hlt hkey hw).trans_lt (hlt k v h.1)

end descending
end walk
end Pointers
