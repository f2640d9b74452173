import Mathlib.Data.List.Basic
import IceLog.Concurrency.Solo

/-! The actions of one thread, taken out of the history of all: they are a path through the code
of its request. -/
namespace Interleaved

variable {A : Type} {R : A → Type} {Q V O S α β : Type}

/-- `p'` is what is left of `p` after the given actions with their responses. -/
inductive Prog.Leaves : Prog A R α → List (Σ a, R a) → Prog A R α → Prop
  | nil {p : Prog A R α} : Leaves p [] p
  | cons {a : A} {k : R a → Prog A R α} {r : R a} {tr : List (Σ a, R a)} {p' : Prog A R α} :
      Leaves (k r) tr p' → Leaves (.act a k) (⟨a, r⟩ :: tr) p'

/-- What an event makes the thread `i` do. -/
def Event.actionOf (i : ℕ) : Event A R Q → Option (Σ a, R a)
  | .act j _ a r => if j = i then some ⟨a, r⟩ else none
  | _ => none

/-- What the thread `i` has done, oldest first. -/
def actionsOf (i : ℕ) (w : Hist A R Q S) : List (Σ a, R a) :=
  w.past.reverse.filterMap fun p => p.2.actionOf i

/-- Every thread is where its actions have led it. -/
structure Traced (sys : System A R Q V O S) (c : Config A R Q V S) : Prop where
  leaves : ∀ i t, c.thread i = some t →
    (sys.code t.request).Leaves (actionsOf i c.world) t.code
  fresh : ∀ i, c.thread i = none → actionsOf i c.world = []
  /-- An event carries the request of its thread. -/
  request : ∀ i q a (r : R a) s, (s, .act i q a r) ∈ c.world.past →
    ∃ t, c.thread i = some t ∧ t.request = q

section traced
variable {sys : System A R Q V O S} {c c' : Config A R Q V S} {e : Event A R Q} {i j : ℕ} {q : Q}
  {a : A} {r : R a} {k : R a → Prog A R α} {p p' : Prog A R α} {tr : List (Σ a, R a)} {s : S}
  {w : Hist A R Q S}

theorem Prog.Leaves.snoc (h : p.Leaves tr (.act a k)) (r : R a) :
    p.Leaves (tr ++ [⟨a, r⟩]) (k r) := by
  generalize hp' : Prog.act a k = p' at h
  induction h with
  | nil =>
    subst hp'
    exact .cons .nil
  | cons _ ih => exact .cons (ih hp')

theorem Prog.Leaves.reaches (h : p.Leaves tr p') : p.Reaches p' := by
  suffices hp : ∀ p₀ : Prog A R α, p₀.Reaches p → p₀.Reaches p' from hp p .refl
  induction h with
  | nil => exact fun _ => id
  | cons _ ih => exact fun p₀ hr => ih p₀ (.act _ hr)

theorem Prog.Ends.leaves {P : α → Prop} (h : p.Ends P) (hl : p.Leaves tr p') : p'.Ends P := by
  induction hl with
  | nil => exact h
  | cons _ ih => exact ih (h _)

/-- What follows an action of `φ`. -/
theorem Prog.Leads.leaves {φ : A → Prop} {P : α → Prop} (h : p.Leads φ P) (hl : p.Leaves tr p')
    (ha : ∃ e ∈ tr, φ e.1) : p'.Ends P := by
  induction hl with
  | nil =>
    obtain ⟨e, he, -⟩ := ha
    cases he
  | @cons a k r tr p' hl ih =>
    obtain ⟨e, he, ha⟩ := ha
    rcases List.mem_cons.mp he with rfl | he
    · exact (h.1 ha r).leaves hl
    · exact ih (h.2 r) ⟨e, he, ha⟩

theorem Prog.LeadsBy.leaves {φ ψ : A → Prop} {P : α → Prop} (h : p.LeadsBy φ ψ P)
    (hl : p.Leaves tr p') (ha : ∃ e ∈ tr, φ e.1) : p'.Ends P ∧ p'.All fun b _ => ψ b := by
  induction hl with
  | nil =>
    obtain ⟨e, he, -⟩ := ha
    cases he
  | @cons a k r tr p' hl ih =>
    obtain ⟨e, he, ha⟩ := ha
    rcases List.mem_cons.mp he with rfl | he
    · obtain ⟨hends, hall⟩ := h.1 ha r
      exact ⟨hends.leaves hl, hall.reaches hl.reaches⟩
    · exact ih (h.2 r) ⟨e, he, ha⟩

/-- Two programs in a row. -/
theorem Prog.Leaves.bind_cases {f : α → Prog A R β} {p' : Prog A R β}
    (h : (p.bind f).Leaves tr p') : (∃ p₁, p.Leaves tr p₁ ∧ p' = p₁.bind f) ∨
      ∃ x tr₁ tr₂, tr = tr₁ ++ tr₂ ∧ p.Leaves tr₁ (.ret x) ∧ (f x).Leaves tr₂ p' := by
  induction p generalizing tr with
  | ret x => exact .inr ⟨x, [], tr, rfl, .nil, h⟩
  | throw =>
    cases h
    exact .inl ⟨.throw, .nil, rfl⟩
  | act a k ih =>
    cases h with
    | nil => exact .inl ⟨_, .nil, rfl⟩
    | cons h =>
      rcases ih _ h with ⟨p₁, h₁, rfl⟩ | ⟨x, tr₁, tr₂, rfl, h₁, h₂⟩
      · exact .inl ⟨p₁, .cons h₁, rfl⟩
      · exact .inr ⟨x, _ :: tr₁, tr₂, rfl, .cons h₁, h₂⟩

/-- An action of the first of two programs, or of the second. -/
theorem Prog.Leaves.act_cases {p : Prog A R α} {f : α → Prog A R β} {k : R a → Prog A R β}
    (h : (p.bind f).Leaves tr (.act a k)) : (∃ k', p.Leaves tr (.act a k')) ∨
      ∃ x tr₁ tr₂, tr = tr₁ ++ tr₂ ∧ p.Leaves tr₁ (.ret x) ∧ (f x).Leaves tr₂ (.act a k) := by
  rcases h.bind_cases with ⟨p₁, h₁, hp⟩ | h
  · cases p₁ with
    | ret x => exact .inr ⟨x, tr, [], by simp, h₁, hp ▸ .nil⟩
    | throw => cases hp
    | act b k' =>
      cases hp
      exact .inl ⟨k', h₁⟩
  · exact .inr h

@[simp] theorem actionsOf_act : actionsOf i (w.next (.act i q a r) s) =
    actionsOf i w ++ [⟨a, r⟩] := by
  simp [actionsOf, Event.actionOf]

theorem actionsOf_next (he : e.actionOf i = none) :
    actionsOf i (w.next e s) = actionsOf i w := by
  simp [actionsOf, he]

theorem actionOf_of_ne (he : e.actor ≠ some i) : e.actionOf i = none := by
  cases e with
  | act j q a r =>
    have : j ≠ i := fun hj => he (by rw [hj]; rfl)
    simp [Event.actionOf, this]
  | call | drift => rfl

theorem mem_actionsOf : ⟨a, r⟩ ∈ actionsOf i w ↔ ∃ s q, (s, Event.act i q a r) ∈ w.past := by
  rw [actionsOf, List.mem_filterMap]
  constructor
  · rintro ⟨⟨s, e⟩, hm, he⟩
    cases e with
    | act j q a' r' =>
      simp only [Event.actionOf] at he
      split at he
      · rename_i hj
        subst hj
        cases he
        exact ⟨s, q, List.mem_reverse.mp hm⟩
      · cases he
    | call | drift => cases he
  · rintro ⟨s, q, hm⟩
    exact ⟨_, List.mem_reverse.mpr hm, by simp [Event.actionOf]⟩

/-- What a thread has done, it has done at some moment. -/
theorem exists_before_of_actionsOf {tr' : List (Σ a, R a)}
    (h : actionsOf i w = tr ++ ⟨a, r⟩ :: tr') : ∃ (v : Hist A R Q S) (q : Q) (s : S),
      (v.next (.act i q a r) s).Before w ∧ actionsOf i v = tr := by
  obtain ⟨past, now⟩ := w
  induction past generalizing now tr' with
  | nil => simp [actionsOf] at h
  | cons p past ih =>
    obtain ⟨s, e⟩ := p
    have hnext : (⟨(s, e) :: past, now⟩ : Hist A R Q S) = World.next ⟨past, s⟩ e now := rfl
    rw [hnext] at h ⊢
    have hrest : ∀ {tr'}, actionsOf i (⟨past, s⟩ : Hist A R Q S) = tr ++ ⟨a, r⟩ :: tr' →
        ∃ (v : Hist A R Q S) (q : Q) (s' : S),
          (v.next (.act i q a r) s').Before (World.next ⟨past, s⟩ e now) ∧ actionsOf i v = tr := by
      intro tr' h
      obtain ⟨v, q, s', hb, hv⟩ := ih s h
      exact ⟨v, q, s', hb.next e now, hv⟩
    cases he : e.actionOf i with
    | none => exact hrest (actionsOf_next he ▸ h)
    | some b =>
      cases e with
      | call | drift => cases he
      | act j q a' r' =>
        simp only [Event.actionOf, Option.ite_none_right_eq_some, Option.some.injEq] at he
        obtain ⟨rfl, -⟩ := he
        rw [actionsOf_act] at h
        -- the action is the last one, or an earlier one
        rcases List.eq_nil_or_concat tr' with rfl | ⟨tr', b', rfl⟩
        · obtain ⟨htr, hb⟩ := List.append_inj' h rfl
          cases hb
          exact ⟨_, q, now, .refl, htr⟩
        · rw [List.concat_eq_append, ← List.cons_append, ← List.append_assoc] at h
          exact hrest (List.append_inj' h rfl).1

theorem traced_initial : Traced sys (.initial s) where
  leaves i t ht := by cases ht
  fresh i hi := rfl
  request i q a r s hm := by cases hm

theorem traced_step (h : Traced sys c) (hs : Step sys c e c') : Traced sys c' := by
  cases hs with
  | @call i q hi ha =>
    have hact : ∀ j, actionsOf j (c.world.next (.call i q) c.state) = actionsOf j c.world :=
      fun j => actionsOf_next rfl
    refine ⟨fun j t ht => ?_, fun j hj => ?_, fun j q' a r s hm => ?_⟩
    · rw [Config.put_world, hact]
      by_cases hij : j = i
      · subst hij
        rw [Config.put_thread_self] at ht
        cases ht
        rw [h.fresh j hi]
        exact .nil
      · rw [Config.put_thread_of_ne _ _ _ _ hij] at ht
        exact h.leaves j t ht
    · rw [Config.put_world, hact]
      by_cases hij : j = i
      · subst hij
        simp at hj
      · rw [Config.put_thread_of_ne _ _ _ _ hij] at hj
        exact h.fresh j hj
    · rcases List.mem_cons.mp hm with hm | hm
      · cases hm
      · obtain ⟨t, ht, hq⟩ := h.request j q' a r s hm
        have hij : j ≠ i := by
          rintro rfl
          simp [hi] at ht
        exact ⟨t, by rw [Config.put_thread_of_ne _ _ _ _ hij, ht], hq⟩
  | @act i q a k r s hi hx =>
    refine ⟨fun j t ht => ?_, fun j hj => ?_, fun j q' a' r' s' hm => ?_⟩
    · by_cases hij : j = i
      · subst hij
        rw [Config.put_thread_self] at ht
        cases ht
        rw [Config.put_world, actionsOf_act]
        exact (h.leaves j _ hi).snoc r
      · rw [Config.put_thread_of_ne _ _ _ _ hij] at ht
        rw [Config.put_world, actionsOf_next (actionOf_of_ne (by simp [Event.actor, Ne.symm hij]))]
        exact h.leaves j t ht
    · by_cases hij : j = i
      · subst hij
        simp at hj
      · rw [Config.put_thread_of_ne _ _ _ _ hij] at hj
        rw [Config.put_world, actionsOf_next (actionOf_of_ne (by simp [Event.actor, Ne.symm hij]))]
        exact h.fresh j hj
    · by_cases hij : j = i
      · subst hij
        refine ⟨_, Config.put_thread_self .., ?_⟩
        rcases List.mem_cons.mp hm with hm | hm
        · cases hm
          rfl
        · obtain ⟨t, ht, hq⟩ := h.request j q' a' r' s' hm
          cases hi.symm.trans ht
          exact hq
      · rw [Config.put_thread_of_ne _ _ _ _ hij]
        rcases List.mem_cons.mp hm with hm | hm
        · cases hm
          exact absurd rfl hij
        · exact h.request j q' a' r' s' hm
  | @drift s hd =>
    have hact : ∀ j, actionsOf j (c.world.next .drift s) = actionsOf j c.world :=
      fun j => actionsOf_next rfl
    refine ⟨fun j t ht => ?_, fun j hj => ?_, fun j q' a r s hm => ?_⟩
    · exact hact j ▸ h.leaves j t ht
    · exact (hact j).trans (h.fresh j hj)
    · rcases List.mem_cons.mp hm with hm | hm
      · cases hm
      · exact h.request j q' a r s hm

end traced
end Interleaved
