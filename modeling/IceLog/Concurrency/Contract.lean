import Mathlib.Logic.Relation
import IceLog.Concurrency.Logic

/-! Soundness of the triples. Every action, given its needs, keeps a promise to the other
threads; a thread may rely on the promises of all others. If all handlers are safe, every
step of every interleaving keeps its promise, and what has returned meets its postcondition. -/
namespace Interleaved

variable {A : Type} {R : A → Type} {Q V O S α : Type}

abbrev Hist (A : Type) (R : A → Type) (Q S : Type) : Type := World S (Event A R Q)

/-- No event of thread `i` has happened. -/
def Fresh (i : ℕ) (w : Hist A R Q S) : Prop := ∀ p ∈ w.past, p.2.actor ≠ some i

/-- `w` is the moment at which thread `i` was called with `q`. -/
def CalledAt (i : ℕ) (q : Q) (w : Hist A R Q S) : Prop :=
  ∃ v : Hist A R Q S, Fresh i v ∧ w = v.next (.call i q) v.now

/-- `w'` is `w` after an action of thread `i`. -/
def Acted (i : ℕ) (w w' : Hist A R Q S) : Prop :=
  ∃ q a r s, w' = w.next (.act i q a r) s

theorem acted_next {i : ℕ} {q : Q} {a : A} {r : R a} {s : S} (w : Hist A R Q S) :
    Acted i w (w.next (.act i q a r) s) := ⟨q, a, r, s, rfl⟩

theorem Acted.before {i : ℕ} {w w' : Hist A R Q S} (h : Acted i w w') : w.Before w' := by
  obtain ⟨q, a, r, s, rfl⟩ := h
  exact World.before_next _ _ _

/-- Two actions of different threads are one after the other. -/
theorem Acted.ordered {i j : ℕ} {w u u' v v' : Hist A R Q S} (h : Acted i u v)
    (h' : Acted j u' v') (hij : i ≠ j) (hv : v.Before w) (hv' : v'.Before w) :
    v.Before u' ∨ v'.Before u := by
  obtain ⟨q, a, r, s, rfl⟩ := h
  obtain ⟨q', a', r', s', rfl⟩ := h'
  rcases hv.total hv' with h | h
  · rcases World.before_next_iff.mp h with h | h
    · obtain ⟨-, he, -⟩ := World.next_inj h
      cases he
      exact absurd rfl hij
    · exact .inl h
  · rcases World.before_next_iff.mp h with h | h
    · obtain ⟨-, he, -⟩ := World.next_inj h
      cases he
      exact absurd rfl hij
    · exact .inr h

structure Contract (sys : System A R Q V O S) where
  inv : Hist A R Q S → Prop
  needs : ℕ → Q → A → Hist A R Q S → Prop
  promise : Hist A R Q S → Event A R Q → S → Prop
  act : ∀ {i q a r s w}, inv w → needs i q a w → sys.Exec i q a w.now r s →
    promise w (.act i q a r) s
  call : ∀ {i q w}, inv w → Fresh i w → sys.admits q = true → promise w (.call i q) w.now
  drift : ∀ {s w}, inv w → sys.drifts w.now s → promise w .drift s
  keeps : ∀ {w e s}, inv w → promise w e s → inv (w.next e s)

namespace Contract

variable {sys : System A R Q V O S} (C : Contract sys)

/-- One step that is not thread `i`'s and keeps its promise. -/
def Other (i : ℕ) (w w' : Hist A R Q S) : Prop :=
  ∃ e s, e.actor ≠ some i ∧ C.inv w ∧ C.promise w e s ∧ w' = w.next e s

/-- What may happen between two actions of thread `i`: any steps of the others, or nothing if
the thread runs alone. -/
def Between (others : Bool) (i : ℕ) (w w' : Hist A R Q S) : Prop :=
  if others then Relation.ReflTransGen (C.Other i) w w' else w = w'

theorem Between.toOthers {others : Bool} {i : ℕ} {w w' : Hist A R Q S}
    (h : C.Between others i w w') : Relation.ReflTransGen (C.Other i) w w' := by
  cases others with
  | false => exact h ▸ .refl
  | true => exact h

/-- What holds of each step of another thread holds between two actions. -/
theorem Between.lift {others : Bool} {i : ℕ} {w w' : Hist A R Q S} (h : C.Between others i w w')
    {K : Hist A R Q S → Hist A R Q S → Prop} (hrefl : ∀ u, K u u)
    (htrans : ∀ {u v x}, K u v → K v x → K u x)
    (hstep : ∀ u e s, e.actor ≠ some i → C.inv u → C.promise u e s → K u (u.next e s)) :
    K w w' := by
  have hr := h.toOthers
  clear h
  induction hr with
  | refl => exact hrefl w
  | tail _ ho ih =>
    obtain ⟨e, s, he, hi, hp, rfl⟩ := ho
    exact htrans ih (hstep _ e s he hi hp)

/-- A thread's view of the interleaving. -/
def theory (others : Bool) (i : ℕ) (q : Q) : Theory A R (Hist A R Q S) where
  rely := C.Between others i
  needs a w := C.inv w ∧ C.needs i q a w
  step a w r w' := ∃ s, sys.Exec i q a w.now r s ∧ C.promise w (.act i q a r) s ∧
    w' = w.next (.act i q a r) s
  rely_refl w := by cases others <;> simp [Between, Relation.ReflTransGen.refl]
  rely_trans h h' := by
    cases others with
    | false => exact Eq.trans h h'
    | true => exact Relation.ReflTransGen.trans h h'

/-- What the handlers are proved to do: `post i q u x w` says that thread `i`, called with `q`
at the moment `u`, may return `x` in the world `w`. -/
structure Spec (V A : Type) (R : A → Type) (Q S : Type) where
  post : ℕ → Q → Hist A R Q S → V → Hist A R Q S → Prop
  exc : ℕ → Q → Hist A R Q S → Hist A R Q S → Prop

def Verified (spec : Spec V A R Q S) : Prop :=
  ∀ i q w, C.inv w → Fresh i w → sys.admits q = true →
    Safe (C.theory true i q) (spec.post i q (w.next (.call i q) w.now))
      (spec.exc i q (w.next (.call i q) w.now)) (sys.code q) (w.next (.call i q) w.now)

/-- The invariant of a configuration: every thread is safe from here on. -/
structure Good (spec : Spec V A R Q S) (c : Config A R Q V S) : Prop where
  inv : C.inv c.world
  fresh : ∀ i, c.thread i = none → Fresh i c.world
  safe : ∀ i t, c.thread i = some t → ∃ u, u.Before c.world ∧ CalledAt i t.request u ∧
    sys.admits t.request = true ∧
    Safe (C.theory true i t.request) (spec.post i t.request u) (spec.exc i t.request u) t.code c.world

section soundness
variable {C} {spec : Spec V A R Q S} {c c' : Config A R Q V S} {e : Event A R Q}

theorem fresh_next {i : ℕ} {w : Hist A R Q S} {e : Event A R Q} {s : S} (h : Fresh i w)
    (he : e.actor ≠ some i) : Fresh i (w.next e s) := by
  intro p hp
  rcases List.mem_cons.mp hp with rfl | hp
  · exact he
  · exact h p hp

theorem good_initial {s : S} (h : C.inv ⟨[], s⟩) : C.Good spec (Config.initial s) where
  inv := h
  fresh i _ p hp := by simp [Config.initial] at hp
  safe i t ht := by simp [Config.initial] at ht

/-- A thread knows what it needs for its next action. -/
theorem good_needs (hg : C.Good spec c) {i : ℕ} {q : Q} {a : A} {k : R a → Prog A R V}
    (hi : c.thread i = some ⟨q, .act a k⟩) : C.needs i q a c.world := by
  obtain ⟨u, hu, hc, ha, hsafe⟩ := hg.safe i _ hi
  exact ((hsafe _ .refl).1).2

/-- The step of a good configuration keeps its promise. -/
theorem good_promise (hg : C.Good spec c) (hs : Step sys c e c') :
    C.promise c.world e c'.state := by
  cases hs with
  | call hi ha => exact C.call hg.inv (hg.fresh _ hi) ha
  | act hi hx => exact C.act hg.inv (good_needs hg hi) hx
  | drift hd => exact C.drift hg.inv hd

theorem good_step (hv : C.Verified spec) (hg : C.Good spec c) (hs : Step sys c e c') :
    C.Good spec c' := by
  have hp := good_promise hg hs
  have hw := hs.world_eq
  have hinv : C.inv c'.world := hw ▸ C.keeps hg.inv hp
  have hother : ∀ j t, e.actor ≠ some j → c.thread j = some t → ∃ u, u.Before c'.world ∧
      CalledAt j t.request u ∧ sys.admits t.request = true ∧
      Safe (C.theory true j t.request) (spec.post j t.request u) (spec.exc j t.request u)
        t.code c'.world := by
    intro j t hj ht
    obtain ⟨u, hu, hc, ha, hsafe⟩ := hg.safe j t ht
    refine ⟨u, hw ▸ hu.next _ _, hc, ha, hsafe.rely ?_⟩
    exact .single ⟨e, c'.state, hj, hg.inv, hp, hw⟩
  -- The thread that the step moves; the others are as they were, but for the moment.
  have hput : ∀ i (t₀ : Thread A R Q V) (s : S), e.actor = some i → c' = c.put i t₀ e s →
      (∃ u, u.Before c'.world ∧ CalledAt i t₀.request u ∧ sys.admits t₀.request = true ∧
        Safe (C.theory true i t₀.request) (spec.post i t₀.request u) (spec.exc i t₀.request u)
          t₀.code c'.world) → C.Good spec c' := by
    rintro i t₀ s he rfl ht₀
    refine ⟨hinv, fun j hj => ?_, fun j t ht => ?_⟩
    · by_cases hij : j = i
      · subst hij
        simp at hj
      · rw [Config.put_thread_of_ne _ _ _ _ hij] at hj
        exact fresh_next (hg.fresh j hj) (by simpa [he] using Ne.symm hij)
    · by_cases hij : j = i
      · subst hij
        rw [Config.put_thread_self] at ht
        obtain rfl := Option.some.inj ht
        exact ht₀
      · rw [Config.put_thread_of_ne _ _ _ _ hij] at ht
        exact hother j t (by simpa [he] using Ne.symm hij) ht
  cases hs with
  | @call i q hi ha =>
    have hf := hg.fresh i hi
    exact hput i _ _ rfl rfl ⟨_, .refl, ⟨_, hf, rfl⟩, ha, hv i q c.world hg.inv hf ha⟩
  | @act i q a k r s hi hx =>
    obtain ⟨u, hu, hc, ha, hsafe⟩ := hg.safe i _ hi
    exact hput i _ _ rfl rfl ⟨u, hu.next _ _, hc, ha, (hsafe _ .refl).2 r _ ⟨s, hx, hp, rfl⟩⟩
  | @drift s hd =>
    exact ⟨hinv, fun j hj => fresh_next (hg.fresh j hj) (by simp [Event.actor]),
      fun j t ht => hother j t (by simp [Event.actor]) ht⟩

theorem good_run (hv : C.Verified spec) (hg : C.Good spec c) (hr : Run sys c c') :
    C.Good spec c' := by
  induction hr with
  | refl => exact hg
  | step _ hs ih => exact good_step hv ih hs

/-- What a thread called after `c` has returned meets its postcondition, for a moment of call
that lies after `c`. -/
theorem returned_post (hv : C.Verified spec) (hg : C.Good spec c) (hr : Run sys c c') {i : ℕ}
    {q : Q} {x : V} (hi : c.thread i = none) (hx : c'.Returned i q x) :
    ∃ u, c.world.Before u ∧ u.Before c'.world ∧ CalledAt i q u ∧ sys.admits q = true ∧
      spec.post i q u x c'.world := by
  obtain ⟨u, hu, hc, ha, hsafe⟩ := (good_run hv hg hr).safe i _ hx
  refine ⟨u, ?_, hu, hc, ha, hsafe _ .refl⟩
  rcases hr.before.total hu with h | h
  · exact h
  · exfalso
    obtain ⟨v, -, rfl⟩ := hc
    have : (v.now, Event.call i q) ∈ c.world.past := by
      clear hu
      generalize hw : c.world = w at h
      clear hw
      induction h with
      | refl => simp
      | next e s _ ih => exact List.mem_cons_of_mem _ ih
    exact hg.fresh i hi _ this rfl

end soundness
end Contract

end Interleaved
