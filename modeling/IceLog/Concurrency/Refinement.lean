import Mathlib.Logic.Relation
import IceLog.Concurrency.World

/-! Threads that carry out each action of their code in several steps, between which other threads
run, and the proof that they do what the system of atomic actions does: every action takes effect
in one of its steps. -/
namespace Interleaved

variable {A : Type} {R : A → Type} {Q V O S C L T : Type}

/-- How a thread carries out an action. `L` says where in the action it is; a step leads on, or it
answers. The choice `C` resolves what the thread does not decide. -/
structure Machine (A : Type) (R : A → Type) (Q V C L T : Type) where
  code : Q → Prog A R V
  admits : Q → Bool
  start : L
  step : C → ℕ → (a : A) → L → T → Option ((L ⊕ R a) × T)
  allows : Q → A → C → Bool
  drifts : T → T → Prop

namespace Machine

structure Thread (A : Type) (R : A → Type) (Q V L : Type) : Type where
  request : Q
  code : Prog A R V
  pc : L

structure Config (A : Type) (R : A → Type) (Q V L T : Type) : Type where
  state : T
  thread : ℕ → Option (Thread A R Q V L)

namespace Config

variable (d : Config A R Q V L T)

def put (i : ℕ) (t : Thread A R Q V L) (s : T) : Config A R Q V L T :=
  ⟨s, Function.update d.thread i (some t)⟩

/-- No call has been made yet. -/
def initial (s : T) : Config A R Q V L T := ⟨s, fun _ => none⟩

/-- Thread `i` has returned `x` for the request `q`. -/
def Returned (i : ℕ) (q : Q) (x : V) : Prop := ∃ l, d.thread i = some ⟨q, .ret x, l⟩

/-- The request of a thread that has returned, and what it has returned. -/
def reply (i : ℕ) : Option (Q × V) :=
  (d.thread i).bind fun t => t.code.result.map fun x => (t.request, x)

/-- Thread `i` serves `q` and has not stopped. -/
def Running (i : ℕ) (q : Q) : Prop := ∃ a k l, d.thread i = some ⟨q, .act a k, l⟩

@[simp] theorem put_state (i : ℕ) (t : Thread A R Q V L) (s : T) : (d.put i t s).state = s := rfl

@[simp] theorem put_thread_self (i : ℕ) (t : Thread A R Q V L) (s : T) :
    (d.put i t s).thread i = some t := by
  simp [put]

theorem put_thread_of_ne {i j : ℕ} (t : Thread A R Q V L) (s : T) (h : j ≠ i) :
    (d.put i t s).thread j = d.thread j := by
  simp [put, h]

theorem returned_of_reply {d : Config A R Q V L T} {i : ℕ} {q : Q} {x : V}
    (h : d.reply i = some (q, x)) : d.Returned i q x := by
  simp only [reply, Option.bind_eq_some_iff, Option.map_eq_some_iff, Prod.mk.injEq] at h
  obtain ⟨⟨q', p, l⟩, ht, x', hx, rfl, rfl⟩ := h
  obtain rfl := Prog.result_eq_some hx
  exact ⟨l, ht⟩

end Config

/-- A call, a step of a thread within an action, its last step, or a change by the surroundings. -/
inductive Step (M : Machine A R Q V C L T) : Config A R Q V L T → Config A R Q V L T → Prop
  | call {d : Config A R Q V L T} {i : ℕ} {q : Q} :
      d.thread i = none → M.admits q = true →
      Step M d (d.put i ⟨q, M.code q, M.start⟩ d.state)
  | go {d : Config A R Q V L T} {i : ℕ} {q : Q} {a : A} {k : R a → Prog A R V} {l l' : L} {o : C}
      {s : T} : d.thread i = some ⟨q, .act a k, l⟩ → M.allows q a o = true →
      M.step o i a l d.state = some (.inl l', s) → Step M d (d.put i ⟨q, .act a k, l'⟩ s)
  | answer {d : Config A R Q V L T} {i : ℕ} {q : Q} {a : A} {k : R a → Prog A R V} {l : L} {r : R a}
      {o : C} {s : T} : d.thread i = some ⟨q, .act a k, l⟩ → M.allows q a o = true →
      M.step o i a l d.state = some (.inr r, s) → Step M d (d.put i ⟨q, k r, M.start⟩ s)
  | drift {d : Config A R Q V L T} {s : T} : M.drifts d.state s → Step M d ⟨s, d.thread⟩

/-- Some interleaving leads from one configuration to the other. -/
def Run (M : Machine A R Q V C L T) : Config A R Q V L T → Config A R Q V L T → Prop :=
  Relation.ReflTransGen M.Step

/-! Concrete runs: a list of moves resolves every choice, so the run can be computed. -/

def move (M : Machine A R Q V C L T) (d : Config A R Q V L T) :
    Move Q C → Option (Config A R Q V L T)
  | .call i q =>
    match d.thread i with
    | none => if M.admits q then some (d.put i ⟨q, M.code q, M.start⟩ d.state) else none
    | some _ => none
  | .step i o =>
    match d.thread i with
    | some ⟨q, .act a k, l⟩ =>
      if M.allows q a o then
        (M.step o i a l d.state).map fun (y, s) =>
          match y with
          | .inl l' => d.put i ⟨q, .act a k, l'⟩ s
          | .inr r => d.put i ⟨q, k r, M.start⟩ s
      else none
    | _ => none

def moves (M : Machine A R Q V C L T) (d : Config A R Q V L T) :
    List (Move Q C) → Option (Config A R Q V L T)
  | [] => some d
  | m :: ms => (M.move d m).bind fun d' => M.moves d' ms

theorem step_of_move {M : Machine A R Q V C L T} {d d' : Config A R Q V L T} {m : Move Q C}
    (h : M.move d m = some d') : M.Step d d' := by
  cases m with
  | call i q =>
    simp only [move] at h
    split at h
    · rename_i hi
      split at h
      · rename_i ha
        cases h
        exact .call hi ha
      · cases h
    · cases h
  | step i o =>
    simp only [move] at h
    split at h
    · rename_i q a k l hi
      split at h
      · rename_i ha
        obtain ⟨⟨y, s⟩, hx, rfl⟩ := Option.map_eq_some_iff.mp h
        cases y with
        | inl l' => exact .go hi ha hx
        | inr r => exact .answer hi ha hx
      · cases h
    · cases h

/-- A computed run is a run. -/
theorem run_of_moves {M : Machine A R Q V C L T} {d d' : Config A R Q V L T} {ms : List (Move Q C)}
    (h : M.moves d ms = some d') : M.Run d d' := by
  induction ms generalizing d with
  | nil =>
    cases h
    exact .refl
  | cons m ms ih =>
    obtain ⟨d₁, h₁, h'⟩ := Option.bind_eq_some_iff.mp h
    exact .head (step_of_move h₁) (ih h')

end Machine

/-- What a step of an action does: nothing that can be seen, or the whole action with the
response `r`, once. -/
inductive Takes (sys : System A R Q V O S) (i : ℕ) (q : Q) (a : A) (s : S) :
    Option (R a) → Option (R a) → S → Prop
  | still (x : Option (R a)) : Takes sys i q a s x x s
  | effect {r : R a} {s' : S} : sys.Exec i q a s r s' → Takes sys i q a s none (some r) s'

/-- The machine carries out the actions of the system. What a thread knows at each place of an
action must outlast the steps of the others, that is `rely`; and of the system, a thread may use
what holds before each of its actions, that is `pre`. -/
structure Implements (M : Machine A R Q V C L T) (sys : System A R Q V O S) where
  abs : T → S
  inv : T → Prop
  idle : ℕ → T → Prop
  during : ℕ → (a : A) → L → Option (R a) → T → Prop
  pre : ℕ → Q → A → S → Prop
  rely : ℕ → T → T → Prop
  code : M.code = sys.code
  admits : M.admits = sys.admits
  idle_stable : ∀ {j t t'}, rely j t t' → idle j t → idle j t'
  during_stable : ∀ {j a l x t t'}, rely j t t' → during j a l x t → during j a l x t'
  start : ∀ {i a t}, idle i t → during i a M.start none t
  guarantee : ∀ {i q a l x t o y t'}, inv t → during i a l x t → (x = none → pre i q a (abs t)) →
    M.allows q a o = true → M.step o i a l t = some (y, t') → inv t' ∧ ∀ j, j ≠ i → rely j t t'
  go : ∀ {i q a l x t o l' t'}, inv t → during i a l x t → (x = none → pre i q a (abs t)) →
    M.allows q a o = true → M.step o i a l t = some (.inl l', t') →
    ∃ x', Takes sys i q a (abs t) x x' (abs t') ∧ during i a l' x' t'
  answer : ∀ {i q a l x t o r t'}, inv t → during i a l x t → (x = none → pre i q a (abs t)) →
    M.allows q a o = true → M.step o i a l t = some (.inr r, t') →
    Takes sys i q a (abs t) x (some r) (abs t') ∧ idle i t'
  drift : ∀ {t t'}, inv t → M.drifts t t' →
    inv t' ∧ sys.drifts (abs t) (abs t') ∧ ∀ j, rely j t t'

namespace Implements

variable {M : Machine A R Q V C L T} {sys : System A R Q V O S} (I : Implements M sys)

/-- A thread in the middle of an action, and the same thread with the action before it or, once it
has taken effect, behind it. -/
inductive Tracks (i : ℕ) (t : T) : Option (Machine.Thread A R Q V L) → Option (Thread A R Q V) → Prop
  | absent : I.idle i t → Tracks i t none none
  | stopped {q : Q} {p : Prog A R V} {l : L} : p.Finished → I.idle i t →
      Tracks i t (some ⟨q, p, l⟩) (some ⟨q, p⟩)
  | before {q : Q} {a : A} {k : R a → Prog A R V} {l : L} : I.during i a l none t →
      Tracks i t (some ⟨q, .act a k, l⟩) (some ⟨q, .act a k⟩)
  | after {q : Q} {a : A} {k : R a → Prog A R V} {l : L} {r : R a} : I.during i a l (some r) t →
      Tracks i t (some ⟨q, .act a k, l⟩) (some ⟨q, k r⟩)

/-- `c` is what `d` comes to when each action happens at the moment it takes effect. -/
structure Matches (c : Config A R Q V S) (d : Machine.Config A R Q V L T) : Prop where
  state : c.state = I.abs d.state
  inv : I.inv d.state
  tracks : ∀ i, I.Tracks i d.state (d.thread i) (c.thread i)

variable {I} {c c' : Config A R Q V S} {d d' : Machine.Config A R Q V L T} {i : ℕ} {q : Q} {x : V}

theorem Tracks.rely {t t' : T} {e : Option (Machine.Thread A R Q V L)} {b : Option (Thread A R Q V)}
    (h : I.Tracks i t e b) (hr : I.rely i t t') : I.Tracks i t' e b := by
  cases h with
  | absent hi => exact .absent (I.idle_stable hr hi)
  | stopped hf hi => exact .stopped hf (I.idle_stable hr hi)
  | before hd => exact .before (I.during_stable hr hd)
  | after hd => exact .after (I.during_stable hr hd)

/-- A thread that is about to begin with what is left of its code. -/
theorem tracks_start {t : T} {p : Prog A R V} (hi : I.idle i t) :
    I.Tracks i t (some ⟨q, p, M.start⟩) (some ⟨q, p⟩) := by
  cases p with
  | ret | throw => exact .stopped trivial hi
  | act a k => exact .before (I.start hi)

/-- What a thread in an action has done of it. -/
theorem Tracks.during {t : T} {a : A} {k : R a → Prog A R V} {l : L} {b : Option (Thread A R Q V)}
    (h : I.Tracks i t (some ⟨q, .act a k, l⟩) b) : ∃ x, I.during i a l x t ∧
      b = some ⟨q, x.elim (.act a k) k⟩ := by
  cases h with
  | stopped hf => exact hf.elim
  | before hd => exact ⟨none, hd, rfl⟩
  | after hd => exact ⟨some _, hd, rfl⟩

theorem matches_initial {t : T} (hinv : I.inv t) (hi : ∀ i, I.idle i t) :
    I.Matches (Config.initial (I.abs t)) (Machine.Config.initial t) :=
  ⟨rfl, hinv, fun i => .absent (hi i)⟩

theorem Matches.returned (h : I.Matches c d) (hx : d.Returned i q x) : c.Returned i q x := by
  obtain ⟨l, hl⟩ := hx
  have ht := h.tracks i
  rw [hl] at ht
  generalize hb : c.thread i = b at ht
  cases ht
  exact hb

/-- A thread that has not stopped in the system has not stopped. -/
theorem Matches.running (h : I.Matches c d) (hi : c.Running i q) : d.Running i q := by
  obtain ⟨a, k, hb⟩ := hi
  have ht := h.tracks i
  generalize hb' : c.thread i = b at ht
  generalize he : d.thread i = e at ht
  rw [hb] at hb'
  cases ht with
  | absent => cases hb'
  | stopped hf =>
    cases hb'
    exact hf.elim
  | before =>
    cases hb'
    exact ⟨_, _, _, he⟩
  | @after q' =>
    obtain rfl : q = q' := congrArg Thread.request (Option.some.inj hb')
    exact ⟨_, _, _, he⟩

/-- A thread that is in no action knows that it is in none. -/
theorem Matches.idle (h : I.Matches c d) (hn : ∀ q a k l, d.thread i ≠ some ⟨q, .act a k, l⟩) :
    I.idle i d.state := by
  have ht := h.tracks i
  generalize hb : c.thread i = b at ht
  generalize he : d.thread i = e at ht
  cases ht with
  | absent hi => exact hi
  | stopped _ hi => exact hi
  | before => exact absurd he (hn _ _ _ _)
  | after => exact absurd he (hn _ _ _ _)

theorem Matches.thread_eq_none (h : I.Matches c d) : c.thread i = none ↔ d.thread i = none := by
  have ht := h.tracks i
  generalize hb : c.thread i = b at ht
  generalize he : d.thread i = e at ht
  cases ht <;> simp

/-- A thread makes a step: of the system, the same thread makes one, or none does. -/
theorem Matches.put {t : Machine.Thread A R Q V L} {s : T} (h : I.Matches c d)
    (hinv : I.inv s) (hrely : ∀ j, j ≠ i → I.rely j d.state s)
    (hc : c'.state = I.abs s) (hothers : ∀ j, j ≠ i → c'.thread j = c.thread j)
    (ht : I.Tracks i s (some t) (c'.thread i)) : I.Matches c' (d.put i t s) := by
  refine ⟨hc, hinv, fun j => ?_⟩
  by_cases hj : j = i
  · subst hj
    rw [Machine.Config.put_thread_self]
    exact ht
  · rw [Machine.Config.put_thread_of_ne _ _ _ hj, hothers j hj]
    exact (h.tracks j).rely (hrely j hj)

/-- What a step of the system, or none, makes of the thread. -/
theorem exists_step_of_takes {a : A} {k : R a → Prog A R V} {y y' : Option (R a)} {s' : S}
    (hc : c.thread i = some ⟨q, y.elim (.act a k) k⟩) (ht : Takes sys i q a c.state y y' s') :
    ∃ c', (c' = c ∨ ∃ e, Step sys c e c') ∧ c'.state = s' ∧
      (∀ j, j ≠ i → c'.thread j = c.thread j) ∧ c'.thread i = some ⟨q, y'.elim (.act a k) k⟩ := by
  cases ht with
  | still => exact ⟨c, .inl rfl, rfl, fun _ _ => rfl, hc⟩
  | effect hx =>
    exact ⟨_, .inr ⟨_, .act hc hx⟩, rfl, fun j hj => Config.put_thread_of_ne _ _ _ _ hj,
      Config.put_thread_self ..⟩

/-- What holds before an action that has not yet taken effect. -/
theorem Matches.pre {a : A} {k : R a → Prog A R V} {y : Option (R a)} (h : I.Matches c d)
    (hpre : ∀ i q a k, c.thread i = some ⟨q, .act a k⟩ → I.pre i q a c.state)
    (hc : c.thread i = some ⟨q, y.elim (.act a k) k⟩) (hy : y = none) :
    I.pre i q a (I.abs d.state) := by
  subst hy
  rw [← h.state]
  exact hpre i q a k hc

/-- Every step is one step of the system or none. -/
theorem Matches.step (h : I.Matches c d)
    (hpre : ∀ i q a k, c.thread i = some ⟨q, .act a k⟩ → I.pre i q a c.state)
    (hs : M.Step d d') : ∃ c', (c' = c ∨ ∃ e, Step sys c e c') ∧ I.Matches c' d' := by
  cases hs with
  | @call i q hi ha =>
    have hidle : I.idle i d.state := by
      have ht := h.tracks i
      rw [hi] at ht
      generalize c.thread i = b at ht
      cases ht
      assumption
    rw [I.admits] at ha
    refine ⟨_, .inr ⟨_, .call (h.thread_eq_none.mpr hi) ha⟩, ?_⟩
    refine ⟨h.state, h.inv, fun j => ?_⟩
    by_cases hj : j = i
    · subst hj
      rw [Machine.Config.put_thread_self, Config.put_thread_self, I.code]
      exact tracks_start hidle
    · rw [Machine.Config.put_thread_of_ne _ _ _ hj, Config.put_thread_of_ne _ _ _ _ hj]
      exact h.tracks j
  | @go i q a k l l' o s hi ha hx =>
    obtain ⟨y, hd, hc⟩ := (hi ▸ h.tracks i).during
    have hp := h.pre hpre hc
    obtain ⟨hinv, hrely⟩ := I.guarantee h.inv hd hp ha hx
    obtain ⟨y', ht, hd'⟩ := I.go h.inv hd hp ha hx
    obtain ⟨c', hcc, hs, hothers, hc'⟩ := exists_step_of_takes hc (h.state ▸ ht)
    refine ⟨c', hcc, h.put hinv hrely hs hothers ?_⟩
    rw [hc']
    cases y' with
    | none => exact .before hd'
    | some r => exact .after hd'
  | @answer i q a k l r o s hi ha hx =>
    obtain ⟨y, hd, hc⟩ := (hi ▸ h.tracks i).during
    have hp := h.pre hpre hc
    obtain ⟨hinv, hrely⟩ := I.guarantee h.inv hd hp ha hx
    obtain ⟨ht, hidle⟩ := I.answer h.inv hd hp ha hx
    obtain ⟨c', hcc, hs, hothers, hc'⟩ := exists_step_of_takes hc (h.state ▸ ht)
    refine ⟨c', hcc, h.put hinv hrely hs hothers ?_⟩
    rw [hc']
    exact tracks_start hidle
  | @drift s hd =>
    obtain ⟨hinv, hdr, hrely⟩ := I.drift h.inv hd
    refine ⟨_, .inr ⟨_, .drift (h.state ▸ hdr)⟩, rfl, hinv, fun i => ?_⟩
    exact (h.tracks i).rely (hrely i)

/-- Every run is one of the system. -/
theorem Matches.run (h : I.Matches c d)
    (hpre : ∀ c', Run sys c c' → ∀ i q a k, c'.thread i = some ⟨q, .act a k⟩ →
      I.pre i q a c'.state)
    (hr : M.Run d d') : ∃ c', Run sys c c' ∧ I.Matches c' d' := by
  induction hr with
  | refl => exact ⟨c, .refl, h⟩
  | tail _ hs ih =>
    obtain ⟨c', hr, hm⟩ := ih
    obtain ⟨c'', hcc, hm'⟩ := hm.step (hpre c' hr) hs
    rcases hcc with rfl | ⟨e, he⟩
    · exact ⟨c'', hr, hm'⟩
    · exact ⟨c'', hr.step he, hm'⟩

end Implements

/-! The other way round: every run of the system is one of the machine, in which each thread is
left alone with its action. -/

/-- Thread `i`, in the action `a` for the request `q`, goes on from the place `l` to the answer
`r`. -/
inductive Machine.Alone (M : Machine A R Q V C L T) (i : ℕ) (q : Q) (a : A) (r : R a) (u : T) :
    L → T → Prop
  | answer {l : L} {t : T} {o : C} : M.allows q a o = true →
      M.step o i a l t = some (.inr r, u) → Alone M i q a r u l t
  | go {l l' : L} {t t' : T} {o : C} : M.allows q a o = true →
      M.step o i a l t = some (.inl l', t') → Alone M i q a r u l' t' → Alone M i q a r u l t

/-- Whatever the system does in one step, the machine can do from a state of rest to another. -/
structure Realises (M : Machine A R Q V C L T) (sys : System A R Q V O S) where
  abs : T → S
  rest : T → Prop
  pre : ℕ → Q → A → S → Prop
  code : M.code = sys.code
  admits : M.admits = sys.admits
  act : ∀ {i q a t r s}, rest t → pre i q a (abs t) → sys.Exec i q a (abs t) r s →
    ∃ u, M.Alone i q a r u M.start t ∧ abs u = s ∧ rest u
  drift : ∀ {t s}, rest t → sys.drifts (abs t) s → ∃ u, M.drifts t u ∧ abs u = s ∧ rest u

namespace Realises

variable {M : Machine A R Q V C L T} {sys : System A R Q V O S} {I : Realises M sys}
  {c c' : Config A R Q V S} {d d' : Machine.Config A R Q V L T} {i : ℕ} {q : Q} {x : V}

/-- No thread is in an action, and the threads are those of `c`. -/
structure Resting (I : Realises M sys) (c : Config A R Q V S) (d : Machine.Config A R Q V L T) :
    Prop where
  state : c.state = I.abs d.state
  rest : I.rest d.state
  thread : ∀ i, d.thread i = (c.thread i).map fun t => ⟨t.request, t.code, M.start⟩

/-- A thread that is left alone carries out its action. -/
theorem run_of_alone {a : A} {k : R a → Prog A R V} {r : R a} {l : L} {t u : T}
    (h : M.Alone i q a r u l t) (ht : d.state = t) (hi : d.thread i = some ⟨q, .act a k, l⟩) :
    ∃ d', M.Run d d' ∧ d'.state = u ∧
      d'.thread = Function.update d.thread i (some ⟨q, k r, M.start⟩) := by
  induction h generalizing d with
  | answer ha hx =>
    subst ht
    exact ⟨_, .single (.answer hi ha hx), rfl, rfl⟩
  | @go l l' t t' o ha hx _ ih =>
    subst ht
    have hs : M.Step d (d.put i ⟨q, .act a k, l'⟩ t') := .go hi ha hx
    obtain ⟨d', hr, hu, hth⟩ := ih rfl (Machine.Config.put_thread_self ..)
    refine ⟨d', .head hs hr, hu, ?_⟩
    rw [hth]
    exact Function.update_idem ..

theorem resting_initial {t : T} (h : I.rest t) :
    I.Resting (Config.initial (I.abs t)) (Machine.Config.initial t) :=
  ⟨rfl, h, fun _ => rfl⟩

theorem Resting.returned (h : I.Resting c d) (hx : c.Returned i q x) : d.Returned i q x := by
  refine ⟨M.start, ?_⟩
  rw [h.thread i, hx]
  rfl

theorem Resting.step {e : Event A R Q} (h : I.Resting c d)
    (hpre : ∀ i q a k, c.thread i = some ⟨q, .act a k⟩ → I.pre i q a c.state)
    (hs : Step sys c e c') : ∃ d', M.Run d d' ∧ I.Resting c' d' := by
  have hput : ∀ (i : ℕ) (t : Thread A R Q V) (e : Event A R Q) (s : S) (j : ℕ),
      Function.update d.thread i (some ⟨t.request, t.code, M.start⟩) j =
        ((c.put i t e s).thread j).map fun t => ⟨t.request, t.code, M.start⟩ := by
    intro i t e s j
    by_cases hj : j = i
    · subst hj
      simp
    · rw [Function.update_of_ne hj, Config.put_thread_of_ne _ _ _ _ hj]
      exact h.thread j
  cases hs with
  | @call i q hi ha =>
    have hnone : d.thread i = none := by rw [h.thread i, hi]; rfl
    rw [← I.admits] at ha
    refine ⟨_, .single (.call hnone ha), ⟨h.state, h.rest, fun j => ?_⟩⟩
    rw [I.code]
    exact hput i ⟨q, sys.code q⟩ _ _ j
  | @act i q a k r s hi hx =>
    have hd : d.thread i = some ⟨q, .act a k, M.start⟩ := by rw [h.thread i, hi]; rfl
    have hp := hpre i q a k hi
    rw [h.state] at hp hx
    obtain ⟨u, ha, hu, hrest⟩ := I.act h.rest hp hx
    obtain ⟨d', hr, rfl, hth⟩ := run_of_alone ha rfl hd
    refine ⟨d', hr, ⟨hu.symm, hrest, fun j => ?_⟩⟩
    rw [hth]
    exact hput i ⟨q, k r⟩ (.act i q a r) s j
  | @drift s hd =>
    rw [h.state] at hd
    obtain ⟨u, hm, hu, hrest⟩ := I.drift h.rest hd
    exact ⟨_, .single (.drift hm), ⟨hu.symm, hrest, h.thread⟩⟩

theorem Resting.run (h : I.Resting c d)
    (hpre : ∀ c', Run sys c c' → ∀ i q a k, c'.thread i = some ⟨q, .act a k⟩ →
      I.pre i q a c'.state)
    (hr : Run sys c c') : ∃ d', M.Run d d' ∧ I.Resting c' d' := by
  induction hr with
  | refl => exact ⟨d, .refl, h⟩
  | step hr hs ih =>
    obtain ⟨d', hd, hm⟩ := ih
    obtain ⟨d'', hd', hm'⟩ := hm.step (hpre _ hr) hs
    exact ⟨d'', hd.trans hd', hm'⟩

end Realises
end Interleaved
