import IceLog.Concurrency.Program

/-! Threads that run programs over one shared state, one action at a time and in any order.
The whole history is kept, so that a property may speak about an earlier moment. -/
namespace Interleaved

variable {A : Type} {R : A → Type} {Q V O S : Type}

/-- What can happen in one step: a call starts a thread, a thread performs an action, or the
surroundings change the state by themselves. -/
inductive Event (A : Type) (R : A → Type) (Q : Type) : Type where
  | call (i : ℕ) (q : Q)
  | act (i : ℕ) (q : Q) (a : A) (r : R a)
  | drift

/-- The thread an event belongs to. -/
def Event.actor : Event A R Q → Option ℕ
  | .call i _ => some i
  | .act i _ _ _ => some i
  | .drift => none

/-- A state together with the states and events that led to it, most recent first. -/
structure World (S E : Type) : Type where
  past : List (S × E)
  now : S

namespace World

variable {E : Type} {w w' w'' : World S E}

def next (w : World S E) (e : E) (s : S) : World S E := ⟨(w.now, e) :: w.past, s⟩

@[simp] theorem next_now (w : World S E) (e : E) (s : S) : (w.next e s).now = s := rfl

@[simp] theorem next_past (w : World S E) (e : E) (s : S) :
    (w.next e s).past = (w.now, e) :: w.past := rfl

/-- `w` is a moment in the history of `w'`. -/
inductive Before (w : World S E) : World S E → Prop
  | refl : Before w w
  | next {v : World S E} (e : E) (s : S) : Before w v → Before w (v.next e s)

theorem Before.trans (h : Before w w') (h' : Before w' w'') : Before w w'' := by
  induction h' with
  | refl => exact h
  | next e s _ ih => exact ih.next e s

theorem before_next (w : World S E) (e : E) (s : S) : Before w (w.next e s) := .next e s .refl

theorem next_inj {e e' : E} {s s' : S} (h : w.next e s = w'.next e' s') :
    w = w' ∧ e = e' ∧ s = s' := by
  cases w; cases w'
  simp_all [next]

theorem Before.length_le (h : Before w w') : w.past.length ≤ w'.past.length := by
  induction h with
  | refl => exact Nat.le_refl _
  | next e s _ ih => exact Nat.le_succ_of_le ih

theorem before_next_iff {e : E} {s : S} :
    w'.Before (w.next e s) ↔ w' = w.next e s ∨ w'.Before w := by
  constructor
  · generalize hu : w.next e s = u
    intro h
    cases h with
    | refl => exact .inl rfl
    | next e' s' h =>
      obtain ⟨rfl, -, -⟩ := next_inj hu
      exact .inr h
  · rintro (rfl | h)
    · exact .refl
    · exact h.next e s

/-- An event of a moment in the past has happened. -/
theorem Before.mem_past {e : E} {s : S} (h : (w.next e s).Before w') : (w.now, e) ∈ w'.past := by
  generalize hu : w.next e s = u at h
  induction h with
  | refl =>
    subst hu
    exact List.mem_cons_self ..
  | next e' s' _ ih => exact List.mem_cons_of_mem _ ih

/-- What has happened, happened at some moment. -/
theorem before_of_mem_past {e : E} {s : S} (h : (s, e) ∈ w.past) :
    ∃ (v : World S E) (s' : S), v.now = s ∧ (v.next e s').Before w := by
  obtain ⟨past, now⟩ := w
  induction past generalizing now with
  | nil => cases h
  | cons p past ih =>
    rcases List.mem_cons.mp h with rfl | h
    · exact ⟨⟨past, s⟩, now, rfl, .refl⟩
    · obtain ⟨v, s', hv, hb⟩ := ih p.1 h
      exact ⟨v, s', hv, hb.trans (before_next ⟨past, p.1⟩ p.2 now)⟩

/-- Two moments of one history are comparable. -/
theorem Before.total (h : Before w w'') (h' : Before w' w'') : Before w w' ∨ Before w' w := by
  induction h with
  | refl => exact .inr h'
  | @next v e s hv ih =>
    generalize hu : v.next e s = u at h'
    cases h' with
    | refl => exact .inl (hu ▸ hv.next e s)
    | next e' s' hv' =>
      obtain ⟨rfl, -, -⟩ := next_inj hu
      exact ih hv'

theorem Before.antisymm (h : Before w w') (h' : Before w' w) : w = w' := by
  cases h with
  | refl => rfl
  | next e s hv =>
    have hl := h'.length_le
    have hl' := hv.length_le
    simp only [next_past, List.length_cons] at hl
    omega

/-- One thing at a time happens in a history. -/
theorem Before.next_unique {e e' : E} {s s' : S} (h : (w.next e s).Before w'')
    (h' : (w.next e' s').Before w'') : e = e' ∧ s = s' := by
  have hnext : ∀ {e s e' s'}, (w.next e s).Before (w.next e' s') → e = e' ∧ s = s' := by
    intro e s e' s' hb
    rcases before_next_iff.mp hb with heq | hb
    · obtain ⟨-, he, hs⟩ := next_inj heq
      exact ⟨he, hs⟩
    · have hl := hb.length_le
      simp only [next_past, List.length_cons] at hl
      omega
  rcases h.total h' with hb | hb
  · exact hnext hb
  · obtain ⟨he, hs⟩ := hnext hb
    exact ⟨he.symm, hs.symm⟩

/-- The moments of a history, most recent first. -/
def momentsOf : List (S × E) → S → List (World S E)
  | [], s => [⟨[], s⟩]
  | p :: past, s => ⟨p :: past, s⟩ :: momentsOf past p.1

def moments (w : World S E) : List (World S E) := momentsOf w.past w.now

theorem Before.mem_moments (h : Before w w') : w ∈ w'.moments := by
  induction h with
  | refl =>
    obtain ⟨past, now⟩ := w
    cases past <;> simp [moments, momentsOf]
  | next e s _ ih => exact List.mem_cons_of_mem _ ih

theorem before_of_mem_moments (h : w ∈ w'.moments) : Before w w' := by
  obtain ⟨past, now⟩ := w'
  induction past generalizing now with
  | nil =>
    obtain rfl := List.mem_singleton.mp h
    exact .refl
  | cons p past ih =>
    rcases List.mem_cons.mp h with rfl | hm
    · exact .refl
    · exact (ih p.1 hm).trans (before_next ⟨past, p.1⟩ p.2 now)

end World

/-- What the threads run and what an action does. The outcome `O` resolves everything the
program does not decide; `allows` says which outcomes may occur. -/
structure System (A : Type) (R : A → Type) (Q V O S : Type) where
  code : Q → Prog A R V
  admits : Q → Bool
  perform : O → ℕ → (a : A) → S → Option (R a × S)
  allows : Q → A → O → Bool
  drifts : S → S → Prop

/-- Thread `i`, serving `q`, can perform `a` in `s` with response `r` and new state `s'`. -/
def System.Exec (sys : System A R Q V O S) (i : ℕ) (q : Q) (a : A) (s : S) (r : R a) (s' : S) :
    Prop :=
  ∃ o, sys.allows q a o = true ∧ sys.perform o i a s = some (r, s')

structure Thread (A : Type) (R : A → Type) (Q V : Type) : Type where
  request : Q
  code : Prog A R V

structure Config (A : Type) (R : A → Type) (Q V S : Type) : Type where
  world : World S (Event A R Q)
  thread : ℕ → Option (Thread A R Q V)

namespace Config

variable (c : Config A R Q V S)

/-- The state at this moment. -/
abbrev state : S := c.world.now

def put (i : ℕ) (t : Thread A R Q V) (e : Event A R Q) (s : S) : Config A R Q V S :=
  ⟨c.world.next e s, Function.update c.thread i (some t)⟩

/-- No call has been made yet. -/
def initial (s : S) : Config A R Q V S := ⟨⟨[], s⟩, fun _ => none⟩

/-- Thread `i` has returned `x` for the request `q`. -/
def Returned (i : ℕ) (q : Q) (x : V) : Prop := c.thread i = some ⟨q, .ret x⟩

/-- The request of a thread that has returned, and what it has returned. -/
def reply (i : ℕ) : Option (Q × V) :=
  (c.thread i).bind fun t => t.code.result.map fun x => (t.request, x)

/-- Thread `i` serves `q` and has not stopped. -/
def Running (i : ℕ) (q : Q) : Prop :=
  ∃ a k, c.thread i = some ⟨q, .act a k⟩

theorem returned_iff {c : Config A R Q V S} {i : ℕ} {q : Q} {x : V} :
    c.Returned i q x ↔ c.reply i = some (q, x) := by
  simp only [Returned, reply, Option.bind_eq_some_iff, Option.map_eq_some_iff, Prod.mk.injEq]
  constructor
  · exact fun h => ⟨_, h, x, rfl, rfl, rfl⟩
  · rintro ⟨⟨q', p⟩, h, x', hx, rfl, rfl⟩
    obtain rfl := Prog.result_eq_some hx
    exact h

@[simp] theorem put_world (i : ℕ) (t : Thread A R Q V) (e : Event A R Q) (s : S) :
    (c.put i t e s).world = c.world.next e s := rfl

@[simp] theorem put_thread_self (i : ℕ) (t : Thread A R Q V) (e : Event A R Q) (s : S) :
    (c.put i t e s).thread i = some t := by
  simp [put]

theorem put_thread_of_ne {i j : ℕ} (t : Thread A R Q V) (e : Event A R Q) (s : S) (h : j ≠ i) :
    (c.put i t e s).thread j = c.thread j := by
  simp [put, h]

end Config

inductive Step (sys : System A R Q V O S) : Config A R Q V S → Event A R Q →
    Config A R Q V S → Prop
  | call {c : Config A R Q V S} {i : ℕ} {q : Q} :
      c.thread i = none → sys.admits q = true →
      Step sys c (.call i q) (c.put i ⟨q, sys.code q⟩ (.call i q) c.state)
  | act {c : Config A R Q V S} {i : ℕ} {q : Q} {a : A} {k : R a → Prog A R V} {r : R a} {s : S} :
      c.thread i = some ⟨q, .act a k⟩ → sys.Exec i q a c.state r s →
      Step sys c (.act i q a r) (c.put i ⟨q, k r⟩ (.act i q a r) s)
  | drift {c : Config A R Q V S} {s : S} :
      sys.drifts c.state s → Step sys c .drift ⟨c.world.next .drift s, c.thread⟩

/-- Some interleaving leads from one configuration to the other. -/
inductive Run (sys : System A R Q V O S) (c : Config A R Q V S) : Config A R Q V S → Prop
  | refl : Run sys c c
  | step {c' c'' : Config A R Q V S} {e : Event A R Q} :
      Run sys c c' → Step sys c' e c'' → Run sys c c''

section runs
variable {sys : System A R Q V O S} {c c' c'' : Config A R Q V S} {e : Event A R Q} {i : ℕ}

theorem Run.trans (h : Run sys c c') (h' : Run sys c' c'') : Run sys c c'' := by
  induction h' with
  | refl => exact h
  | step _ hs ih => exact ih.step hs

theorem Step.world_eq (h : Step sys c e c') : c'.world = c.world.next e c'.state := by
  cases h <;> rfl

theorem Run.before (h : Run sys c c') : c.world.Before c'.world := by
  induction h with
  | refl => exact .refl
  | step _ hs ih => rw [hs.world_eq]; exact ih.next _ _

/-- A thread keeps the request it was called with. -/
theorem Step.request_eq (h : Step sys c e c') {t : Thread A R Q V} (ht : c.thread i = some t) :
    ∃ t', c'.thread i = some t' ∧ t'.request = t.request := by
  cases h with
  | @call j q hj ha =>
    have hne : i ≠ j := by rintro rfl; simp [hj] at ht
    exact ⟨t, by rw [Config.put_thread_of_ne _ _ _ _ hne, ht], rfl⟩
  | @act j q a k r s hj hx =>
    by_cases hij : i = j
    · subst j
      obtain rfl : t = ⟨q, .act a k⟩ := Option.some.inj (ht.symm.trans hj)
      exact ⟨⟨q, k r⟩, Config.put_thread_self .., rfl⟩
    · exact ⟨t, by rw [Config.put_thread_of_ne _ _ _ _ hij, ht], rfl⟩
  | drift hd => exact ⟨t, ht, rfl⟩

/-- A thread is there before the step, unless the step calls it. -/
theorem Step.thread_eq (h : Step sys c e c') {t : Thread A R Q V} (ht : c'.thread i = some t) :
    (∃ t₀, c.thread i = some t₀) ∨ e = .call i t.request := by
  cases h with
  | @call j q hj ha =>
    by_cases hij : i = j
    · subst j
      rw [Config.put_thread_self] at ht
      cases ht
      exact .inr rfl
    · exact .inl ⟨t, by rwa [Config.put_thread_of_ne _ _ _ _ hij] at ht⟩
  | @act j q a k r s hj hx =>
    by_cases hij : i = j
    · subst j
      exact .inl ⟨_, hj⟩
    · exact .inl ⟨t, by rwa [Config.put_thread_of_ne _ _ _ _ hij] at ht⟩
  | drift hd => exact .inl ⟨t, ht⟩

/-- Every moment on the way is one of a configuration on the way. -/
theorem Run.moment {v : World S (Event A R Q)} (h : Run sys c c') (hv : c.world.Before v)
    (hv' : v.Before c'.world) : ∃ d, Run sys c d ∧ d.world = v ∧ Run sys d c' := by
  induction h with
  | refl => exact ⟨c, .refl, hv.antisymm hv', .refl⟩
  | @step d d' e hr hs ih =>
    rcases World.before_next_iff.mp (hs.world_eq ▸ hv') with rfl | hv'
    · exact ⟨d', hr.step hs, hs.world_eq, .refl⟩
    · obtain ⟨b, hb, hw, hbd⟩ := ih hv'
      exact ⟨b, hb, hw, hbd.step hs⟩

/-- Every event on the way was a step. -/
theorem Run.step_of_before {v : World S (Event A R Q)} {s : S} (h : Run sys c c')
    (hv : c.world.Before v) (hv' : (v.next e s).Before c'.world) :
    ∃ d d', Run sys c d ∧ d.world = v ∧ Step sys d e d' ∧ d'.world = v.next e s := by
  obtain ⟨d', hd', hw, -⟩ := h.moment (hv.next e s) hv'
  cases hd' with
  | refl =>
    have hle := hv.length_le
    rw [hw] at hle
    exact absurd hle (by simp)
  | step hr hs =>
    obtain ⟨rfl, rfl, -⟩ := World.next_inj (hs.world_eq.symm.trans hw)
    exact ⟨_, d', hr, rfl, hs, hw⟩

theorem Run.request_eq (h : Run sys c c') {t : Thread A R Q V} (ht : c.thread i = some t) :
    ∃ t', c'.thread i = some t' ∧ t'.request = t.request := by
  induction h with
  | refl => exact ⟨t, ht, rfl⟩
  | step _ hs ih =>
    obtain ⟨t', ht', hq⟩ := ih
    obtain ⟨t'', ht'', hq'⟩ := hs.request_eq ht'
    exact ⟨t'', ht'', hq'.trans hq⟩

/-- A thread runs what is left of the code of its request. -/
theorem Run.reaches {s : S} (h : Run sys (Config.initial s) c) {t : Thread A R Q V}
    (ht : c.thread i = some t) : (sys.code t.request).Reaches t.code := by
  induction h generalizing t with
  | refl => simp [Config.initial] at ht
  | @step c' c'' e hr hs ih =>
    cases hs with
    | @call j q hj ha =>
      by_cases hij : i = j
      · subst j
        rw [Config.put_thread_self] at ht
        obtain rfl := Option.some.inj ht
        exact .refl
      · rw [Config.put_thread_of_ne _ _ _ _ hij] at ht
        exact ih ht
    | @act j q a k r s hj hx =>
      by_cases hij : i = j
      · subst j
        rw [Config.put_thread_self] at ht
        obtain rfl := Option.some.inj ht
        exact .act r (ih hj)
      · rw [Config.put_thread_of_ne _ _ _ _ hij] at ht
        exact ih ht
    | drift hd => exact ih ht

/-- A thread that has stopped stays as it is. -/
theorem Step.finished_eq (h : Step sys c e c') {t : Thread A R Q V} (ht : c.thread i = some t)
    (hf : t.code.Finished) : c'.thread i = some t := by
  cases h with
  | @call j q hj ha =>
    have hne : i ≠ j := by rintro rfl; simp [hj] at ht
    rw [Config.put_thread_of_ne _ _ _ _ hne, ht]
  | @act j q a k r s hj hx =>
    have hne : i ≠ j := by
      rintro rfl
      obtain rfl : t = ⟨q, .act a k⟩ := Option.some.inj (ht.symm.trans hj)
      exact hf
    rw [Config.put_thread_of_ne _ _ _ _ hne, ht]
  | drift hd => exact ht

theorem Run.finished_eq (h : Run sys c c') {t : Thread A R Q V} (ht : c.thread i = some t)
    (hf : t.code.Finished) : c'.thread i = some t := by
  induction h with
  | refl => exact ht
  | step _ hs ih => exact hs.finished_eq ih hf

theorem Run.returned (h : Run sys c c') {q : Q} {x : V} (hr : c.Returned i q x) :
    c'.Returned i q x :=
  h.finished_eq hr trivial

end runs

/-! Concrete runs: a list of moves resolves every choice, so the run can be computed. -/

inductive Move (Q O : Type) : Type where
  | call (i : ℕ) (q : Q)
  | step (i : ℕ) (o : O)

def System.move (sys : System A R Q V O S) (c : Config A R Q V S) :
    Move Q O → Option (Config A R Q V S)
  | .call i q =>
    match c.thread i with
    | none => if sys.admits q then some (c.put i ⟨q, sys.code q⟩ (.call i q) c.state) else none
    | some _ => none
  | .step i o =>
    match c.thread i with
    | some ⟨q, .act a k⟩ =>
      if sys.allows q a o then
        (sys.perform o i a c.state).map fun (r, s) => c.put i ⟨q, k r⟩ (.act i q a r) s
      else none
    | _ => none

def System.moves (sys : System A R Q V O S) (c : Config A R Q V S) :
    List (Move Q O) → Option (Config A R Q V S)
  | [] => some c
  | m :: ms => (sys.move c m).bind fun c' => sys.moves c' ms

section moves
variable {sys : System A R Q V O S} {c c' : Config A R Q V S}

/-- A computed action of the thread `i`. -/
theorem System.act_of_move {i : ℕ} {o : O} (h : sys.move c (.step i o) = some c') :
    ∃ t a r, c.thread i = some t ∧ Step sys c (.act i t.request a r) c' := by
  simp only [System.move] at h
  split at h
  · rename_i q a k hi
    split at h
    · rename_i ha
      obtain ⟨⟨r, s⟩, hp, rfl⟩ := Option.map_eq_some_iff.mp h
      exact ⟨_, a, r, hi, .act hi ⟨o, ha, hp⟩⟩
    · cases h
  · cases h

theorem System.step_of_move {m : Move Q O} (h : sys.move c m = some c') :
    ∃ e, Step sys c e c' ∧ ∀ i q, e = .call i q → m = .call i q := by
  cases m with
  | call i q =>
    simp only [System.move] at h
    split at h
    · rename_i hi
      split at h
      · rename_i ha
        cases h
        exact ⟨_, .call hi ha, by simp⟩
      · cases h
    · cases h
  | step i o =>
    obtain ⟨t, a, r, -, hs⟩ := System.act_of_move h
    exact ⟨_, hs, by simp⟩

/-- A computed run is a run. -/
theorem System.run_of_moves {ms : List (Move Q O)} (h : sys.moves c ms = some c') :
    Run sys c c' := by
  induction ms generalizing c with
  | nil => cases h; exact .refl
  | cons m ms ih =>
    obtain ⟨d, hd, h'⟩ := Option.bind_eq_some_iff.mp h
    obtain ⟨e, he, -⟩ := System.step_of_move hd
    exact (Run.refl.step he).trans (ih h')

/-- Every thread has been there before, or has been called. -/
theorem System.thread_of_moves {ms : List (Move Q O)} (h : sys.moves c ms = some c') {i : ℕ}
    {t : Thread A R Q V} (ht : c'.thread i = some t) :
    (∃ t₀, c.thread i = some t₀) ∨ .call i t.request ∈ ms := by
  induction ms generalizing c with
  | nil =>
    cases h
    exact .inl ⟨t, ht⟩
  | cons m ms ih =>
    obtain ⟨d, hd, h'⟩ := Option.bind_eq_some_iff.mp h
    rcases ih h' with ⟨t₁, ht₁⟩ | hmem
    · obtain ⟨e, hs, hcall⟩ := System.step_of_move hd
      obtain ⟨t', ht', hq⟩ := (System.run_of_moves h').request_eq ht₁
      obtain rfl := Option.some.inj (ht.symm.trans ht')
      rcases hs.thread_eq ht₁ with hold | he
      · exact .inl hold
      · rw [hq, ← hcall _ _ he]
        exact .inr (List.mem_cons_self ..)
    · exact .inr (List.mem_cons_of_mem _ hmem)

/-- A computed run that ends where `p` holds. -/
theorem System.run_of_check (sys : System A R Q V O S) {c : Config A R Q V S}
    (ms : List (Move Q O)) {p : Config A R Q V S → Bool} (h : (sys.moves c ms).map p = some true) :
    ∃ c', Run sys c c' ∧ p c' = true := by
  obtain ⟨c', hc, hp⟩ := Option.map_eq_some_iff.mp h
  exact ⟨c', System.run_of_moves hc, hp⟩

end moves
end Interleaved
