import IceLog.Concurrency.Contract

/-! A thread that runs alone. -/
namespace Interleaved

variable {A : Type} {R : A → Type} {Q V O S α β : Type}

/-- What `i` does from `w` on when no other thread moves: its actions with their outcomes, the
result (`none` if it throws) and the world it ends in. -/
inductive Solo (sys : System A R Q V O S) (i : ℕ) (q : Q) : Prog A R α → Hist A R Q S →
    List (A × O) → Option α → Hist A R Q S → Prop
  | ret {x : α} {w : Hist A R Q S} : Solo sys i q (.ret x) w [] (some x) w
  | throw {w : Hist A R Q S} : Solo sys i q .throw w [] none w
  | act {a : A} {k : R a → Prog A R α} {o : O} {r : R a} {s : S} {tr : List (A × O)}
      {x : Option α} {w w' : Hist A R Q S} : sys.allows q a o = true →
      sys.perform o i a w.now = some (r, s) → Solo sys i q (k r) (w.next (.act i q a r) s) tr x w' →
      Solo sys i q (.act a k) w ((a, o) :: tr) x w'

section solo
variable {sys : System A R Q V O S} {i : ℕ} {q : Q} {p : Prog A R α} {w w' : Hist A R Q S}
  {tr : List (A × O)} {x : Option α}

theorem Solo.before (h : Solo sys i q p w tr x w') : w.Before w' := by
  induction h with
  | ret | throw => exact .refl
  | act _ _ _ ih => exact (World.before_next _ _ _).trans ih

/-- A thread that runs alone meets its postcondition. -/
theorem Solo.post {C : Contract sys} {post : α → Hist A R Q S → Prop}
    {exc : Hist A R Q S → Prop} (h : Solo sys i q p w tr x w')
    (hs : Safe (C.theory false i q) post exc p w) : x.elim (exc w') fun x => post x w' := by
  induction h with
  | ret => exact hs _ rfl
  | throw => exact hs _ rfl
  | act ha hp _ ih =>
    obtain ⟨⟨hinv, hn⟩, hk⟩ := hs _ rfl
    exact ih (hk _ _ ⟨_, ⟨_, ha, hp⟩, C.act hinv hn ⟨_, ha, hp⟩, rfl⟩)

/-- What every action that is allowed keeps, and what holds of it. -/
theorem Solo.steps {J : S → Prop} {φ : A × O → Prop}
    (hJ : ∀ a o s r s', sys.allows q a o = true → sys.perform o i a s = some (r, s') → J s →
      J s' ∧ φ (a, o))
    (h : Solo sys i q p w tr x w') (hw : J w.now) : J w'.now ∧ ∀ e ∈ tr, φ e := by
  induction h with
  | ret | throw => exact ⟨hw, nofun⟩
  | @act a k o r s tr x w w' ha hp _ ih =>
    obtain ⟨hs, he⟩ := hJ a o _ r s ha hp hw
    obtain ⟨hw', hrest⟩ := ih hs
    refine ⟨hw', fun e he' => ?_⟩
    rcases List.mem_cons.mp he' with rfl | he'
    · exact he
    · exact hrest e he'

/-- Who is safe among others is safe alone. -/
theorem Safe.alone {C : Contract sys} {post : α → Hist A R Q S → Prop} {exc : Hist A R Q S → Prop}
    (h : Safe (C.theory true i q) post exc p w) : Safe (C.theory false i q) post exc p w := by
  induction p generalizing w with
  | ret x =>
    rintro u rfl
    exact h w .refl
  | throw =>
    rintro u rfl
    exact h w .refl
  | act a k ih =>
    rintro u rfl
    obtain ⟨hn, hk⟩ := h w .refl
    exact ⟨hn, fun r v hv => ih r (hk r v hv)⟩

/-- A safe program can be run to its end where each of its actions can be performed. -/
theorem Safe.solo {C : Contract sys} {post : α → Hist A R Q S → Prop}
    {exc : Hist A R Q S → Prop} {J : S → Prop} {φ : A → Prop}
    (hJ : ∀ (u : Hist A R Q S) a, φ a → C.inv u → C.needs i q a u → J u.now →
      ∃ o r s, sys.allows q a o = true ∧ sys.perform o i a u.now = some (r, s) ∧ J s)
    (hp : p.All fun a _ => φ a) (hs : Safe (C.theory false i q) post exc p w) (hw : J w.now) :
    ∃ tr x w', Solo sys i q p w tr x w' := by
  induction p generalizing w with
  | ret x => exact ⟨[], some x, w, .ret⟩
  | throw => exact ⟨[], none, w, .throw⟩
  | act a k ih =>
    obtain ⟨⟨hinv, hn⟩, hk⟩ := hs _ rfl
    obtain ⟨o, r, s, ha, hperform, hs'⟩ := hJ w a hp.1 hinv hn hw
    obtain ⟨tr, x, w', h⟩ :=
      ih r (hp.2 r) (hk _ _ ⟨_, ⟨_, ha, hperform⟩, C.act hinv hn ⟨_, ha, hperform⟩, rfl⟩) hs'
    exact ⟨_, x, w', .act ha hperform h⟩

/-- The same run where only the outcomes that it meets are allowed. -/
theorem Solo.restrict {allows : Q → A → O → Bool} (h : Solo sys i q p w tr x w')
    (htr : ∀ e ∈ tr, allows q e.1 e.2 = true) :
    Solo { sys with allows := allows } i q p w tr x w' := by
  induction h with
  | ret => exact .ret
  | throw => exact .throw
  | @act a k o r s tr x w w' ha hp _ ih =>
    exact .act (htr (a, o) (by simp)) hp (ih fun e he => htr e (by simp [he]))

/-- What holds of all actions of a program holds of those of its run. -/
theorem Solo.acts {φ : A → Prop} (h : Solo sys i q p w tr x w') (hp : p.All fun a _ => φ a) :
    ∀ e ∈ tr, φ e.1 := by
  induction h with
  | ret | throw => nofun
  | act _ _ _ ih =>
    intro e he
    rcases List.mem_cons.mp he with rfl | he
    · exact hp.1
    · exact ih (hp.2 _) e he

/-- What is in the history after the run was there before, or is an action of the run. -/
theorem Solo.next_cases {φ : A → Prop} {v : Hist A R Q S} {e : Event A R Q} {s : S}
    (h : Solo sys i q p w tr x w') (hp : p.All fun a _ => φ a) (hv : (v.next e s).Before w') :
    (v.next e s).Before w ∨
      ∃ o a r, φ a ∧ e = .act i q a r ∧ sys.perform o i a v.now = some (r, s) := by
  induction h with
  | ret | throw => exact .inl hv
  | @act a k o r s tr x w w' _ hx _ ih =>
    rcases ih (hp.2 r) hv with hv | hv
    · rcases World.before_next_iff.mp hv with heq | hv
      · obtain ⟨rfl, rfl, rfl⟩ := World.next_inj heq
        exact .inr ⟨o, a, r, hp.1, rfl, hx⟩
      · exact .inl hv
    · exact .inr hv

/-- Running alone is one of the interleavings. -/
theorem Solo.config {p : Prog A R V} {x : Option V} {c : Config A R Q V S}
    (h : Solo sys i q p c.world tr x w') (hc : c.thread i = some ⟨q, p⟩) :
    Run sys c ⟨w', Function.update c.thread i (some ⟨q, x.elim .throw .ret⟩)⟩ := by
  generalize hw : c.world = w at h
  induction h generalizing c with
  | ret | throw =>
    subst hw
    have hself : Function.update c.thread i (c.thread i) = c.thread := Function.update_eq_self ..
    rw [hc] at hself
    exact hself.symm ▸ .refl
  | @act a k o r s tr x w w' ha hp _ ih =>
    subst hw
    have hs : Step sys c (.act i q a r) _ := .act hc ⟨o, ha, hp⟩
    have hr := ih (c := c.put i ⟨q, k r⟩ (.act i q a r) s) (by simp) (by simp)
    rw [Config.put, Function.update_idem] at hr
    exact (Run.refl.step hs).trans hr

theorem Solo.run {p : Prog A R V} {x : Option V} {c : Config A R Q V S}
    (h : Solo sys i q p c.world tr x w') (hc : c.thread i = some ⟨q, p⟩) :
    ∃ c', Run sys c c' ∧ c'.world = w' ∧ c'.thread i = some ⟨q, x.elim .throw .ret⟩ :=
  ⟨_, h.config hc, rfl, Function.update_self ..⟩

/-- What every action of the program keeps. -/
theorem Solo.keeps {φ : A → Prop} {K : S → S → Prop} (h : Solo sys i q p w tr x w')
    (hp : p.All fun a _ => φ a) (hrefl : ∀ s, K s s)
    (htrans : ∀ {s s' s''}, K s s' → K s' s'' → K s s'')
    (hstep : ∀ a o s r s', φ a → sys.perform o i a s = some (r, s') → K s s') :
    K w.now w'.now := by
  induction h with
  | ret | throw => exact hrefl _
  | act _ hx _ ih => exact htrans (hstep _ _ _ _ _ hp.1 hx) (ih (hp.2 _))

/-- Two programs in a row. -/
theorem Solo.bind_cases {f : α → Prog A R β} {y : Option β}
    (h : Solo sys i q (p.bind f) w tr y w') :
    (∃ z v tr₁ tr₂, tr = tr₁ ++ tr₂ ∧ Solo sys i q p w tr₁ (some z) v ∧
      Solo sys i q (f z) v tr₂ y w') ∨ (y = none ∧ Solo sys i q p w tr none w') := by
  induction p generalizing w tr with
  | ret z => exact .inl ⟨z, w, [], tr, rfl, .ret, h⟩
  | throw =>
    cases h
    exact .inr ⟨rfl, .throw⟩
  | act a k ih =>
    cases h with
    | act ha hx h =>
      rcases ih _ h with ⟨z, v, tr₁, tr₂, rfl, h₁, h₂⟩ | ⟨hy, h⟩
      · exact .inl ⟨z, v, _ :: tr₁, tr₂, rfl, .act ha hx h₁, h₂⟩
      · exact .inr ⟨hy, .act ha hx h⟩

theorem Solo.map (h : Solo sys i q p w tr x w') (f : α → β) :
    Solo sys i q (p.bind fun x => .ret (f x)) w tr (x.map f) w' := by
  induction h with
  | ret => exact .ret
  | throw => exact .throw
  | act ha hp _ ih => exact .act ha hp ih

/-- A guarded program, and then the one action of its destructor. -/
theorem Solo.guarded_cases {a : A}
    (h : Solo sys i q (p.guarded (.act a fun _ => .ret ())) w tr x w') :
    ∃ v tr₁ o r s, tr = tr₁ ++ [(a, o)] ∧ Solo sys i q p w tr₁ x v ∧
      sys.perform o i a v.now = some (r, s) ∧ w' = v.next (.act i q a r) s := by
  induction p generalizing w tr with
  | ret z | throw =>
    cases h with
    | act ha hx h =>
      cases h
      exact ⟨w, [], _, _, _, rfl, by constructor, hx, rfl⟩
  | act b k ih =>
    cases h with
    | act ha hx h =>
      obtain ⟨v, tr₁, o, r, s, rfl, h₁, h₂, h₃⟩ := ih _ h
      exact ⟨v, _ :: tr₁, o, r, s, rfl, .act ha hx h₁, h₂, h₃⟩

end solo

/-! What a program returns once it has performed some action. -/

/-- The program does not throw, and what it returns satisfies `P`. -/
def Prog.Ends (P : α → Prop) : Prog A R α → Prop
  | .ret x => P x
  | .throw => False
  | .act _ k => ∀ r, (k r).Ends P

/-- Once the program has performed an action of `φ`, it ends in `P`. -/
def Prog.Leads (φ : A → Prop) (P : α → Prop) (p : Prog A R α) : Prop :=
  p.All fun a k => φ a → ∀ r, (k r).Ends P

section ends
variable {φ : A → Prop} {P : α → Prop} {p : Prog A R α}

theorem Prog.Ends.leads (h : p.Ends P) : p.Leads φ P := by
  induction p with
  | ret x => trivial
  | throw => trivial
  | act a k ih => exact ⟨fun _ => h, fun r => ih r (h r)⟩

theorem Prog.Ends.guarded {a : A} (h : p.Ends P) :
    (p.guarded (.act a fun _ => .ret ())).Ends P := by
  induction p with
  | ret x => exact fun _ => h
  | throw => exact h.elim
  | act b k ih => exact fun r => ih r (h r)

theorem Prog.Leads.bind {p : Prog A R β} {f : β → Prog A R α} (h : p.All fun a _ => ¬ φ a)
    (hf : ∀ x, (f x).Leads φ P) : (p.bind f).Leads φ P := by
  induction p with
  | ret x => exact hf x
  | throw => trivial
  | act a k ih => exact ⟨fun ha => absurd ha h.1, fun r => ih r (h.2 r)⟩

theorem Prog.Leads.guarded {a : A} (h : p.Leads φ P) (ha : ¬ φ a) :
    (p.guarded (.act a fun _ => .ret ())).Leads φ P := by
  induction p with
  | ret x => exact ⟨fun h => absurd h ha, fun _ => trivial⟩
  | throw => exact ⟨fun h => absurd h ha, fun _ => trivial⟩
  | act b k ih => exact ⟨fun hb r => (h.1 hb r).guarded, fun r => ih r (h.2 r)⟩

/-- Once the program has performed an action of `φ`, it performs those of `ψ` and ends in `P`. -/
def Prog.LeadsBy (φ ψ : A → Prop) (P : α → Prop) (p : Prog A R α) : Prop :=
  p.All fun a k => φ a → ∀ r, (k r).Ends P ∧ (k r).All fun b _ => ψ b

theorem Prog.LeadsBy.leads {ψ : A → Prop} (h : p.LeadsBy φ ψ P) : p.Leads φ P :=
  h.mono fun _ _ h ha r => (h ha r).1

theorem Prog.LeadsBy.of_not {ψ : A → Prop} (h : p.All fun a _ => ¬ φ a) : p.LeadsBy φ ψ P :=
  h.mono fun _ _ hn ha => absurd ha hn

theorem Prog.LeadsBy.bind {ψ : A → Prop} {p : Prog A R β} {f : β → Prog A R α}
    (h : p.All fun a _ => ¬ φ a) (hf : ∀ x, (f x).LeadsBy φ ψ P) : (p.bind f).LeadsBy φ ψ P := by
  induction p with
  | ret x => exact hf x
  | throw => trivial
  | act a k ih => exact ⟨fun ha => absurd ha h.1, fun r => ih r (h.2 r)⟩

theorem Prog.LeadsBy.guarded {ψ : A → Prop} {a : A} (h : p.LeadsBy φ ψ P) (ha : ¬ φ a) (hψ : ψ a) :
    (p.guarded (.act a fun _ => .ret ())).LeadsBy φ ψ P := by
  induction p with
  | ret x | throw => exact ⟨fun h => absurd h ha, fun _ => trivial⟩
  | act b k ih =>
    exact ⟨fun hb r => ⟨(h.1 hb r).1.guarded, (h.1 hb r).2.guarded ⟨hψ, fun _ => trivial⟩⟩,
      fun r => ih r (h.2 r)⟩

theorem Prog.Ends.andThen {P' : β → Prop} {f : α → Prog A R β} (h : p.Ends P)
    (hf : ∀ x, P x → (f x).Ends P') : (p.bind f).Ends P' := by
  induction p with
  | ret x => exact hf x h
  | throw => exact h.elim
  | act a k ih => exact fun r => ih r (h r)

/-- The rest of a program does not perform `φ` itself. -/
theorem Prog.LeadsBy.andThen {ψ : A → Prop} {P' : β → Prop} {f : α → Prog A R β}
    (h : p.LeadsBy φ ψ P) (hf : ∀ x, P x → (f x).Ends P')
    (hψ : ∀ x, (f x).All fun a _ => ¬ φ a ∧ ψ a) : (p.bind f).LeadsBy φ ψ P' := by
  induction p with
  | ret x => exact .of_not ((hψ x).mono fun _ _ h => h.1)
  | throw => trivial
  | act a k ih =>
    refine ⟨fun ha r => ⟨(h.1 ha r).1.andThen hf, ?_⟩, fun r => ih r (h.2 r)⟩
    exact (h.1 ha r).2.bind fun x => (hψ x).mono fun _ _ h => h.2

variable {sys : System A R Q V O S} {i : ℕ} {q : Q} {w w' : Hist A R Q S} {tr : List (A × O)}
  {x : Option α}

theorem Solo.ends (h : Solo sys i q p w tr x w') (hp : p.Ends P) : ∃ y, x = some y ∧ P y := by
  induction h with
  | ret => exact ⟨_, rfl, hp⟩
  | throw => exact hp.elim
  | act _ _ _ ih => exact ih (hp _)

theorem Solo.leads (h : Solo sys i q p w tr x w') (hp : p.Leads φ P)
    (ha : ∃ e ∈ tr, φ e.1) : ∃ y, x = some y ∧ P y := by
  induction h with
  | ret => simp at ha
  | throw => simp at ha
  | @act a k o r s tr x w w' _ _ hrest ih =>
    by_cases hφ : φ a
    · exact hrest.ends (hp.1 hφ r)
    · obtain ⟨e, he, hφe⟩ := ha
      rcases List.mem_cons.mp he with rfl | he
      · exact absurd hφe hφ
      · exact ih (hp.2 r) ⟨e, he, hφe⟩

end ends

/-! Concrete runs of one thread. -/

/-- The run with the given outcomes, as far as they go. -/
def System.alone (sys : System A R Q V O S) (i : ℕ) (q : Q) :
    Prog A R α → Hist A R Q S → List O → Option (Option α × Hist A R Q S)
  | .ret x, w, [] => some (some x, w)
  | .throw, w, [] => some (none, w)
  | .act a k, w, o :: os =>
    if sys.allows q a o then
      (sys.perform o i a w.now).bind fun (r, s) => sys.alone i q (k r) (w.next (.act i q a r) s) os
    else none
  | _, _, _ => none

/-- The actions of that run. -/
def System.trace (sys : System A R Q V O S) (i : ℕ) (q : Q) :
    Prog A R α → Hist A R Q S → List O → List (A × O)
  | .act a k, w, o :: os => (a, o) :: ((sys.perform o i a w.now).elim [] fun (r, s) =>
      sys.trace i q (k r) (w.next (.act i q a r) s) os)
  | _, _, _ => []

theorem System.solo_of_alone {sys : System A R Q V O S} {i : ℕ} {q : Q} {p : Prog A R α}
    {w w' : Hist A R Q S} {os : List O} {x : Option α} (h : sys.alone i q p w os = some (x, w')) :
    Solo sys i q p w (sys.trace i q p w os) x w' := by
  induction os generalizing p w with
  | nil =>
    cases p with
    | ret z =>
      cases h
      exact .ret
    | throw =>
      cases h
      exact .throw
    | act a k => cases h
  | cons o os ih =>
    cases p with
    | ret z | throw => cases h
    | act a k =>
      simp only [System.alone] at h
      split at h
      · rename_i ha
        obtain ⟨⟨r, s⟩, hx, h⟩ := Option.bind_eq_some_iff.mp h
        have := Solo.act ha hx (ih h)
        simpa [System.trace, hx] using this
      · cases h

end Interleaved
