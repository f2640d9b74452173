import IceLog.Concurrency.Solo

/-! Programs as functions: what a thread that runs alone does, where each action is answered by a
function of a state that stands for the shared one. -/
namespace Interleaved

variable {A : Type} {R : A → Type} {Q V O S T α β : Type}

/-- What a program returns, and the state that it leads to, if `step` answers its actions. There is
nothing where it throws or an action has no answer. -/
def Prog.denote (step : (a : A) → T → Option (R a × T)) : Prog A R α → T → Option (α × T)
  | .ret x, t => some (x, t)
  | .throw, _ => none
  | .act a k, t => (step a t).bind fun e => (k e.1).denote step e.2

variable {step : (a : A) → T → Option (R a × T)} {p : Prog A R α} {t t' : T}

theorem Prog.denote_perform (a : A) : (Prog.perform a).denote step t = step a t := by
  show (step a t).bind (fun e => some (e.1, e.2)) = _
  exact Option.bind_fun_some _

theorem Prog.denote_bind (f : α → Prog A R β) : (p.bind f).denote step t =
    (p.denote step t).bind fun e => (f e.1).denote step e.2 := by
  induction p generalizing t with
  | ret x => rfl
  | throw => rfl
  | act a k ih =>
    show (step a t).bind (fun e => ((k e.1).bind f).denote step e.2) =
      ((step a t).bind fun e => (k e.1).denote step e.2).bind fun e => (f e.1).denote step e.2
    rw [Option.bind_assoc]
    exact congrArg _ (funext fun e => ih e.1)

theorem Prog.denote_bind_some {f : α → Prog A R β} {y : α} (h : p.denote step t = some (y, t')) :
    (p.bind f).denote step t = (f y).denote step t' := by
  rw [denote_bind, h]
  rfl

/-- `step` answers the actions of the thread as the system does, where it answers. -/
def Adequate (sys : System A R Q V O S) (i : ℕ) (q : Q) (step : (a : A) → T → Option (R a × T))
    (Stands : S → T → Prop) : Prop :=
  ∀ {a o r r' s s' t t'}, step a t = some (r', t') → sys.allows q a o = true →
    sys.perform o i a s = some (r, s') → Stands s t → r' = r ∧ Stands s' t'

/-- A thread that runs alone does what its program denotes. -/
theorem Solo.denote {sys : System A R Q V O S} {i : ℕ} {q : Q} {w w' : Hist A R Q S}
    {tr : List (A × O)} {x : Option α} {y : α} {Stands : S → T → Prop}
    (hstep : Adequate sys i q step Stands) (h : Solo sys i q p w tr x w') (hw : Stands w.now t)
    (hd : p.denote step t = some (y, t')) : x = some y ∧ Stands w'.now t' := by
  induction h generalizing t with
  | ret =>
    cases hd
    exact ⟨rfl, hw⟩
  | throw => cases hd
  | @act a k o r s tr x w w' ha hx _ ih =>
    obtain ⟨⟨r', u⟩, hu, hd⟩ := Option.bind_eq_some_iff.mp hd
    obtain ⟨rfl, hs⟩ := hstep hu ha hx hw
    exact ih hs hd

/-- What a thread does alone depends on the state, and not on what has happened before. -/
theorem Solo.rebase {sys : System A R Q V O S} {i : ℕ} {q : Q} {w w' v : Hist A R Q S}
    {tr : List (A × O)} {x : Option α} (h : Solo sys i q p w tr x w') (hv : v.now = w.now) :
    ∃ v', Solo sys i q p v tr x v' ∧ v'.now = w'.now := by
  induction h generalizing v with
  | ret => exact ⟨v, .ret, hv⟩
  | throw => exact ⟨v, .throw, hv⟩
  | @act a k o r s tr x w w' ha hx _ ih =>
    obtain ⟨v', h', hv'⟩ := @ih (v.next (.act i q a r) s) rfl
    rw [← hv] at hx
    exact ⟨v', .act ha hx h', hv'⟩

end Interleaved
