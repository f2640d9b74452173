import IceLog.Concurrency.World

/-! Postconditions of programs whose steps are interleaved with the steps of others. An assertion
is about the whole world; what other threads may do to it is the relation `rely`. -/
namespace Interleaved

variable {A : Type} {R : A → Type} {Q V O S W α β : Type}

/-- What the proof about one thread may use: how the world can change between two of its
actions, what it must know before an action, and what an action of its own does. -/
structure Theory (A : Type) (R : A → Type) (W : Type) where
  rely : W → W → Prop
  needs : A → W → Prop
  step : (a : A) → W → R a → W → Prop
  rely_refl : ∀ w, rely w w
  rely_trans : ∀ {u v w}, rely u v → rely v w → rely u w

/-- From `w` on, `p` performs only actions whose needs are met, returns `x` only where
`post x` holds and throws only where `exc` holds, whatever happens between its actions. -/
def Safe (T : Theory A R W) (post : α → W → Prop) (exc : W → Prop) : Prog A R α → W → Prop
  | .ret x, w => ∀ w', T.rely w w' → post x w'
  | .throw, w => ∀ w', T.rely w w' → exc w'
  | .act a k, w => ∀ w', T.rely w w' →
      T.needs a w' ∧ ∀ r w'', T.step a w' r w'' → Safe T post exc (k r) w''

section rules
variable {T : Theory A R W} {post : α → W → Prop} {exc : W → Prop}
  {p : Prog A R α} {w w' : W}

theorem Safe.rely (h : Safe T post exc p w) (hr : T.rely w w') : Safe T post exc p w' := by
  cases p with
  | ret x => exact fun u hu => h u (T.rely_trans hr hu)
  | throw => exact fun u hu => h u (T.rely_trans hr hu)
  | act a k => exact fun u hu => h u (T.rely_trans hr hu)

theorem Safe.mono {post' : α → W → Prop} {exc' : W → Prop} (h : Safe T post exc p w)
    (hp : ∀ x u, post x u → post' x u) (he : ∀ u, exc u → exc' u) : Safe T post' exc' p w := by
  induction p generalizing w with
  | ret x => exact fun u hu => hp x u (h u hu)
  | throw => exact fun u hu => he u (h u hu)
  | act a k ih =>
    intro u hu
    obtain ⟨hn, hk⟩ := h u hu
    exact ⟨hn, fun r v hv => ih r (hk r v hv)⟩

/-- A postcondition may be read after any further interference. -/
theorem Safe.closed (h : Safe T post exc p w) :
    Safe T (fun x u => ∀ v, T.rely u v → post x v) (fun u => ∀ v, T.rely u v → exc v) p w := by
  induction p generalizing w with
  | ret x => exact fun u hu v hv => h v (T.rely_trans hu hv)
  | throw => exact fun u hu v hv => h v (T.rely_trans hu hv)
  | act a k ih =>
    intro u hu
    obtain ⟨hn, hk⟩ := h u hu
    exact ⟨hn, fun r v hv => ih r (hk r v hv)⟩

theorem Safe.bind {f : α → Prog A R β} {post' : β → W → Prop}
    (h : Safe T (fun x u => Safe T post' exc (f x) u) exc p w) :
    Safe T post' exc (p.bind f) w := by
  induction p generalizing w with
  | ret x => exact h w (T.rely_refl w)
  | throw => exact h
  | act a k ih =>
    intro u hu
    obtain ⟨hn, hk⟩ := h u hu
    exact ⟨hn, fun r v hv => ih r (hk r v hv)⟩

/-- A guarded program: the destructor runs on both ways out. -/
theorem Safe.guarded {leave : Prog A R Unit}
    (h : Safe T (fun x u => Safe T (fun _ v => post x v) (fun _ => False) leave u)
      (fun u => Safe T (fun _ v => exc v) (fun _ => False) leave u) p w) :
    Safe T post exc (p.guarded leave) w := by
  induction p generalizing w with
  | ret x =>
    exact Safe.bind ((h w (T.rely_refl w)).closed.mono (fun _ u hq => hq)
      (fun u he => (he u (T.rely_refl u)).elim))
  | throw =>
    exact Safe.bind ((h w (T.rely_refl w)).closed.mono (fun _ u hq => hq)
      (fun u he => (he u (T.rely_refl u)).elim))
  | act a k ih =>
    intro u hu
    obtain ⟨hn, hk⟩ := h u hu
    exact ⟨hn, fun r v hv => ih r (hk r v hv)⟩

theorem Safe.perform {a : A} {post : R a → W → Prop} (hs : ∀ u, T.rely w u → T.needs a u ∧
    ∀ r v, T.step a u r v → ∀ v', T.rely v v' → post r v') :
    Safe T post exc (Prog.perform a) w := hs

end rules
end Interleaved
