import IceLog.Concurrency.Trace

/-! Requests that take effect in one step each. In the order of these steps they make a history of
a sequential object, in which no request comes before one that had stopped when it was called. -/
namespace Interleaved

variable {A : Type} {R : A → Type} {Q V O S T N α β : Type}

theorem Prog.All.and {φ ψ : (a : A) → (R a → Prog A R α) → Prop} {p : Prog A R α} (h : p.All φ)
    (h' : p.All ψ) : p.All fun a k => φ a k ∧ ψ a k := by
  induction p with
  | ret x => trivial
  | throw => trivial
  | act a k ih => exact ⟨⟨h.1, h'.1⟩, fun r => ih r (h.2 r) (h'.2 r)⟩

theorem Prog.Ends.mono {P P' : α → Prop} {p : Prog A R α} (h : p.Ends P)
    (hp : ∀ x, P x → P' x) : p.Ends P' := by
  induction p with
  | ret x => exact hp x h
  | throw => exact h.elim
  | act a k ih => exact fun r => ih r (h r)

/-! What the answer of a program says about what it has done. -/

/-- The program returns in `P` if and only if it has done `φ`, or `seen` holds from the start; once
it has, it does not throw. -/
def Prog.Tells (φ : (a : A) → R a → Prop) (P : α → Prop) : Prog A R α → Prop → Prop
  | .ret x, seen => P x ↔ seen
  | .throw, seen => ¬ seen
  | .act a k, seen => ∀ r, (k r).Tells φ P (seen ∨ φ a r)

section tells
variable {φ : (a : A) → R a → Prop} {P : α → Prop} {p p' : Prog A R α} {tr : List (Σ a, R a)}
  {seen : Prop}

theorem Prog.Tells.leaves (h : p.Tells φ P seen) (hl : p.Leaves tr p') :
    p'.Tells φ P (seen ∨ ∃ e ∈ tr, φ e.1 e.2) := by
  induction hl generalizing seen with
  | nil => simpa using h
  | cons _ ih => simpa [or_assoc] using ih (h _)

/-- Actions that are not of `φ`, and then what the program does with what they led to. -/
theorem Prog.Tells.bind {p : Prog A R β} {f : β → Prog A R α} (h : p.All fun a _ => ∀ r, ¬ φ a r)
    (hseen : ¬ seen) (hf : ∀ x, (f x).Tells φ P False) : (p.bind f).Tells φ P seen := by
  obtain rfl : seen = False := propext (iff_false_intro hseen)
  induction p with
  | ret x => exact hf x
  | throw => exact hseen
  | act a k ih =>
    intro r
    have hr : (False ∨ φ a r) = False := propext (by simp [h.1 r])
    rw [hr]
    exact ih r (h.2 r)

/-- What a program returns, and what another makes of it. -/
theorem Prog.Tells.andThen {P' : β → Prop} {f : α → Prog A R β} (h : p.Tells φ P seen)
    (hf : ∀ x seen, (P x ↔ seen) → (f x).Tells φ P' seen) : (p.bind f).Tells φ P' seen := by
  induction p generalizing seen with
  | ret x => exact hf x seen h
  | throw => exact h
  | act a k ih => exact fun r => ih r (h r)

/-- The action of a destructor. -/
theorem Prog.Tells.guarded {a : A} (h : p.Tells φ P seen) (ha : ∀ r, ¬ φ a r) :
    (p.guarded (.act a fun _ => .ret ())).Tells φ P seen := by
  have hrest : ∀ {seen r}, (seen ∨ φ a r) = seen := fun {_ r} => propext (by simp [ha r])
  induction p generalizing seen with
  | ret x =>
    intro r
    rw [hrest]
    exact h
  | throw =>
    intro r
    rw [hrest]
    exact h
  | act b k ih => exact fun r => ih r (h r)

end tells

/-! The sequential object. -/

/-- A sequential object that the state stands for. Some steps take effect, and each of these is
what the object does to serve the request of the thread, which is told `N`. -/
structure Linear (sys : System A R Q V O S) (T N : Type) where
  good : Config A R Q V S → Prop
  abs : S → T
  does : Q → N → T → T → Prop
  effects : Hist A R Q S → Event A R Q → S → Prop
  stable : ∀ {c c' e}, good c → Step sys c e c' → good c'
  rest : ∀ {c c' e}, good c → Step sys c e c' → ¬ effects c.world e c'.state →
    abs c'.state = abs c.state
  effect : ∀ {c c' e}, good c → Step sys c e c' → effects c.world e c'.state →
    ∃ i q a r n, e = .act i q a r ∧ does q n (abs c.state) (abs c'.state)
  once : ∀ {c c' i q a r}, good c → Step sys c (.act i q a r) c' →
    effects c.world (.act i q a r) c'.state → ∀ {v q' a' r' s},
      (v.next (.act i q' a' r') s).Before c.world → ¬ effects v (.act i q' a' r') s

/-- A request in the order: what it is told, and the moments before and after it takes effect. -/
structure Point (A : Type) (R : A → Type) (Q S N : Type) where
  thread : ℕ
  request : Q
  told : N
  moment : Hist A R Q S
  after : Hist A R Q S

/-- The object serves the requests one after the other. -/
inductive Serially (does : Q → N → T → T → Prop) (s : T) : List (Point A R Q S N) → T → Prop
  | nil : Serially does s [] s
  | snoc {L : List (Point A R Q S N)} {p : Point A R Q S N} {t u : T} : Serially does s L t →
      does p.request p.told t u → Serially does s (L ++ [p]) u

theorem Serially.append {does : Q → N → T → T → Prop} {s t u : T} {L L' : List (Point A R Q S N)}
    (h : Serially does s L t) (h' : Serially does t L' u) : Serially does s (L ++ L') u := by
  induction h' with
  | nil => exact (List.append_nil L).symm ▸ h
  | snoc _ hp ih => exact List.append_assoc L .. ▸ ih.snoc hp

theorem Serially.eq {does : Q → N → T → T → Prop} {s t : T}
    (h : Serially does s ([] : List (Point A R Q S N)) t) : t = s := by
  generalize hL : ([] : List (Point A R Q S N)) = L at h
  cases h with
  | nil => rfl
  | snoc => simp at hL

theorem Serially.does {does : Q → N → T → T → Prop} {s t : T} {p : Point A R Q S N}
    (h : Serially does s [p] t) : does p.request p.told s t := by
  generalize hL : [p] = L at h
  cases h with
  | nil => cases hL
  | @snoc L p' t' _ h' hp =>
    obtain ⟨rfl, hp'⟩ : [] = L ∧ p = p' := by
      cases L with
      | nil => exact ⟨rfl, by simpa using hL⟩
      | cons => simp at hL
    rw [h'.eq] at hp
    exact hp' ▸ hp

variable {sys : System A R Q V O S} {I : Linear sys T N} {c c' d : Config A R Q V S}
  {L : List (Point A R Q S N)} {p : Point A R Q S N} {e : Event A R Q}

/-- The request takes effect between `c` and `c'`. -/
structure Point.Occurs (I : Linear sys T N) (c c' : Config A R Q V S) (p : Point A R Q S N) :
    Prop where
  since : c.world.Before p.moment
  upto : p.after.Before c'.world
  acts : ∃ a r s, p.after = p.moment.next (.act p.thread p.request a r) s ∧
    I.effects p.moment (.act p.thread p.request a r) s
  does : I.does p.request p.told (I.abs p.moment.now) (I.abs p.after.now)

/-- The requests that take effect between `c` and `c'`, in their order. -/
structure Linearized (I : Linear sys T N) (c c' : Config A R Q V S) (L : List (Point A R Q S N)) :
    Prop where
  serial : Serially I.does (I.abs c.state) L (I.abs c'.state)
  occurs : ∀ p ∈ L, p.Occurs I c c'
  order : L.Pairwise fun p p' => p.after.Before p'.moment
  once : (L.map Point.thread).Nodup
  all : ∀ {v i q a r s}, c.world.Before v → (v.next (.act i q a r) s).Before c'.world →
    I.effects v (.act i q a r) s → ∃ p ∈ L, p.thread = i ∧ p.request = q ∧ p.moment = v ∧
      p.after = v.next (.act i q a r) s

theorem Point.Occurs.mono (h : p.Occurs I c d) (hb : d.world.Before c'.world) : p.Occurs I c c' :=
  ⟨h.since, h.upto.trans hb, h.acts, h.does⟩

theorem Linearized.nil : Linearized I c c [] where
  serial := .nil
  occurs p hp := by cases hp
  order := .nil
  once := List.nodup_nil
  all {v i q a r s} hv hb := by
    have hle := hv.length_le
    have hlt := hb.length_le
    simp only [World.next_past, List.length_cons] at hlt
    omega

/-- A step that does not take effect. -/
theorem Linearized.rest (h : Linearized I c d L) (hd : I.good d) (hs : Step sys d e c')
    (hn : ¬ I.effects d.world e c'.state) : Linearized I c c' L := by
  have hw := hs.world_eq
  have hb : d.world.Before c'.world := hw ▸ World.before_next _ _ _
  refine ⟨(I.rest hd hs hn).symm ▸ h.serial, fun p hp => (h.occurs p hp).mono hb, h.order, h.once,
    fun hv hv' he => ?_⟩
  rcases World.before_next_iff.mp (hw ▸ hv') with heq | hv'
  · obtain ⟨rfl, rfl, rfl⟩ := World.next_inj heq
    exact absurd he hn
  · exact h.all hv hv' he

/-- A step that takes effect comes last. -/
theorem Linearized.effect (h : Linearized I c d L) (hcd : c.world.Before d.world) (hd : I.good d)
    (hs : Step sys d e c') (he : I.effects d.world e c'.state) :
    ∃ p : Point A R Q S N, Linearized I c c' (L ++ [p]) ∧ p.moment = d.world ∧
      I.does p.request p.told (I.abs d.state) (I.abs c'.state) := by
  have hw := hs.world_eq
  have hb : d.world.Before c'.world := hw ▸ World.before_next _ _ _
  obtain ⟨i, q, a, r, n, rfl, hdoes⟩ := I.effect hd hs he
  let p : Point A R Q S N := ⟨i, q, n, d.world, c'.world⟩
  have hp : p.Occurs I c c' := by
    refine ⟨hcd, .refl, ⟨a, r, c'.state, hw, he⟩, hdoes⟩
  refine ⟨p, ⟨h.serial.snoc hdoes, fun x hx => ?_, ?_, ?_, fun hv hv' hx => ?_⟩, rfl, hdoes⟩
  · rcases List.mem_append.mp hx with hx | hx
    · exact (h.occurs x hx).mono hb
    · obtain rfl := List.mem_singleton.mp hx
      exact hp
  · refine List.pairwise_append.mpr ⟨h.order, List.pairwise_singleton _ _, fun x hx y hy => ?_⟩
    obtain rfl := List.mem_singleton.mp hy
    exact (h.occurs x hx).upto
  · rw [List.map_append, List.nodup_append]
    refine ⟨h.once, List.pairwise_singleton _ _, fun j hj k hk hjk => ?_⟩
    obtain ⟨x, hx, rfl⟩ := List.mem_map.mp hj
    obtain rfl := List.mem_singleton.mp hk
    -- an earlier request of the same thread
    have hocc := h.occurs x hx
    obtain ⟨a', r', s', hafter, hx'⟩ := hocc.acts
    have hup := hocc.upto
    rw [hafter, hjk] at hup
    rw [hjk] at hx'
    exact I.once hd hs he hup hx'
  · rcases World.before_next_iff.mp (hw ▸ hv') with heq | hv'
    · obtain ⟨rfl, hev, rfl⟩ := World.next_inj heq
      cases hev
      exact ⟨p, List.mem_append_right _ (List.mem_singleton_self p), rfl, rfl, rfl, hw⟩
    · obtain ⟨x, hx, hxs⟩ := h.all hv hv' hx
      exact ⟨x, List.mem_append_left _ hx, hxs⟩

theorem Linear.good_run (I : Linear sys T N) (hc : I.good c) (hr : Run sys c c') : I.good c' := by
  induction hr with
  | refl => exact hc
  | step _ hs ih => exact I.stable ih hs

/-- The requests of `L` that are before the moment `v` lead from `s` to `x`, and those after it from
there to `t`. -/
def Cut (does : Q → N → T → T → Prop) (s : T) (L : List (Point A R Q S N)) (t : T)
    (v : Hist A R Q S) (x : T) : Prop :=
  ∃ L₁ L₂, L = L₁ ++ L₂ ∧ (∀ p ∈ L₁, p.after.Before v) ∧ (∀ p ∈ L₂, v.Before p.moment) ∧
    Serially does s L₁ x ∧ Serially does x L₂ t

/-- The requests of every run can be put in such an order, and every moment has its place in it. -/
theorem Linear.linearized_cut (I : Linear sys T N) (hc : I.good c) (hr : Run sys c c') :
    ∃ L, Linearized I c c' L ∧ ∀ v, c.world.Before v → v.Before c'.world →
      Cut I.does (I.abs c.state) L (I.abs c'.state) v (I.abs v.now) := by
  induction hr with
  | refl =>
    refine ⟨[], .nil, fun v hv hv' => ?_⟩
    obtain rfl := hv.antisymm hv'
    exact ⟨[], [], rfl, by simp, by simp, .nil, .nil⟩
  | @step d c' e hr hs ih =>
    obtain ⟨L, hL, hcut⟩ := ih
    have hd := I.good_run hc hr
    have hw := hs.world_eq
    by_cases he : I.effects d.world e c'.state
    · obtain ⟨p, hp, hpoint⟩ := hL.effect hr.before hd hs he
      refine ⟨L ++ [p], hp, fun v hv hv' => ?_⟩
      rcases World.before_next_iff.mp (hw ▸ hv') with heq | hv'
      · -- at the end, nothing comes after
        obtain rfl : v = c'.world := heq.trans hw.symm
        exact ⟨L ++ [p], [], by simp, fun x hx => (hp.occurs x hx).upto, by simp, hp.serial, .nil⟩
      · obtain ⟨L₁, L₂, rfl, hbefore, hafter, hserial, hrest⟩ := hcut v hv hv'
        refine ⟨L₁, L₂ ++ [p], by simp, hbefore, fun x hx => ?_, hserial, hrest.snoc hpoint.2⟩
        rcases List.mem_append.mp hx with hx | hx
        · exact hafter x hx
        · rw [List.mem_singleton.mp hx, hpoint.1]
          exact hv'
    · have hrest := I.rest hd hs he
      refine ⟨L, hL.rest hd hs he, fun v hv hv' => ?_⟩
      rcases World.before_next_iff.mp (hw ▸ hv') with heq | hv'
      · obtain rfl : v = c'.world := heq.trans hw.symm
        have hp := hL.rest hd hs he
        exact ⟨L, [], by simp, fun x hx => (hp.occurs x hx).upto, by simp, hp.serial, .nil⟩
      · rw [hrest]
        exact hcut v hv hv'

theorem Linear.linearized (I : Linear sys T N) (hc : I.good c) (hr : Run sys c c') :
    ∃ L, Linearized I c c' L := by
  obtain ⟨L, hL, -⟩ := I.linearized_cut hc hr
  exact ⟨L, hL⟩

/-- A request has been called when it takes effect, and has not stopped. -/
theorem Point.Occurs.running (h : p.Occurs I c c') (hr : Run sys c c') :
    ∃ b b', Run sys c b ∧ b.world = p.moment ∧ b.Running p.thread p.request ∧
      b'.world = p.after ∧ (∃ t, b'.thread p.thread = some t) ∧ Run sys b' c' := by
  obtain ⟨a, r, s, hafter, -⟩ := h.acts
  have hup := h.upto
  obtain ⟨b', hcb', hw', hb'⟩ := hr.moment (h.since.trans (hafter ▸ World.before_next _ _ _)) hup
  rw [hafter] at hw'
  cases hcb' with
  | refl =>
    have hle := h.since.length_le
    rw [hw'] at hle
    exact absurd hle (by simp)
  | step hcb hs =>
    obtain ⟨hw, rfl, -⟩ := World.next_inj (hs.world_eq.symm.trans hw')
    cases hs with
    | act hi hx =>
      exact ⟨_, _, hcb, hw, ⟨_, _, hi⟩, hw'.trans hafter.symm, ⟨_, Config.put_thread_self ..⟩, hb'⟩

/-- No request comes before one that had stopped when it was called. -/
theorem Linearized.realTime (h : Linearized I c c' L) (hcd : Run sys c d) (hdc : Run sys d c') :
    L.Pairwise fun p p' => d.thread p.thread = none →
      ∀ t, d.thread p'.thread = some t → ¬ t.code.Finished := by
  refine h.order.imp_of_mem fun {p p'} hp hp' hpp hnone t ht hf => ?_
  have hr := hcd.trans hdc
  have ho := h.occurs p hp
  have ho' := h.occurs p' hp'
  obtain ⟨a, r, s, hafter, he⟩ := ho'.acts
  -- whether the later of the two takes effect before `d` or after it
  rcases ho'.upto.total hdc.before with hb | hb
  · have hmoment : p'.moment.Before p'.after := hafter ▸ World.before_next _ _ _
    have hpd : p.Occurs I c d := ⟨ho.since, hpp.trans (hmoment.trans hb), ho.acts, ho.does⟩
    obtain ⟨-, b', -, -, -, -, ⟨t', ht'⟩, hbd⟩ := hpd.running hcd
    obtain ⟨t'', ht'', -⟩ := hbd.request_eq ht'
    cases hnone.symm.trans ht''
  · have hlater : d.world.Before p'.moment ∨ d.world = p'.after := by
      rw [hafter] at hb ⊢
      exact (World.before_next_iff.mp hb).symm
    rcases hlater with hb | hb
    · have hpd : p'.Occurs I d c' := ⟨hb, ho'.upto, ho'.acts, ho'.does⟩
      obtain ⟨b, -, hdb, -, ⟨a', k, hb'⟩, -⟩ := hpd.running hdc
      cases (hdb.finished_eq ht hf).symm.trans hb'
      exact Prog.finished_act hf
    · have hpd : p.Occurs I c d := ⟨ho.since, hb ▸ hpp.trans (hafter ▸ World.before_next _ _ _),
        ho.acts, ho.does⟩
      obtain ⟨-, b', -, -, -, -, ⟨t', ht'⟩, hbd⟩ := hpd.running hcd
      obtain ⟨t'', ht'', -⟩ := hbd.request_eq ht'
      cases hnone.symm.trans ht''

end Interleaved
