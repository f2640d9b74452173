import IceLog.Db.ConnectionPool

/-! Every open connection is in the queue or in one handle, and only a failed replacement makes
the pool smaller. -/
namespace IceLog

open Custody

namespace ConnectionPool

variable {s s' start : ConnectionPool} {h other : ℕ} {x : ConnectionHandle} {o : Attempt}
  {conn : Option Conn} {a : PoolAction} {actions : List PoolAction} {poolSize : ℕ}
  {attempts : List (Option Conn)}

/-- What every step keeps. -/
structure Inv (s : ConnectionPool) : Prop where
  kept : Kept s.availableConnections s.owns s.opened
  dead : ∀ h, h ∉ s.live → s.handle h = {} ∧ s.stage h = .idle
  pooled : ∀ h c, (s.handle h).conn = some c → (s.handle h).pool = true
  source : ∀ h other, s.stage h = .assignedFrom other → s.stage other = .source
  single : ∀ h h' other, s.stage h = .assignedFrom other → s.stage h' = .assignedFrom other →
    h = h'

theorem not_assigned (hs : s.stage h = .idle) : s.assigned h = false := by
  simp [assigned, hs]

theorem owns_eq (ha : s.assigned h = false) : s.owns h = (s.handle h).conn := by
  simp [owns, ha]

theorem Inv.owns_dead (hi : s.Inv) (hd : h ∉ s.live) : s.owns h = none := by
  rw [owns_eq (not_assigned (hi.dead h hd).2), (hi.dead h hd).1]

theorem owns_congr (hh : s'.handle h = s.handle h) (hs : s'.stage h = s.stage h) :
    s'.owns h = s.owns h := by
  have ha : s'.assigned h = s.assigned h := by simp only [assigned, hs]
  rw [owns, owns, ha, hh]

theorem owns_setHandle (ha : s.assigned h = false) :
    (s.setHandle h x).owns = Function.update s.owns h x.conn := by
  funext h'
  by_cases he : h' = h
  · subst he
    have ha' : (s.setHandle h' x).assigned h' = false := ha
    rw [owns_eq ha', Function.update_self]
    simp [setHandle]
  · rw [Function.update_of_ne he]
    exact owns_congr (Function.update_of_ne he _ _) rfl

theorem pooled_setHandle (hp : ∀ h c, (s.handle h).conn = some c → (s.handle h).pool = true)
    (hx : ∀ c, x.conn = some c → x.pool = true) (h' : ℕ) (c : Conn)
    (hc : ((s.setHandle h x).handle h').conn = some c) :
    ((s.setHandle h x).handle h').pool = true := by
  by_cases he : h' = h
  · subst he
    simp only [setHandle, Function.update_self] at hc ⊢
    exact hx c hc
  · simp only [setHandle, Function.update_of_ne he] at hc ⊢
    exact hp h' c hc

theorem dead_setHandle (hd : ∀ h, h ∉ s.live → s.handle h = {} ∧ s.stage h = .idle) (h' : ℕ)
    (hn : h' ∉ (s.setHandle h x).live) :
    (s.setHandle h x).handle h' = {} ∧ (s.setHandle h x).stage h' = .idle := by
  simp only [setHandle, Finset.mem_insert, not_or] at hn ⊢
  rw [Function.update_of_ne hn.1]
  exact hd h' hn.2

/-- A dead handle becomes one with the connection `x.conn`. -/
theorem Inv.setHandle (hi : s.Inv) (hd : h ∉ s.live) (hx : ∀ c, x.conn = some c → x.pool = true)
    {avail : List Conn} {opened : Finset Conn}
    (hk : Kept avail (Function.update s.owns h x.conn) opened) :
    Inv ({ s with availableConnections := avail, opened := opened }.setHandle h x) := by
  let t : ConnectionPool := { s with availableConnections := avail, opened := opened }
  have ha : t.assigned h = false := not_assigned (hi.dead h hd).2
  have ho : (t.setHandle h x).owns = Function.update s.owns h x.conn := owns_setHandle ha
  refine ⟨?_, dead_setHandle hi.dead, pooled_setHandle hi.pooled hx, hi.source, hi.single⟩
  exact ho ▸ hk

theorem giveBack_eq (h : ℕ) :
    s.giveBack h = { s with availableConnections := (s.giveBack h).availableConnections } := by
  simp only [giveBack, release]
  split
  · split <;> rfl
  · rfl

/-- After the destructor's or the assignment's release the handle owns nothing. -/
theorem Inv.giveBack (hi : s.Inv) (ha : s.assigned h = false) :
    Kept (s.giveBack h).availableConnections (Function.update s.owns h none) s.opened := by
  cases hc : (s.handle h).conn with
  | none =>
    have hnone : s.owns h = none := (owns_eq ha).trans hc
    have hq : (s.giveBack h).availableConnections = s.availableConnections := by
      simp only [ConnectionPool.giveBack, hc, release]
      split <;> rfl
    rw [hq, ← hnone, Function.update_eq_self]
    exact hi.kept
  | some c =>
    have hq : (s.giveBack h).availableConnections = s.availableConnections ++ [c] := by
      simp [ConnectionPool.giveBack, hi.pooled h c hc, hc, release]
    rw [hq]
    exact hi.kept.give ((owns_eq ha).trans hc)

/-- What the pop and the checks after it leave. -/
theorem take_spec (hk : Kept s.availableConnections s.owns s.opened)
    (ht : s.take o = some (conn, s')) :
    ∃ avail opened, s' = { s with availableConnections := avail, opened := opened } ∧
      (∀ h, s.owns h = none → Kept avail (Function.update s.owns h conn) opened) ∧
      opened.card + (if o = .refused then 1 else 0) = s.opened.card ∧
      (conn = none ↔ o = .refused) := by
  cases hq : s.availableConnections with
  | nil => simp [take, hq] at ht
  | cons c rest =>
    rw [hq] at hk
    have hc : c ∈ s.opened := (hk.places c).mpr (.inl List.mem_cons_self)
    have hcard : (s.opened.erase c).card + 1 = s.opened.card := Finset.card_erase_add_one hc
    simp only [take, hq] at ht
    cases o with
    | valid =>
      cases ht
      exact ⟨rest, s.opened, rfl, fun h hh => hk.take hh, by simp, by simp⟩
    | reset =>
      cases ht
      exact ⟨rest, s.opened, rfl, fun h hh => hk.take hh, by simp, by simp⟩
    | replaced d =>
      simp only at ht
      split at ht
      · cases ht
      · rename_i hd
        cases ht
        refine ⟨rest, _, rfl, fun h hh => hk.lose.gain hh hd, ?_, by simp⟩
        simp [Finset.card_insert_of_notMem hd, hcard]
    | refused =>
      cases ht
      refine ⟨rest, _, rfl, fun h hh => ?_, by simp [hcard], by simp⟩
      rw [← hh, Function.update_eq_self]
      exact hk.lose

/-- The handle `h`, which has nothing, gets what `other` has. -/
theorem owns_move (hne : h ≠ other) (ha : s.assigned h = false) (ho : s.assigned other = false) :
    ((s.setHandle h (s.handle other)).setHandle other {}).owns =
      Function.update (Function.update s.owns other none) h (s.owns other) := by
  have ho' : (s.setHandle h (s.handle other)).assigned other = false := ho
  rw [owns_setHandle ho', owns_setHandle ha, Function.update_comm hne, owns_eq ho]

theorem Inv.moveConstruct (hi : s.Inv) (hd : h ∉ s.live) (hu : s.usable other) :
    Inv ((s.setHandle h (s.handle other)).setHandle other {}) := by
  have hne : h ≠ other := by
    rintro rfl
    exact hd hu.1
  have hx : ∀ c, (s.handle other).conn = some c → (s.handle other).pool = true :=
    hi.pooled other
  refine ⟨?_, ?_, ?_, hi.source, hi.single⟩
  · rw [owns_move hne (not_assigned (hi.dead h hd).2) (not_assigned hu.2)]
    exact hi.kept.pass (hi.owns_dead hd) hne
  · exact dead_setHandle (dead_setHandle hi.dead)
  · exact pooled_setHandle (pooled_setHandle hi.pooled hx) (by simp)

theorem Inv.beginAssign (hi : s.Inv) (hh : s.usable h) (ho : s.usable other) (hne : h ≠ other) :
    Inv { s.giveBack h with
      stage := Function.update (Function.update s.stage h (.assignedFrom other)) other .source } := by
  rw [giveBack_eq]
  -- the only assignment that begins here is that of `h`
  have hstage : ∀ {h' o : ℕ}, Function.update (Function.update s.stage h (.assignedFrom other))
      other .source h' = .assignedFrom o → (h' = h ∧ o = other) ∨ s.stage h' = .assignedFrom o := by
    intro h' o he
    by_cases hoth : h' = other
    · simp [hoth] at he
    · by_cases hh' : h' = h
      · subst hh'
        rw [Function.update_of_ne hoth, Function.update_self] at he
        exact .inl ⟨rfl, (HandleStage.assignedFrom.inj he).symm⟩
      · rw [Function.update_of_ne hoth, Function.update_of_ne hh'] at he
        exact .inr he
  refine ⟨?_, ?_, hi.pooled, ?_, ?_⟩
  · convert hi.giveBack (not_assigned hh.2) using 1
    funext h'
    by_cases hh' : h' = h
    · subst hh'
      simp [owns, assigned, hne]
    · rw [Function.update_of_ne hh']
      by_cases hoth : h' = other
      · subst hoth
        simp [owns, assigned, ho.2]
      · refine owns_congr rfl ?_
        simp [hoth, hh']
  · intro h' hd
    have h₁ : h' ≠ h := by
      rintro rfl
      exact hd hh.1
    have h₂ : h' ≠ other := by
      rintro rfl
      exact hd ho.1
    simp only [Function.update_of_ne h₁, Function.update_of_ne h₂]
    exact hi.dead h' hd
  · intro h' o he
    rcases hstage he with ⟨-, rfl⟩ | he
    · exact Function.update_self ..
    · have hs := hi.source h' o he
      have h₁ : o ≠ h := by
        rintro rfl
        simp [hh.2] at hs
      by_cases h₂ : o = other
      · simp [h₂]
      · simpa only [Function.update_of_ne h₁, Function.update_of_ne h₂] using hs
  · intro h₁ h₂ o he₁ he₂
    have hfree : ∀ {h'}, s.stage h' ≠ .assignedFrom other := by
      intro h' he
      have hsrc := hi.source h' other he
      rw [ho.2] at hsrc
      cases hsrc
    rcases hstage he₁ with ⟨rfl, rfl⟩ | h₁' <;> rcases hstage he₂ with ⟨rfl, ho₂⟩ | h₂'
    · rfl
    · exact (hfree h₂').elim
    · subst ho₂
      exact (hfree h₁').elim
    · exact hi.single h₁ h₂ o h₁' h₂'

theorem Inv.endAssign (hi : s.Inv) (hs : s.stage h = .assignedFrom other) :
    Inv { (s.setHandle h (s.handle other)).setHandle other {} with
      stage := Function.update (Function.update s.stage h .idle) other .idle } := by
  have hso := hi.source h other hs
  have hne : h ≠ other := by
    rintro rfl
    simp [hs] at hso
  have hstage : ∀ {h' o : ℕ}, Function.update (Function.update s.stage h .idle) other .idle h' =
      .assignedFrom o → h' ≠ h ∧ s.stage h' = .assignedFrom o := by
    intro h' o he
    by_cases hoth : h' = other
    · simp [hoth] at he
    · by_cases hh' : h' = h
      · simp [hh', hne] at he
      · rw [Function.update_of_ne hoth, Function.update_of_ne hh'] at he
        exact ⟨hh', he⟩
  refine ⟨?_, ?_, ?_, ?_, ?_⟩
  · have hnone : s.owns h = none := by simp [owns, assigned, hs]
    have hoth : s.owns other = (s.handle other).conn := owns_eq (by simp [assigned, hso])
    refine Eq.subst (motive := fun f => Kept s.availableConnections f s.opened) ?_
      (hi.kept.pass hnone hne)
    funext h'
    by_cases hh' : h' = h
    · subst hh'
      rw [Function.update_self, hoth]
      simp [owns, assigned, ConnectionPool.setHandle, hne]
    · rw [Function.update_of_ne hh']
      by_cases ho : h' = other
      · subst ho
        simp [owns, assigned, ConnectionPool.setHandle]
      · rw [Function.update_of_ne ho]
        refine owns_congr ?_ ?_
        · simp [ConnectionPool.setHandle, ho, hh']
        · simp [ho, hh']
  · intro h' hd
    have hold := dead_setHandle (x := {}) (dead_setHandle hi.dead) h' hd
    refine ⟨hold.1, ?_⟩
    by_cases ho : h' = other
    · simp [ho]
    · by_cases hh' : h' = h
      · simp [hh', hne]
      · simp only [Function.update_of_ne ho, Function.update_of_ne hh']
        exact hold.2
  · exact pooled_setHandle (pooled_setHandle hi.pooled (hi.pooled other)) (by simp)
  · intro h' o he
    obtain ⟨hne', he'⟩ := hstage he
    have hsrc := hi.source h' o he'
    have h₁ : o ≠ h := by
      rintro rfl
      simp [hs] at hsrc
    have h₂ : o ≠ other := by
      rintro rfl
      exact hne' (hi.single h' h o he' hs)
    simpa only [Function.update_of_ne h₁, Function.update_of_ne h₂] using hsrc
  · intro h₁ h₂ o he₁ he₂
    exact hi.single h₁ h₂ o (hstage he₁).2 (hstage he₂).2

theorem Inv.destroy (hi : s.Inv) (hh : s.usable h) :
    Inv { s.giveBack h with
      live := s.live.erase h, handle := Function.update s.handle h {} } := by
  rw [giveBack_eq]
  refine ⟨?_, ?_, ?_, hi.source, hi.single⟩
  · convert hi.giveBack (not_assigned hh.2) using 1
    funext h'
    by_cases hh' : h' = h
    · subst hh'
      simp [owns]
    · rw [Function.update_of_ne hh']
      exact owns_congr (Function.update_of_ne hh' _ _) rfl
  · intro h' hd
    by_cases hh' : h' = h
    · subst hh'
      exact ⟨Function.update_self .., hh.2⟩
    · have hold : h' ∉ s.live := fun hm => hd (Finset.mem_erase.mpr ⟨hh', hm⟩)
      exact ⟨(Function.update_of_ne hh' _ _).trans (hi.dead h' hold).1, (hi.dead h' hold).2⟩
  · intro h' c hc
    by_cases hh' : h' = h
    · simp [hh'] at hc
    · simp only [Function.update_of_ne hh'] at hc ⊢
      exact hi.pooled h' c hc

/-- One step keeps the invariant, and gives up a connection only where none can be made. -/
theorem Inv.perform (hi : s.Inv) (hp : s.perform a = some s') :
    s'.Inv ∧ s'.poolSize = s.poolSize ∧
      s'.opened.card + (if a.isRefused then 1 else 0) = s.opened.card := by
  have hgive : ∀ h, (s.giveBack h).poolSize = s.poolSize ∧ (s.giveBack h).opened = s.opened := by
    intro h
    rw [giveBack_eq]
    exact ⟨rfl, rfl⟩
  -- a new handle without a connection
  have hnew : ∀ {h : ℕ}, h ∉ s.live → (s.setHandle h {}).Inv := by
    intro h hd
    refine hi.setHandle hd (by simp) ?_
    have hk := hi.kept
    rwa [← Function.update_eq_self h s.owns, hi.owns_dead hd] at hk
  cases a with
  | acquire h o =>
    simp only [ConnectionPool.perform] at hp
    split at hp
    · cases hp
    · rename_i hd
      obtain ⟨⟨conn, t⟩, ht, he⟩ := Option.map_eq_some_iff.mp hp
      obtain ⟨avail, opened, rfl, hk, hcard, href⟩ := take_spec hi.kept ht
      have hk := hk h (hi.owns_dead hd)
      cases conn with
      | none =>
        cases he
        obtain rfl := href.mp rfl
        refine ⟨⟨?_, hi.dead, hi.pooled, hi.source, hi.single⟩, rfl, hcard⟩
        rwa [← hi.owns_dead hd, Function.update_eq_self] at hk
      | some c =>
        cases he
        have ho : o ≠ .refused := fun ho => nomatch href.mpr ho
        refine ⟨hi.setHandle hd (by simp) hk, rfl, ?_⟩
        cases o <;> simp_all [PoolAction.isRefused, ConnectionPool.setHandle]
  | acquireWithTimeout h o =>
    simp only [ConnectionPool.perform] at hp
    split at hp
    · cases hp
    · rename_i hd
      obtain ⟨⟨conn, t⟩, ht, he⟩ := Option.map_eq_some_iff.mp hp
      obtain ⟨avail, opened, rfl, hk, hcard, -⟩ := take_spec hi.kept ht
      cases he
      refine ⟨hi.setHandle hd (by simp) (hk h (hi.owns_dead hd)), rfl, ?_⟩
      cases o <;> simpa [PoolAction.isRefused, ConnectionPool.setHandle] using hcard
  | timedOut h =>
    simp only [ConnectionPool.perform] at hp
    split at hp
    · cases hp
    · rename_i hd
      cases hp
      exact ⟨hnew fun hl => hd (.inl hl), rfl, rfl⟩
  | construct h =>
    simp only [ConnectionPool.perform] at hp
    split at hp
    · cases hp
    · rename_i hd
      cases hp
      exact ⟨hnew hd, rfl, rfl⟩
  | moveConstruct h other =>
    simp only [ConnectionPool.perform] at hp
    split at hp
    · cases hp
    · rename_i hd
      rw [not_or, not_not] at hd
      cases hp
      exact ⟨hi.moveConstruct hd.1 hd.2, rfl, rfl⟩
  | beginAssign h other =>
    simp only [ConnectionPool.perform] at hp
    split at hp
    · cases hp
    · rename_i hu
      rw [not_or, not_not, not_not] at hu
      split at hp
      · cases hp
        exact ⟨hi, rfl, rfl⟩
      · rename_i hne
        cases hp
        exact ⟨hi.beginAssign hu.1 hu.2 hne, (hgive h).1, by rw [(hgive h).2]; rfl⟩
  | endAssign h =>
    simp only [ConnectionPool.perform] at hp
    split at hp
    · rename_i other hs
      cases hp
      exact ⟨hi.endAssign hs, rfl, rfl⟩
    · cases hp
  | destroy h =>
    simp only [ConnectionPool.perform] at hp
    split at hp
    · cases hp
    · rename_i hu
      cases hp
      exact ⟨hi.destroy (not_not.mp hu), (hgive h).1, by rw [(hgive h).2]; rfl⟩

theorem connect_inv (hi : s.Inv) (hl : s.live = ∅) (hc : s.connect conn = some s') :
    s'.Inv ∧ s'.live = ∅ ∧ s'.poolSize = s.poolSize ∧
      s'.opened.card + (if conn = none then 1 else 0) = s.opened.card + 1 := by
  cases conn with
  | none =>
    cases hc
    exact ⟨hi, hl, rfl, rfl⟩
  | some c =>
    simp only [connect] at hc
    split at hc
    · cases hc
    · rename_i hn
      cases hc
      refine ⟨⟨?_, hi.dead, hi.pooled, hi.source, hi.single⟩, hl, rfl, ?_⟩
      · exact hi.kept.push hn
      · simp [Finset.card_insert_of_notMem hn]

theorem connectAll_inv (hi : s.Inv) (hl : s.live = ∅) (hc : s.connectAll attempts = some s') :
    s'.Inv ∧ s'.live = ∅ ∧ s'.poolSize = s.poolSize ∧
      s'.opened.card ≤ s.opened.card + attempts.length := by
  induction attempts generalizing s with
  | nil =>
    cases hc
    exact ⟨hi, hl, rfl, Nat.le_refl _⟩
  | cons c cs ih =>
    obtain ⟨t, ht, hc⟩ := Option.bind_eq_some_iff.mp hc
    obtain ⟨hti, htl, htp, htc⟩ := connect_inv hi hl ht
    obtain ⟨hi', hl', hp', hc'⟩ := ih hti htl hc
    refine ⟨hi', hl', hp'.trans htp, ?_⟩
    rw [List.length_cons]
    omega

theorem new_inv (hn : new poolSize attempts = some s) :
    s.Inv ∧ s.live = ∅ ∧ s.poolSize = poolSize ∧ s.opened.card ≤ poolSize := by
  simp only [new] at hn
  split at hn
  · rename_i hlen
    have hempty : Inv { poolSize := poolSize } :=
      ⟨kept_none, by simp, by simp, by simp, by simp⟩
    obtain ⟨hi, hl, hp, hc⟩ := connectAll_inv hempty rfl hn
    exact ⟨hi, hl, hp, by simpa [hlen] using hc⟩
  · cases hn

theorem performAll_inv (hi : s.Inv) (hp : s.performAll actions = some s') :
    s'.Inv ∧ s'.poolSize = s.poolSize ∧
      s'.opened.card + actions.countP PoolAction.isRefused = s.opened.card := by
  induction actions generalizing s with
  | nil =>
    cases hp
    exact ⟨hi, rfl, rfl⟩
  | cons a as ih =>
    obtain ⟨t, ht, hp⟩ := Option.bind_eq_some_iff.mp hp
    obtain ⟨hti, htp, htc⟩ := hi.perform ht
    obtain ⟨hi', hp', hc'⟩ := ih hti hp
    refine ⟨hi', hp'.trans htp, ?_⟩
    rw [List.countP_cons]
    omega

theorem Inv.live_of_owns (hi : s.Inv) {c : Conn} (hc : s.owns h = some c) : h ∈ s.live := by
  by_contra hd
  rw [hi.owns_dead hd] at hc
  cases hc

theorem Inv.card_eq (hi : s.Inv) :
    s.opened.card =
      s.availableConnections.length + (s.live.filter fun h => (s.owns h).isSome).card :=
  hi.kept.card fun _ _ hc => hi.live_of_owns hc

/-- The connection is in the queue once and in no handle, or in one handle and not in the
queue. -/
def InOnePlace (s : ConnectionPool) (c : Conn) : Prop :=
  (s.availableConnections.count c = 1 ∧ ∀ h ∈ s.live, s.owns h ≠ some c) ∨
    (c ∉ s.availableConnections ∧ ∃! h, h ∈ s.live ∧ s.owns h = some c)

/-- After any steps of any threads on a new pool, each open connection is in one place, only
open ones are in the queue and in handles, and the queue fits the pool. -/
theorem connections_have_one_owner (hn : new poolSize attempts = some start)
    (hp : start.performAll actions = some s) :
    (∀ c ∈ s.opened, s.InOnePlace c) ∧ (∀ c ∈ s.availableConnections, c ∈ s.opened) ∧
      (∀ h ∈ s.live, ∀ c, s.owns h = some c → c ∈ s.opened) ∧
      (∀ h ∈ s.live, s.assigned h = false → s.owns h = (s.handle h).conn) ∧
      s.availableConnections.length ≤ poolSize := by
  obtain ⟨hi₀, -, -, hc₀⟩ := new_inv hn
  obtain ⟨hi, -, hc⟩ := performAll_inv hi₀ hp
  have hk := hi.kept
  refine ⟨?_, fun c hc => (hk.places c).mpr (.inl hc), ?_, fun h _ ha => owns_eq ha, ?_⟩
  · intro c hopen
    rcases (hk.places c).mp hopen with hq | ⟨h, hh⟩
    · refine .inl ⟨List.count_eq_one_of_mem hk.queued hq, ?_⟩
      intro h _ hh
      exact hk.apart h c hh hq
    · refine .inr ⟨hk.apart h c hh, h, ⟨hi.live_of_owns hh, hh⟩, ?_⟩
      rintro h' ⟨-, hh'⟩
      exact hk.unique h' h c hh' hh
  · intro h _ c hh
    exact (hk.places c).mpr (.inr ⟨h, hh⟩)
  · have hcard := hi.card_eq
    omega

/-- All `n` connections are there, and when no handle has one, `acquire` finds them all. -/
def Whole (n : ℕ) (s : ConnectionPool) : Prop :=
  s.availableConnections.length + s.held = n ∧
    (s.held = 0 → s.availableConnections.length = n ∧
      (0 < n → ∀ h, h ∉ s.live → (s.perform (.acquire h .valid)).isSome))

theorem whole_iff {n : ℕ} : s.Whole n ↔ s.availableConnections.length + s.held = n := by
  refine ⟨fun h => h.1, fun h => ⟨h, fun h₀ => ?_⟩⟩
  have hlen : s.availableConnections.length = n := by omega
  refine ⟨hlen, fun hpos h hd => ?_⟩
  obtain ⟨c, rest, hq⟩ := List.exists_cons_of_length_pos (hlen ▸ hpos)
  simp [ConnectionPool.perform, take, hd, hq]

/-- The pool keeps the connections that its constructor opened exactly as long as no call has
given one up without another in its place. -/
theorem pool_whole_iff (hn : new poolSize attempts = some start)
    (hp : start.performAll actions = some s) (hidle : ∀ h, s.stage h = .idle) :
    s.Whole start.availableConnections.length ↔ ∀ a ∈ actions, a.isRefused = false := by
  obtain ⟨hi₀, hl₀, -, -⟩ := new_inv hn
  obtain ⟨hi, -, hc⟩ := performAll_inv hi₀ hp
  have hcard := hi.card_eq
  have hcard₀ := hi₀.card_eq
  rw [hl₀, Finset.filter_empty, Finset.card_empty] at hcard₀
  have hheld : (s.live.filter fun h => (s.owns h).isSome).card = s.held := by
    simp only [held, owns_eq (not_assigned (hidle _))]
  have hnone : (∀ a ∈ actions, a.isRefused = false) ↔ actions.countP PoolAction.isRefused = 0 := by
    rw [List.countP_eq_zero]
    simp
  rw [whole_iff, hnone]
  omega

/-- A pool of one connection hands it out and gets it back. -/
def borrowed : List PoolAction := [.acquire 0 .reset, .moveConstruct 1 0, .destroy 1, .destroy 0]

theorem connections_have_one_owner_borrowed :
    ∃ start s, new 1 [some 7] = some start ∧ start.performAll borrowed = some s ∧
      (∀ c ∈ s.opened, s.InOnePlace c) ∧ (∀ c ∈ s.availableConnections, c ∈ s.opened) ∧
      (∀ h ∈ s.live, ∀ c, s.owns h = some c → c ∈ s.opened) ∧
      (∀ h ∈ s.live, s.assigned h = false → s.owns h = (s.handle h).conn) ∧
      s.availableConnections.length ≤ 1 :=
  ⟨_, _, rfl, rfl, connections_have_one_owner (show new 1 [some 7] = some _ from rfl)
    (show performAll _ borrowed = some _ from rfl)⟩

theorem pool_whole_iff_borrowed :
    ∃ start s, new 1 [some 7] = some start ∧ start.performAll borrowed = some s ∧
      (s.Whole start.availableConnections.length ↔ ∀ a ∈ borrowed, a.isRefused = false) :=
  ⟨_, _, rfl, rfl, pool_whole_iff (show new 1 [some 7] = some _ from rfl)
    (show performAll _ borrowed = some _ from rfl) fun _ => rfl⟩

/-- The only connection breaks while the database is away: `acquire` throws, the pool stays
empty, and every later `acquire` waits. -/
theorem pool_shrinks :
    ∃ start s, new 1 [some 7] = some start ∧ start.availableConnections.length = 1 ∧
      start.performAll [.acquire 0 .refused] = some s ∧ (∀ h, s.stage h = .idle) ∧
      ¬ s.Whole 1 ∧ s.held = 0 ∧ ∀ h o, s.perform (.acquire h o) = none := by
  refine ⟨_, _, rfl, rfl, rfl, fun _ => rfl, ?_, rfl, ?_⟩
  · rw [whole_iff]
    decide
  · intro h o
    simp [ConnectionPool.perform, take]

end ConnectionPool
end IceLog
