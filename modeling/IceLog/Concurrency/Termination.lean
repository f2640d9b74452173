import Mathlib.Algebra.BigOperators.Group.Finset.Basic
import Mathlib.Data.DFinsupp.WellFounded
import Mathlib.SetTheory.Ordinal.Family
import IceLog.Concurrency.Refinement

/-! Finitely many threads that are left alone come to an end: a program shrinks with every action,
and if the steps within an action lead down a weight, so does every run that calls nobody. -/
namespace Interleaved

variable {A : Type} {R : A → Type} {Q V C L T α : Type}

/-- How much of a program is left. -/
noncomputable def Prog.rank : Prog A R α → Ordinal.{0}
  | .act _ k => ⨆ r, rank (k r) + 1
  | _ => 0

theorem Prog.rank_lt (a : A) (k : R a → Prog A R α) (r : R a) :
    (k r).rank < (Prog.act a k).rank :=
  Ordinal.lt_iSup_add_one (fun r => (k r).rank) r

namespace Machine

/-- A step of some thread. -/
inductive Works (M : Machine A R Q V C L T) : Config A R Q V L T → Config A R Q V L T → Prop
  | go {d : Config A R Q V L T} {i : ℕ} {q : Q} {a : A} {k : R a → Prog A R V} {l l' : L} {o : C}
      {s : T} : d.thread i = some ⟨q, .act a k, l⟩ → M.allows q a o = true →
      M.step o i a l d.state = some (.inl l', s) → Works M d (d.put i ⟨q, .act a k, l'⟩ s)
  | answer {d : Config A R Q V L T} {i : ℕ} {q : Q} {a : A} {k : R a → Prog A R V} {l : L} {r : R a}
      {o : C} {s : T} : d.thread i = some ⟨q, .act a k, l⟩ → M.allows q a o = true →
      M.step o i a l d.state = some (.inr r, s) → Works M d (d.put i ⟨q, k r, M.start⟩ s)

variable {M : Machine A R Q V C L T} {d d' : Config A R Q V L T} {n : ℕ}

theorem Works.step (h : M.Works d d') : M.Step d d' := by
  cases h with
  | go hi ha hx => exact .go hi ha hx
  | answer hi ha hx => exact .answer hi ha hx

/-- Only the first `n` threads have been called. -/
def Config.Within (n : ℕ) (d : Config A R Q V L T) : Prop := ∀ i, n ≤ i → d.thread i = none

theorem Config.Within.lt (h : d.Within n) {i : ℕ} {t : Thread A R Q V L}
    (hi : d.thread i = some t) : i < n := by
  by_contra hle
  cases hi.symm.trans (h i (Nat.le_of_not_lt hle))

theorem Config.Within.put (h : d.Within n) {i : ℕ} {t t' : Thread A R Q V L} {s : T}
    (hi : d.thread i = some t) : (d.put i t' s).Within n := by
  intro j hj
  have hlt := h.lt hi
  rw [put_thread_of_ne _ _ _ (by omega)]
  exact h j hj

theorem Works.within (h : M.Works d d') (hn : d.Within n) : d'.Within n := by
  cases h with
  | go hi | answer hi => exact hn.put hi

/-- A computed run calls the threads that its moves name. -/
theorem Config.Within.moves {ms : List (Move Q C)} (hn : d.Within n)
    (hms : ∀ i q, .call i q ∈ ms → i < n) (h : M.moves d ms = some d') : d'.Within n := by
  induction ms generalizing d with
  | nil =>
    cases h
    exact hn
  | cons m ms ih =>
    obtain ⟨b, hb, h⟩ := Option.bind_eq_some_iff.mp h
    refine ih ?_ (fun i q hm => hms i q (List.mem_cons_of_mem _ hm)) h
    cases m with
    | call i q =>
      have hi := hms i q List.mem_cons_self
      simp only [Machine.move] at hb
      split at hb
      · split at hb
        · cases hb
          intro j hj
          rw [put_thread_of_ne _ _ _ (by omega)]
          exact hn j hj
        · cases hb
      · cases hb
    | step i o =>
      simp only [Machine.move] at hb
      split at hb
      · rename_i hi
        split at hb
        · obtain ⟨⟨y, s⟩, -, rfl⟩ := Option.map_eq_some_iff.mp hb
          cases y <;> exact hn.put hi
        · cases hb
      · cases hb

/-- What is left of the code of the first `n` threads. -/
noncomputable def Config.left (n : ℕ) (d : Config A R Q V L T) : Fin n → Ordinal.{0} :=
  fun i => (d.thread i).elim 0 fun t => t.code.rank

/-- The weight of the places at which the first `n` threads are, and of the state. -/
def Config.weight (w : L → ℕ) (potential : T → ℕ) (n : ℕ) (d : Config A R Q V L T) : ℕ :=
  ∑ i ∈ Finset.range n, ((d.thread i).elim 0 fun t => w t.pc) + potential d.state

section measure
variable {w : L → ℕ} {potential : T → ℕ} {i : ℕ} {t t' : Thread A R Q V L} {s : T}

theorem left_put_of_code_eq (n : ℕ) (t' : Thread A R Q V L) (s : T) (hi : d.thread i = some t)
    (hc : t'.code = t.code) : (d.put i t' s).left n = d.left n := by
  funext j
  unfold Config.left
  by_cases hj : (j : ℕ) = i
  · rw [hj, Config.put_thread_self, hi, Option.elim_some, Option.elim_some, hc]
  · rw [Config.put_thread_of_ne _ _ _ hj]

theorem left_put_lt (hn : d.Within n) (hi : d.thread i = some t)
    (hc : t'.code.rank < t.code.rank) : (d.put i t' s).left n < d.left n := by
  refine Pi.lt_def.mpr ⟨fun j => ?_, ⟨i, hn.lt hi⟩, ?_⟩
  · unfold Config.left
    by_cases hj : (j : ℕ) = i
    · rw [hj, Config.put_thread_self, hi]
      exact hc.le
    · rw [Config.put_thread_of_ne _ _ _ hj]
  · simp only [Config.left, Config.put_thread_self, hi]
    exact hc

theorem weight_put_lt (hn : d.Within n) (hi : d.thread i = some t)
    (hw : w t'.pc + potential s < w t.pc + potential d.state) :
    (d.put i t' s).weight w potential n < d.weight w potential n := by
  have hmem : i ∈ Finset.range n := Finset.mem_range.mpr (hn.lt hi)
  have hrest : ∑ j ∈ (Finset.range n).erase i, (((d.put i t' s).thread j).elim 0 fun t => w t.pc) =
      ∑ j ∈ (Finset.range n).erase i, ((d.thread j).elim 0 fun t => w t.pc) := by
    refine Finset.sum_congr rfl fun j hj => ?_
    rw [Config.put_thread_of_ne _ _ _ (Finset.ne_of_mem_erase hj)]
  unfold Config.weight
  rw [← Finset.add_sum_erase _ _ hmem, ← Finset.add_sum_erase _ _ hmem, hrest,
    Config.put_thread_self, hi]
  simp only [Option.elim_some, Config.put_state]
  omega

/-- Each step within an action leads down, so nobody works for ever. -/
theorem acc_works (hw : ∀ {o i a l t l' t'}, M.step o i a l t = some (.inl l', t') →
      w l' + potential t' < w l + potential t) (hn : d.Within n) :
    Acc (fun d' d => M.Works d d') d := by
  let below : (Fin n → Ordinal.{0}) × ℕ → (Fin n → Ordinal.{0}) × ℕ → Prop :=
    Prod.Lex (· < ·) (· < ·)
  have hwf : WellFounded below := WellFounded.prod_lex wellFounded_lt wellFounded_lt
  -- Along the code that is left, and where it stays, along the weight.
  generalize hm : (d.left n, d.weight w potential n) = m
  induction m using hwf.induction generalizing d with
  | h m ih =>
    refine ⟨d, fun d' h => ih _ ?_ (h.within hn) rfl⟩
    subst hm
    cases h with
    | @go i q a k l l' o s hi _ hx =>
      rw [left_put_of_code_eq n ⟨q, .act a k, l'⟩ s hi rfl]
      exact .right _ (weight_put_lt hn hi (hw hx))
    | answer hi _ hx => exact .left _ _ (left_put_lt hn hi (Prog.rank_lt _ _ _))

end measure

/-- There is no run without end from an accessible configuration. -/
theorem not_forever (h : Acc (fun d' d => M.Works d d') d) (f : ℕ → Config A R Q V L T)
    (hf : f 0 = d) : ¬ ∀ k, M.Works (f k) (f (k + 1)) := by
  induction h generalizing f with
  | intro d _ ih =>
    intro hs
    have h01 := hs 0
    rw [hf] at h01
    exact ih (f 1) h01 (fun k => f (k + 1)) rfl fun k => hs (k + 1)

end Machine
end Interleaved
