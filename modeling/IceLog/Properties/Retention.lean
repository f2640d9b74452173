import IceLog.Db.Retention
import IceLog.Properties.Storage
import IceLog.Server.Serial

/-! What is stored is kept over all interleavings, failures and restarts: a partition is written
once and marked once, snapshots and schemas are never changed, and a table goes as a whole. -/
namespace IceLog

open Interleaved Serial

variable {pg : Postgres} {policy : Policy} {c c' : ServerConfig} {e : ServerEvent} {q : Request}
  {id n : ℕ} {V V' : Catalog} {r : TableRec}

/-- No request changes a table that has been dropped softly, not even a purge. -/
theorem Request.Does.frozen {steady : Prop} (h : q.Does pg steady n V V')
    (hr : (V id).table = some r) (hd : r.isDeleted = true) : V' id = V id := by
  -- the table that is changed is found under its name
  have hne : ∀ {t k r'}, V.Finds t k r' → id ≠ k := by
    rintro t k r' ⟨hr', hn⟩ rfl
    cases hr.symm.trans hr'
    rw [(Db.named_iff.mp hn).2] at hd
    cases hd
  cases h with
  | @created _ _ _ _ _ k row _ _ _ _ _ _ _ _ hempty =>
    have hk : id ≠ k := by
      rintro rfl
      rw [hempty] at hr
      cases hr
    exact Function.update_of_ne hk _ _
  | altered hf | renamed hf | dropped hf => exact Function.update_of_ne (hne hf) _ _
  | committed _ hf => exact Function.update_of_ne (hne hf) _ _
  | absent => rfl

theorem Reachable.live_of_changed (h : Reachable pg policy c) (hc : policy.Clean)
    (hs : Step (server pg policy) c e c') (hne : c'.state.db.slice id ≠ c.state.db.slice id)
    (hr : c.state.db.tables.row id = some r) : r.isDeleted = false := by
  have hmoved : ¬ c.state.db.SameRows c'.state.db := fun hsame => hne (hsame.slice id)
  obtain ⟨-, q, -, -, n, -, hdoes⟩ := h.does hc hs (.inl hmoved)
  by_contra hd
  exact hne (hdoes.frozen hr (by simpa using hd))

theorem Reachable.retains_step (h : Reachable pg policy c) (hc : policy.Clean)
    (hs : Step (server pg policy) c e c') : c.state.db.Retains c'.state.db := by
  have hp := h.promise hs
  have hslices : ∀ id, c'.state.db.slice id = c.state.db.slice id ∨
      ((c.state.db.tables.row id = none → c.state.db.tables.next ≤ id) ∧
        (∀ r, c.state.db.tables.row id = some r → r.isDeleted = false) ∧
          TableChange policy.Steady c'.state.db.snapshots.next (c.state.db.slice id)
            (c'.state.db.slice id)) := by
    intro id
    by_cases heq : c'.state.db.slice id = c.state.db.slice id
    · exact .inl heq
    · rcases hp.writes hc id with hsame | ⟨i, -, hw⟩
      · exact absurd hsame heq
      · exact .inr ⟨hw.fresh, fun r hr => h.live_of_changed hc hs heq hr, hw.change⟩
  exact .of_slices (h.inv.consistent hc) ((h.step hs).inv.consistent hc) hp.nextLe hslices

/-- `c'` is a later state of the server, or of one that has been started after it. -/
inductive Precedes (pg : Postgres) (policy : Policy) (c : ServerConfig) : ServerConfig → Prop
  | refl : Precedes pg policy c c
  | step {d d' : ServerConfig} {e : ServerEvent} : Precedes pg policy c d →
      Step (server pg policy) d e d' → Precedes pg policy c d'
  | restart {d : ServerConfig} {s : Server} : Precedes pg policy c d → Started d.state.db s →
      Precedes pg policy c (.initial s)

theorem Precedes.reachable (hl : Precedes pg policy c c') (h : Reachable pg policy c) :
    Reachable pg policy c' := by
  induction hl with
  | refl => exact h
  | step _ hs ih => exact ih.step hs
  | restart _ hs ih => exact ih.restart hs

theorem Precedes.run {d : ServerConfig} (hl : Precedes pg policy c c')
    (hr : Run (server pg policy) c' d) : Precedes pg policy c d := by
  induction hr with
  | refl => exact hl
  | step _ hs ih => exact ih.step hs

end IceLog
