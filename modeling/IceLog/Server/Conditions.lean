import IceLog.Server.RowChanges

/-! Runs all of whose steps meet some condition. -/
namespace IceLog

open Interleaved

/-- `Reachable`, and every step meets `φ`, with the moment before it and the state after it. -/
inductive ReachedBy (pg : Postgres) (policy : Policy) (φ : Moment → ServerEvent → Server → Prop) :
    ServerConfig → Prop
  | start {s : Server} : Started .empty s → ReachedBy pg policy φ (Config.initial s)
  | restart {c : ServerConfig} {s : Server} : ReachedBy pg policy φ c → Started c.state.db s →
      ReachedBy pg policy φ (Config.initial s)
  | step {c c' : ServerConfig} {e : ServerEvent} : ReachedBy pg policy φ c →
      Step (server pg policy) c e c' → φ c.world e c'.state → ReachedBy pg policy φ c'

variable {pg : Postgres} {policy : Policy} {φ ψ : Moment → ServerEvent → Server → Prop}
  {c : ServerConfig} {s : Server}

theorem ReachedBy.reachable (h : ReachedBy pg policy φ c) : Reachable pg policy c := by
  induction h with
  | start hs => exact .start hs
  | restart _ hs ih => exact .restart ih hs
  | step _ hs _ ih => exact ih.step hs

/-- A condition that the steps meet as well. -/
theorem ReachedBy.imp (h : ReachedBy pg policy φ c)
    (hi : ∀ {c c' : ServerConfig} {e : ServerEvent}, Reachable pg policy c →
      Step (server pg policy) c e c' → φ c.world e c'.state → ψ c.world e c'.state) :
    ReachedBy pg policy ψ c := by
  induction h with
  | start hs => exact .start hs
  | restart _ hs ih => exact ih.restart hs
  | step h hs hφ ih => exact ih.step hs (hi h.reachable hs hφ)

/-- What holds of an empty database and is kept by the steps holds of all databases on the way. -/
theorem ReachedBy.keeps {P : Db → Prop} (h : ReachedBy pg policy φ c) (h0 : P .empty)
    (hstep : ∀ {c c' : ServerConfig} {e : ServerEvent}, Reachable pg policy c →
      Step (server pg policy) c e c' → φ c.world e c'.state → P c.state.db → P c'.state.db) :
    P c.state.db ∧ ReachedBy pg policy (fun _ _ s => P s.db) c := by
  induction h with
  | start hs => exact ⟨hs.db.symm ▸ h0, .start hs⟩
  | restart _ hs ih => exact ⟨hs.db.symm ▸ ih.1, ih.2.restart hs⟩
  | step h hs hφ ih =>
    have hP := hstep h.reachable hs hφ ih.1
    exact ⟨hP, ih.2.step hs hP⟩

/-- What holds of the databases on the way held before each step. -/
theorem ReachedBy.before {P : Db → Prop} (h : ReachedBy pg policy (fun _ _ s => P s.db) c)
    (h0 : P .empty) :
    P c.state.db ∧ ReachedBy pg policy (fun w _ s => P w.now.db ∧ P s.db) c := by
  induction h with
  | start hs => exact ⟨hs.db.symm ▸ h0, .start hs⟩
  | restart _ hs ih => exact ⟨hs.db.symm ▸ ih.1, ih.2.restart hs⟩
  | step _ hs hP ih => exact ⟨hP, ih.2.step hs ⟨ih.1, hP⟩⟩

/-- The run of a first server, each of whose states meets a condition. -/
theorem ReachedBy.of_states {P : Server → Prop} (hs : Started .empty s)
    (hr : Run (server pg policy) (.initial s) c)
    (hP : ∀ u : Moment, u.Before c.world → P u.now) :
    ReachedBy pg policy (fun _ _ s => P s) c := by
  induction hr with
  | refl => exact .start hs
  | @step d d' e hr hd ih =>
    refine .step (ih fun u hu => hP u ?_) hd (hP _ .refl)
    rw [hd.world_eq]
    exact hu.next _ _

end IceLog
