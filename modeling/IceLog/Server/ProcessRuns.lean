import IceLog.Server.Atomicity

/-! The runs of a process, and the runs of the server that they come to. -/
namespace IceLog

open Interleaved Process

/-- What the server has before an action, the process has. -/
theorem Reachable.known {pg : Postgres} {policy : Policy} {c : ServerConfig} {i : ℕ} {q : Request}
    {a : Act} {k : a.Result → Code Reply} (h : Reachable pg policy c)
    (hi : c.thread i = some ⟨q, .act a k⟩) : Known i a c.state := by
  have hn := h.needs hi
  refine ⟨h.inv.sound, ?_⟩
  cases a with
  | unlockShared t => exact (hn.reader t).mpr (List.mem_singleton_self t)
  | unlockExclusive t => exact hn.1
  | exec conn k => exact hn.1
  | execParams conn sql => exact hn.1
  | _ => trivial

abbrev ProcessConfig : Type := Machine.Config Act Act.Result Request Reply Pc Process

/-- A process that has just been started over the database `db`. -/
structure Launched (db : Db) (p : Process) : Prop where
  locks : p.locks.registryMutex = none ∧ ∀ t, p.locks.tableLocks t = none
  mutex : p.pool.mutex = none
  sleeping : p.pool.sleeping = ∅
  woken : p.pool.woken = ∅
  popped : p.pool.popped = none
  queue : p.pool.queue.Nodup ∧ ∀ c ∈ p.pool.queue, c < p.backend.opened
  holder : ∀ c, p.holder c = none
  session : ∀ c, p.backend.session c = .idle
  db : p.backend.db = db
  mvcc : ∃ txnTimeout, p.mvcc = .new txnTimeout
  cache : ∃ capacity, p.cache = .new capacity

/-- Any number of clients of one process after the other, the first over an empty database. -/
inductive ProcessReachable (pg : Postgres) (policy : Policy) : ProcessConfig → Prop
  | start {p : Process} : Launched .empty p → ProcessReachable pg policy (.initial p)
  | restart {d : ProcessConfig} {p : Process} : ProcessReachable pg policy d →
      Launched d.state.backend.db p → ProcessReachable pg policy (.initial p)
  | step {d d' : ProcessConfig} : ProcessReachable pg policy d → (process pg policy).Step d d' →
      ProcessReachable pg policy d'

variable {pg : Postgres} {policy : Policy} {db : Db} {p : Process} {d d' : ProcessConfig}
  {c : ServerConfig}

theorem Launched.started (h : Launched db p) : Started db p.toServer where
  locks t := LockManager.lockOf_of_eq_none (h.locks.2 t)
  pool := by
    have hq : p.toServer.availableConnections = p.pool.queue := by
      show p.pool.popped.toList ++ p.pool.queue = _
      rw [h.popped]
      rfl
    rw [hq]
    exact h.queue
  holder := h.holder
  session := h.session
  db := h.db
  mvcc := h.mvcc
  cache := h.cache

theorem Launched.idle (h : Launched db p) (i : ℕ) : Idle i p := by
  refine ⟨iff_of_false ?_ id, iff_of_false ?_ id, iff_of_false ?_ id⟩
  · simp [h.locks.1]
  · simp [h.mutex]
  · simp [h.sleeping, h.woken]

theorem Launched.guarded (h : Launched db p) : p.Guarded := by
  refine ⟨by simp [h.sleeping], fun _ => ⟨h.popped, fun hne => ?_⟩⟩
  rw [h.sleeping] at hne
  exact absurd hne Finset.not_nonempty_empty

/-- The server `c` is what the process `d` comes to. -/
abbrev Embodies (pg : Postgres) (policy : Policy) (d : ProcessConfig) (c : ServerConfig) : Prop :=
  (implements pg policy).Matches c d

theorem Launched.embodies (h : Launched db p) :
    Embodies pg policy (.initial p) (Config.initial p.toServer) :=
  Implements.matches_initial h.guarded h.idle

theorem Embodies.step (h : Embodies pg policy d c) (hc : Reachable pg policy c)
    (hs : (process pg policy).Step d d') : ∃ c', Reachable pg policy c' ∧
      Run (IceLog.server pg policy) c c' ∧ Embodies pg policy d' c' := by
  obtain ⟨c', hcc, hm⟩ := Implements.Matches.step h (fun _ _ _ _ hi => hc.known hi) hs
  rcases hcc with rfl | ⟨e, he⟩
  · exact ⟨c', hc, .refl, hm⟩
  · exact ⟨c', hc.step he, Run.refl.step he, hm⟩

/-- Whatever the process does, the server can do. -/
theorem ProcessReachable.embodies (h : ProcessReachable pg policy d) :
    ∃ c, Reachable pg policy c ∧ Embodies pg policy d c := by
  induction h with
  | start hl => exact ⟨_, .start hl.started, hl.embodies⟩
  | restart _ hl ih =>
    obtain ⟨c, hc, hm⟩ := ih
    refine ⟨_, .restart hc ?_, hl.embodies⟩
    rw [hm.state]
    exact hl.started
  | step _ hs ih =>
    obtain ⟨c, hc, hm⟩ := ih
    obtain ⟨c', hc', -, hm'⟩ := hm.step hc hs
    exact ⟨c', hc', hm'⟩

theorem ProcessReachable.run (h : ProcessReachable pg policy d) (hr : (process pg policy).Run d d') :
    ProcessReachable pg policy d' := by
  induction hr with
  | refl => exact h
  | tail _ hs ih => exact ih.step hs

/-! A concrete process. -/

/-- A process over an empty database, with the given connections. -/
def freshProcess (connections : List Conn) : Process where
  pool := { queue := connections }
  backend := { db := .empty, opened := connections.length }
  mvcc := .new 300
  cache := .new 10

theorem launched_fresh (n : ℕ) : Launched .empty (freshProcess (List.range n)) where
  locks := ⟨rfl, fun _ => rfl⟩
  mutex := rfl
  sleeping := rfl
  woken := rfl
  popped := rfl
  queue := by
    refine ⟨List.nodup_range, fun c hc => ?_⟩
    show c < (List.range n).length
    rw [List.length_range]
    exact List.mem_range.mp hc
  holder _ := rfl
  session _ := rfl
  db := rfl
  mvcc := ⟨300, rfl⟩
  cache := ⟨10, rfl⟩

/-- A computed run of a fresh process with `n` connections. -/
theorem processReachable_of_check (n : ℕ) {ms : List (Move Request Choice)}
    {f : ProcessConfig → Bool}
    (h : ((process pg policy).moves (.initial (freshProcess (List.range n))) ms).map f = some true) :
    ∃ d, ProcessReachable pg policy d ∧
      (process pg policy).Run (.initial (freshProcess (List.range n))) d ∧ f d = true := by
  obtain ⟨d, hd, hf⟩ := Option.map_eq_some_iff.mp h
  have hr := Machine.run_of_moves hd
  exact ⟨d, (ProcessReachable.start (launched_fresh n)).run hr, hr, hf⟩

end IceLog
