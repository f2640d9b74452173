import IceLog.Properties.Deadlock
import IceLog.Server.Process

/-! What each step of the process does, and what a thread knows at each place of an action: the
owner of a mutex knows what the mutex guards, and nobody else's step takes that from it. -/
namespace IceLog

open Interleaved

/-- The lock that an action gives back. -/
def Act.unlockName : Act → Option String
  | .unlockShared t | .unlockExclusive t => some t
  | _ => none

/-- An action that is one step of the process. -/
def Act.Plain : Act → Prop
  | .lockShared _ | .unlockShared _ | .lockExclusive _ | .unlockExclusive _ => False
  | .acquire | .release _ => False
  | _ => True

namespace Process

variable {pg : Postgres} {o : Choice} {i j : ℕ} {p p' : Process} {a : Act} {pc pc' : Pc} {t : String}
  {m : ℕ} {c : Conn} {n : ℕ}

/-- One step of the thread `i` in the action `a`. -/
inductive Stepped (pg : Postgres) (o : Choice) (i : ℕ) (p : Process) :
    (a : Act) → Pc → Pc ⊕ a.Result → Process → Prop
  | lockRegistry {a : Act} {t : String} : a.lockName = some t ∨ a.unlockName = some t →
      p.locks.registryMutex = none →
      Stepped pg o i p a .start (.inl .registry) (p.setRegistry (some i))
  | miss {a : Act} {t : String} : a.lockName = some t → p.locks.tableLocks t = none →
      Stepped pg o i p a .registry (.inl .missing) p
  | find {a : Act} {t : String} {m : ℕ} : a.lockName = some t ∨ a.unlockName = some t →
      p.locks.tableLocks t = some m → Stepped pg o i p a .registry (.inl (.found m)) p
  | terminate {a : Act} {t : String} : a.unlockName = some t → p.locks.tableLocks t = none →
      Stepped pg o i p a .registry (.inl .terminated) p
  | emplace {a : Act} {t : String} : a.lockName = some t →
      Stepped pg o i p a .missing (.inl (.found (p.locks.emplace t).1))
        { p with locks := (p.locks.emplace t).2 }
  | leaveRegistry {a : Act} {t : String} {m : ℕ} : a.lockName = some t →
      Stepped pg o i p a (.found m) (.inl (.outside m)) (p.setRegistry none)
  | lockShared {t : String} {m : ℕ} {x : SharedMutex} : (p.locks.mutex m).lockShared i = some x →
      Stepped pg o i p (.lockShared t) (.outside m) (.inr ()) (p.setMutex m x)
  | lockExclusive {t : String} {m : ℕ} {x : SharedMutex} : (p.locks.mutex m).lock i = some x →
      Stepped pg o i p (.lockExclusive t) (.outside m) (.inr ()) (p.setMutex m x)
  | unlockShared {t : String} {m : ℕ} : Stepped pg o i p (.unlockShared t) (.found m)
      (.inl .unlocked) (p.setMutex m ((p.locks.mutex m).unlockShared i))
  | unlockExclusive {t : String} {m : ℕ} : Stepped pg o i p (.unlockExclusive t) (.found m)
      (.inl .unlocked) (p.setMutex m (p.locks.mutex m).unlock)
  | released {a : Act} {t : String} {r : a.Result} : a.unlockName = some t →
      Stepped pg o i p a .unlocked (.inr r) (p.setRegistry none)
  | lockPool : p.pool.mutex = none → Stepped pg o i p .acquire .start (.inl .pool)
      (p.setPool (some i))
  | sleep : p.pool.queue = [] → Stepped pg o i p .acquire .pool (.inl .waiting)
      { p with pool := { p.pool with mutex := none, sleeping := insert i p.pool.sleeping } }
  | check : p.pool.queue ≠ [] → Stepped pg o i p .acquire .pool (.inl .ready) p
  | awake : i ∈ p.pool.woken → p.pool.mutex = none →
      Stepped pg o i p .acquire .waiting (.inl .pool)
        { p with pool := { p.pool with mutex := some i, woken := p.pool.woken.erase i } }
  | pop {c : Conn} {rest : List Conn} : p.pool.queue = c :: rest →
      Stepped pg o i p .acquire .ready (.inl (.popped c))
        { p with pool := { p.pool with queue := rest, popped := some c } }
  | valid {c : Conn} : p.backend.session c ≠ .broken → o.outcome = .ok →
      Stepped pg o i p .acquire (.popped c) (.inl (.taken (some c))) (p.handOut i c p.backend)
  | reset {c : Conn} : p.backend.session c = .broken → o.outcome = .reset c →
      Stepped pg o i p .acquire (.popped c) (.inl (.taken (some c)))
        (p.handOut i c (p.backend.setSession c .idle))
  | invalidate {c : Conn} : p.backend.session c = .broken →
      Stepped pg o i p .acquire (.popped c) (.inl (.invalid c)) p
  | replace {c : Conn} : o.outcome = .replaced c →
      Stepped pg o i p .acquire (.invalid c) (.inl (.taken (some p.backend.opened)))
        (p.handOut i p.backend.opened
          ({ p.backend with opened := p.backend.opened + 1 }.setSession p.backend.opened .idle))
  | refuse {c : Conn} : o.outcome = .refused c →
      Stepped pg o i p .acquire (.invalid c) (.inl (.taken none))
        { p with pool := { p.pool with popped := none } }
  | acquired {r : Option Conn} : Stepped pg o i p .acquire (.taken r) (.inr r) (p.setPool none)
  | lockQueue {c : Conn} : p.pool.mutex = none →
      Stepped pg o i p (.release c) .start (.inl .pushing) (p.setPool (some i))
  | push {c : Conn} : Stepped pg o i p (.release c) .pushing (.inl .pushed)
      { p with
        pool := { p.pool with queue := p.pool.queue ++ [c] }
        holder := Function.update p.holder c none }
  | notifyNobody {c : Conn} : p.pool.sleeping = ∅ →
      Stepped pg o i p (.release c) .pushed (.inl .notified) p
  | notify {c : Conn} {k : ℕ} : k ∈ p.pool.sleeping →
      Stepped pg o i p (.release c) .pushed (.inl .notified) (p.wake k)
  | gaveBack {c : Conn} : Stepped pg o i p (.release c) .notified (.inr ()) (p.setPool none)
  | plain {a : Act} {r : a.Result} {s : Server} : a.Plain →
      Server.perform pg o.outcome i a p.toServer = some (r, s) →
      Stepped pg o i p a .start (.inr r) (p.withMemory s)

/-- What `get_or_create` does for an action that takes a lock. -/
theorem stepped_getOrCreate (ha : a.lockName = some t)
    (h : p.getOrCreate i t pc = some (pc', p')) : Stepped pg o i p a pc (.inl pc') p' := by
  cases pc with
  | start =>
    simp only [getOrCreate, lockRegistry] at h
    split at h
    · cases h
      exact .lockRegistry (.inl ha) ‹_›
    · cases h
  | registry =>
    simp only [getOrCreate] at h
    split at h
    · cases h
      exact .miss ha ‹_›
    · cases h
      exact .find (.inl ha) ‹_›
  | missing =>
    cases h
    exact .emplace ha
  | found m =>
    cases h
    exact .leaveRegistry ha
  | _ => cases h

/-- Both ways to take a lock first find it. -/
theorem acquireWith_cases {lock : SharedMutex → Option SharedMutex} {y : Pc ⊕ Unit}
    (h : p.acquireWith lock i t pc = some (y, p')) :
    (∃ pc', y = .inl pc' ∧ p.getOrCreate i t pc = some (pc', p')) ∨
      ∃ m x, pc = .outside m ∧ lock (p.locks.mutex m) = some x ∧ y = .inr () ∧
        p' = p.setMutex m x := by
  unfold acquireWith at h
  split at h
  · obtain ⟨x, hx, h⟩ := Option.map_eq_some_iff.mp h
    cases h
    exact .inr ⟨_, x, rfl, hx, rfl, rfl⟩
  · obtain ⟨⟨pc', p''⟩, hg, h⟩ := Option.map_eq_some_iff.mp h
    cases h
    exact .inl ⟨pc', rfl, hg⟩

/-- Both ways to give a lock back have the registry until they end. -/
theorem releaseWith_cases {unlock : SharedMutex → SharedMutex} {y : Pc ⊕ Unit}
    (h : p.releaseWith unlock i t pc = some (y, p')) :
    (pc = .start ∧ p.locks.registryMutex = none ∧ y = .inl .registry ∧
      p' = p.setRegistry (some i)) ∨
    (pc = .registry ∧ p' = p ∧ ((p.locks.tableLocks t = none ∧ y = .inl .terminated) ∨
      ∃ m, p.locks.tableLocks t = some m ∧ y = .inl (.found m))) ∨
    (∃ m, pc = .found m ∧ y = .inl .unlocked ∧ p' = p.setMutex m (unlock (p.locks.mutex m))) ∨
    (pc = .unlocked ∧ y = .inr () ∧ p' = p.setRegistry none) := by
  cases pc with
  | start =>
    simp only [releaseWith, lockRegistry] at h
    split at h
    · cases h
      exact .inl ⟨rfl, ‹_›, rfl, rfl⟩
    · cases h
  | registry =>
    refine .inr (.inl ⟨rfl, ?_⟩)
    simp only [releaseWith] at h
    split at h
    · cases h
      exact ⟨rfl, .inl ⟨‹_›, rfl⟩⟩
    · cases h
      exact ⟨rfl, .inr ⟨_, ‹_›, rfl⟩⟩
  | found m =>
    cases h
    exact .inr (.inr (.inl ⟨m, rfl, rfl, rfl⟩))
  | unlocked =>
    cases h
    exact .inr (.inr (.inr ⟨rfl, rfl, rfl⟩))
  | _ => cases h

theorem stepped_acquire {y : Pc ⊕ Option Conn} (h : p.acquire o.outcome i pc = some (y, p')) :
    Stepped pg o i p .acquire pc y p' := by
  cases pc with
  | start =>
    simp only [acquire, lockPool] at h
    split at h
    · cases h
      exact .lockPool ‹_›
    · cases h
  | pool =>
    simp only [acquire] at h
    split at h
    · cases h
      exact .sleep ‹_›
    · cases h
      exact .check ‹_›
  | waiting =>
    simp only [acquire] at h
    split at h
    · rename_i hw
      cases h
      exact .awake hw.1 hw.2
    · cases h
  | ready =>
    simp only [acquire] at h
    split at h
    · cases h
    · cases h
      exact .pop ‹_›
  | popped c =>
    simp only [acquire] at h
    split at h
    · rename_i c' hs ho
      split at h
      · rename_i hc
        cases h
        exact .reset hs (hc ▸ ho)
      · cases h
    · rename_i c' hs ho
      split at h
      · cases h
        exact .invalidate hs
      · cases h
    · rename_i c' hs ho
      split at h
      · cases h
        exact .invalidate hs
      · cases h
    · cases h
    · rename_i ho hs
      cases h
      exact .valid (by simpa using hs) ho
    · cases h
  | invalid c =>
    simp only [acquire] at h
    split at h
    · rename_i c' ho
      split at h
      · rename_i hc
        cases h
        exact .replace (hc ▸ ho)
      · cases h
    · rename_i c' ho
      split at h
      · rename_i hc
        cases h
        exact .refuse (hc ▸ ho)
      · cases h
    · cases h
  | taken r =>
    cases h
    exact .acquired
  | _ => cases h

theorem stepped_release {y : Pc ⊕ Unit} (h : p.release o.woken i c pc = some (y, p')) :
    Stepped pg o i p (.release c) pc y p' := by
  cases pc with
  | start =>
    simp only [release, lockPool] at h
    split at h
    · cases h
      exact .lockQueue ‹_›
    · cases h
  | pushing =>
    cases h
    exact .push
  | pushed =>
    simp only [release] at h
    split at h
    · cases h
      exact .notifyNobody ‹_›
    · split at h
      · cases h
        exact .notify ‹_›
      · cases h
  | notified =>
    cases h
    exact .gaveBack
  | _ => cases h

theorem step_start_of_plain (ha : a.Plain) : step pg o i a .start p =
    (Server.perform pg o.outcome i a p.toServer).map fun (r, s) => (.inr r, p.withMemory s) := by
  cases a <;> first | exact ha.elim | rfl

theorem step_of_plain (ha : a.Plain) (hpc : pc ≠ .start) : step pg o i a pc p = none := by
  cases a <;> first | exact ha.elim | (cases pc <;> first | exact absurd rfl hpc | rfl)

theorem stepped_plain {y : Pc ⊕ a.Result} (ha : a.Plain)
    (h : step pg o i a pc p = some (y, p')) : Stepped pg o i p a pc y p' := by
  by_cases hpc : pc = .start
  · subst hpc
    rw [step_start_of_plain ha] at h
    obtain ⟨⟨r, s⟩, hp, h⟩ := Option.map_eq_some_iff.mp h
    cases h
    exact .plain ha hp
  · cases (step_of_plain ha hpc).symm.trans h

theorem step_cases {y : Pc ⊕ a.Result} (h : step pg o i a pc p = some (y, p')) :
    Stepped pg o i p a pc y p' := by
  cases a with
  | lockShared t =>
    change p.acquireWith (fun m => m.lockShared i) i t pc = _ at h
    rcases acquireWith_cases h with ⟨pc', rfl, hg⟩ | ⟨m, x, rfl, hx, rfl, rfl⟩
    · exact stepped_getOrCreate rfl hg
    · exact .lockShared hx
  | lockExclusive t =>
    change p.acquireWith (fun m => m.lock i) i t pc = _ at h
    rcases acquireWith_cases h with ⟨pc', rfl, hg⟩ | ⟨m, x, rfl, hx, rfl, rfl⟩
    · exact stepped_getOrCreate rfl hg
    · exact .lockExclusive hx
  | unlockShared t =>
    change p.releaseWith (fun m => m.unlockShared i) i t pc = _ at h
    rcases releaseWith_cases h with ⟨rfl, hr, rfl, rfl⟩ | ⟨rfl, rfl, ⟨ht, rfl⟩ | ⟨m, ht, rfl⟩⟩ |
      ⟨m, rfl, rfl, rfl⟩ | ⟨rfl, rfl, rfl⟩
    · exact .lockRegistry (.inr rfl) hr
    · exact .terminate rfl ht
    · exact .find (.inr rfl) ht
    · exact .unlockShared
    · exact .released rfl
  | unlockExclusive t =>
    change p.releaseWith SharedMutex.unlock i t pc = _ at h
    rcases releaseWith_cases h with ⟨rfl, hr, rfl, rfl⟩ | ⟨rfl, rfl, ⟨ht, rfl⟩ | ⟨m, ht, rfl⟩⟩ |
      ⟨m, rfl, rfl, rfl⟩ | ⟨rfl, rfl, rfl⟩
    · exact .lockRegistry (.inr rfl) hr
    · exact .terminate rfl ht
    · exact .find (.inr rfl) ht
    · exact .unlockExclusive
    · exact .released rfl
  | acquire => exact stepped_acquire h
  | release c => exact stepped_release h
  | _ => exact stepped_plain trivial h

end Process
end IceLog
