import IceLog.Server.ProcessSteps
import IceLog.Server.TransactionSteps

/-! The process carries out the actions of the server. The owner of a mutex knows what the mutex
guards; what every thread knows outlasts the steps of the others; and each action takes effect in
one of its steps, as the server has it. -/
namespace IceLog

open Interleaved

namespace Process

/-- Which of the two mutexes the thread has, and whether it waits for a connection. -/
structure Place (registry pool waiting : Prop) (i : ℕ) (p : Process) : Prop where
  registry : p.locks.registryMutex = some i ↔ registry
  pool : p.pool.mutex = some i ↔ pool
  waiting : i ∈ p.pool.sleeping ∨ i ∈ p.pool.woken ↔ waiting

abbrev Idle : ℕ → Process → Prop := Place False False False

abbrev InRegistry : ℕ → Process → Prop := Place True False False

/-- If some thread sleeps, there is somebody awake for each connection of the queue but `k`. -/
def Balanced (k : ℕ) (p : Process) : Prop :=
  p.pool.sleeping.Nonempty → p.pool.queue.length ≤ p.pool.woken.card + k

/-- Thread `i` has the mutex of the pool. -/
structure InPool (k : ℕ) (popped : Option Conn) (i : ℕ) (p : Process) : Prop where
  place : Place False True False i p
  popped : p.pool.popped = popped
  balanced : p.Balanced k

/-- What the thread `i` knows at each place of an action, and what the action has answered if it
has taken effect. -/
inductive During (i : ℕ) (p : Process) : (a : Act) → Pc → Option a.Result → Prop
  | start {a : Act} : Idle i p → During i p a .start none
  | registry {a : Act} {t : String} : a.lockName = some t ∨ a.unlockName = some t →
      InRegistry i p → During i p a .registry none
  | missing {a : Act} {t : String} : a.lockName = some t → InRegistry i p →
      p.locks.tableLocks t = none → During i p a .missing none
  | found {a : Act} {t : String} {m : ℕ} : a.lockName = some t ∨ a.unlockName = some t →
      InRegistry i p → p.locks.tableLocks t = some m → During i p a (.found m) none
  | outside {a : Act} {t : String} {m : ℕ} : a.lockName = some t → Idle i p →
      p.locks.tableLocks t = some m → During i p a (.outside m) none
  | unlocked {a : Act} {t : String} {r : a.Result} : a.unlockName = some t → InRegistry i p →
      During i p a .unlocked (some r)
  | pool : InPool 1 none i p → During i p .acquire .pool none
  | waiting : Place False False True i p → During i p .acquire .waiting none
  | ready : InPool 1 none i p → p.pool.queue ≠ [] → During i p .acquire .ready none
  | popped {c : Conn} : InPool 0 (some c) i p → During i p .acquire (.popped c) none
  | invalid {c : Conn} : InPool 0 (some c) i p → p.backend.session c = .broken →
      During i p .acquire (.invalid c) none
  | taken {r : Option Conn} : InPool 0 none i p → During i p .acquire (.taken r) (some r)
  | pushing {c : Conn} : InPool 0 none i p → During i p (.release c) .pushing none
  | pushed {c : Conn} : InPool 1 none i p → During i p (.release c) .pushed (some ())
  | notified {c : Conn} : InPool 0 none i p → During i p (.release c) .notified (some ())

/-- The invariant of the pool: what its mutex guards, while nobody has it. -/
structure Guarded (p : Process) : Prop where
  disjoint : Disjoint p.pool.sleeping p.pool.woken
  free : p.pool.mutex = none → p.pool.popped = none ∧ p.Balanced 0

/-- What the others leave to the owner of the mutex of the pool. -/
structure Kept (p p' : Process) : Prop where
  queue : p'.pool.queue = p.pool.queue
  popped : p'.pool.popped = p.pool.popped
  sleeping : p'.pool.sleeping ⊆ p.pool.sleeping
  woken : p.pool.woken ⊆ p'.pool.woken
  session : ∀ c, p.pool.popped = some c → p'.backend.session c = p.backend.session c

/-- What a step of the others leaves to the thread `j`. -/
structure Others (j : ℕ) (p p' : Process) : Prop where
  registry : p'.locks.registryMutex = some j ↔ p.locks.registryMutex = some j
  entries : p.locks.registryMutex = some j → p'.locks.tableLocks = p.locks.tableLocks
  registered : ∀ t m, p.locks.tableLocks t = some m → p'.locks.tableLocks t = some m
  pool : p'.pool.mutex = some j ↔ p.pool.mutex = some j
  waiting : j ∈ p'.pool.sleeping ∨ j ∈ p'.pool.woken ↔ j ∈ p.pool.sleeping ∨ j ∈ p.pool.woken
  kept : p.pool.mutex = some j → p.Kept p'

/-- What the server has before an action of the thread `i`. -/
def Known (i : ℕ) (a : Act) (s : Server) : Prop :=
  s.Sound ∧ match a with
    | .unlockShared t => i ∈ (s.tableLocks t).readers
    | .unlockExclusive t => (s.tableLocks t).writer = some i
    | .exec c _ | .execParams c _ => s.holder c = some i
    | _ => True

variable {pg : Postgres} {policy : Policy} {o : Choice} {i j k : ℕ} {p p' : Process} {q : Request}
  {a : Act} {pc pc' : Pc} {t : String} {m : ℕ} {c : Conn} {r : Option Conn}

section stability
variable {registry pool waiting : Prop}

theorem Place.stable (h : Place registry pool waiting j p) (ho : Others j p p') :
    Place registry pool waiting j p' :=
  ⟨ho.registry.trans h.registry, ho.pool.trans h.pool, ho.waiting.trans h.waiting⟩

theorem Place.of_eq (h : Place registry pool waiting i p)
    (hr : p'.locks.registryMutex = p.locks.registryMutex) (hm : p'.pool.mutex = p.pool.mutex)
    (hs : p'.pool.sleeping = p.pool.sleeping) (hw : p'.pool.woken = p.pool.woken) :
    Place registry pool waiting i p' :=
  ⟨hr ▸ h.registry, hm ▸ h.pool, hs ▸ hw ▸ h.waiting⟩

theorem Balanced.mono (h : p.Balanced k) (hs : p'.pool.sleeping ⊆ p.pool.sleeping)
    (hw : p.pool.woken ⊆ p'.pool.woken) (hq : p'.pool.queue = p.pool.queue) : p'.Balanced k := by
  intro hne
  have hle := h (hne.mono hs)
  have hcard := Finset.card_le_card hw
  rw [hq]
  omega

theorem InPool.kept (h : InPool k r j p) (ho : Others j p p') : p.Kept p' :=
  ho.kept (h.place.pool.mpr trivial)

theorem InPool.stable (h : InPool k r j p) (ho : Others j p p') : InPool k r j p' := by
  have hk := h.kept ho
  exact ⟨h.place.stable ho, hk.popped.trans h.popped,
    h.balanced.mono hk.sleeping hk.woken hk.queue⟩

/-- What a thread knows outlasts the steps of the others. -/
theorem During.stable {x : Option a.Result} (h : During j p a pc x) (ho : Others j p p') :
    During j p' a pc x := by
  cases h with
  | start hi => exact .start (hi.stable ho)
  | registry ha hi => exact .registry ha (hi.stable ho)
  | missing ha hi ht =>
    refine .missing ha (hi.stable ho) ?_
    rw [ho.entries (hi.registry.mpr trivial)]
    exact ht
  | found ha hi ht => exact .found ha (hi.stable ho) (ho.registered _ _ ht)
  | outside ha hi ht => exact .outside ha (hi.stable ho) (ho.registered _ _ ht)
  | unlocked ha hi => exact .unlocked ha (hi.stable ho)
  | pool hi => exact .pool (hi.stable ho)
  | waiting hi => exact .waiting (hi.stable ho)
  | ready hi hq =>
    refine .ready (hi.stable ho) ?_
    rw [(hi.kept ho).queue]
    exact hq
  | popped hi => exact .popped (hi.stable ho)
  | invalid hi hb =>
    refine .invalid (hi.stable ho) ?_
    rw [(hi.kept ho).session _ hi.popped]
    exact hb
  | taken hi => exact .taken (hi.stable ho)
  | pushing hi => exact .pushing (hi.stable ho)
  | pushed hi => exact .pushed (hi.stable ho)
  | notified hi => exact .notified (hi.stable ho)

end stability

/-! What a step does to the other threads. -/

theorem Kept.refl (p : Process) : p.Kept p :=
  ⟨rfl, rfl, Finset.Subset.refl _, Finset.Subset.refl _, fun _ _ => rfl⟩

theorem Others.refl (j : ℕ) (p : Process) : Others j p p :=
  ⟨.rfl, fun _ => rfl, fun _ _ => id, .rfl, .rfl, fun _ => .refl p⟩

/-- The lock manager changes in the hands of the owner of its mutex, or of nobody. -/
theorem others_locks {l : LockManager} (hr : p.locks.registryMutex ≠ some j)
    (hr' : l.registryMutex ≠ some j)
    (ht : ∀ t m, p.locks.tableLocks t = some m → l.tableLocks t = some m) :
    Others j p { p with locks := l } where
  registry := iff_of_false hr' hr
  entries h := absurd h hr
  registered := ht
  pool := .rfl
  waiting := .rfl
  kept _ := ⟨rfl, rfl, Finset.Subset.refl _, Finset.Subset.refl _, fun _ _ => rfl⟩

theorem others_setMutex (j : ℕ) (p : Process) (m : ℕ) (x : SharedMutex) :
    Others j p (p.setMutex m x) :=
  ⟨.rfl, fun _ => rfl, fun _ _ => id, .rfl, .rfl,
    fun _ => ⟨rfl, rfl, Finset.Subset.refl _, Finset.Subset.refl _, fun _ _ => rfl⟩⟩

/-- The pool changes in the hands of the owner of its mutex, or of nobody. -/
theorem others_pool {m : PoolMonitor} {holder : Conn → Option ℕ} {b : Backend}
    (hp : p.pool.mutex ≠ some j) (hp' : m.mutex ≠ some j)
    (hw : j ∈ m.sleeping ∨ j ∈ m.woken ↔ j ∈ p.pool.sleeping ∨ j ∈ p.pool.woken) :
    Others j p { p with pool := m, holder := holder, backend := b } where
  registry := .rfl
  entries _ := rfl
  registered _ _ := id
  pool := iff_of_false hp' hp
  waiting := hw
  kept h := absurd h hp

theorem wake_waiting (hk : k ∈ p.pool.sleeping) : j ∈ (p.wake k).pool.sleeping ∨
    j ∈ (p.wake k).pool.woken ↔ j ∈ p.pool.sleeping ∨ j ∈ p.pool.woken := by
  simp only [wake, Finset.mem_erase, Finset.mem_insert]
  by_cases hjk : j = k
  · subst hjk
    simp [hk]
  · simp [hjk]

theorem others_wake (j : ℕ) (hk : k ∈ p.pool.sleeping) : Others j p (p.wake k) :=
  ⟨.rfl, fun _ => rfl, fun _ _ => id, .rfl, wake_waiting hk,
    fun _ => ⟨rfl, rfl, Finset.erase_subset _ _, Finset.subset_insert _ _, fun _ _ => rfl⟩⟩

/-- A plain action leaves the connections that nobody holds. -/
theorem session_of_plain {r : a.Result} {s s' : Server} (ha : a.Plain) (hk : Known i a s)
    (h : Server.perform pg o.outcome i a s = some (r, s')) (hc : s.holder c = none) :
    s'.backend.session c = s.backend.session c := by
  cases Server.perform_cases h with
  | exec ho hx =>
    refine (Backend.exec_cases hx).session_of_ne ?_
    rintro rfl
    cases hc.symm.trans hk.2
  | execParams ho hx =>
    refine (Backend.execParams_cases hx).session_of_ne ?_
    rintro rfl
    cases hc.symm.trans hk.2
  | lockShared | unlockShared | lockExclusive | unlockExclusive | acquire | release =>
    exact ha.elim
  | _ => rfl

theorem others_plain {r : a.Result} {s : Server} (j : ℕ) (ha : a.Plain) (hk : Known i a p.toServer)
    (h : Server.perform pg o.outcome i a p.toServer = some (r, s)) : Others j p (p.withMemory s) where
  registry := .rfl
  entries _ := rfl
  registered _ _ := id
  pool := .rfl
  waiting := .rfl
  kept _ := by
    refine ⟨rfl, rfl, Finset.Subset.refl _, Finset.Subset.refl _, fun c hc => ?_⟩
    refine session_of_plain ha hk h (hk.1.pooled c ?_).1
    show c ∈ p.pool.popped.toList ++ p.pool.queue
    simp [hc]

theorem ne_of_eq_some {x : Option ℕ} (h : x = some i) (hj : j ≠ i) : x ≠ some j := by
  rintro rfl
  exact hj (Option.some.inj h)

theorem ne_of_eq_none {x : Option ℕ} (h : x = none) (j : ℕ) : x ≠ some j := by
  rintro rfl
  cases h

/-- Every step leaves to the others what they know. -/
theorem Stepped.others {x : Option a.Result} {y : Pc ⊕ a.Result} (hs : Stepped pg o i p a pc y p')
    (hd : During i p a pc x) (hk : x = none → Known i a p.toServer) (hj : j ≠ i) :
    Others j p p' := by
  have hown : (some i : Option ℕ) ≠ some j := ne_of_eq_some rfl hj
  have hfree : (none : Option ℕ) ≠ some j := ne_of_eq_none rfl j
  cases hs with
  | lockRegistry _ hr => exact others_locks (ne_of_eq_none hr j) hown fun _ _ => id
  | miss | find | terminate | check | invalidate | notifyNobody => exact .refl j p
  | emplace ha =>
    cases hd with
    | missing _ hi _ =>
      have hr := ne_of_eq_some (hi.registry.mpr trivial) hj
      refine others_locks hr ?_ fun _ _ => LockManager.emplace_mono
      rw [LockManager.emplace_registryMutex]
      exact hr
  | leaveRegistry ha =>
    cases hd with
    | found _ hi _ => exact others_locks (ne_of_eq_some (hi.registry.mpr trivial) hj) hfree fun _ _ => id
  | lockShared hx | lockExclusive hx => exact others_setMutex j p _ _
  | unlockShared | unlockExclusive => exact others_setMutex j p _ _
  | released ha =>
    cases hd with
    | unlocked _ hi => exact others_locks (ne_of_eq_some (hi.registry.mpr trivial) hj) hfree fun _ _ => id
  | lockPool hp | lockQueue hp => exact others_pool (ne_of_eq_none hp j) hown .rfl
  | sleep hq =>
    cases hd with
    | pool hi =>
      refine others_pool (ne_of_eq_some (hi.place.pool.mpr trivial) hj) hfree ?_
      simp [hj]
  | awake hw hp =>
    refine others_pool (ne_of_eq_none hp j) hown ?_
    simp [hj]
  | pop hq =>
    cases hd with
    | ready hi _ =>
      have hp := ne_of_eq_some (hi.place.pool.mpr trivial) hj
      exact others_pool hp hp .rfl
  | valid | reset =>
    cases hd with
    | popped hi =>
      have hp := ne_of_eq_some (hi.place.pool.mpr trivial) hj
      exact others_pool hp hp .rfl
  | replace | refuse =>
    cases hd with
    | invalid hi _ =>
      have hp := ne_of_eq_some (hi.place.pool.mpr trivial) hj
      exact others_pool hp hp .rfl
  | acquired =>
    cases hd with
    | taken hi => exact others_pool (ne_of_eq_some (hi.place.pool.mpr trivial) hj) hfree .rfl
  | push =>
    cases hd with
    | pushing hi =>
      have hp := ne_of_eq_some (hi.place.pool.mpr trivial) hj
      exact others_pool hp hp .rfl
  | notify hm => exact others_wake j hm
  | gaveBack =>
    cases hd with
    | notified hi => exact others_pool (ne_of_eq_some (hi.place.pool.mpr trivial) hj) hfree .rfl
  | plain ha hx =>
    cases hd with
    | start => exact others_plain j ha (hk rfl) hx

/-! What a step does to the pool. -/

theorem Guarded.of_eq (h : p.Guarded) (hp : p'.pool = p.pool) : p'.Guarded :=
  ⟨hp ▸ h.disjoint, fun hm => by
    obtain ⟨hn, hb⟩ := h.free (hp ▸ hm)
    exact ⟨hp ▸ hn, by rwa [Balanced, hp]⟩⟩

/-- While somebody has the mutex, only the two sets of threads count. -/
theorem guarded_of_locked (hd : Disjoint p.pool.sleeping p.pool.woken) (hm : p.pool.mutex ≠ none) :
    p.Guarded :=
  ⟨hd, fun h => absurd h hm⟩

theorem InPool.guarded (h : InPool 0 none i p) (hg : p.Guarded) : (p.setPool none).Guarded :=
  ⟨hg.disjoint, fun _ => ⟨h.popped, h.balanced⟩⟩

theorem InPool.locked (h : InPool k r i p) : p.pool.mutex ≠ none := by
  intro hn
  cases hn.symm.trans (h.place.pool.mpr trivial)

theorem wake_disjoint (h : Disjoint p.pool.sleeping p.pool.woken) :
    Disjoint (p.wake k).pool.sleeping (p.wake k).pool.woken := by
  show Disjoint (p.pool.sleeping.erase k) (insert k p.pool.woken)
  rw [Finset.disjoint_insert_right]
  exact ⟨Finset.notMem_erase k _, h.mono_left (Finset.erase_subset _ _)⟩

theorem Guarded.wake (h : p.Guarded) (k : ℕ) : (p.wake k).Guarded := by
  refine ⟨wake_disjoint h.disjoint, fun hm => ?_⟩
  obtain ⟨hn, hb⟩ := h.free hm
  exact ⟨hn, hb.mono (Finset.erase_subset _ _) (Finset.subset_insert _ _) rfl⟩

/-- Every step keeps the invariant of the pool. -/
theorem Stepped.guarded {x : Option a.Result} {y : Pc ⊕ a.Result} (hs : Stepped pg o i p a pc y p')
    (hd : During i p a pc x) (hg : p.Guarded) : p'.Guarded := by
  cases hs with
  | lockRegistry | emplace | leaveRegistry | released => exact hg.of_eq rfl
  | lockShared | lockExclusive | unlockShared | unlockExclusive => exact hg.of_eq rfl
  | miss | find | terminate | check | invalidate | notifyNobody => exact hg
  | lockPool | lockQueue => exact guarded_of_locked hg.disjoint (Option.some_ne_none i)
  | sleep hq =>
    cases hd with
    | pool hi =>
      have hw : i ∉ p.pool.woken := fun hw => hi.place.waiting.mp (.inr hw)
      refine ⟨Finset.disjoint_insert_left.mpr ⟨hw, hg.disjoint⟩, fun _ => ⟨hi.popped, fun _ => ?_⟩⟩
      show p.pool.queue.length ≤ _
      simp [hq]
  | awake hw hp =>
    refine guarded_of_locked ?_ (Option.some_ne_none i)
    exact hg.disjoint.mono_right (Finset.erase_subset _ _)
  | pop hq =>
    cases hd with
    | ready hi _ => exact guarded_of_locked hg.disjoint hi.locked
  | valid | reset =>
    cases hd with
    | popped hi => exact guarded_of_locked hg.disjoint hi.locked
  | replace | refuse =>
    cases hd with
    | invalid hi _ => exact guarded_of_locked hg.disjoint hi.locked
  | acquired =>
    cases hd with
    | taken hi => exact hi.guarded hg
  | push =>
    cases hd with
    | pushing hi => exact guarded_of_locked hg.disjoint hi.locked
  | notify hm => exact hg.wake _
  | gaveBack =>
    cases hd with
    | notified hi => exact hi.guarded hg
  | plain ha hx => exact hg.of_eq rfl

/-! When an action takes effect. -/

theorem server_setMutex (h : p.locks.tableLocks t = some m) (x : SharedMutex) :
    (p.setMutex m x).toServer = p.toServer.setLock t x := by
  simp only [toServer, setMutex, Server.setLock, LockManager.lockOf_setMutex h]

theorem server_emplace (p : Process) (t : String) :
    { p with locks := (p.locks.emplace t).2 : Process }.toServer = p.toServer := by
  simp only [toServer, LockManager.emplace_lockOf]

theorem server_tableLocks (h : p.locks.tableLocks t = some m) :
    p.toServer.tableLocks t = p.locks.mutex m := LockManager.lockOf_of_eq_some h

/-- A lock that is given back has an entry: the guard that gives it back does not throw. -/
theorem Known.registered (hk : Known i a p.toServer) (ha : a.unlockName = some t) :
    p.locks.tableLocks t ≠ none := by
  intro hn
  have hfree : p.toServer.tableLocks t = {} := LockManager.lockOf_of_eq_none hn
  cases a with
  | unlockShared u =>
    cases ha
    have hi : i ∈ (p.toServer.tableLocks t).readers := hk.2
    rw [hfree] at hi
    cases hi
  | unlockExclusive u =>
    cases ha
    have hi : (p.toServer.tableLocks t).writer = some i := hk.2
    rw [hfree] at hi
    cases hi
  | _ => cases ha

/-- The rest of the process is as the plain action has left it. -/
theorem toServer_withMemory {r : a.Result} {s : Server} (ha : a.Plain)
    (h : Server.perform pg o.outcome i a p.toServer = some (r, s)) :
    (p.withMemory s).toServer = s := by
  cases Server.perform_cases h with
  | lockShared | unlockShared | lockExclusive | unlockExclusive | acquire | release =>
    exact ha.elim
  | _ => rfl

theorem takes_still {x : Option a.Result} (h : p'.toServer = p.toServer) :
    Takes (server pg policy) i q a p.toServer x x p'.toServer := by
  rw [h]
  exact .still x

/-- The action takes effect with an outcome that may occur. -/
theorem takes_effect {r : a.Result} (ha : policy.allows q a o.outcome = true)
    (h : Server.perform pg o.outcome i a p.toServer = some (r, p'.toServer)) :
    Takes (server pg policy) i q a p.toServer none (some r) p'.toServer :=
  .effect ⟨o.outcome, ha, h⟩

/-- Whoever has popped the connection `c` takes the front of the queue. -/
theorem InPool.server_queue (h : InPool k (some c) i p) :
    p.toServer.availableConnections = c :: p.pool.queue := by
  show p.pool.popped.toList ++ p.pool.queue = _
  rw [h.popped]
  rfl

theorem perform_valid {s : Server} {rest : List Conn} (hq : s.availableConnections = c :: rest)
    (hs : s.backend.session c ≠ .broken) : Server.perform pg .ok i .acquire s = some (some c,
      { s with availableConnections := rest, holder := Function.update s.holder c (some i) }) := by
  show s.acquire i .ok = _
  unfold Server.acquire
  rw [hq]
  cases hσ : s.backend.session c with
  | broken => exact absurd hσ hs
  | _ => simp [hσ]

theorem perform_broken {s : Server} {rest : List Conn} (hq : s.availableConnections = c :: rest)
    (hs : s.backend.session c = .broken) :
    Server.perform pg (.reset c) i .acquire s = some (some c, { s with
      availableConnections := rest
      holder := Function.update s.holder c (some i)
      backend := s.backend.setSession c .idle }) ∧
    Server.perform pg (.replaced c) i .acquire s = some (some s.backend.opened, { s with
      availableConnections := rest
      holder := Function.update s.holder s.backend.opened (some i)
      backend := { s.backend with opened := s.backend.opened + 1 }.setSession s.backend.opened
        .idle }) ∧
    Server.perform pg (.refused c) i .acquire s =
      some (none, { s with availableConnections := rest }) := by
  refine ⟨?_, ?_, ?_⟩ <;> simp [Server.perform, Server.acquire, hq, hs]

/-- The place of a thread that takes or leaves a mutex. -/
theorem Place.enterRegistry {registry pool waiting : Prop} (h : Place registry pool waiting i p) :
    Place True pool waiting i (p.setRegistry (some i)) :=
  ⟨iff_of_true rfl trivial, h.pool, h.waiting⟩

theorem Place.leaveRegistry {registry pool waiting : Prop} (h : Place registry pool waiting i p) :
    Place False pool waiting i (p.setRegistry none) :=
  ⟨iff_of_false (Option.some_ne_none i).symm id, h.pool, h.waiting⟩

theorem Place.enterPool {registry pool waiting : Prop} (h : Place registry pool waiting i p) :
    Place registry True waiting i (p.setPool (some i)) :=
  ⟨h.registry, iff_of_true rfl trivial, h.waiting⟩

theorem Place.leavePool {registry pool waiting : Prop} (h : Place registry pool waiting i p) :
    Place registry False waiting i (p.setPool none) :=
  ⟨h.registry, iff_of_false (Option.some_ne_none i).symm id, h.waiting⟩

/-- A step within an action: the action has taken effect before, takes effect now, or will take
effect later. -/
theorem Stepped.go {x : Option a.Result} (hs : Stepped pg o i p a pc (.inl pc') p')
    (hd : During i p a pc x) (hg : p.Guarded) (hk : x = none → Known i a p.toServer)
    (hallow : policy.allows q a o.outcome = true) :
    ∃ x', Takes (server pg policy) i q a p.toServer x x' p'.toServer ∧ During i p' a pc' x' := by
  cases hs with
  | lockRegistry ha hr =>
    cases hd with
    | start hi => exact ⟨none, takes_still rfl, .registry ha hi.enterRegistry⟩
  | miss ha ht =>
    cases hd with
    | registry _ hi => exact ⟨none, .still _, .missing ha hi ht⟩
  | find ha ht =>
    cases hd with
    | registry _ hi => exact ⟨none, .still _, .found ha hi ht⟩
  | terminate ha ht =>
    cases hd with
    | registry => exact absurd ht ((hk rfl).registered ha)
  | @emplace _ t ha =>
    cases hd with
    | missing _ hi _ =>
      refine ⟨none, takes_still (server_emplace p t), .found (.inl ha) ?_ (p.locks.emplace_self t)⟩
      refine ⟨?_, hi.pool, hi.waiting⟩
      rw [LockManager.emplace_registryMutex]
      exact hi.registry
  | @leaveRegistry _ t m ha =>
    cases hd with
    | @found _ u _ hu hi ht =>
      obtain rfl : t = u := by
        rcases hu with hu | hu
        · exact Option.some.inj (ha.symm.trans hu)
        · cases a <;> first | (cases ha; done) | cases hu
      exact ⟨none, takes_still rfl, .outside ha hi.leaveRegistry ht⟩
  | @unlockShared t m =>
    cases hd with
    | @found _ u _ hu hi ht =>
      obtain rfl : t = u := by
        rcases hu with hu | hu
        · cases hu
        · exact Option.some.inj hu
      refine ⟨some (), takes_effect hallow ?_, .unlocked rfl ⟨hi.registry, hi.pool, hi.waiting⟩⟩
      rw [server_setMutex ht, ← server_tableLocks ht]
      rfl
  | @unlockExclusive t m =>
    cases hd with
    | @found _ u _ hu hi ht =>
      obtain rfl : t = u := by
        rcases hu with hu | hu
        · cases hu
        · exact Option.some.inj hu
      refine ⟨some (), takes_effect hallow ?_, .unlocked rfl ⟨hi.registry, hi.pool, hi.waiting⟩⟩
      rw [server_setMutex ht, ← server_tableLocks ht]
      rfl
  | lockPool hp =>
    cases hd with
    | start hi =>
      obtain ⟨hn, hb⟩ := hg.free hp
      refine ⟨none, takes_still rfl, .pool ⟨hi.enterPool, hn, fun hne => ?_⟩⟩
      exact Nat.le_succ_of_le (hb hne)
  | sleep hq =>
    cases hd with
    | pool hi =>
      refine ⟨none, takes_still rfl, .waiting ⟨hi.place.registry, ?_, ?_⟩⟩
      · exact iff_of_false (Option.some_ne_none i).symm id
      · exact iff_of_true (.inl (Finset.mem_insert_self ..)) trivial
  | check hq =>
    cases hd with
    | pool hi => exact ⟨none, .still _, .ready hi hq⟩
  | awake hw hp =>
    cases hd with
    | waiting hi =>
      obtain ⟨hn, hb⟩ := hg.free hp
      refine ⟨none, takes_still rfl, .pool ⟨⟨hi.registry, iff_of_true rfl trivial, ?_⟩, hn, ?_⟩⟩
      · refine iff_of_false ?_ id
        rintro (hs | he)
        · exact Finset.disjoint_left.mp hg.disjoint hs hw
        · exact Finset.notMem_erase i _ he
      · intro hne
        have hle := hb hne
        have hcard := Finset.card_erase_add_one hw
        show p.pool.queue.length ≤ (p.pool.woken.erase i).card + 1
        omega
  | @pop c rest hq =>
    cases hd with
    | ready hi _ =>
      refine ⟨none, takes_still ?_, .popped ⟨hi.place.of_eq rfl rfl rfl rfl, rfl, fun hne => ?_⟩⟩
      · simp [toServer, hi.popped, hq]
      · have hle := hi.balanced hne
        rw [hq, List.length_cons] at hle
        exact Nat.le_of_succ_le_succ hle
  | @valid c hs ho =>
    cases hd with
    | popped hi =>
      refine ⟨some (some c), takes_effect hallow ?_, .taken ⟨hi.place.of_eq rfl rfl rfl rfl, rfl, hi.balanced⟩⟩
      rw [ho]
      exact perform_valid hi.server_queue hs
  | @reset c hs ho =>
    cases hd with
    | popped hi =>
      refine ⟨some (some c), takes_effect hallow ?_, .taken ⟨hi.place.of_eq rfl rfl rfl rfl, rfl, hi.balanced⟩⟩
      rw [ho]
      exact (perform_broken hi.server_queue hs).1
  | invalidate hs =>
    cases hd with
    | popped hi => exact ⟨none, .still _, .invalid hi hs⟩
  | replace ho =>
    cases hd with
    | invalid hi hs =>
      refine ⟨some _, takes_effect hallow ?_, .taken ⟨hi.place.of_eq rfl rfl rfl rfl, rfl, hi.balanced⟩⟩
      rw [ho]
      exact (perform_broken hi.server_queue hs).2.1
  | refuse ho =>
    cases hd with
    | invalid hi hs =>
      refine ⟨some none, takes_effect hallow ?_, .taken ⟨hi.place.of_eq rfl rfl rfl rfl, rfl, hi.balanced⟩⟩
      rw [ho]
      exact (perform_broken hi.server_queue hs).2.2
  | lockQueue hp =>
    cases hd with
    | start hi =>
      obtain ⟨hn, hb⟩ := hg.free hp
      exact ⟨none, takes_still rfl, .pushing ⟨hi.enterPool, hn, hb⟩⟩
  | @push c =>
    cases hd with
    | pushing hi =>
      refine ⟨some (), takes_effect hallow ?_, .pushed ⟨hi.place.of_eq rfl rfl rfl rfl, hi.popped, fun hne => ?_⟩⟩
      · simp [Server.perform, Server.release, toServer, hi.popped]
      · have hle := hi.balanced hne
        show (p.pool.queue ++ [c]).length ≤ _
        rw [List.length_append, List.length_singleton]
        exact Nat.succ_le_succ hle
  | notifyNobody hn =>
    cases hd with
    | pushed hi =>
      refine ⟨some (), .still _, .notified ⟨hi.place, hi.popped, fun hne => ?_⟩⟩
      rw [hn] at hne
      exact absurd hne Finset.not_nonempty_empty
  | @notify c k hm =>
    cases hd with
    | pushed hi =>
      refine ⟨some (), takes_still rfl, .notified ⟨?_, hi.popped, fun _ => ?_⟩⟩
      · exact ⟨hi.place.registry, hi.place.pool, (wake_waiting hm).trans hi.place.waiting⟩
      · have hle := hi.balanced ⟨k, hm⟩
        have hk : k ∉ p.pool.woken := Finset.disjoint_left.mp hg.disjoint hm
        show p.pool.queue.length ≤ (insert k p.pool.woken).card + 0
        rw [Finset.card_insert_of_notMem hk]
        exact hle

/-- The last step of an action. -/
theorem Stepped.answer {x : Option a.Result} {r : a.Result}
    (hs : Stepped pg o i p a pc (.inr r) p') (hd : During i p a pc x)
    (hallow : policy.allows q a o.outcome = true) :
    Takes (server pg policy) i q a p.toServer x (some r) p'.toServer ∧ Idle i p' := by
  cases hs with
  | @lockShared t m y hx =>
    cases hd with
    | @outside _ u _ hu hi ht =>
      cases hu
      refine ⟨takes_effect hallow ?_, hi.registry, hi.pool, hi.waiting⟩
      rw [server_setMutex ht, ← server_tableLocks ht] at *
      simp only [Server.perform, hx]
      rfl
  | @lockExclusive t m y hx =>
    cases hd with
    | @outside _ u _ hu hi ht =>
      cases hu
      refine ⟨takes_effect hallow ?_, hi.registry, hi.pool, hi.waiting⟩
      rw [server_setMutex ht, ← server_tableLocks ht] at *
      simp only [Server.perform, hx]
      rfl
  | released ha =>
    cases hd with
    | @unlocked _ _ r' _ hi =>
      have hr : r' = r := by
        cases a <;> first | rfl | cases ha
      subst hr
      exact ⟨takes_still rfl, hi.leaveRegistry⟩
  | acquired =>
    cases hd with
    | taken hi => exact ⟨takes_still rfl, hi.place.leavePool⟩
  | gaveBack =>
    cases hd with
    | notified hi => exact ⟨takes_still rfl, hi.place.leavePool⟩
  | plain ha hx =>
    cases hd with
    | start hi =>
      refine ⟨takes_effect hallow ?_, hi.registry, hi.pool, hi.waiting⟩
      rw [toServer_withMemory ha hx]
      exact hx

/-! The process is what it is to be. -/

theorem Guarded.drift (h : p.Guarded) (hd : p.Drifts p') :
    p'.Guarded ∧ Server.Drifts p.toServer p'.toServer ∧ ∀ j, Others j p p' := by
  cases hd with
  | clocks hs hc =>
    refine ⟨h.of_eq rfl, ⟨_, _, hs, hc, rfl⟩, fun j => ?_⟩
    exact ⟨.rfl, fun _ => rfl, fun _ _ => id, .rfl, .rfl,
      fun _ => ⟨rfl, rfl, Finset.Subset.refl _, Finset.Subset.refl _, fun _ _ => rfl⟩⟩
  | spurious hj =>
    exact ⟨h.wake _, ⟨_, _, Nat.le_refl _, Nat.le_refl _, rfl⟩, fun j => others_wake j hj⟩

theorem process_code (pg : Postgres) (policy : Policy) :
    (process pg policy).code = (IceLog.server pg policy).code := rfl

theorem process_admits (pg : Postgres) (policy : Policy) :
    (process pg policy).admits = (IceLog.server pg policy).admits := rfl

/-- The process carries out the actions of the server. -/
def implements (pg : Postgres) (policy : Policy) :
    Implements (process pg policy) (IceLog.server pg policy) where
  abs := toServer
  inv := Guarded
  idle := Idle
  during i a pc x p := During i p a pc x
  pre i _ a s := Known i a s
  rely := Others
  code := process_code pg policy
  admits := process_admits pg policy
  idle_stable ho hi := hi.stable ho
  during_stable ho hd := hd.stable ho
  start := .start
  guarantee hg hd hk _ hx :=
    ⟨(step_cases hx).guarded hd hg, fun _ hj => (step_cases hx).others hd hk hj⟩
  go hg hd hk ha hx := (step_cases hx).go hd hg hk ha
  answer _ hd _ ha hx := (step_cases hx).answer hd ha
  drift hg hd := hg.drift hd

end Process
end IceLog
