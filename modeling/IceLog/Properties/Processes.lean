import IceLog.Concurrency.Termination
import IceLog.Server.Undisturbed

/-! What the lock manager and the pool guarantee to the requests that use them: each action is as
if it were one step, no guard throws, no wakeup is lost, and every request comes to an end. -/
namespace IceLog

open Interleaved Process

variable {pg : Postgres} {policy : Policy} {d d' : ProcessConfig} {c : ServerConfig} {i j : ℕ}
  {q : Request} {a : Act} {pc : Pc} {p p' : Process} {o : Choice} {t : String}

/-- In the server the same requests have been called, and all that the process has answered has
been answered. -/
structure AnswersAlike (d : ProcessConfig) (c : ServerConfig) : Prop where
  state : c.state = d.state.toServer
  called : ∀ i, c.thread i = none ↔ d.thread i = none
  returned : ∀ i q x, d.Returned i q x → c.Returned i q x

theorem Embodies.answersAlike (h : Embodies pg policy d c) : AnswersAlike d c :=
  ⟨h.state, fun _ => h.thread_eq_none, fun _ _ _ => h.returned⟩

/-- Every run of the process is one of the server in which each action is one step, with the same
calls and answers at any time on the way. -/
theorem process_refines_server (h : ProcessReachable pg policy d)
    (hr : (process pg policy).Run d d') : ∃ c c', Reachable pg policy c ∧
      Run (server pg policy) c c' ∧ AnswersAlike d c ∧ AnswersAlike d' c' := by
  obtain ⟨c, hc, hm⟩ := h.embodies
  obtain ⟨c', hcc, hm'⟩ := hm.run (fun c' hr i q a k hi => (hc.run hr).known hi) hr
  exact ⟨c, c', hc, hcc, Embodies.answersAlike hm, Embodies.answersAlike hm'⟩

/-- `GetSnapshot` with one connection: six steps of the pool, a statement, and the way back. -/
def lookup (i : ℕ) : List (Move Request Choice) :=
  .call i (.getSnapshot "t" 0) :: List.replicate 10 (.step i ⟨.ok, 0⟩)

theorem process_refines_server_lookup : ∃ d, ProcessReachable .plain .any d ∧
    d.reply 0 = some (.getSnapshot "t" 0, .notFound "Snapshot not found") ∧
    ∃ c c', Reachable .plain .any c ∧ Run (server .plain .any) c c' ∧ AnswersAlike d c ∧
      AnswersAlike d c' := by
  obtain ⟨d, hd, -, hf⟩ := @processReachable_of_check .plain .any 1 (lookup 0)
    (fun d => decide (d.reply 0 = some (.getSnapshot "t" 0, .notFound "Snapshot not found")))
    (by decide +kernel)
  exact ⟨d, hd, of_decide_eq_true hf, process_refines_server hd .refl⟩

theorem Launched.vacant {db : Db} (h : Launched db p) : p.Vacant :=
  ⟨h.locks.1, h.mutex, h.sleeping, h.woken, h.popped⟩

/-- The process and the server in which each action is one step give the same answers: what
requests can be answered together by one, can be by the other. -/
theorem process_equivalent_server {db : Db} (hp : Launched db p)
    (hreach : Reachable pg policy (Config.initial p.toServer))
    (answers : ℕ → Option (Request × Reply)) :
    (∃ d, (process pg policy).Run (.initial p) d ∧
      ∀ i q x, answers i = some (q, x) → d.Returned i q x) ↔
    ∃ c, Run (server pg policy) (Config.initial p.toServer) c ∧
      ∀ i q x, answers i = some (q, x) → c.Returned i q x := by
  constructor
  · rintro ⟨d, hr, hd⟩
    obtain ⟨c, hc, hm⟩ := hp.embodies.run
      (fun c hr i q a k hi => (hreach.run hr).known hi) hr
    exact ⟨c, hc, fun i q x ha => hm.returned (hd i q x ha)⟩
  · rintro ⟨c, hr, hc⟩
    obtain ⟨d, hd, hm⟩ := (Realises.resting_initial (I := realises pg policy) hp.vacant).run
      (fun c hr i q a k hi => (hreach.run hr).known hi) hr
    exact ⟨d, hd, fun i q x ha => hm.returned (hc i q x ha)⟩

theorem process_equivalent_server_lookup :
    ∃ c, Run (server .plain .any) (Config.initial (freshProcess (List.range 1)).toServer) c ∧
      ∀ i q x, (if i = 0 then some (Request.getSnapshot "t" 0, Reply.notFound "Snapshot not found")
        else none) = some (q, x) → c.Returned i q x := by
  obtain ⟨d, -, hr, hf⟩ := @processReachable_of_check .plain .any 1 (lookup 0)
    (fun d => decide (d.reply 0 = some (.getSnapshot "t" 0, .notFound "Snapshot not found")))
    (by decide +kernel)
  refine (process_equivalent_server (launched_fresh 1) (.start (launched_fresh 1).started)
    _).mp ⟨d, hr, fun i q x hx => ?_⟩
  split at hx
  · subst i
    cases hx
    exact Machine.Config.returned_of_reply (of_decide_eq_true hf)
  · cases hx

/-! Where a thread can be. -/

theorem Embodies.state_eq (h : Embodies pg policy d c) : c.state = d.state.toServer := h.state

/-- A thread in an action knows what the place says. -/
theorem Embodies.during {k : a.Result → Code Reply} (h : Embodies pg policy d c)
    (hi : d.thread i = some ⟨q, .act a k, pc⟩) : ∃ x, During i d.state a pc x ∧
      c.thread i = some ⟨q, x.elim (.act a k) k⟩ :=
  Implements.Tracks.during (hi ▸ h.tracks i)

/-- Who has a mutex, or waits for a connection, is in the middle of an action. -/
theorem Embodies.acting {registry pool waiting : Prop} (h : Embodies pg policy d c)
    (hp : Place registry pool waiting i d.state) (hx : registry ∨ pool ∨ waiting) :
    ∃ q a k pc x, d.thread i = some ⟨q, .act a k, pc⟩ ∧ During i d.state a pc x := by
  by_cases hn : ∀ q a k l, d.thread i ≠ some ⟨q, .act a k, l⟩
  · have hi : Idle i d.state := Implements.Matches.idle h hn
    rcases hx with hx | hx | hx
    · exact (hi.registry.mp (hp.registry.mpr hx)).elim
    · exact (hi.pool.mp (hp.pool.mpr hx)).elim
    · exact (hi.waiting.mp (hp.waiting.mpr hx)).elim
  · push Not at hn
    obtain ⟨q, a, k, pc, hi⟩ := hn
    obtain ⟨x, hd, -⟩ := h.during hi
    exact ⟨q, a, k, pc, x, hi, hd⟩

/-- The places at which a thread has the registry. -/
def Pc.HasRegistry : Pc → Prop
  | .registry | .missing | .found _ | .unlocked => True
  | _ => False

/-- The places at which a thread has the pool. -/
def Pc.HasPool : Pc → Prop
  | .pool | .ready | .popped _ | .invalid _ | .taken _ | .pushing | .pushed | .notified => True
  | _ => False

/-- The place at which a thread sleeps. -/
def Pc.Sleeps : Pc → Prop
  | .waiting => True
  | _ => False

/-- What a thread has can be told from the place at which it is. -/
theorem Process.During.place {x : Option a.Result} (hd : During i p a pc x) :
    Place pc.HasRegistry pc.HasPool pc.Sleeps i p := by
  cases hd with
  | start hi | outside _ hi _ | waiting hi => exact hi
  | registry _ hi | missing _ hi _ | found _ hi _ | unlocked _ hi => exact hi
  | pool hi | ready hi _ | popped hi | invalid hi _ => exact hi.place
  | taken hi | pushing hi | pushed hi | notified hi => exact hi.place

/-- The lock manager: no guard throws where it gives its lock back; a thread looks at the map only
while it has the registry, which nobody has outside the two operations; and the mutex that a thread
has found is still the one of the name when it locks it. -/
theorem guards_never_throw (h : ProcessReachable pg policy d) :
    (∀ i q a k, d.thread i ≠ some ⟨q, .act a k, .terminated⟩) ∧
      (∀ i q a k pc, d.thread i = some ⟨q, .act a k, pc⟩ →
        (d.state.locks.registryMutex = some i ↔ pc.HasRegistry)) ∧
      (∀ i, d.state.locks.registryMutex = some i → ∃ q a k pc,
        d.thread i = some ⟨q, .act a k, pc⟩ ∧ pc.HasRegistry) ∧
      ∀ i q a k m, d.thread i = some ⟨q, .act a k, .outside m⟩ →
        ∃ t, a.lockName = some t ∧ d.state.locks.tableLocks t = some m := by
  obtain ⟨c, -, hm⟩ := h.embodies
  refine ⟨fun i q a k hi => ?_, fun i q a k pc hi => ?_, fun i hi => ?_, fun i q a k m hi => ?_⟩
  · obtain ⟨x, hd, -⟩ := hm.during hi
    cases hd
  · obtain ⟨x, hd, -⟩ := hm.during hi
    exact hd.place.registry
  · have hp : Place (d.state.locks.registryMutex = some i) (d.state.pool.mutex = some i)
        (i ∈ d.state.pool.sleeping ∨ i ∈ d.state.pool.woken) i d.state := ⟨.rfl, .rfl, .rfl⟩
    obtain ⟨q, a, k, pc, x, hth, hd⟩ := hm.acting hp (.inl hi)
    exact ⟨q, a, k, pc, hth, hd.place.registry.mp hi⟩
  · obtain ⟨x, hd, -⟩ := hm.during hi
    cases hd with
    | outside ha _ ht => exact ⟨_, ha, ht⟩

theorem guards_never_throw_lookup : ∃ d, ProcessReachable .plain .any d ∧
    d.Running 0 (.stats "t") ∧ (∀ i q a k, d.thread i ≠ some ⟨q, .act a k, .terminated⟩) ∧
      (∀ i q a k pc, d.thread i = some ⟨q, .act a k, pc⟩ →
        (d.state.locks.registryMutex = some i ↔ pc.HasRegistry)) ∧
      (∀ i, d.state.locks.registryMutex = some i → ∃ q a k pc,
        d.thread i = some ⟨q, .act a k, pc⟩ ∧ pc.HasRegistry) ∧
      ∀ i q a k m, d.thread i = some ⟨q, .act a k, .outside m⟩ →
        ∃ t, a.lockName = some t ∧ d.state.locks.tableLocks t = some m := by
  obtain ⟨d, hd, hr⟩ : ∃ d, (process .plain .any).move (.initial (freshProcess (List.range 1)))
      (.call 0 (.stats "t")) = some d ∧ d.Running 0 (.stats "t") :=
    ⟨_, rfl, _, _, _, Machine.Config.put_thread_self ..⟩
  have hreach := (ProcessReachable.start (launched_fresh 1)).step (Machine.step_of_move hd)
  exact ⟨d, hreach, hr, guards_never_throw hreach⟩

/-- No wakeup is lost: while the pool is free and some thread sleeps, there is for each connection
in the queue another thread that has been woken and will look at the queue again. -/
theorem no_lost_wakeup (h : ProcessReachable pg policy d) (hfree : d.state.pool.mutex = none)
    (hs : d.state.pool.sleeping.Nonempty) :
    d.state.pool.queue.length ≤ d.state.pool.woken.card ∧
      ∀ j ∈ d.state.pool.woken, ∃ q k, d.thread j = some ⟨q, .act .acquire k, .waiting⟩ := by
  obtain ⟨c, -, hm⟩ := h.embodies
  refine ⟨(hm.inv.free hfree).2 hs, fun j hj => ?_⟩
  have hp : Place (d.state.locks.registryMutex = some j) (d.state.pool.mutex = some j)
      (j ∈ d.state.pool.sleeping ∨ j ∈ d.state.pool.woken) j d.state := ⟨.rfl, .rfl, .rfl⟩
  obtain ⟨q, a, k, pc, x, hth, hd⟩ := hm.acting hp (.inr (.inr (.inr hj)))
  have hpc : pc.Sleeps := hd.place.waiting.mp (.inr hj)
  cases hd with
  | waiting => exact ⟨q, k, hth⟩
  | _ => exact hpc.elim

/-- Three requests share one connection: one gives it back, another has been woken, and the third
sleeps. -/
theorem no_lost_wakeup_shared : ∃ d, ProcessReachable .plain .any d ∧ d.state.pool.queue = [0] ∧
    d.state.pool.queue.length ≤ d.state.pool.woken.card ∧
      ∀ j ∈ d.state.pool.woken, ∃ q k, d.thread j = some ⟨q, .act .acquire k, .waiting⟩ := by
  obtain ⟨d, hd, -, hf⟩ := @processReachable_of_check .plain .any 1
    (lookup 0 |>.take 7 |>.append ((lookup 1).take 3) |>.append ((lookup 2).take 3) |>.append
      (List.replicate 4 (.step 0 ⟨.ok, 1⟩)))
    (fun d => decide (d.state.pool.mutex = none ∧ d.state.pool.sleeping.Nonempty ∧
      d.state.pool.queue = [0])) (by decide +kernel)
  obtain ⟨hm, hs, hq⟩ := of_decide_eq_true hf
  exact ⟨d, hd, hq, no_lost_wakeup hd hm hs⟩

/-! Nobody waits for ever. -/

/-- The weight of a place: each step of an action leads to a lighter one, but for a wait that
ends, which takes its weight from the notification. -/
def Pc.weight : Pc → ℕ
  | .start => 11
  | .registry | .pushing => 10
  | .missing | .pushed => 9
  | .found _ => 8
  | .outside _ => 7
  | .pool => 5
  | .ready => 4
  | .popped _ => 3
  | .invalid _ => 2
  | .taken _ | .unlocked | .notified => 1
  | .waiting | .terminated => 0

def Process.potential (p : Process) : ℕ := 6 * p.pool.woken.card

theorem Process.Stepped.weight_lt {pc' : Pc} (hs : Stepped pg o i p a pc (.inl pc') p') :
    pc'.weight + p'.potential < pc.weight + p.potential := by
  cases hs with
  | awake hw hp =>
    have hcard := Finset.card_erase_add_one hw
    show 5 + 6 * (p.pool.woken.erase i).card < 0 + 6 * p.pool.woken.card
    omega
  | @notify c k hm =>
    have hcard := Finset.card_insert_le k p.pool.woken
    show 1 + 6 * (insert k p.pool.woken).card < 9 + 6 * p.pool.woken.card
    omega
  | _ => exact Nat.add_lt_add_right (by simp [Pc.weight]) _

/-- An outcome with which the action can be performed, if it need not wait. -/
def Act.liveOutcome : Act → Outcome
  | .execParams .. => .answer (.fail false)
  | .commitTransaction _ => .spurious 0
  | _ => .ok

theorem liveOutcome_ne_refused (a : Act) (conn : Conn) : a.liveOutcome ≠ .refused conn := by
  cases a <;> simp [Act.liveOutcome]

theorem exists_live (pg : Postgres) (i : ℕ) {s : Server} (ha : a.Plain)
    (hcap : 1 ≤ s.cache.capacity) :
    ∃ r s', Server.perform pg a.liveOutcome i a s = some (r, s') := by
  cases a with
  | lockShared | unlockShared | lockExclusive | unlockExclusive | acquire | release =>
    exact ha.elim
  | execParams conn sql =>
    have hsome : (s.backend.execParams conn pg sql (.fail false)).isSome = true := by
      cases hσ : s.backend.session conn <;> simp [Backend.execParams, hσ]
    obtain ⟨⟨r, b⟩, h⟩ := Option.isSome_iff_exists.mp hsome
    exact ⟨r, { s with backend := b }, by simp [Server.perform, Act.liveOutcome, h]⟩
  | cachePut key rows =>
    obtain ⟨d, hd, -⟩ := LRUCache.put_leads s.cache.wellFormed hcap key rows
    exact ⟨(), _, by simp [Server.perform, Cache.put_eq hd]; rfl⟩
  | _ => exact ⟨_, _, rfl⟩

/-- Nothing but a refused connection can help the thread on. -/
def Process.Blocked (pg : Postgres) (i : ℕ) (a : Act) (pc : Pc) (p : Process) : Prop :=
  ∀ o : Choice, (∀ conn, o.outcome ≠ .refused conn) → step pg o i a pc p = none

theorem step_lockRegistry (ha : a.lockName = some t ∨ a.unlockName = some t)
    (hr : p.locks.registryMutex = none) :
    step pg o i a .start p = some (.inl .registry, p.setRegistry (some i)) := by
  cases a with
  | lockShared | lockExclusive | unlockShared | unlockExclusive =>
    simp [step, acquireShared, acquireExclusive, acquireWith, getOrCreate, releaseShared,
      releaseExclusive, releaseWith, lockRegistry, hr]
  | _ => rcases ha with ha | ha <;> cases ha

theorem not_blocked_of_plain (ha : a.Plain) (hcap : 1 ≤ p.cache.capacity) :
    ¬ Blocked pg i a .start p := by
  intro hb
  obtain ⟨r, s, hx⟩ := exists_live pg i (s := p.toServer) ha hcap
  have hn := hb ⟨a.liveOutcome, 0⟩ (liveOutcome_ne_refused a)
  rw [step_start_of_plain ha, hx] at hn
  cases hn

/-- Where a thread can be that is blocked: it waits for one of the mutexes, for a lock or for a
connection. -/
theorem Process.Blocked.waits {x : Option a.Result} (hb : Blocked pg i a pc p)
    (hd : During i p a pc x) (hcap : 1 ≤ p.cache.capacity) : x = none ∧
      (p.locks.registryMutex ≠ none ∨ p.pool.mutex ≠ none ∨ (a ≠ .acquire ∧ a.Waits i p.toServer) ∨
        (a = .acquire ∧ i ∈ p.pool.sleeping)) ∧ ¬ pc.HasRegistry ∧ ¬ pc.HasPool := by
  have hok := hb ⟨.ok, 0⟩ (by simp)
  cases hd with
  | start hi =>
    refine ⟨rfl, ?_, id, id⟩
    cases a with
    | lockShared t | lockExclusive t =>
      refine .inl fun hr => ?_
      cases (step_lockRegistry (.inl rfl) hr).symm.trans hok
    | unlockShared t | unlockExclusive t =>
      refine .inl fun hr => ?_
      cases (step_lockRegistry (.inr rfl) hr).symm.trans hok
    | acquire | release =>
      refine .inr (.inl fun hp => ?_)
      simp [step, acquire, release, lockPool, hp] at hok
    | _ => exact absurd hb (not_blocked_of_plain trivial hcap)
  | registry ha =>
    cases a with
    | lockShared u | lockExclusive u | unlockShared u | unlockExclusive u =>
      cases ht : p.locks.tableLocks u <;>
        simp [step, acquireShared, acquireExclusive, acquireWith, getOrCreate, releaseShared,
          releaseExclusive, releaseWith, ht] at hok
    | _ => rcases ha with ha | ha <;> cases ha
  | missing ha =>
    cases a with
    | lockShared | lockExclusive =>
      simp [step, acquireShared, acquireExclusive, acquireWith, getOrCreate] at hok
    | _ => cases ha
  | found ha =>
    cases a with
    | lockShared | lockExclusive | unlockShared | unlockExclusive =>
      simp [step, acquireShared, acquireExclusive, acquireWith, getOrCreate, releaseShared,
        releaseExclusive, releaseWith] at hok
    | _ => rcases ha with ha | ha <;> cases ha
  | outside ha hi ht =>
    refine ⟨rfl, .inr (.inr (.inl ⟨?_, ?_⟩)), id, id⟩
    · rintro rfl
      cases ha
    · cases a with
      | lockShared u | lockExclusive u =>
        cases ha
        have hs := server_tableLocks ht
        simpa [step, acquireShared, acquireExclusive, acquireWith, Act.Waits, hs] using hok
      | _ => cases ha
  | unlocked ha =>
    cases a with
    | unlockShared | unlockExclusive =>
      simp [step, releaseShared, releaseExclusive, releaseWith] at hok
    | _ => cases ha
  | pool hi =>
    by_cases hq : p.pool.queue = [] <;> simp [step, acquire, hq] at hok
  | waiting hi =>
    refine ⟨rfl, .inr ?_, id, id⟩
    rcases hi.waiting.mpr trivial with hs | hw
    · exact .inr (.inr ⟨rfl, hs⟩)
    · refine .inl fun hp => ?_
      simp [step, acquire, hw, hp] at hok
  | ready hi hq =>
    obtain ⟨conn, rest, hq⟩ := List.exists_cons_of_ne_nil hq
    simp [step, acquire, hq] at hok
  | @popped conn hi =>
    have hreset := hb ⟨.reset conn, 0⟩ (by simp)
    cases hσ : p.backend.session conn <;> simp [step, acquire, hσ] at hok hreset
  | @invalid conn hi hσ =>
    have hreplaced := hb ⟨.replaced conn, 0⟩ (by simp)
    simp [step, acquire] at hreplaced
  | taken | pushing | notified => simp [step, acquire, release] at hok
  | pushed hi =>
    rcases p.pool.sleeping.eq_empty_or_nonempty with hs | ⟨j, hj⟩
    · simp [step, release, hs] at hok
    · have hj' := hb ⟨.ok, j⟩ (by simp)
      have hne : p.pool.sleeping ≠ ∅ := Finset.ne_empty_of_mem hj
      simp [step, release, hj, hne] at hj'

/-- A connection that is lost can always be replaced, and everything else is left open. -/
def Policy.reconnecting (admits : Request → Bool) : Policy where
  admits := admits
  allows _ _
    | .refused _ => false
    | _ => true

theorem allows_reconnecting (admits : Request → Bool) (q : Request) (a : Act) {o : Outcome}
    (ho : ∀ conn, o ≠ .refused conn) : (Policy.reconnecting admits).allows q a o = true := by
  cases o with
  | refused conn => exact absurd rfl (ho conn)
  | _ => rfl

/-- A table is being renamed from `o` to `n`. -/
def Renames (d : ProcessConfig) (o n : String) : Prop :=
  ∃ i, d.Running i (.alterTable o (.rename n))

variable {admits : Request → Bool}

theorem blocked_of_stuck (hstuck : ∀ d', ¬ (process pg (.reconnecting admits)).Works d d')
    {k : a.Result → Code Reply} (hi : d.thread i = some ⟨q, .act a k, pc⟩) :
    Blocked pg i a pc d.state := by
  intro o ho
  by_contra hne
  obtain ⟨⟨y, s⟩, hs⟩ := Option.ne_none_iff_exists'.mp hne
  have ha : (process pg (.reconnecting admits)).allows q a o = true := allows_reconnecting admits q a ho
  cases y with
  | inl pc' => exact hstuck _ (.go hi ha hs)
  | inr r => exact hstuck _ (.answer hi ha hs)

/-- If no thread can go on, nobody has a mutex, nobody has been woken, and in the server every
request waits. -/
theorem Embodies.stuck (hm : Embodies pg (.reconnecting admits) d c)
    (hstuck : ∀ d', ¬ (process pg (.reconnecting admits)).Works d d')
    (hcap : 1 ≤ d.state.cache.capacity) (hrun : d.Running i q) : Stuck c := by
  have hplace : ∀ j, Place (d.state.locks.registryMutex = some j) (d.state.pool.mutex = some j)
      (j ∈ d.state.pool.sleeping ∨ j ∈ d.state.pool.woken) j d.state := fun _ => ⟨.rfl, .rfl, .rfl⟩
  have hregistry : d.state.locks.registryMutex = none := by
    by_contra hne
    obtain ⟨j, hj⟩ := Option.ne_none_iff_exists'.mp hne
    obtain ⟨q, a, k, pc, x, hth, hd⟩ := hm.acting (hplace j) (.inl hj)
    exact ((blocked_of_stuck hstuck hth).waits hd hcap).2.2.1 (hd.place.registry.mp hj)
  have hpool : d.state.pool.mutex = none := by
    by_contra hne
    obtain ⟨j, hj⟩ := Option.ne_none_iff_exists'.mp hne
    obtain ⟨q, a, k, pc, x, hth, hd⟩ := hm.acting (hplace j) (.inr (.inl hj))
    exact ((blocked_of_stuck hstuck hth).waits hd hcap).2.2.2 (hd.place.pool.mp hj)
  have hwoken : d.state.pool.woken = ∅ := by
    by_contra hne
    obtain ⟨j, hj⟩ := Finset.nonempty_iff_ne_empty.mpr hne
    obtain ⟨q, a, k, pc, x, hth, hd⟩ := hm.acting (hplace j) (.inr (.inr (.inr hj)))
    have hpc : pc.Sleeps := hd.place.waiting.mp (.inr hj)
    rcases ((blocked_of_stuck hstuck hth).waits hd hcap).2.1 with hr | hp | ⟨ha, -⟩ | ⟨-, hs⟩
    · exact hr hregistry
    · exact hp hpool
    · cases hd with
      | waiting => exact ha rfl
      | _ => exact hpc.elim
    · exact Finset.disjoint_left.mp hm.inv.disjoint hs hj
  have hwaits : ∀ {i q a pc} {k : a.Result → Code Reply},
      d.thread i = some ⟨q, .act a k, pc⟩ → c.thread i = some ⟨q, .act a k⟩ ∧
        a.Waits i c.state := by
    intro i q a pc k hi
    obtain ⟨x, hd, hc⟩ := hm.during hi
    obtain ⟨rfl, hw, -⟩ := (blocked_of_stuck hstuck hi).waits hd hcap
    refine ⟨hc, ?_⟩
    rw [hm.state_eq]
    rcases hw with hr | hp | ⟨-, hw⟩ | ⟨rfl, hs⟩
    · exact absurd hregistry hr
    · exact absurd hpool hp
    · exact hw
    · obtain ⟨hpopped, hbalanced⟩ := hm.inv.free hpool
      have hle := hbalanced ⟨i, hs⟩
      rw [hwoken, Finset.card_empty] at hle
      have hq : d.state.pool.queue = [] := List.length_eq_zero_iff.mp (by omega)
      show d.state.pool.popped.toList ++ d.state.pool.queue = []
      rw [hpopped, hq]
      rfl
  constructor
  · obtain ⟨a, k, pc, hi⟩ := hrun
    exact ⟨i, q, a, k, (hwaits hi).1⟩
  · intro i q a k hi
    obtain ⟨a', k', pc, hi'⟩ := hm.running ⟨a, k, hi⟩
    obtain ⟨hc, hw⟩ := hwaits hi'
    cases hi.symm.trans hc
    exact hw

/-- While a request runs some thread can go on, if the renamings form no cycle. -/
theorem ProcessReachable.exists_works (h : ProcessReachable pg (.reconnecting admits) d)
    (hst : d.state.toServer.Stocked) (hcap : 1 ≤ d.state.cache.capacity)
    (hno : ∀ t, ¬ Relation.TransGen (Renames d) t t) (hrun : d.Running i q) :
    ∃ d', (process pg (.reconnecting admits)).Works d d' := by
  by_contra hstuck
  push Not at hstuck
  obtain ⟨c, hc, hm⟩ := h.embodies
  have hst' : c.state.Stocked := hm.state_eq ▸ hst
  obtain ⟨t, ht⟩ := (hm.stuck hstuck hcap hrun).cycle hc hst'
  refine hno t (Relation.TransGen.mono (fun o n hr => ?_) t t ht)
  obtain ⟨j, hj⟩ := hr
  exact ⟨j, hm.running hj⟩

/-! What stays while the threads work. -/

/-- The pool stays stocked as long as no connection is given up. -/
theorem stocked_of_perform {s s' : Server} {r : a.Result} {y : Outcome}
    (hy : ∀ conn, y ≠ .refused conn) (hs : s.Stocked)
    (h : Server.perform pg y i a s = some (r, s')) : s'.Stocked := by
  cases Server.perform_cases h with
  | acquire ha =>
    cases ha with
    | valid | reset | replaced => exact .inr ⟨_, i, Function.update_self ..⟩
    | refused _ ho => exact absurd ho (hy _)
  | release conn => exact .inl (by simp [Server.release])
  | _ => exact hs

theorem stocked_of_run {c' : ServerConfig} (h : Run (server pg (.reconnecting admits)) c c')
    (hs : c.state.Stocked) : c'.state.Stocked := by
  induction h with
  | refl => exact hs
  | step _ hx ih =>
    cases hx with
    | call => exact ih
    | act _ hx =>
      obtain ⟨o, ho, hx⟩ := hx
      refine stocked_of_perform (fun conn hconn => ?_) ih hx
      rw [hconn] at ho
      cases ho
    | drift hd =>
      obtain ⟨_, _, -, -, rfl⟩ := hd
      exact ih

/-- A request that runs now ran before. -/
theorem running_of_works (h : (process pg policy).Works d d') (hi : d'.Running i q) :
    d.Running i q := by
  obtain ⟨a, k, l, hi⟩ := hi
  cases h with
  | @go j _ _ _ _ _ _ _ hj | @answer j _ _ _ _ _ _ _ hj =>
    by_cases hij : i = j
    · subst hij
      rw [Machine.Config.put_thread_self] at hi
      obtain rfl : _ = q := congrArg Machine.Thread.request (Option.some.inj hi)
      exact ⟨_, _, _, hj⟩
    · rw [Machine.Config.put_thread_of_ne _ _ _ hij] at hi
      exact ⟨a, k, l, hi⟩

theorem ProcessReachable.within (h : ProcessReachable pg policy d) : ∃ n, d.Within n := by
  obtain ⟨c, hc, hm⟩ := h.embodies
  obtain ⟨n, hn⟩ := hc.free
  exact ⟨n, fun i hi => hm.thread_eq_none.mp (hn i hi)⟩

/-- Every request comes to an end. Nobody works for ever; and where nobody can go on, every
request that has been called has returned or thrown. A wait that ends for no reason is not
counted, no connection is given up, and the renamings that are going on form no cycle. -/
theorem requests_end (h : ProcessReachable pg (.reconnecting admits) d)
    (hst : d.state.toServer.Stocked) (hcap : 1 ≤ d.state.cache.capacity)
    (hno : ∀ t, ¬ Relation.TransGen (Renames d) t t) :
    (∀ f : ℕ → ProcessConfig, f 0 = d →
      ¬ ∀ n, (process pg (.reconnecting admits)).Works (f n) (f (n + 1))) ∧
    ∀ d', Relation.ReflTransGen (process pg (.reconnecting admits)).Works d d' →
      (∀ d'', ¬ (process pg (.reconnecting admits)).Works d' d'') → ∀ i q, ¬ d'.Running i q := by
  constructor
  · obtain ⟨n, hn⟩ := h.within
    exact Machine.not_forever (Machine.acc_works (fun hx => (step_cases hx).weight_lt) hn)
  · intro d' hr hstuck i q hrun
    obtain ⟨c, hc, hm⟩ := h.embodies
    have hkept : ProcessReachable pg (.reconnecting admits) d' ∧ d'.state.toServer.Stocked ∧
        1 ≤ d'.state.cache.capacity ∧ ∀ t, ¬ Relation.TransGen (Renames d') t t := by
      clear hrun hstuck
      induction hr with
      | refl => exact ⟨h, hst, hcap, hno⟩
      | tail _ hw ih =>
        obtain ⟨h₁, hst₁, hcap₁, hno₁⟩ := ih
        obtain ⟨c₁, hc₁, hm₁⟩ := h₁.embodies
        obtain ⟨c₂, -, hr₂, hm₂⟩ := hm₁.step hc₁ hw.step
        refine ⟨h₁.step hw.step, ?_, ?_, fun t ht => ?_⟩
        · exact hm₂.state_eq ▸ stocked_of_run hr₂ (hm₁.state_eq ▸ hst₁)
        · have hcap₂ : 1 ≤ c₁.state.cache.capacity := hm₁.state_eq ▸ hcap₁
          have hcap₃ := Run.capacity hr₂ hcap₂
          rw [hm₂.state_eq] at hcap₃
          exact hcap₃
        · refine hno₁ t (Relation.TransGen.mono (fun o n hr => ?_) t t ht)
          obtain ⟨j, hj⟩ := hr
          exact ⟨j, running_of_works hw hj⟩
    obtain ⟨h', hst', hcap', hno'⟩ := hkept
    obtain ⟨d'', hd''⟩ := h'.exists_works hst' hcap' hno' hrun
    exact hstuck d'' hd''

/-- A request that has just been called. -/
theorem requests_end_stats : ∃ d, ProcessReachable .plain (.reconnecting fun _ => true) d ∧
    d.Running 0 (.stats "t") ∧ (∀ f : ℕ → ProcessConfig, f 0 = d →
      ¬ ∀ n, (process .plain (.reconnecting fun _ => true)).Works (f n) (f (n + 1))) ∧
    ∀ d', Relation.ReflTransGen (process .plain (.reconnecting fun _ => true)).Works d d' →
      (∀ d'', ¬ (process .plain (.reconnecting fun _ => true)).Works d' d'') →
        ∀ i q, ¬ d'.Running i q := by
  let d : ProcessConfig := (Machine.Config.initial (freshProcess (List.range 1))).put 0
    ⟨.stats "t", (Request.stats "t").code, .start⟩ (freshProcess (List.range 1))
  have hreach : ProcessReachable .plain (.reconnecting fun _ => true) d :=
    (ProcessReachable.start (launched_fresh 1)).step (.call rfl rfl)
  refine ⟨d, hreach, ⟨_, _, _, Machine.Config.put_thread_self ..⟩,
    requests_end hreach (.inl ?_) ?_ fun t ht => ?_⟩
  · show List.range 1 ≠ []
    decide
  · show 1 ≤ 10
    decide
  · have hno : ∀ o n, ¬ Renames d o n := by
      rintro o n ⟨i, a, k, l, hi⟩
      by_cases h0 : i = 0
      · subst h0
        rw [Machine.Config.put_thread_self] at hi
        cases hi
      · rw [Machine.Config.put_thread_of_ne _ _ _ h0] at hi
        cases hi
    cases ht with
    | single hr => exact hno _ _ hr
    | tail _ hr => exact hno _ _ hr

end IceLog
