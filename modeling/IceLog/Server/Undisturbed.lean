import IceLog.Server.ProcessRuns

/-! A thread that nobody disturbs carries out its action to the end, as the server does in one
step: what the server can do, the process can do. -/
namespace IceLog

open Interleaved

namespace Process

/-- Nobody has a mutex, and nobody waits for a connection. -/
structure Vacant (p : Process) : Prop where
  registry : p.locks.registryMutex = none
  pool : p.pool.mutex = none
  sleeping : p.pool.sleeping = ∅
  woken : p.pool.woken = ∅
  popped : p.pool.popped = none

variable {pg : Postgres} {policy : Policy} {o : Outcome} {i : ℕ} {q : Request} {a : Act} {t : String}
  {p : Process} {s : Server} {c : Conn}

theorem Vacant.setMutex (h : p.Vacant) (m : ℕ) (x : SharedMutex) : (p.setMutex m x).Vacant :=
  ⟨h.registry, h.pool, h.sleeping, h.woken, h.popped⟩

/-- `get_or_create` finds the mutex of the name, or makes one. -/
theorem alone_getOrCreate (ho : policy.allows q a o = true) (ha : a.lockName = some t)
    (h : p.Vacant) : ∃ m p', p'.Vacant ∧ p'.toServer = p.toServer ∧
      p'.locks.tableLocks t = some m ∧ ∀ {r : a.Result} {u : Process},
        (process pg policy).Alone i q a r u (.outside m) p' →
          (process pg policy).Alone i q a r u .start p := by
  have hallow : (process pg policy).allows q a ⟨o, 0⟩ = true := ho
  have hstep : ∀ {pc pc' : Pc} {p p' : Process}, p.getOrCreate i t pc = some (pc', p') →
      (process pg policy).step ⟨o, 0⟩ i a pc p = some (.inl pc', p') := by
    intro pc pc' p p' hg
    cases a with
    | lockShared | lockExclusive =>
      cases ha
      cases pc with
      | outside m => cases hg
      | _ => simp [process, step, acquireShared, acquireExclusive, acquireWith, hg]
    | _ => cases ha
  have hstart : p.getOrCreate i t .start = some (.registry, p.setRegistry (some i)) :=
    if_pos h.registry
  cases ht : p.locks.tableLocks t with
  | some m =>
    refine ⟨m, (p.setRegistry (some i)).setRegistry none, ?_, rfl, ht, fun hrest => ?_⟩
    · exact ⟨rfl, h.pool, h.sleeping, h.woken, h.popped⟩
    · have hfind : (p.setRegistry (some i)).getOrCreate i t .registry =
          some (.found m, p.setRegistry (some i)) := by
        simp [getOrCreate, setRegistry, ht]
      have hleave : (p.setRegistry (some i)).getOrCreate i t (.found m) =
          some (.outside m, (p.setRegistry (some i)).setRegistry none) := rfl
      exact .go hallow (hstep hstart) (.go hallow (hstep hfind) (.go hallow (hstep hleave) hrest))
  | none =>
    let l := (p.setRegistry (some i)).locks.emplace t
    let p₁ : Process := { p.setRegistry (some i) with locks := l.2 }
    refine ⟨l.1, p₁.setRegistry none, ?_, ?_, LockManager.emplace_self _ _, fun hrest => ?_⟩
    · exact ⟨rfl, h.pool, h.sleeping, h.woken, h.popped⟩
    · exact server_emplace (p.setRegistry (some i)) t
    · have hmiss : (p.setRegistry (some i)).getOrCreate i t .registry =
          some (.missing, p.setRegistry (some i)) := by
        simp [getOrCreate, setRegistry, ht]
      have hmake : (p.setRegistry (some i)).getOrCreate i t .missing = some (.found l.1, p₁) := rfl
      have hleave : p₁.getOrCreate i t (.found l.1) =
          some (.outside l.1, p₁.setRegistry none) := rfl
      exact .go hallow (hstep hstart) (.go hallow (hstep hmiss) (.go hallow (hstep hmake)
        (.go hallow (hstep hleave) hrest)))

/-- An action that is carried out to the end from a state where nobody has a mutex. -/
def Carries (pg : Postgres) (policy : Policy) (i : ℕ) (q : Request) (a : Act) (r : a.Result)
    (p : Process) (s : Server) : Prop :=
  ∃ u, (process pg policy).Alone i q a r u .start p ∧ u.toServer = s ∧ u.Vacant

theorem carries_lockShared {x : SharedMutex} (ho : policy.allows q (.lockShared t) o = true)
    (h : p.Vacant) (hx : (p.toServer.tableLocks t).lockShared i = some x) :
    Carries pg policy i q (.lockShared t) () p (p.toServer.setLock t x) := by
  obtain ⟨m, p', hp', hserver, ht, hgo⟩ := @alone_getOrCreate pg policy o i q _ t p ho rfl h
  have hm : (p'.locks.mutex m).lockShared i = some x := by
    rw [← server_tableLocks ht, hserver]
    exact hx
  refine ⟨p'.setMutex m x, hgo (.answer (o := ⟨o, 0⟩) ho ?_), ?_, hp'.setMutex m x⟩
  · simp [process, step, acquireShared, acquireWith, hm]
  · rw [server_setMutex ht, hserver]

theorem carries_lockExclusive {x : SharedMutex} (ho : policy.allows q (.lockExclusive t) o = true)
    (h : p.Vacant) (hx : (p.toServer.tableLocks t).lock i = some x) :
    Carries pg policy i q (.lockExclusive t) () p (p.toServer.setLock t x) := by
  obtain ⟨m, p', hp', hserver, ht, hgo⟩ := @alone_getOrCreate pg policy o i q _ t p ho rfl h
  have hm : (p'.locks.mutex m).lock i = some x := by
    rw [← server_tableLocks ht, hserver]
    exact hx
  refine ⟨p'.setMutex m x, hgo (.answer (o := ⟨o, 0⟩) ho ?_), ?_, hp'.setMutex m x⟩
  · simp [process, step, acquireExclusive, acquireWith, hm]
  · rw [server_setMutex ht, hserver]

/-- Both ways to give a lock back. -/
theorem alone_releaseWith (unlock : SharedMutex → SharedMutex) {r : a.Result} {m : ℕ}
    (ho : policy.allows q a o = true) (h : p.Vacant) (ht : p.locks.tableLocks t = some m)
    (hstep : ∀ {pc : Pc} {y : Pc ⊕ Unit} {p p' : Process}, p.releaseWith unlock i t pc = some (y, p') →
      (process pg policy).step ⟨o, 0⟩ i a pc p = some (y.map id fun _ => r, p')) :
    ∃ u, (process pg policy).Alone i q a r u .start p ∧
      u.toServer = p.toServer.setLock t (unlock (p.toServer.tableLocks t)) ∧ u.Vacant := by
  have hallow : (process pg policy).allows q a ⟨o, 0⟩ = true := ho
  have hstart : p.releaseWith unlock i t .start = some (.inl .registry, p.setRegistry (some i)) := by
    simp [releaseWith, lockRegistry, h.registry]
  have hfind : (p.setRegistry (some i)).releaseWith unlock i t .registry =
      some (.inl (.found m), p.setRegistry (some i)) := by
    simp [releaseWith, setRegistry, ht]
  let u := (p.setRegistry (some i)).setMutex m (unlock (p.locks.mutex m))
  have hunlock : (p.setRegistry (some i)).releaseWith unlock i t (.found m) =
      some (.inl .unlocked, u) := rfl
  have hleave : u.releaseWith unlock i t .unlocked = some (.inr (), u.setRegistry none) := rfl
  refine ⟨u.setRegistry none, ?_, ?_, ⟨rfl, h.pool, h.sleeping, h.woken, h.popped⟩⟩
  · exact .go hallow (hstep hstart) (.go hallow (hstep hfind) (.go hallow (hstep hunlock)
      (.answer hallow (hstep hleave))))
  · rw [server_tableLocks ht]
    exact server_setMutex (p := p.setRegistry (some i)) ht _

theorem carries_unlockShared (ho : policy.allows q (.unlockShared t) o = true) (h : p.Vacant)
    (ht : p.locks.tableLocks t ≠ none) : Carries pg policy i q (.unlockShared t) () p
      (p.toServer.setLock t ((p.toServer.tableLocks t).unlockShared i)) := by
  obtain ⟨m, ht⟩ := Option.ne_none_iff_exists'.mp ht
  refine alone_releaseWith (fun m => m.unlockShared i) ho h ht fun {pc y p p'} hx => ?_
  show p.releaseWith (fun m => m.unlockShared i) i t pc = _
  rw [hx]
  cases y <;> rfl

theorem carries_unlockExclusive (ho : policy.allows q (.unlockExclusive t) o = true) (h : p.Vacant)
    (ht : p.locks.tableLocks t ≠ none) : Carries pg policy i q (.unlockExclusive t) () p
      (p.toServer.setLock t (p.toServer.tableLocks t).unlock) := by
  obtain ⟨m, ht⟩ := Option.ne_none_iff_exists'.mp ht
  refine alone_releaseWith SharedMutex.unlock ho h ht fun {pc y p p'} hx => ?_
  show p.releaseWith SharedMutex.unlock i t pc = _
  rw [hx]
  cases y <;> rfl

/-- The process once the thread `i` has popped `c`. -/
def afterPop (p : Process) (i : ℕ) (c : Conn) (rest : List Conn) : Process :=
  { p with pool := { p.pool with mutex := some i, queue := rest, popped := some c } }

theorem alone_pop {r : Option Conn} {rest : List Conn} {u : Process}
    (ho : policy.allows q .acquire o = true) (h : p.Vacant) (hq : p.pool.queue = c :: rest)
    (hrest : (process pg policy).Alone i q .acquire r u (.popped c) (p.afterPop i c rest)) :
    (process pg policy).Alone i q .acquire r u .start p := by
  have hallow : (process pg policy).allows q .acquire ⟨o, 0⟩ = true := ho
  have hstart : p.acquire o i .start = some (.inl .pool, p.setPool (some i)) := by
    simp [acquire, lockPool, h.pool]
  have hcheck : (p.setPool (some i)).acquire o i .pool =
      some (.inl .ready, p.setPool (some i)) := by
    simp [acquire, setPool, hq]
  have htake : (p.setPool (some i)).acquire o i .ready =
      some (.inl (.popped c), p.afterPop i c rest) := by
    simp [acquire, setPool, afterPop, hq]
  exact .go hallow hstart (.go hallow hcheck (.go hallow htake hrest))

/-- A connection is popped, looked at and handed out, or given up. -/
theorem carries_acquire {r : Option Conn} (ho : policy.allows q .acquire o = true) (h : p.Vacant)
    (hx : Server.Acquired p.toServer i o r s) : Carries pg policy i q .acquire r p s := by
  have hallow : (process pg policy).allows q .acquire ⟨o, 0⟩ = true := ho
  have hqueue : p.toServer.availableConnections = p.pool.queue := by
    show p.pool.popped.toList ++ p.pool.queue = _
    rw [h.popped]
    rfl
  have hvacant : ∀ {u : Process}, u.locks = p.locks → u.pool.sleeping = p.pool.sleeping →
      u.pool.woken = p.pool.woken → u.pool.popped = none → (u.setPool none).Vacant :=
    fun hl hs hw hp => ⟨hl ▸ h.registry, rfl, hs.trans h.sleeping, hw.trans h.woken, hp⟩
  cases hx with
  | @valid c rest hq hok hb =>
    rw [hqueue] at hq
    let u := (p.afterPop i c rest).handOut i c p.backend
    have hvalid : (p.afterPop i c rest).acquire o i (.popped c) =
        some (.inl (.taken (some c)), u) := by
      subst hok
      have hb' : (p.afterPop i c rest).backend.session c ≠ .broken := hb
      cases hσ : (p.afterPop i c rest).backend.session c with
      | broken => exact absurd hσ hb'
      | _ =>
        simp only [acquire, hσ]
        rfl
    exact ⟨u.setPool none, alone_pop ho h hq (.go hallow hvalid (.answer hallow rfl)), rfl,
      hvacant rfl rfl rfl rfl⟩
  | @reset c rest hq hr hb =>
    rw [hqueue] at hq
    let u := (p.afterPop i c rest).handOut i c (p.backend.setSession c .idle)
    have hσ : (p.afterPop i c rest).backend.session c = .broken := hb
    have hreset : (p.afterPop i c rest).acquire o i (.popped c) =
        some (.inl (.taken (some c)), u) := by
      simp only [acquire, hσ, hr, if_true]
      rfl
    exact ⟨u.setPool none, alone_pop ho h hq (.go hallow hreset (.answer hallow rfl)), rfl,
      hvacant rfl rfl rfl rfl⟩
  | @replaced c rest hq hr hb =>
    rw [hqueue] at hq
    let u := (p.afterPop i c rest).handOut i p.backend.opened
      ({ p.backend with opened := p.backend.opened + 1 }.setSession p.backend.opened .idle)
    have hσ : (p.afterPop i c rest).backend.session c = .broken := hb
    have hfail : (p.afterPop i c rest).acquire o i (.popped c) =
        some (.inl (.invalid c), p.afterPop i c rest) := by
      simp [acquire, hσ, hr]
    have hreplace : (p.afterPop i c rest).acquire o i (.invalid c) =
        some (.inl (.taken (some p.backend.opened)), u) := by
      simp only [acquire, hr, if_true]
      rfl
    exact ⟨u.setPool none, alone_pop ho h hq (.go hallow hfail (.go hallow hreplace
      (.answer hallow rfl))), rfl, hvacant rfl rfl rfl rfl⟩
  | @refused c rest hq hr hb =>
    rw [hqueue] at hq
    let u : Process := { p.afterPop i c rest with
      pool := { (p.afterPop i c rest).pool with popped := none } }
    have hσ : (p.afterPop i c rest).backend.session c = .broken := hb
    have hfail : (p.afterPop i c rest).acquire o i (.popped c) =
        some (.inl (.invalid c), p.afterPop i c rest) := by
      simp [acquire, hσ, hr]
    have hrefuse : (p.afterPop i c rest).acquire o i (.invalid c) =
        some (.inl (.taken none), u) := by
      simp [acquire, hr, u]
    exact ⟨u.setPool none, alone_pop ho h hq (.go hallow hfail (.go hallow hrefuse
      (.answer hallow rfl))), rfl, hvacant rfl rfl rfl rfl⟩

theorem carries_release (ho : policy.allows q (.release c) o = true) (h : p.Vacant) :
    Carries pg policy i q (.release c) () p (p.toServer.release c) := by
  have hallow : (process pg policy).allows q (.release c) ⟨o, 0⟩ = true := ho
  have hstart : p.release 0 i c .start = some (.inl .pushing, p.setPool (some i)) := by
    simp [release, lockPool, h.pool]
  let u : Process := { p.setPool (some i) with
    pool := { (p.setPool (some i)).pool with queue := p.pool.queue ++ [c] }
    holder := Function.update p.holder c none }
  have hpush : (p.setPool (some i)).release 0 i c .pushing = some (.inl .pushed, u) := rfl
  have hnotify : u.release 0 i c .pushed = some (.inl .notified, u) := by
    have hs : u.pool.sleeping = ∅ := h.sleeping
    simp [release, hs]
  refine ⟨u.setPool none, .go hallow hstart (.go hallow hpush (.go hallow hnotify
    (.answer hallow rfl))), ?_, ⟨h.registry, rfl, h.sleeping, h.woken, h.popped⟩⟩
  show ({ p.toServer with
      availableConnections := p.pool.popped.toList ++ (p.pool.queue ++ [c])
      holder := Function.update p.holder c none } : Server) = _
  rw [← List.append_assoc]
  rfl

/-- What the server does in one step, the process does from a state where nobody has a mutex. -/
theorem Vacant.carries {r : a.Result} (h : p.Vacant) (hk : Known i a p.toServer)
    (hx : (server pg policy).Exec i q a p.toServer r s) : Carries pg policy i q a r p s := by
  obtain ⟨o, ho, hx⟩ := hx
  change Server.perform pg o i a p.toServer = some (r, s) at hx
  have hplain : a.Plain → Carries pg policy i q a r p s := by
    intro ha
    refine ⟨p.withMemory s, .answer (o := ⟨o, 0⟩) ho ?_, toServer_withMemory (o := ⟨o, 0⟩) ha hx,
      ⟨h.registry, h.pool, h.sleeping, h.woken, h.popped⟩⟩
    show step pg ⟨o, 0⟩ i a .start p = _
    rw [step_start_of_plain ha, hx]
    rfl
  cases Server.perform_cases hx with
  | lockShared hm => exact carries_lockShared ho h hm
  | lockExclusive hm => exact carries_lockExclusive ho h hm
  | unlockShared t => exact carries_unlockShared ho h (hk.registered rfl)
  | unlockExclusive t => exact carries_unlockExclusive ho h (hk.registered rfl)
  | acquire ha => exact carries_acquire ho h ha
  | release conn => exact carries_release ho h
  | _ => exact hplain trivial

/-- The clocks of the process drift as those of the server. -/
theorem Vacant.drifts (h : p.Vacant) (hd : (server pg policy).drifts p.toServer s) :
    ∃ p', (process pg policy).drifts p p' ∧ p'.toServer = s ∧ p'.Vacant := by
  obtain ⟨steady, clock, hs, hc, rfl⟩ := hd
  exact ⟨_, .clocks hs hc, rfl, ⟨h.registry, h.pool, h.sleeping, h.woken, h.popped⟩⟩

/-- The process can do whatever the server can do. -/
def realises (pg : Postgres) (policy : Policy) :
    Realises (process pg policy) (IceLog.server pg policy) where
  abs := toServer
  rest := Vacant
  pre i _ a s := Known i a s
  code := process_code pg policy
  admits := process_admits pg policy
  act h hk hx := h.carries hk hx
  drift h hd := h.drifts hd

end Process
end IceLog
