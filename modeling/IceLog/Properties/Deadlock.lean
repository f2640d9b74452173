import IceLog.Data.Pointers
import IceLog.Server.Settling

/-! Threads that wait for each other: only renamings take a second lock, in the order in which the
client names the tables. -/
namespace IceLog

open Interleaved

variable {pg : Postgres} {policy : Policy} {c : ServerConfig} {i j : ℕ} {q : Request} {a : Act}
  {s : Server} {t : String}

/-- The action waits for a table lock or for a connection. -/
def Act.Waits (i : ℕ) (s : Server) : Act → Prop
  | .lockShared t => (s.tableLocks t).lockShared i = none
  | .lockExclusive t => (s.tableLocks t).lock i = none
  | .acquire => s.availableConnections = []
  | _ => False

/-- There is a connection, in the pool or with a thread. -/
def Server.Stocked (s : Server) : Prop :=
  s.availableConnections ≠ [] ∨ ∃ conn i, s.holder conn = some i

/-- Some requests have not returned, and each of them waits. -/
structure Stuck (c : ServerConfig) : Prop where
  running : ∃ i q, c.Running i q
  waits : ∀ i q a k, c.thread i = some ⟨q, .act a k⟩ → a.Waits i c.state

/-- A table is being renamed from `o` to `n`. -/
def Renaming (c : ServerConfig) (o n : String) : Prop :=
  ∃ i, c.Running i (.alterTable o (.rename n))

/-- An action that does not wait can be performed, if the cache has room for what is put into it. -/
theorem exists_perform (pg : Postgres) (hw : ¬ a.Waits i s)
    (hroom : ∀ key rows, a = .cachePut key rows → 1 ≤ s.cache.capacity) :
    ∃ o r s', Server.perform pg o i a s = some (r, s') := by
  cases a with
  | lockShared t | lockExclusive t =>
    obtain ⟨m, hm⟩ := Option.ne_none_iff_exists'.mp hw
    exact ⟨.ok, (), _, by simp [Server.perform, hm]; rfl⟩
  | acquire =>
    obtain ⟨conn, rest, hpool⟩ := List.exists_cons_of_ne_nil hw
    have hsome : ∃ o, (s.acquire i o).isSome = true := by
      cases hσ : s.backend.session conn with
      | broken => exact ⟨.refused conn, by simp [Server.acquire, hpool, hσ]⟩
      | _ => exact ⟨.ok, by simp [Server.acquire, hpool, hσ]⟩
    obtain ⟨o, hsome⟩ := hsome
    obtain ⟨⟨r, s'⟩, h⟩ := Option.isSome_iff_exists.mp hsome
    exact ⟨o, r, s', h⟩
  | execParams conn sql =>
    have hsome : (s.backend.execParams conn pg sql (.fail false)).isSome = true := by
      cases hσ : s.backend.session conn <;> simp [Backend.execParams, hσ]
    obtain ⟨⟨r, b⟩, h⟩ := Option.isSome_iff_exists.mp hsome
    exact ⟨.answer (.fail false), r, _, by simp [Server.perform, h]; rfl⟩
  | cachePut key rows =>
    obtain ⟨d, hd, -⟩ := LRUCache.put_leads s.cache.wellFormed (hroom key rows rfl) key rows
    exact ⟨.ok, (), _, by simp [Server.perform, Cache.put_eq hd]; rfl⟩
  | commitTransaction txnId => exact ⟨.spurious 0, _, _, rfl⟩
  | _ => exact ⟨.ok, _, _, rfl⟩

/-- An action that waits cannot be performed. -/
theorem Act.Waits.perform {o : Outcome} (hw : a.Waits i s) : Server.perform pg o i a s = none := by
  cases a with
  | lockShared t | lockExclusive t =>
    change _ = none at hw
    simp [Server.perform, hw]
  | acquire =>
    change _ = _ at hw
    simp [Server.perform, Server.acquire, hw]
  | _ => exact hw.elim

/-! What the threads of a stuck server wait for. -/

theorem Reachable.held_of_stopped (h : Reachable pg policy c)
    (hf : ∀ th, c.thread i = some th → th.code.Finished) : Holds i {} c.state := by
  obtain ⟨q, ho⟩ := h.own_of_stopped hf
  exact ho.holds

/-- A thread has stopped, or it is about to act. -/
theorem stopped_or_acts (c : ServerConfig) (i : ℕ) :
    (∀ th, c.thread i = some th → th.code.Finished) ∨
      ∃ q a k, c.thread i = some ⟨q, .act a k⟩ := by
  cases hi : c.thread i with
  | none => exact .inl (by simp)
  | some th =>
    obtain ⟨q, code⟩ := th
    cases code with
    | ret | throw =>
      refine .inl fun th hth => ?_
      cases hth
      trivial
    | act a k => exact .inr ⟨q, a, k, rfl⟩

/-- Who waits has no connection. -/
theorem Reachable.unconnected {k : a.Result → Code Reply} (h : Reachable pg policy c)
    (hi : c.thread i = some ⟨q, .act a k⟩) (hw : a.Waits i c.state) (conn : Conn) :
    c.state.holder conn ≠ some i := by
  have hn := h.needs hi
  cases a with
  | acquire => exact hn conn
  | lockShared =>
    intro hc
    cases (hn.holder conn).mp hc
  | lockExclusive =>
    intro hc
    rcases hn with hn | ⟨_, -, hn⟩ <;> cases (hn.holder conn).mp hc
  | _ => exact hw.elim

/-- Who has a lock and waits for another one is renaming the table. -/
theorem Reachable.renaming {k : a.Result → Code Reply} (h : Reachable pg policy c)
    (hi : c.thread i = some ⟨q, .act a k⟩) (hw : a.Waits i c.state) (ha : a ≠ .acquire)
    (hl : c.state.Locks i t) : ∃ n, a = .lockExclusive n ∧ q = .alterTable t (.rename n) := by
  have hn := h.needs hi
  have hnone : ¬ Holds i {} c.state := by
    intro hh
    rcases hl with hl | hl
    · cases (hh.writer t).mp hl
    · cases (hh.reader t).mp hl
  cases a with
  | acquire => exact absurd rfl ha
  | lockShared => exact absurd hn hnone
  | lockExclusive n =>
    rcases hn with hn | ⟨o, rfl, hn⟩
    · exact absurd hn hnone
    · rcases hl with hl | hl
      · obtain rfl := List.mem_singleton.mp ((hn.writer t).mp hl)
        exact ⟨n, rfl, rfl⟩
      · cases (hn.reader t).mp hl
  | _ => exact hw.elim

/-- The lock that an action is about to take. -/
def Act.lockName : Act → Option String
  | .lockShared t | .lockExclusive t => some t
  | _ => none

def nextLock : Code Reply → Option String
  | .act a _ => a.lockName
  | _ => none

/-- The lock that the thread is about to take. -/
def ServerConfig.awaited (c : ServerConfig) (i : ℕ) : Option String :=
  (c.thread i).bind fun th => nextLock th.code

theorem awaited_eq {k : a.Result → Code Reply} (hi : c.thread i = some ⟨q, .act a k⟩) :
    c.awaited i = a.lockName := by
  simp [ServerConfig.awaited, hi, nextLock]

theorem running_of_awaited (h : c.awaited i = some t) :
    ∃ q a k, c.thread i = some ⟨q, .act a k⟩ ∧ a.lockName = some t := by
  obtain ⟨⟨q, code⟩, hi, hn⟩ := Option.bind_eq_some_iff.mp h
  cases code with
  | act a k => exact ⟨q, a, k, hi, hn⟩
  | _ => cases hn

/-- Somebody has the lock that is waited for. -/
theorem Act.Waits.locked (hw : a.Waits i s) (ha : a ≠ .acquire) :
    ∃ t j, a.lockName = some t ∧ s.Locks j t := by
  cases a with
  | acquire => exact absurd rfl ha
  | lockShared t =>
    change SharedMutex.lockShared _ _ = none at hw
    simp only [SharedMutex.lockShared, ite_eq_right_iff, reduceCtorEq, imp_false] at hw
    obtain ⟨j, hj⟩ := Option.ne_none_iff_exists'.mp hw
    exact ⟨t, j, rfl, .inl hj⟩
  | lockExclusive t =>
    change SharedMutex.lock _ _ = none at hw
    simp only [SharedMutex.lock, ite_eq_right_iff, reduceCtorEq, imp_false, not_and_or] at hw
    rcases hw with hw | hw
    · obtain ⟨j, hj⟩ := Option.ne_none_iff_exists'.mp hw
      exact ⟨t, j, rfl, .inl hj⟩
    · obtain ⟨j, hj⟩ := Finset.nonempty_iff_ne_empty.mpr hw
      exact ⟨t, j, rfl, .inr hj⟩
  | _ => exact hw.elim

namespace Stuck

theorem no_holder (hs : Stuck c) (h : Reachable pg policy c) (conn : Conn) (i : ℕ) :
    c.state.holder conn ≠ some i := by
  rcases stopped_or_acts c i with hf | ⟨q, a, k, hi⟩
  · intro hc
    cases ((h.held_of_stopped hf).holder conn).mp hc
  · exact h.unconnected hi (hs.waits i q a k hi) conn

/-- All wait for locks: no thread has a connection, so there is one in the pool. -/
theorem not_acquire {k : a.Result → Code Reply} (hs : Stuck c) (h : Reachable pg policy c)
    (hst : c.state.Stocked) (hi : c.thread i = some ⟨q, .act a k⟩) : a ≠ .acquire := by
  rintro rfl
  rcases hst with hpool | ⟨conn, j, hc⟩
  · exact hpool (hs.waits i q _ k hi)
  · exact hs.no_holder h conn j hc

/-- Each thread waits for the lock of a table that another one, or it itself, is renaming; and that
one waits for the lock of the new name. -/
theorem blocked {k : a.Result → Code Reply} (hs : Stuck c) (h : Reachable pg policy c)
    (hst : c.state.Stocked) (hi : c.thread i = some ⟨q, .act a k⟩) :
    ∃ t n j k', a.lockName = some t ∧
      c.thread j = some ⟨.alterTable t (.rename n), .act (.lockExclusive n) k'⟩ := by
  obtain ⟨t, j, ht, hl⟩ := (hs.waits i q a k hi).locked (hs.not_acquire h hst hi)
  rcases stopped_or_acts c j with hf | ⟨q', a', k', hj⟩
  · have hh := h.held_of_stopped hf
    rcases hl with hl | hl
    · cases (hh.writer t).mp hl
    · cases (hh.reader t).mp hl
  · obtain ⟨n, rfl, rfl⟩ := h.renaming hj (hs.waits j q' a' k' hj) (hs.not_acquire h hst hj) hl
    exact ⟨t, n, j, k', ht, hj⟩

/-- The renamings that are going on form a cycle. -/
theorem cycle (hs : Stuck c) (h : Reachable pg policy c) (hst : c.state.Stocked) :
    ∃ t, Relation.TransGen (Renaming c) t t := by
  obtain ⟨N, hN⟩ := h.free
  let names := ((List.range N).filterMap c.awaited).toFinset
  have hmem : ∀ i t, c.awaited i = some t → t ∈ names := by
    intro i t ht
    refine List.mem_toFinset.mpr (List.mem_filterMap.mpr ⟨i, List.mem_range.mpr ?_, ht⟩)
    by_contra hge
    obtain ⟨q, a, k, hi, -⟩ := running_of_awaited ht
    cases (hN i (by omega)).symm.trans hi
  obtain ⟨i, q, a, k, hi⟩ := hs.running
  obtain ⟨t, -, -, -, ht, -⟩ := hs.blocked h hst hi
  have hne : names.Nonempty := ⟨t, hmem i t ((awaited_eq hi).trans ht)⟩
  obtain ⟨t, -, hc⟩ := @Pointers.exists_cycle _ (Renaming c) _ hne fun t ht => by
    obtain ⟨i, -, hti⟩ := List.mem_filterMap.mp (List.mem_toFinset.mp ht)
    obtain ⟨q, a, k, hi, ht⟩ := running_of_awaited hti
    obtain ⟨t', n, j, k', ht', hj⟩ := hs.blocked h hst hi
    obtain rfl := Option.some.inj (ht.symm.trans ht')
    exact ⟨n, hmem j n (awaited_eq hj), j, _, k', hj⟩
  exact ⟨t, hc⟩

end Stuck

/-! Renamings that have the lock of the old name each, and wait for the lock of the new one. -/

/-- The policy that leaves all outcomes open. -/
def Policy.admitting (admits : Request → Bool) : Policy := ⟨admits, fun _ _ _ => true⟩

/-- Each table of the list is being renamed to `g` of its name, and nothing else goes on. -/
structure Interlocked (g : String → String) (l : List String) (c : ServerConfig) : Prop where
  pool : c.state.availableConnections ≠ []
  locked : ∀ t ∈ l, (c.state.tableLocks t).writer ≠ none
  unlocked : ∀ t, t ∉ l → c.state.tableLocks t = {}
  called : ∀ i, i < l.length → c.thread i ≠ none
  free : ∀ i, l.length ≤ i → c.thread i = none
  threads : ∀ i th, c.thread i = some th → ∃ t ∈ l, ∃ k,
    th = ⟨.alterTable t (.rename (g t)), .act (.lockExclusive (g t)) k⟩

theorem code_rename (o n : String) : ∃ k k', (server pg policy).code (.alterTable o (.rename n)) =
    .act (.lockExclusive o) k ∧ k () = .act (.lockExclusive n) k' := ⟨_, _, rfl, rfl⟩

/-- A new thread is called to rename a table, and takes the lock of its name. -/
theorem Reachable.lock_renamed {admits : Request → Bool} {o n : String}
    (h : Reachable pg (.admitting admits) c) (hi : c.thread i = none)
    (ha : admits (.alterTable o (.rename n)) = true) (hfree : c.state.tableLocks o = {}) :
    ∃ c' k, Reachable pg (.admitting admits) c' ∧
      c'.state = c.state.setLock o { writer := some i } ∧
      c'.thread = Function.update c.thread i
        (some ⟨.alterTable o (.rename n), .act (.lockExclusive n) k⟩) := by
  obtain ⟨k, k', hcode, hk⟩ := @code_rename pg (.admitting admits) o n
  have hcall := h.step (.call hi ha)
  rw [hcode] at hcall
  have hlock : (server pg (.admitting admits)).Exec i (.alterTable o (.rename n)) (.lockExclusive o)
      c.state () (c.state.setLock o { writer := some i }) := by
    refine ⟨.ok, rfl, ?_⟩
    show Option.map _ (SharedMutex.lock _ _) = _
    rw [hfree]
    rfl
  have hact := hcall.step (.act (Config.put_thread_self ..) hlock)
  rw [hk] at hact
  exact ⟨_, k', hact, rfl, Function.update_idem ..⟩

theorem exists_interlocked (pg : Postgres) {admits : Request → Bool} {g : String → String}
    {l : List String} (hl : l.Nodup)
    (ha : ∀ t ∈ l, admits (.alterTable t (.rename (g t))) = true) :
    ∃ c, Reachable pg (.admitting admits) c ∧ Interlocked g l c := by
  induction l with
  | nil =>
    refine ⟨_, .start (started_fresh .empty), ?_, by simp, fun _ _ => rfl, by simp, fun _ _ => rfl,
      by simp [Config.initial]⟩
    show [0, 1] ≠ []
    decide
  | cons t l ih =>
    obtain ⟨htl, hl⟩ := List.nodup_cons.mp hl
    obtain ⟨c, h, hc⟩ := ih hl fun u hu => ha u (List.mem_cons_of_mem _ hu)
    obtain ⟨c', k, h', hs, hth⟩ := h.lock_renamed (hc.free l.length (Nat.le_refl _))
      (ha t List.mem_cons_self) (hc.unlocked t htl)
    refine ⟨c', h', ?_, fun u hu => ?_, fun u hu => ?_, fun i hi => ?_, fun i hi => ?_,
      fun i th hi => ?_⟩
    · rw [hs]
      exact hc.pool
    · rw [hs]
      by_cases hut : u = t
      · subst hut
        rw [Server.setLock_self]
        exact Option.some_ne_none _
      · rw [Server.setLock_of_ne _ _ hut]
        exact hc.locked u (List.mem_of_ne_of_mem hut hu)
    · rw [hs]
      rw [List.mem_cons, not_or] at hu
      obtain ⟨hut, hul⟩ := hu
      rw [Server.setLock_of_ne _ _ hut]
      exact hc.unlocked u hul
    · rw [hth]
      by_cases hil : i = l.length
      · rw [hil, Function.update_self]
        exact Option.some_ne_none _
      · rw [Function.update_of_ne hil]
        exact hc.called i (by rw [List.length_cons] at hi; omega)
    · rw [List.length_cons] at hi
      rw [hth, Function.update_of_ne (by omega)]
      exact hc.free i (by omega)
    · rw [hth] at hi
      by_cases hil : i = l.length
      · rw [hil, Function.update_self] at hi
        cases hi
        exact ⟨t, List.mem_cons_self, k, rfl⟩
      · rw [Function.update_of_ne hil] at hi
        obtain ⟨u, hu, k', rfl⟩ := hc.threads i th hi
        exact ⟨u, List.mem_cons_of_mem _ hu, k', rfl⟩

/-- Where each new name is the old one of another renaming, none of them can go on. -/
theorem Interlocked.stuck {g : String → String} {l : List String} (hc : Interlocked g l c)
    (hl : l ≠ []) (hg : ∀ t ∈ l, g t ∈ l) : Stuck c where
  running := by
    obtain ⟨th, hth⟩ := Option.ne_none_iff_exists'.mp (hc.called 0 (List.length_pos_iff.mpr hl))
    obtain ⟨t, -, k, rfl⟩ := hc.threads 0 th hth
    exact ⟨0, _, _, k, hth⟩
  waits i q a k hi := by
    obtain ⟨t, ht, k', he⟩ := hc.threads i _ hi
    cases he
    exact if_neg fun hfree => hc.locked (g t) (hg t ht) hfree.1

/-- A server with requests to serve can go on as long as the renamings that it serves form no
cycle. -/
theorem Reachable.progress (h : Reachable pg policy c) (hst : c.state.Stocked)
    (hcap : 1 ≤ c.state.cache.capacity) (hrun : c.Running i q)
    (hno : ∀ t, ¬ Relation.TransGen (Renaming c) t t) :
    ∃ i q a k, c.thread i = some ⟨q, .act a k⟩ ∧
      ∃ o r s, Server.perform pg o i a c.state = some (r, s) := by
  by_contra hstuck
  push Not at hstuck
  have hs : Stuck c := by
    refine ⟨⟨i, q, hrun⟩, fun i q a k hi => ?_⟩
    by_contra hw
    obtain ⟨o, r, s, hp⟩ := exists_perform pg hw fun _ _ _ => hcap
    exact hstuck i q a k hi o r s hp
  obtain ⟨t, ht⟩ := hs.cycle h hst
  exact hno t ht

/-- The requests that clients may send never leave each other waiting for ever if and only if no
chain of the renamings among them leads from a name back to it. -/
theorem deadlock_free_iff (pg : Postgres) (admits : Request → Bool) :
    (∀ c, Reachable pg (.admitting admits) c → c.state.Stocked → ¬ Stuck c) ↔
      ∀ t, ¬ Relation.TransGen (fun o n => admits (.alterTable o (.rename n)) = true) t t := by
  constructor
  · intro h t ht
    obtain ⟨names, hne, hnames⟩ := Pointers.exists_closed ht
    choose! g hg hadmits using hnames
    obtain ⟨c, hc, hi⟩ := @exists_interlocked pg admits g names.toList names.nodup_toList
      fun u hu => hadmits u (Finset.mem_toList.mp hu)
    refine h c hc (.inl hi.pool) (hi.stuck ?_ fun u hu => ?_)
    · simpa using hne.ne_empty
    · exact Finset.mem_toList.mpr (hg u (Finset.mem_toList.mp hu))
  · intro h c hc hst hs
    obtain ⟨t, ht⟩ := hs.cycle hc hst
    refine h t (Relation.TransGen.mono (fun o n hr => ?_) t t ht)
    obtain ⟨i, a, k, hi⟩ := hr
    exact hc.admitted hi

/-- Two tables that exchange their names. -/
theorem deadlock : ¬ ∀ (pg : Postgres) (policy : Policy) (c : ServerConfig),
    Reachable pg policy c → c.state.Stocked → ¬ Stuck c := by
  intro h
  obtain ⟨c, hc, hi⟩ := @exists_interlocked .plain (fun _ => true)
    (fun t => if t = "a" then "b" else "a") ["a", "b"] (by decide) fun _ _ => rfl
  exact h _ _ c hc (.inl hi.pool) (hi.stuck (by decide) (by decide))

end IceLog
