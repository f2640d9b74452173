import Mathlib.Data.Finset.Card
import IceLog.Properties.Processes

/-! Requests that have stopped keep nothing: where all of them have, every mutex and every table lock
is free, and every connection is in the pool again, outside a transaction. -/
namespace IceLog

open Interleaved Process

variable {pg : Postgres} {policy : Policy} {c c' : ServerConfig} {d : ProcessConfig} {p : Process}
  {db : Db} {s s' : Server} {i : ℕ} {a : Act} {r : a.Result} {o : Outcome} {conn : Conn}

/-! The number of connections. -/

namespace Server

/-- The connections that some thread has. -/
def lent (s : Server) : Finset Conn :=
  (Finset.range s.backend.opened).filter fun conn => s.holder conn ≠ none

/-- The number of connections that are in the pool or in use. -/
def connections (s : Server) : ℕ := s.availableConnections.length + s.lent.card

theorem mem_lent : conn ∈ s.lent ↔ conn < s.backend.opened ∧ s.holder conn ≠ none := by
  simp [lent]

/-- A connection that nobody has is handed out. -/
theorem card_lent_hand (hc : s.holder conn = none) (hlt : conn < s'.backend.opened)
    (hopened : ∀ x, x ≠ conn → (x < s'.backend.opened ↔ x < s.backend.opened))
    (hholder : s'.holder = Function.update s.holder conn (some i)) :
    s'.lent.card = s.lent.card + 1 := by
  have hnot : conn ∉ s.lent := fun h => (mem_lent.mp h).2 hc
  have heq : s'.lent = insert conn s.lent := by
    ext x
    rw [Finset.mem_insert, mem_lent, mem_lent, hholder]
    by_cases hx : x = conn
    · subst hx
      simp [hlt]
    · rw [Function.update_of_ne hx, hopened x hx]
      simp [hx]
  rw [heq, Finset.card_insert_of_notMem hnot]

theorem connections_release (hc : s.holder conn = some i) (hlt : conn < s.backend.opened) :
    (s.release conn).connections = s.connections := by
  have hmem : conn ∈ s.lent := mem_lent.mpr ⟨hlt, by simp [hc]⟩
  have heq : (s.release conn).lent = s.lent.erase conn := by
    ext x
    rw [Finset.mem_erase, mem_lent, mem_lent]
    show x < s.backend.opened ∧ Function.update s.holder conn none x ≠ none ↔ _
    by_cases hx : x = conn
    · subst hx
      simp
    · rw [Function.update_of_ne hx]
      simp [hx]
  have hcard := Finset.card_erase_add_one hmem
  have hlen : (s.release conn).availableConnections.length = s.availableConnections.length + 1 := by
    simp [release]
  unfold connections
  rw [heq, hlen]
  omega

theorem connections_congr (hq : s'.availableConnections = s.availableConnections)
    (hh : s'.holder = s.holder) (ho : s'.backend.opened = s.backend.opened) :
    s'.connections = s.connections := by
  unfold connections lent
  rw [hq, hh, ho]

/-- A connection that is handed out leaves the pool; one that is given up is in neither place. -/
theorem Acquired.connections {x : Option Conn} (h : Acquired s i o x s') (hs : s.Sound) :
    s'.connections ≤ s.connections ∧
      ((∀ conn, o ≠ .refused conn) → s'.connections = s.connections) := by
  have hand : ∀ {rest : List Conn} {conn₀ : Conn}, s.availableConnections = conn₀ :: rest →
      s'.availableConnections = rest → s'.lent.card = s.lent.card + 1 →
      s'.connections = s.connections := by
    intro rest conn₀ hq hq' hcard
    have hlen := congrArg List.length hq
    rw [List.length_cons] at hlen
    unfold Server.connections
    rw [hq', hcard]
    omega
  cases h with
  | @valid conn₀ rest hq | @reset conn₀ rest hq =>
    obtain ⟨hfree, hlt⟩ := hs.pooled conn₀ (hq ▸ List.mem_cons_self)
    have heq := hand hq rfl (card_lent_hand hfree hlt (fun _ _ => .rfl) rfl)
    exact ⟨heq.le, fun _ => heq⟩
  | @replaced conn₀ rest hq =>
    have hopened : ∀ x : Conn, x ≠ s.backend.opened →
        (x < s.backend.opened + 1 ↔ x < s.backend.opened) := fun x hx =>
      ⟨fun h => Nat.lt_of_le_of_ne (Nat.lt_succ_iff.mp h) hx, Nat.lt_succ_of_lt⟩
    have heq := hand hq rfl (card_lent_hand hs.held_opened (Nat.lt_succ_self _) hopened rfl)
    exact ⟨heq.le, fun _ => heq⟩
  | @refused conn₀ rest hq ho =>
    refine ⟨?_, fun hno => absurd ho (hno conn₀)⟩
    have hlen := congrArg List.length hq
    rw [List.length_cons] at hlen
    show rest.length + s.lent.card ≤ s.availableConnections.length + s.lent.card
    omega

/-- No action makes connections, and only a failed `acquire` gives one up. -/
theorem perform_connections (hs : s.Sound) (hrel : ∀ conn, a = .release conn → s.holder conn = some i)
    (h : perform pg o i a s = some (r, s')) : s'.connections ≤ s.connections ∧
      ((a = .acquire → ∀ conn, o ≠ .refused conn) → s'.connections = s.connections) := by
  have same : ∀ {b : Act} {s'' : Server}, s''.connections = s.connections →
      s''.connections ≤ s.connections ∧
        ((b = .acquire → ∀ conn, o ≠ .refused conn) → s''.connections = s.connections) :=
    fun heq => ⟨heq.le, fun _ => heq⟩
  cases perform_cases h with
  | acquire hacq =>
    obtain ⟨hle, heq⟩ := hacq.connections hs
    exact ⟨hle, fun hno => heq (hno rfl)⟩
  | release conn =>
    have hc := hrel conn rfl
    exact same (connections_release hc (hs.held conn i hc))
  | exec _ hx =>
    refine same (connections_congr rfl rfl ?_)
    cases Backend.exec_cases hx with
    | moved hq => exact hq.opened
    | committed => rfl
  | execParams _ hx =>
    refine same (connections_congr rfl rfl ?_)
    cases Backend.execParams_cases hx with
    | failed _ hq => exact hq.opened
    | committed | added => rfl
  | _ => exact same (connections_congr rfl rfl rfl)

end Server

/-- A connection that is lost can be replaced. -/
def Policy.Reconnects (policy : Policy) : Prop :=
  ∀ q conn, policy.allows q .acquire (.refused conn) = false

/-- The pool and the threads have never more connections than at first, and as many if every lost
one can be replaced. -/
theorem Reachable.connections (h : Reachable pg policy c) (hr : Run (server pg policy) c c') :
    c'.state.connections ≤ c.state.connections ∧
      (policy.Reconnects → c'.state.connections = c.state.connections) := by
  induction hr with
  | refl => exact ⟨le_rfl, fun _ => rfl⟩
  | @step d e c' hr hs ih =>
    obtain ⟨hle, heq⟩ := ih
    have hd := h.run hr
    cases hs with
    | call => exact ⟨hle, heq⟩
    | @act i q a k r s hi hx =>
      obtain ⟨o, ho, hx⟩ := hx
      obtain ⟨hle', heq'⟩ := Server.perform_connections hd.inv.sound (fun conn ha => by
        subst ha
        exact (hd.needs hi).1) hx
      refine ⟨hle'.trans hle, fun hrec => (heq' fun ha conn hconn => ?_).trans (heq hrec)⟩
      subst ha
      subst hconn
      cases (hrec q conn).symm.trans ho
    | drift hd =>
      obtain ⟨_, _, -, -, rfl⟩ := hd
      exact ⟨hle, heq⟩

/-! All requests have stopped. -/

/-- A process in which nobody has anything. -/
structure Process.Vacated (p : Process) : Prop where
  registry : p.locks.registryMutex = none
  locks : ∀ t m, p.locks.tableLocks t = some m → p.locks.mutex m = {}
  pool : p.pool.mutex = none ∧ p.pool.popped = none
  waiting : p.pool.sleeping = ∅ ∧ p.pool.woken = ∅
  holder : ∀ conn, p.holder conn = none
  closed : ∀ conn, (p.backend.session conn).Closed

/-- A server whose threads have stopped. -/
theorem Reachable.holds_nothing (h : Reachable pg policy c)
    (hf : ∀ i th, c.thread i = some th → th.code.Finished) :
    (∀ t, c.state.tableLocks t = {}) ∧ (∀ conn, c.state.holder conn = none) ∧
      (policy.Clean → ∀ j q t, ¬ Owes c.world j q t) := by
  have hown : ∀ i, ∃ q, Own policy i q {} [] c.world := fun i => h.own_of_stopped (hf i)
  refine ⟨fun t => ?_, fun conn => ?_, fun hc j q t ho => ?_⟩
  · have hwriter : (c.state.tableLocks t).writer = none := by
      rw [Option.eq_none_iff_forall_ne_some]
      intro i hi
      obtain ⟨q, ho⟩ := hown i
      cases (ho.holds.writer t).mp hi
    have hreaders : (c.state.tableLocks t).readers = ∅ := by
      rw [Finset.eq_empty_iff_forall_notMem]
      intro i hi
      obtain ⟨q, ho⟩ := hown i
      cases (ho.holds.reader t).mp hi
    cases hl : c.state.tableLocks t with
    | mk writer readers =>
      rw [hl] at hwriter hreaders
      cases hwriter
      cases hreaders
      rfl
  · rw [Option.eq_none_iff_forall_ne_some]
    intro i hi
    obtain ⟨q, ho⟩ := hown i
    cases (ho.holds.holder conn).mp hi
  · obtain ⟨q', hown⟩ := hown j
    cases (hown.debts hc q t ho).2

/-- All requests that have been called have returned or thrown. -/
def Stopped (d : ProcessConfig) : Prop := ∀ i th, d.thread i = some th → th.code.Finished

theorem Embodies.finished (h : Embodies pg policy d c) (hf : Stopped d) :
    ∀ i th, c.thread i = some th → th.code.Finished := by
  rintro i ⟨q, code⟩ hi
  cases code with
  | act a k =>
    obtain ⟨a', k', pc, hd⟩ := h.running ⟨a, k, hi⟩
    exact absurd (hf i _ hd) Prog.finished_act
  | ret | throw => trivial

theorem Embodies.vacated (hm : Embodies pg policy d c) (h : Reachable pg policy c)
    (hd : Stopped d) : d.state.Vacated := by
  have hidle : ∀ i, Idle i d.state := fun i => Implements.Matches.idle hm fun q a k pc hi =>
    absurd (hd i _ hi) Prog.finished_act
  have hregistry : d.state.locks.registryMutex = none := by
    rw [Option.eq_none_iff_forall_ne_some]
    exact fun i hi => (hidle i).registry.mp hi
  have hpool : d.state.pool.mutex = none := by
    rw [Option.eq_none_iff_forall_ne_some]
    exact fun i hi => (hidle i).pool.mp hi
  obtain ⟨hlocks, hholder, -⟩ := h.holds_nothing (hm.finished hd)
  have hs : c.state.Sound := h.inv.sound
  rw [hm.state_eq] at hlocks hholder hs
  refine ⟨hregistry, fun t m ht => ?_, ⟨hpool, (hm.inv.free hpool).1⟩, ⟨?_, ?_⟩, hholder,
    fun conn => hs.closed conn (hholder conn)⟩
  · rw [← server_tableLocks ht]
    exact hlocks t
  · rw [Finset.eq_empty_iff_forall_notMem]
    exact fun i hi => (hidle i).waiting.mp (.inl hi)
  · rw [Finset.eq_empty_iff_forall_notMem]
    exact fun i hi => (hidle i).waiting.mp (.inr hi)

theorem Process.Vacated.connections (h : p.Vacated) :
    p.toServer.connections = p.pool.queue.length := by
  have hlent : p.toServer.lent = ∅ := by
    rw [Finset.eq_empty_iff_forall_notMem]
    exact fun conn hc => (Server.mem_lent.mp hc).2 (h.holder conn)
  have hqueue : p.toServer.availableConnections = p.pool.queue := by
    show p.pool.popped.toList ++ p.pool.queue = _
    rw [h.pool.2]
    rfl
  rw [Server.connections, hlent, hqueue, Finset.card_empty, Nat.add_zero]

variable {d' : ProcessConfig}

/-- Requests that have stopped keep nothing. Where all have, each mutex and each lock is free,
nobody waits, and no connection is in use or in a transaction; as many are in the pool as earlier,
but for those that were lost and could not be replaced; and what the cache holds is what the
database answers. -/
theorem nothing_is_kept (h : ProcessReachable pg policy d) (hd : Stopped d)
    (hr : (process pg policy).Run d d') (hd' : Stopped d') :
    d'.state.Vacated ∧ d'.state.pool.queue.length ≤ d.state.pool.queue.length ∧
      (policy.Reconnects → d'.state.pool.queue.length = d.state.pool.queue.length) ∧
      (policy.Clean → ∀ t n rows,
        (PartitionRegistry.makeCacheKey t n, rows) ∈ d'.state.cache.entries →
          d'.state.backend.db.queryPartitions t n = some rows) := by
  obtain ⟨c, hc, hm⟩ := h.embodies
  obtain ⟨c', hcc, hm'⟩ : ∃ c', Run (server pg policy) c c' ∧ Embodies pg policy d' c' :=
    hm.run (fun c' hr i q a k hi => (hc.run hr).known hi) hr
  have hc' := hc.run hcc
  have hv := hm.vacated hc hd
  have hv' := hm'.vacated hc' hd'
  obtain ⟨hle, heq⟩ := hc.connections hcc
  rw [hm.state_eq, hm'.state_eq, hv.connections, hv'.connections] at hle heq
  refine ⟨hv', hle, heq, fun hclean t n rows hm => ?_⟩
  obtain ⟨-, -, howes⟩ := hc'.holds_nothing (hm'.finished hd')
  have hstate := hm'.state_eq
  rcases hc'.inv.coherent hclean t n rows (show _ ∈ c'.state.cache.entries by rwa [hstate]) with
    hq | ⟨j, q, ho⟩
  · have hq : c'.state.db.queryPartitions t n = some rows := hq
    rw [hstate] at hq
    exact hq
  · exact absurd ho (howes hclean j q t)

theorem finished_of_reply {th : Machine.Thread Act Act.Result Request Reply Pc}
    (h : (d.reply i).isSome = true) (hi : d.thread i = some th) : th.code.Finished := by
  obtain ⟨⟨q, x⟩, hx⟩ := Option.isSome_iff_exists.mp h
  obtain ⟨pc, hx⟩ := Machine.Config.returned_of_reply hx
  cases hi.symm.trans hx
  trivial

/-- A table is created; then one request sleeps until another gives back the only connection, and
finds in the cache what that one has put there. -/
theorem nothing_is_kept_shared : ∃ d : ProcessConfig, (d.reply 1).isSome = true ∧
    (d.reply 2).isSome = true ∧ d.state.Vacated ∧ d.state.pool.queue.length = 1 ∧
      d.state.cache.entries.length = 1 ∧
      ∀ t n rows, (PartitionRegistry.makeCacheKey t n, rows) ∈ d.state.cache.entries →
        d.state.backend.db.queryPartitions t n = some rows := by
  let steps (i n : ℕ) : List (Move Request Choice) := List.replicate n (.step i ⟨.ok, 2⟩)
  let ms : List (Move Request Choice) :=
    .call 0 (.createTable "t" "\x7b\x7d" "" []) :: steps 0 19 ++
      .call 1 (.partitions "t" 0) :: steps 1 22 ++ .call 2 (.partitions "t" 0) :: steps 2 7 ++
        steps 1 10 ++ steps 2 15
  let answered (d : ProcessConfig) : Bool :=
    (d.reply 0).isSome ∧ (d.reply 1).isSome ∧ (d.reply 2).isSome ∧ d.state.cache.entries.length = 1
  let policy : Policy := .reconnecting Policy.clean.admits
  have hclean : policy.Clean := Policy.clean_clean
  have hcheck : (((process .plain policy).moves (.initial (freshProcess (List.range 1))) ms).map
      answered) = some true := by decide +kernel
  obtain ⟨d, hd, hf⟩ := Option.map_eq_some_iff.mp hcheck
  simp only [answered, decide_eq_true_eq] at hf
  obtain ⟨h₀, h₁, h₂, hcache⟩ := hf
  have hwithin : d.Within 3 := by
    refine Machine.Config.Within.moves (fun _ _ => rfl) (fun i q hm => ?_) hd
    simp only [ms, steps, List.cons_append, List.append_assoc, List.mem_cons, List.mem_append,
      List.mem_replicate, Move.call.injEq, reduceCtorEq, and_false, false_or, or_false] at hm
    omega
  have hstopped : Stopped d := by
    intro i th hi
    have hlt := hwithin.lt hi
    obtain rfl | rfl | rfl : i = 0 ∨ i = 1 ∨ i = 2 := by omega
    · exact finished_of_reply h₀ hi
    · exact finished_of_reply h₁ hi
    · exact finished_of_reply h₂ hi
  have hnobody : Stopped (.initial (freshProcess (List.range 1))) := by
    intro i th hi
    cases hi
  obtain ⟨hv, -, hlen, hcoherent⟩ := nothing_is_kept (.start (launched_fresh 1)) hnobody
    (Machine.run_of_moves hd) hstopped
  exact ⟨d, h₁, h₂, hv, hlen fun _ _ => rfl, hcache, hcoherent hclean⟩

end IceLog
