import IceLog.Concurrency.Trace
import IceLog.Db.TransactionRows
import IceLog.Server.Actions
import IceLog.Server.Runs

/-! What the steps of a server do to the stored transactions. -/
namespace IceLog

open Interleaved Serial

variable {pg : Postgres} {policy : Policy} {c c' : ServerConfig} {e : ServerEvent} {i : ℕ}
  {q : Request} {a : Act} {o : Outcome} {s s' : Server} {r : a.Result} {db db' : Db}
  {v w : Moment}

/-- What an event makes of the rows of `transactions`. -/
inductive Stored (db : Db) (e : ServerEvent) (db' : Db) : Prop
  | kept : db'.transactions.row = db.transactions.row →
      (∀ i q conn status txnId r,
        e = .act i q (.execParams conn (.updateStatus status txnId)) r → r = .error) →
      Stored db e db'
  | inserted {i : ℕ} {q : Request} {conn : Conn} {clientId isolation : String} {n : ℕ}
      {r : PGresult ℕ} : e = .act i q (.execParams conn (.insertTransaction clientId n isolation)) r →
      db'.transactions.row = Function.update db.transactions.row db.transactions.next
        (some ⟨clientId, n, "active", isolation⟩) → Stored db e db'
  | updated {i : ℕ} {q : Request} {conn : Conn} {status : String} {txnId : ℕ}
      {r : PGresult Empty} : e = .act i q (.execParams conn (.updateStatus status txnId)) r →
      db'.transactions.row = db.withStatus status txnId → Stored db e db'

/-- What an action does to the database: it sends a command or a statement, or it leaves the rows
as they are and begins no transaction. -/
inductive Queried (pg : Postgres) (s : Server) : (a : Act) → a.Result → Server → Prop
  | exec {conn : Conn} {k : Command} {ans : Answer} {ok : Bool} {b : Backend} :
      s.backend.exec conn k ans = (ok, b) →
      Queried pg s (.exec conn k) ok { s with backend := b }
  | execParams {conn : Conn} {sql : Sql} {ans : Answer} {r : PGresult sql.Row} {b : Backend} :
      Backend.Executed pg s.backend conn sql ans r b →
      Queried pg s (.execParams conn sql) r { s with backend := b }
  | silent {a : Act} {r : a.Result} {s' : Server} : (∀ conn k, a ≠ .exec conn k) →
      (∀ conn sql, a ≠ .execParams conn sql) → s'.db = s.db →
      (∀ conn t p, s'.backend.session conn = .inTransaction t p →
        s.backend.session conn = .inTransaction t p) → Queried pg s a r s'

theorem perform_queried (h : Server.perform pg o i a s = some (r, s')) : Queried pg s a r s' := by
  have hidle : ∀ (b : Backend) c conn t p, (b.setSession c .idle).session conn =
      .inTransaction t p → b.session conn = .inTransaction t p := by
    intro b c conn t p hs
    by_cases hc : conn = c
    · subst hc
      rw [Backend.setSession_self] at hs
      cases hs
    · rwa [Backend.setSession_of_ne _ _ hc] at hs
  cases Server.perform_cases h with
  | exec _ hx => exact .exec hx
  | execParams _ hx => exact .execParams (Backend.execParams_cases hx)
  | acquire ha =>
    cases ha with
    | valid | refused => exact .silent (by simp) (by simp) rfl fun _ _ _ => id
    | reset | replaced =>
      exact .silent (by simp) (by simp) rfl fun conn t p hs => hidle _ _ _ _ _ hs
  | _ => exact .silent (by simp) (by simp) rfl fun _ _ _ => id

theorem perform_stored (hb : s.backend.Direct)
    (hn : ∀ conn sql, a = .execParams conn sql → sql.storesTransaction = true →
      (s.backend.session conn).Closed)
    (h : Server.perform pg o i a s = some (r, s')) :
    Stored s.db (.act i q a r) s'.db ∧ s'.backend.Direct := by
  cases perform_queried h with
  | exec hx =>
    have hx := Backend.exec_cases hx
    exact ⟨.kept (hx.transactions hb) (by simp), hx.direct hb⟩
  | @execParams conn sql _ r _ hx =>
    have hclosed := hn conn sql rfl
    refine ⟨?_, hx.direct hb hclosed⟩
    cases sql with
    | insertTransaction clientId n isolation =>
      rcases hx.inserted (hclosed rfl) with h | h
      · exact .kept h (by simp)
      · exact .inserted rfl h
    | updateStatus status txnId =>
      rcases hx.updated (hclosed rfl) with ⟨hr, h⟩ | h
      · refine .kept h fun _ _ _ _ _ _ he => ?_
        cases he
        exact hr
      · exact .updated rfl h
    | _ => exact .kept (hx.transactions rfl) (by simp)
  | silent hexec hsql hdb hsess =>
    refine ⟨.kept (by rw [hdb]) fun _ _ conn _ _ _ h => ?_,
      fun conn t p h => hb conn t p (hsess _ _ _ h)⟩
    cases h
    exact absurd rfl (hsql _ _)

theorem Reachable.needs {k : a.Result → Code Reply} (h : Reachable pg policy c)
    (hi : c.thread i = some ⟨q, .act a k⟩) : Needs policy i q a c.world :=
  Contract.good_needs h.good hi

theorem Reachable.traced (h : Reachable pg policy c) : Traced (server pg policy) c := by
  induction h with
  | start | restart => exact traced_initial
  | step _ hs ih => exact traced_step ih hs

theorem closed_of_needs {conn : Conn} {sql : Sql} (h : Needs policy i q (.execParams conn sql) w)
    (hs : sql.storesTransaction = true) : (w.now.backend.session conn).Closed := by
  cases sql with
  | insertTransaction | updateStatus => exact h.2
  | _ => cases hs

theorem Reachable.direct (h : Reachable pg policy c) : c.state.backend.Direct := by
  induction h with
  | start hs | restart _ hs =>
    intro conn t p h
    cases (hs.session conn).symm.trans h
  | step h hs ih =>
    cases hs with
    | call => exact ih
    | @act i q a k r s hi hx =>
      obtain ⟨o, -, hx⟩ := hx
      refine (perform_stored (q := q) ih (fun conn sql ha hs => ?_) hx).2
      subst ha
      exact closed_of_needs (h.needs hi) hs
    | drift hd =>
      obtain ⟨_, _, -, -, rfl⟩ := hd
      exact ih

/-- Each step stores at most one transaction. -/
theorem Reachable.stored (h : Reachable pg policy c) (hs : Step (server pg policy) c e c') :
    Stored c.state.db e c'.state.db := by
  cases hs with
  | call => exact .kept rfl (by simp)
  | @act i q a k r s hi hx =>
    obtain ⟨o, -, hx⟩ := hx
    refine (perform_stored h.direct (fun conn sql ha hs => ?_) hx).1
    subst ha
    exact closed_of_needs (h.needs hi) hs
  | drift hd =>
    obtain ⟨_, _, -, -, rfl⟩ := hd
    exact .kept rfl (by simp)

/-- Each event of a history was a step. -/
theorem Reachable.step_of_before (h : Reachable pg policy c) (hb : (v.next e s).Before c.world) :
    ∃ d d', Reachable pg policy d ∧ d.world = v ∧ Step (server pg policy) d e d' ∧
      d'.world = v.next e s ∧ Run (server pg policy) d' c := by
  obtain ⟨d', hd', hw, hr⟩ := h.moment hb
  cases hd' with
  | start | restart => cases congrArg World.past hw
  | step hd hs =>
    obtain ⟨rfl, rfl, -⟩ := World.next_inj (hs.world_eq.symm.trans hw)
    exact ⟨_, d', hd, rfl, hs, hw, hr⟩

/-- What has occurred, occurred in a step. -/
theorem Reachable.occurred (h : Reachable pg policy c) (hm : (s, e) ∈ c.world.past) :
    ∃ d d', Reachable pg policy d ∧ d.state = s ∧ Step (server pg policy) d e d' ∧
      d'.world.Before c.world := by
  obtain ⟨v, s', rfl, hb⟩ := World.before_of_mem_past hm
  obtain ⟨d, d', hd, rfl, hs, -, hr⟩ := h.step_of_before hb
  exact ⟨d, d', hd, rfl, hs, hr.before⟩

end IceLog
