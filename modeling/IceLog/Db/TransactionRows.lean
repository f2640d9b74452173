import IceLog.Db.Sessions

/-! The rows of `transactions`: they are written outside of transactions only, one at a time. -/
namespace IceLog

open Serial

variable {pg : Postgres} {b b' : Backend} {c : Conn} {k : Command} {q : Sql} {a : Answer}
  {now id n : ℕ} {db : Db} {p : Changes}

/-- No open transaction has changed a row of `transactions`. -/
def Backend.Direct (b : Backend) : Prop :=
  ∀ c t p, b.session c = .inTransaction t p → p.transactions = Patch.none

/-- The rows after `UPDATE transactions SET status = $1 WHERE txn_id = $2`. -/
def Db.withStatus (db : Db) (status : String) (txnId id : ℕ) : Option TransactionRec :=
  if id = txnId then (db.transactions.row id).map fun r => { r with status := status }
  else db.transactions.row id

namespace Sql

theorem draw_transactions (q : Sql) (db : Db) :
    (q.draw db).transactions.row = db.transactions.row := by
  cases q <;> rfl

theorem run_transactions {res : PGresult q.Row} (hq : q.storesTransaction = false)
    (h : q.run pg now db = some (res, p)) : p.transactions = Patch.none := by
  cases q with
  | insertTransaction | updateStatus => cases hq
  | insertTable name schema spec properties =>
    simp only [Sql.run, Option.bind_eq_bind, Option.bind_eq_some_iff] at h
    obtain ⟨schema', -, props', -, h⟩ := h
    split at h
    · cases h
    · split at h <;> cases h <;> rfl
  | updateSchema =>
    simp only [Sql.run, Option.bind_eq_bind, Option.bind_eq_some_iff] at h
    obtain ⟨x, -, h⟩ := h
    cases h
    rfl
  | insertHistory | insertPartition | selectTables =>
    simp only [Sql.run, Option.bind_eq_bind, Option.bind_eq_some_iff] at h
    obtain ⟨x, -, h⟩ := h
    split at h <;> cases h
    rfl
  | renameTable | deleteSnapshots | deleteTable | selectPartitions | selectPartitionsPaged
  | markDeleted | insertSnapshot | selectSnapshot | updateCurrent =>
    simp only [Sql.run] at h
    split at h <;> cases h
    rfl
  | selectTableId | selectTable | deletePartitions | deleteHistory | softDelete | selectSnapshots
  | selectCurrent | selectHistoryAt | selectHistory =>
    simp only [Sql.run] at h
    cases h
    rfl

theorem run_insertTransaction {clientId isolation : String} {r : PGresult ℕ}
    (h : (insertTransaction clientId n isolation).run pg now db = some (r, p)) :
    r = .tuples [db.transactions.next] ∧ ((draw (insertTransaction clientId n isolation) db).apply
      p).transactions.row = Function.update db.transactions.row db.transactions.next
        (some ⟨clientId, n, "active", isolation⟩) := by
  simp only [run] at h
  split at h
  · cases h
  · cases h
    refine ⟨rfl, funext fun id => ?_⟩
    by_cases hid : id = db.transactions.next
    · subst hid
      rw [Function.update_self]
      exact Rows.apply_row_of_some (Patch.write_self ..) db.transactions.pos (Nat.lt_succ_self _)
    · rw [Function.update_of_ne hid]
      exact Rows.apply_row_of_none (Patch.write_of_ne _ hid)

theorem run_updateStatus {status : String} {r : PGresult Empty}
    (h : (updateStatus status n).run pg now db = some (r, p)) :
    (∃ k, r = .command k) ∧ (db.apply p).transactions.row = db.withStatus status n := by
  simp only [run] at h
  split at h
  · cases h
  · cases h
    refine ⟨⟨_, rfl⟩, funext fun id => ?_⟩
    rw [Db.apply_transactions, Db.withStatus]
    cases hr : db.transactions.row id with
    | none =>
      rw [Rows.apply_row_of_none (by simp [Rows.updateWhere, hr]), hr]
      simp
    | some row =>
      have hb := Rows.born hr
      by_cases hid : id = n
      · subst hid
        rw [if_pos rfl]
        exact Rows.apply_row_of_some (by simp [Rows.updateWhere, hr]) hb.1 hb.2
      · rw [if_neg hid, Rows.apply_row_of_none (by simp [Rows.updateWhere, hr, hid]), hr]

end Sql

namespace Backend

/-- A statement that is not about `transactions`. -/
theorem Executed.transactions {r : PGresult q.Row} (h : Executed pg b c q a r b')
    (hq : q.storesTransaction = false) : b'.db.transactions.row = b.db.transactions.row := by
  cases h with
  | failed _ hb _ => exact hb.transactions
  | @committed _ _ p _ _ hr _ _ =>
    rw [setSession_db, Db.apply_transactions, Sql.run_transactions hq hr, Rows.apply_none]
    exact Sql.draw_transactions q _
  | added => exact Sql.draw_transactions q _

theorem Executed.inserted {clientId isolation : String}
    {r : PGresult (Sql.insertTransaction clientId n isolation).Row}
    (h : Executed pg b c (.insertTransaction clientId n isolation) a r b')
    (hc : (b.session c).Closed) : b'.db.transactions.row = b.db.transactions.row ∨
      b'.db.transactions.row = Function.update b.db.transactions.row b.db.transactions.next
        (some ⟨clientId, n, "active", isolation⟩) := by
  cases h with
  | failed _ hb _ => exact .inl hb.transactions
  | committed _ hr _ _ => exact .inr (Sql.run_insertTransaction hr).2
  | added _ hs => simp [hs, Session.Closed] at hc

theorem Executed.updated {status : String} {r : PGresult (Sql.updateStatus status n).Row}
    (h : Executed pg b c (.updateStatus status n) a r b') (hc : (b.session c).Closed) :
    (r = .error ∧ b'.db.transactions.row = b.db.transactions.row) ∨
      b'.db.transactions.row = b.db.withStatus status n := by
  cases h with
  | failed _ hb _ => exact .inl ⟨rfl, hb.transactions⟩
  | committed _ hr _ _ => exact .inr (Sql.run_updateStatus hr).2
  | added _ hs => simp [hs, Session.Closed] at hc

theorem Executed.direct {r : PGresult q.Row} (hb : b.Direct) (h : Executed pg b c q a r b')
    (hc : q.storesTransaction = true → (b.session c).Closed) : b'.Direct := by
  intro d t p hd
  by_cases hdc : d = c
  · subst hdc
    cases h with
    | failed hf hq _ =>
      rw [hq.session_self] at hd
      exact absurd hd (hf.not_inTransaction t p)
    | committed _ _ _ ha =>
      rw [setSession_self] at hd
      rcases ha with ⟨-, -, rfl⟩ | ⟨-, -, rfl⟩ <;> cases hd
    | @added u p₀ p' _ _ hs hr _ =>
      rw [setSession_self] at hd
      cases hd
      have hq : q.storesTransaction = false := by
        by_contra hq
        have := hc (by simpa using hq)
        simp [hs, Session.Closed] at this
      simp [Changes.andThen, hb _ _ _ hs, Sql.run_transactions hq hr]
  · exact hb d t p (h.session_of_ne hdc ▸ hd)

theorem Controlled.transactions {r : Bool} (hb : b.Direct) (h : Controlled b c k a r b') :
    b'.db.transactions.row = b.db.transactions.row := by
  cases h with
  | moved hq => exact hq.transactions
  | committed _ hs _ => simp [hb _ _ _ hs]

theorem Controlled.direct {r : Bool} (hb : b.Direct) (h : Controlled b c k a r b') :
    b'.Direct := by
  intro d t p hd
  by_cases hdc : d = c
  · subst hdc
    cases h with
    | moved hq _ hσ =>
      rw [hq.session_self] at hd
      rcases hσ t p hd with hs | rfl
      · exact hb _ _ _ hs
      · rfl
    | committed _ _ ha =>
      rw [setSession_self] at hd
      rcases ha with ⟨-, -, rfl⟩ | ⟨-, -, rfl⟩ <;> cases hd
  · exact hb d t p (h.session_of_ne hdc ▸ hd)

end Backend
end IceLog
