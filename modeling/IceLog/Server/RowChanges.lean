import IceLog.Server.TransactionTable

/-! Which steps change the rows that belong to tables. A `COMMIT` may change them; what is sent
outside of transactions stores a table or gives one a name. -/
namespace IceLog

open Interleaved Serial

/-- Rows are as before, except for the names of tables and for tables that are new. -/
structure Db.Retitled (db db' : Db) : Prop where
  tables : ∀ k r r', db.tables.row k = some r → db'.tables.row k = some r' →
    r' = { r with tableName := r'.tableName }
  history : db'.history.row = db.history.row
  snapshots : db'.snapshots.row = db.snapshots.row
  partitions : db'.partitions.row = db.partitions.row

variable {pg : Postgres} {policy : Policy} {i : ℕ} {q : Request} {a : Act} {o : Outcome}
  {s s' : Server} {db db' : Db} {c c' : ServerConfig} {e : ServerEvent} {conn : Conn} {sql : Sql}
  {w : Moment} {k : ℕ} {r r' : TableRec}

theorem Db.SameRows.retitled (h : db.SameRows db') : db.Retitled db' := by
  refine ⟨fun k r r' hr hr' => ?_, h.history, h.snapshots, h.partitions⟩
  rw [h.tables, hr] at hr'
  cases hr'
  rfl

/-- A statement that gives names. -/
theorem Sql.run_retitled {now : ℕ} {res : PGresult sql.Row} {p : Changes}
    (hs : sql.namesTables = true) (h : sql.run pg now db = some (res, p)) :
    db.Retitled ((sql.draw db).apply p) := by
  have hdraw := Db.sameRows_draw sql db
  cases sql with
  | insertTable name schema spec props =>
    rcases Sql.run_insertTable h with ⟨-, rfl⟩ | ⟨row, -, -, -, -, -, -, -, -, -, rfl⟩
    · rw [Db.apply_none]
      exact hdraw.retitled
    · refine ⟨fun k r r' hr hr' => ?_, by simp [hdraw.history], by simp [hdraw.snapshots],
        by simp [hdraw.partitions]⟩
      have hk : k ≠ db.tables.next := (Rows.born hr).2.ne
      rw [Db.apply_tables, Rows.apply_row_of_none (Patch.write_of_ne _ hk), hdraw.tables, hr] at hr'
      cases hr'
      rfl
  | renameTable newName oldName =>
    obtain ⟨rfl, -⟩ := Sql.run_renameTable h
    refine ⟨fun k r r' hr hr' => ?_, by simp [hdraw.history], by simp [hdraw.snapshots],
      by simp [hdraw.partitions]⟩
    rw [Db.apply_tables] at hr'
    rcases Rows.apply_row_eq_some hr' with hp | ⟨-, hr'⟩
    · dsimp only at hp
      obtain ⟨r₀, hr₀, -, hp⟩ := Rows.updateWhere_eq_some.mp hp
      cases hr₀.symm.trans hr
      cases hp
      rfl
    · rw [hdraw.tables, hr] at hr'
      cases hr'
      rfl
  | _ => cases hs

/-- What may be sent outside of transactions. -/
theorem StatementNeeds.outside (h : StatementNeeds policy i q conn s sql)
    (hidle : s.backend.session conn = .idle) : sql.harmless = true ∨ sql.namesTables = true := by
  cases sql <;> first | exact .inl rfl | exact .inr rfl | exact absurd hidle h

theorem retitled_execParams {ans : Answer} {res : PGresult sql.Row} {b b' : Backend}
    (hn : b.session conn = .idle → sql.harmless = true ∨ sql.namesTables = true)
    (h : Backend.Executed pg b conn sql ans res b') : b.db.Retitled b'.db := by
  cases h with
  | failed _ hq _ => exact hq.sameRows.retitled
  | added => exact (Db.sameRows_draw sql _).retitled
  | committed hidle hr _ _ =>
    rcases hn hidle with hs | hs
    · exact ((Db.sameRows_draw sql _).trans (Sql.run_harmless hs hr _)).retitled
    · exact Sql.run_retitled hs hr

theorem retitled_exec {command : Command} {ans : Answer} {ok : Bool} {b b' : Backend}
    (hk : command ≠ .commit) (h : Backend.Controlled b conn command ans ok b') :
    b.db.Retitled b'.db := by
  cases h with
  | moved hq _ _ _ _ => exact hq.sameRows.retitled
  | committed hk' _ _ => exact absurd hk' hk

/-- An action that is not a `COMMIT`. -/
theorem perform_retitled {r : a.Result} (ha : a.noCommit) (hn : Needs policy i q a w)
    (h : Server.perform pg o i a w.now = some (r, s')) : w.now.db.Retitled s'.db := by
  cases perform_queried h with
  | @exec conn k _ _ _ hx =>
    exact retitled_exec (fun hk => ha conn (hk ▸ rfl)) (Backend.exec_cases hx)
  | execParams hx => exact retitled_execParams hn.2.outside hx
  | silent _ _ hdb => exact hdb ▸ (Db.SameRows.refl _).retitled

/-- A step that changes more sends a `COMMIT`. -/
theorem Reachable.retitled (h : Reachable pg policy c) (hs : Step (server pg policy) c e c') :
    c.state.db.Retitled c'.state.db ∨
      ∃ i q conn x, e = .act i q (.exec conn .commit) x := by
  cases hs with
  | call => exact .inl (Db.SameRows.refl _).retitled
  | @act i q a k x s hi hx =>
    obtain ⟨o, -, hx⟩ := hx
    by_cases ha : a.noCommit
    · exact .inl (perform_retitled ha (h.needs hi) hx)
    · obtain ⟨conn, ha⟩ := not_forall.mp ha
      obtain rfl := not_not.mp ha
      exact .inr ⟨i, q, conn, x, rfl⟩
  | drift hd =>
    obtain ⟨_, _, -, -, rfl⟩ := hd
    exact .inl (Db.SameRows.refl _).retitled

end IceLog
