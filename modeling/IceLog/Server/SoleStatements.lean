import IceLog.Server.Sequential

/-! The two operations of one statement, while no other request is served: what they answer, and
what they make of the database. -/
namespace IceLog

open Interleaved Serial

variable {pg : Postgres} {policy : Policy} {i now : ℕ} {q : Request} {α : Type} {w w' : Moment}
  {tr : List (Act × Outcome)} {t : String} {c c' : ServerConfig} {s s' : Server} {db : Db} {sql : Sql}

/-- What a statement outside of transactions answers, and what it makes of the database. -/
def Sql.effect (pg : Postgres) (now : ℕ) (sql : Sql) (db : Db) : PGresult sql.Row × Db :=
  match sql.run pg now db with
  | none => (.error, sql.draw db)
  | some (r, p) => (r, (sql.draw db).apply p)

namespace Sql
variable {name schema spec props oldName newName : String} {id : ℕ} {r : TableRec} {db' : Db}
  {res : PGresult Empty}

theorem effect_cases {res : PGresult sql.Row} (h : sql.effect pg now db = (res, db')) :
    (sql.run pg now db = none ∧ res = .error ∧ db' = sql.draw db) ∨
      ∃ p, sql.run pg now db = some (res, p) ∧ db' = (sql.draw db).apply p := by
  rw [Sql.effect] at h
  split at h
  · rename_i hrun
    cases h
    exact .inl ⟨hrun, rfl, rfl⟩
  · rename_i hrun
    cases h
    exact .inr ⟨_, hrun, rfl⟩

/-- A row is inserted if its arguments are JSON, a key is left, and no row has its name. -/
theorem effect_insertTable_succeeds
    (h : (Sql.insertTable name schema spec props).effect pg now db = (res, db')) :
    res.someAffected = true ↔ (pg.jsonb schema).isSome ∧ (pg.jsonb props).isSome ∧
      db.tables.next < maxBigint ∧ ∀ k x, db.tables.row k = some x → x.tableName ≠ name := by
  constructor
  · intro hres
    rcases effect_cases h with ⟨-, rfl, -⟩ | ⟨p, hrun, -⟩
    · cases hres
    · simp only [Sql.run, Option.bind_eq_bind, Option.bind_eq_some_iff] at hrun
      obtain ⟨schema', hs, props', hp, hrun⟩ := hrun
      split at hrun
      · cases hrun
      · rename_i hnext
        split at hrun
        · cases hrun
          cases hres
        · rename_i hfree
          refine ⟨hs ▸ rfl, hp ▸ rfl, by omega, ?_⟩
          intro k x hx hname
          exact hfree (Rows.exist_iff.mpr ⟨k, x, hx, by simp [hname]⟩)
  · rintro ⟨hs, hp, hnext, hfree⟩
    obtain ⟨schema', hs⟩ := Option.isSome_iff_exists.mp hs
    obtain ⟨props', hp⟩ := Option.isSome_iff_exists.mp hp
    have hexist : (db.tables.exist fun _ x => x.tableName == name) ≠ true := by
      intro hx
      obtain ⟨k, x, hx, hname⟩ := Rows.exist_iff.mp hx
      exact hfree k x hx (by simpa using hname)
    have hrun : Sql.run pg now (.insertTable name schema spec props) db = some (.command 1, {
        tables := Patch.write db.tables.next {
          tableName := name, schemaJson := schema', partitionSpec := spec, properties := props' } }) := by
      simp only [Sql.run, hs, hp, Option.bind_eq_bind, Option.bind_some, if_neg (not_le.mpr hnext),
        if_neg hexist]
    rw [Sql.effect, hrun] at h
    cases h
    rfl

/-- A live table gets the new name if no row has it. -/
theorem effect_renameTable_succeeds (hu : db.UniqueNames) (hne : newName ≠ oldName)
    (hf : db.find oldName = some (id, r))
    (h : (Sql.renameTable newName oldName).effect pg now db = (res, db')) :
    res.commandOk = true ↔ ∀ k x, db.tables.row k = some x → x.tableName ≠ newName := by
  obtain ⟨hrow, hname⟩ := Db.row_of_find hf
  constructor
  · intro hres k x hx hn
    rcases effect_cases h with ⟨-, rfl, -⟩ | ⟨p, hrun, -⟩
    · cases hres
    · have hold := (run_renameTable hrun).2 id r hrow hname k x hx hn
      exact hne (hn.symm.trans (Db.named_iff.mp hold).1)
  · intro hfree
    have hone : affectedTables db (db.tables.updateWhere (fun _ x => x.named oldName)
        fun x => { x with tableName := newName }) ≤ 1 := by
      refine Rows.affected_le_one (fun k k' hk hk' => ?_) _
      obtain ⟨o, hk⟩ := Option.ne_none_iff_exists'.mp hk
      obtain ⟨o', hk'⟩ := Option.ne_none_iff_exists'.mp hk'
      obtain ⟨x, hx, hxn, -⟩ := Rows.updateWhere_eq_some.mp hk
      obtain ⟨x', hx', hxn', -⟩ := Rows.updateWhere_eq_some.mp hk'
      exact hu k' x' hx' k x hx ((Db.named_iff.mp hxn).1.trans (Db.named_iff.mp hxn').1.symm)
    have hclash : clashes db (db.tables.updateWhere (fun _ x => x.named oldName)
        fun x => { x with tableName := newName }) newName ≠ true := by
      intro hc
      simp only [clashes, Bool.and_eq_true, Bool.or_eq_true, bne_iff_ne, ne_eq] at hc
      obtain ⟨hzero, hmore | hx⟩ := hc
      · omega
      · obtain ⟨k, x, hx, hn⟩ := Rows.exist_iff.mp hx
        simp only [Bool.and_eq_true, beq_iff_eq] at hn
        exact hfree k x hx hn.2
    rw [Sql.effect, Sql.run, if_neg hclash] at h
    cases h
    rfl

end Sql

/-- The statement has been answered by `res`. -/
structure Sent (pg : Postgres) (sql : Sql) (s : Server) (res : PGresult sql.Row) (s' : Server) :
    Prop where
  effect : ∃ now, sql.effect pg now s.db = (res, s'.db)
  mvcc : s'.mvcc = s.mvcc

/-- Locks, pool and cache do not matter. -/
theorem Sent.congr {res : PGresult sql.Row} {u u' : Server} (h : Sent pg sql s res s')
    (hdb : u.db = s.db) (hmvcc : u.mvcc = s.mvcc) (hdb' : u'.db = s'.db) (hmvcc' : u'.mvcc = s'.mvcc) :
    Sent pg sql u res u' := by
  obtain ⟨now, heffect⟩ := h.effect
  refine ⟨⟨now, ?_⟩, hmvcc'.trans (h.mvcc.trans hmvcc.symm)⟩
  rw [hdb, hdb', heffect]

/-- Every connection of the pool is in order. -/
def Server.Pooled (s : Server) : Prop :=
  ∀ conn ∈ s.availableConnections, s.backend.session conn = .idle

theorem Quiet.consistent (h : Quiet pg c) : c.state.db.Consistent :=
  h.reachable.inv.consistent Policy.flawless_clean

theorem AtRest.unique (h : AtRest pg policy c) : c.state.db.UniqueNames :=
  h.reachable.inv.intact.unique

theorem AtRest.pooled (h : AtRest pg policy c) : c.state.Pooled := by
  intro conn hconn
  have hcl := h.reachable.inv.sound.closed conn (h.reachable.inv.sound.pooled conn hconn).1
  cases hσ : c.state.backend.session conn with
  | idle => rfl
  | broken => exact absurd hσ (h.working.unbroken conn)
  | inTransaction | aborted =>
    have hσ : c.world.now.backend.session conn = _ := hσ
    rw [hσ] at hcl
    exact hcl.elim

theorem solo_sent (hu : policy.Unfailing) {conn : Conn} {k : PGresult sql.Row → Code α}
    {g : PGresult sql.Row → α}
    {x : Option α} (hk : ∀ res, k res = .ret (g res)) (hi : w.now.backend.session conn = .idle)
    (hx : Solo (server pg policy) i q ((execParams conn sql).bind k) w tr x w') :
    ∃ res, x = some (g res) ∧ Sent pg sql w.now res w'.now := by
  cases hx with
  | @act _ _ o r s tr' _ _ _ ha hp hrest =>
    have ha : Policy.flawless.allows q (.execParams conn sql) o = true := hu ▸ ha
    obtain rfl : o = .ok := (flawless_outcome ha).2 conn sql rfl
    obtain ⟨⟨r', b⟩, hexec, he⟩ := Option.map_eq_some_iff.mp hp
    cases he
    have hrest : Solo (server pg policy) i q (k r) _ tr' x w' := hrest
    rw [hk] at hrest
    cases hrest
    refine ⟨r, rfl, ⟨w.now.backend.clock, ?_⟩, rfl⟩
    simp only [Backend.execParams, hi] at hexec
    split at hexec
    · rename_i hrun
      cases hexec
      rw [Sql.effect, hrun]
      rfl
    · rename_i hrun
      split at hexec
      · cases hexec
      · cases hexec
        rw [Sql.effect, hrun]
        rfl

/-- One statement on a connection of its own. -/
theorem solo_autocommit (hu : policy.Unfailing) (sql : Sql) {k : PGresult sql.Row → Code α}
    (g : PGresult sql.Row → α)
    {x : Option α} (hk : ∀ res, k res = .ret (g res)) (hpool : w.now.Pooled)
    (hx : Solo (server pg policy) i q (withConnection fun conn => (execParams conn sql).bind k)
      w tr x w') : ∃ res, x = some (g res) ∧ Sent pg sql w.now res w'.now := by
  have hidle : ∀ {conn rest}, w.now.availableConnections = conn :: rest →
      w.now.backend.session conn = .idle := by
    intro conn rest h
    exact hpool conn (h ▸ List.mem_cons_self ..)
  rcases Solo.withConnection_cases hx with ⟨-, o, s, hacq⟩ | ⟨conn, v, v', o, tr', hacq, hsent, hw'⟩
  · cases hacq with
    | refused hp _ hb => cases (hidle hp).symm.trans hb
  · generalize hv : v.now = s at hacq
    cases hacq with
    | valid hp =>
      obtain ⟨res, rfl, hs⟩ := solo_sent hu hk (hv ▸ hidle hp) hsent
      rw [hv] at hs
      refine ⟨res, rfl, ?_⟩
      rw [hw']
      exact hs.congr rfl rfl rfl rfl
    | reset hp _ hb | replaced hp _ hb => cases (hidle hp).symm.trans hb

/-- `createTable` is answered by the affected rows. -/
theorem solo_createTable (hu : policy.Unfailing) {schema spec : String}
    {properties : List (String × String)} {x : Option Reply} (hpool : w.now.Pooled)
    (hx : Solo (server pg policy) i q (MetadataServer.createTable t schema spec properties) w tr x
      w') :
    ∃ res r, x = some (.operation r) ∧ r.success = res.someAffected ∧
      Sent pg (.insertTable (cStr t) (cStr schema) (cStr spec) (cStr (propertiesJson properties)))
        w.now res w'.now := by
  obtain ⟨y, rfl, hx'⟩ := solo_bind_ret (g := Reply.operation) (fun _ => rfl) hx
  obtain ⟨v, v', tr', m, m', hbody, hv, hw'⟩ := Solo.withExclusive_cases hx'
  have hpool' : v.now.Pooled := by
    rw [hv]
    exact hpool
  obtain ⟨res, rfl, hs⟩ := solo_autocommit hu
    (.insertTable (cStr t) (cStr schema) (cStr spec) (cStr (propertiesJson properties)))
    (fun res => if res.someAffected then ({ success := true } : OperationResult)
      else ⟨false, "Failed to create table (may already exist): " ++ t⟩)
    (fun res => (apply_ite Prog.ret (res.someAffected = true) _ _).symm) hpool' hbody
  rw [hv] at hs
  refine ⟨res, _, rfl, ?_, ?_⟩
  · cases res.someAffected <;> rfl
  · rw [hw']
    exact hs.congr rfl rfl rfl rfl

/-- `AlterTable` with a new name is answered by the status of its statement. -/
theorem solo_rename (hu : policy.Unfailing) {oldName newName : String} {x : Option Reply}
    (hpool : w.now.Pooled)
    (hx : Solo (server pg policy) i q (MetadataServer.alterTable oldName (.rename newName)) w tr x
      w') :
    ∃ res r, x = some (.operation r) ∧ r.success = res.commandOk ∧
      (r.success = true → r = { success := true }) ∧
      Sent pg (.renameTable (cStr newName) (cStr oldName)) w.now res w'.now := by
  rcases Solo.bind_cases hx with ⟨r, u, tr₁, tr₂, rfl, hrename, hrest⟩ | ⟨rfl, hrename⟩
  all_goals
    obtain ⟨v, v', tr', m, m', hnew, hv, hu'⟩ := Solo.withExclusive_cases hrename
    obtain ⟨v₁, v₁', tr'', m₁, m₁', hbody, hv₁, hv'⟩ := Solo.withExclusive_cases hnew
    have hpool' : v₁.now.Pooled := by
      rw [hv₁, hv]
      exact hpool
    obtain ⟨res, hres, hs⟩ := solo_autocommit hu (.renameTable (cStr newName) (cStr oldName))
      (fun res => if res.commandOk then ({ success := true } : OperationResult)
        else ⟨false, "Failed to rename " ++ oldName ++ " to " ++ newName⟩)
      (fun res => (apply_ite Prog.ret (res.commandOk = true) _ _).symm) hpool' hbody
  · rw [hv₁, hv] at hs
    cases hrest with
    | act _ hinv hrest =>
      cases hinv
      cases hrest
      obtain rfl := Option.some.inj hres
      refine ⟨res, _, rfl, ?_, ?_, ?_⟩
      · cases res.commandOk <;> rfl
      · cases res.commandOk <;> simp
      · refine hs.congr rfl rfl ?_ ?_
        · exact (congrArg Server.db hu').trans (congrArg Server.db hv' :)
        · exact (congrArg Server.mvcc hu').trans (congrArg Server.mvcc hv' :)
  · cases hres

end IceLog
