import IceLog.Properties.Existence
import IceLog.Properties.Serializability
import IceLog.Server.SoleTransactions

/-! What a request that changes tables answers and does where nothing fails and no other request is
served: the specification of the catalog without locks, connections and transactions. -/
namespace IceLog

open Interleaved Serial

variable {pg : Postgres} {policy : Policy} {c c' : ServerConfig} {i n : ℕ} {q : Request}
  {t : String} {w w' : Moment} {tr : List (Act × Outcome)} {db : Db}

/-- A row has the name, which may be one that has been dropped softly. -/
def Db.taken (db : Db) (name : String) : Bool := db.tables.exist fun _ r => r.tableName == name

theorem Db.taken_eq_false_iff {name : String} : db.taken name = false ↔ db.Untaken name := by
  rw [← Bool.not_eq_true, Db.taken, Rows.exist_iff]
  constructor
  · intro h k r hr hn
    exact h ⟨k, r, hr, beq_iff_eq.mpr hn⟩
  · rintro h ⟨k, r, hr, hn⟩
    exact h k r hr (beq_iff_eq.mp hn)

namespace MetadataServer

/-- `CreateTable`. -/
def createAnswer (pg : Postgres) (db : Db) (t schema : String) (properties : List (String × String)) :
    OperationResult :=
  if pg.Accepts schema ∧ pg.Accepts (propertiesJson properties) ∧ db.tables.next < maxBigint ∧
      db.taken (cStr t) = false then
    { success := true }
  else ⟨false, "Failed to create table (may already exist): " ++ t⟩

/-- `AlterTable` with a new name. -/
def renameAnswer (db : Db) (oldName newName : String) : OperationResult :=
  if db.find (cStr oldName) = none ∨ db.taken (cStr newName) = false then { success := true }
  else ⟨false, "Failed to rename " ++ oldName ++ " to " ++ newName⟩

/-- `AlterTable` with a new schema. -/
def schemaAnswer (pg : Postgres) (db : Db) (t schema : String) : OperationResult :=
  let err := (db.currentSchema (cStr t)).elim "" fun c =>
    SchemaStore.validateSchemaChange c.schemaJson schema
  if err ≠ "" then ⟨false, err⟩ else alterAnswer pg db t schema

/-- `DropTable`. -/
def dropAnswer (db : Db) (t : String) : OperationResult :=
  if (db.find (cStr t)).isSome then { success := true }
  else ⟨false, "Failed to drop table: " ++ t⟩

end MetadataServer

open MetadataServer in
/-- The answer to a request that changes tables. -/
def Request.answer (pg : Postgres) (db : Db) : Request → Option Reply
  | .createTable t schema _ properties => some (.operation (createAnswer pg db t schema properties))
  | .alterTable t (.rename newName) => some (.operation (renameAnswer db t newName))
  | .alterTable t (.newSchemaJson schema) => some (.operation (schemaAnswer pg db t schema))
  | .dropTable t _ => some (.operation (dropAnswer db t))
  | .commitSnapshot t news _ parent _ =>
    some (.snapshot (commitAnswer pg db t parent (news.map PartitionInfo.toRow)))
  | .commit t parent _ news _ => some (.snapshot (commitAnswer pg db t parent news))
  | _ => none

/-! The operations of one statement. -/

theorem solo_creation (hu : policy.Unfailing) {schema spec properties : String}
    {x : Option OperationResult} (hpool : w.now.Pooled)
    (hx : Solo (server pg policy) i q (CatalogManager.createTable t schema spec properties) w tr x w') :
    x = some (if pg.Accepts schema ∧ pg.Accepts properties ∧ w.now.db.tables.next < maxBigint ∧
        w.now.db.taken (cStr t) = false then { success := true }
      else ⟨false, "Failed to create table (may already exist): " ++ t⟩) := by
  refine solo_exclusively hu hpool hx fun conn => ?_
  generalize w.now.cache = cache
  generalize w.now.backend.clock = now
  generalize w.now.db = db
  obtain ⟨⟨res, db'⟩, he⟩ : ∃ e, (Sql.insertTable (cStr t) (cStr schema) (cStr spec)
    (cStr properties)).effect pg now db = e := ⟨_, rfl⟩
  have hview : inView pg conn now (PgClient.createTable conn t schema spec properties)
      (.idle db, cache) = some (res.someAffected, .idle db', cache) :=
    inView_statement (Sql.inView_idle he) _
  have hres := Sql.effect_insertTable_succeeds he
  simp only [Prog.bind_eq, Prog.pure_eq]
  rw [inView_bind hview]
  by_cases h : pg.Accepts schema ∧ pg.Accepts properties ∧ db.tables.next < maxBigint ∧
    db.taken (cStr t) = false
  · obtain ⟨hs, hp, hn, hfree⟩ := h
    rw [if_pos (hres.mpr ⟨hs, hp, hn, Db.taken_eq_false_iff.mp hfree⟩), if_pos ⟨hs, hp, hn, hfree⟩]
    exact ⟨_, rfl⟩
  · rw [if_neg h, if_neg]
    · exact ⟨_, rfl⟩
    · intro hok
      obtain ⟨hs, hp, hn, hfree⟩ := hres.mp hok
      exact h ⟨hs, hp, hn, Db.taken_eq_false_iff.mpr hfree⟩

theorem solo_renaming (hu : policy.Unfailing) {o : String} {x : Option OperationResult}
    (hpool : w.now.Pooled) (hunique : w.now.db.UniqueNames) (hne : cStr t ≠ cStr o)
    (hx : Solo (server pg policy) i q (CatalogManager.renameTable o t) w tr x w') :
    x = some (MetadataServer.renameAnswer w.now.db o t) := by
  obtain ⟨v, v', tr', m, m', hbody, hv, -⟩ := Solo.withExclusive_cases hx
  have hvpool : v.now.Pooled := by
    rw [hv]
    exact hpool
  have hvdb : v.now.db = w.now.db := by
    rw [hv]
    rfl
  rw [← hvdb] at hunique ⊢
  refine solo_exclusively hu hvpool hbody fun conn => ?_
  generalize v.now.cache = cache
  generalize v.now.backend.clock = now
  generalize v.now.db = db at hunique
  obtain ⟨⟨res, db'⟩, he⟩ : ∃ e, (Sql.renameTable (cStr t) (cStr o)).effect pg now db = e := ⟨_, rfl⟩
  have hview : inView pg conn now (PgClient.renameTable conn o t) (.idle db, cache) =
      some (res.commandOk, .idle db', cache) :=
    inView_statement (Sql.inView_idle he) _
  have hres : res.commandOk = true ↔ db.find (cStr o) = none ∨ db.taken (cStr t) = false := by
    cases hf : db.find (cStr o) with
    | none =>
      refine ⟨fun _ => .inl rfl, fun _ => ?_⟩
      have hzero := (Sql.affected_named (f := fun r => { r with tableName := cStr t })).mpr hf
      have hclash : Sql.clashes db (db.tables.updateWhere (fun _ r => r.named (cStr o))
          fun r => { r with tableName := cStr t }) (cStr t) ≠ true := by
        simp [Sql.clashes, hzero]
      rw [Sql.effect, Sql.run, if_neg hclash] at he
      cases he
      rfl
    | some e =>
      obtain ⟨id, r⟩ := e
      rw [Sql.effect_renameTable_succeeds hunique hne hf he, Db.taken_eq_false_iff]
      exact ⟨.inr, fun h => h.resolve_left (Option.some_ne_none _)⟩
  simp only [Prog.bind_eq, Prog.pure_eq]
  rw [inView_bind hview, MetadataServer.renameAnswer]
  by_cases h : db.find (cStr o) = none ∨ db.taken (cStr t) = false
  · rw [if_pos (hres.mpr h), if_pos h]
    exact ⟨_, rfl⟩
  · rw [if_neg fun hok => h (hres.mp hok), if_neg h]
    exact ⟨_, rfl⟩

/-! The requests. -/

theorem solo_invalidation {x : Option Reply} {y : Reply}
    (hx : Solo (server pg policy) i q ((PartitionRegistry.invalidateTableCache t).bind fun _ => .ret y)
      w tr x w') : x = some y := by
  cases hx with
  | act _ _ hrest =>
    cases hrest
    rfl

theorem solo_schemaChange (hu : policy.Unfailing) {schema : String} {x : Option Reply}
    (hpool : w.now.Pooled)
    (hx : Solo (server pg policy) i q (MetadataServer.alterTable t (.newSchemaJson schema)) w tr x w') :
    x = some (.operation (MetadataServer.schemaAnswer pg w.now.db t schema)) := by
  rcases Solo.bind_cases hx with ⟨z, u, tr₁, tr₂, -, hread, hrest⟩ | ⟨-, hread⟩
  · obtain ⟨hz, hpool', hdb⟩ := solo_currentSchema hu hpool hread
    cases hz
    rw [MetadataServer.schemaAnswer, ← hdb]
    rw [← hdb] at hrest
    by_cases herr : ((u.now.db.currentSchema (cStr t)).elim "" fun c =>
      SchemaStore.validateSchemaChange c.schemaJson schema) ≠ ""
    · rw [if_pos herr] at hrest ⊢
      cases hrest
      rfl
    · rw [if_neg herr] at hrest ⊢
      rcases Solo.bind_cases hrest with ⟨z, v, tr₃, tr₄, -, halter, hrest⟩ | ⟨-, halter⟩
      · cases solo_alterTableSchema hu hpool' halter
        exact solo_invalidation hrest
      · cases solo_alterTableSchema hu hpool' halter
  · cases (solo_currentSchema hu hpool hread).1

/-- What is answered. -/
theorem solo_answer (hu : policy.Unfailing) {x : Option Reply} {y : Reply} (hpool : w.now.Pooled)
    (hc : w.now.db.Consistent) (hnames : ∀ o n, q = .alterTable o (.rename n) → cStr n ≠ cStr o)
    (hy : q.answer pg w.now.db = some y) (hx : Solo (server pg policy) i q q.code w tr x w') :
    x = some y := by
  cases q with
  | createTable t schema spec properties =>
    cases hy
    obtain ⟨z, rfl, hz⟩ := solo_bind_ret (g := Reply.operation) (fun _ => rfl) hx
    rw [solo_creation hu hpool hz]
    rfl
  | dropTable t purge =>
    cases hy
    rcases Solo.bind_cases hx with ⟨z, u, tr₁, tr₂, -, hdrop, hrest⟩ | ⟨-, hdrop⟩
    · cases solo_dropTable hu hpool hc hdrop
      rw [MetadataServer.dropAnswer]
      split at hrest
      · rename_i hf
        rw [if_pos hf]
        exact solo_invalidation hrest
      · rename_i hf
        cases hrest
        rw [if_neg hf]
    · cases solo_dropTable hu hpool hc hdrop
  | alterTable t alteration =>
    cases alteration with
    | rename newName =>
      cases hy
      have hne := hnames t newName rfl
      rcases Solo.bind_cases hx with ⟨z, u, tr₁, tr₂, -, hrename, hrest⟩ | ⟨-, hrename⟩
      · cases solo_renaming hu hpool hc.unique hne hrename
        exact solo_invalidation hrest
      · cases solo_renaming hu hpool hc.unique hne hrename
    | newSchemaJson schema =>
      cases hy
      exact solo_schemaChange hu hpool hx
    | _ => cases hy
  | commitSnapshot t news dels parent op =>
    cases hy
    obtain ⟨z, rfl, hz⟩ := solo_bind_ret (g := Reply.snapshot) (fun _ => rfl) hx
    rw [solo_commit hu hpool hz]
    rfl
  | commit t parent op news dels =>
    cases hy
    obtain ⟨z, rfl, hz⟩ := solo_bind_ret (g := Reply.snapshot) (fun _ => rfl) hx
    rw [solo_commit hu hpool hz]
    rfl
  | _ => cases hy

theorem Request.Changes.answered (hq : q.Changes) (db : Db) : ∃ y, q.answer pg db = some y := by
  rcases hq with hq | hq
  · cases hq with
    | @commit q call hcall =>
      cases q with
      | commit | commitSnapshot => exact ⟨_, rfl⟩
      | _ => cases hcall
    | alter | drop => exact ⟨_, rfl⟩
  · cases q with
    | createTable => exact ⟨_, rfl⟩
    | alterTable t alteration =>
      cases alteration with
      | rename => exact ⟨_, rfl⟩
      | _ => cases hq
    | _ => cases hq

/-- What the request does that is answered by `y`: what it has to if that is a success, and nothing
otherwise. -/
structure Request.Meets (pg : Postgres) (q : Request) (y : Reply) (V V' : Catalog) : Prop where
  done : y.Acknowledges → ∃ n, y.Tells n ∧ q.Does pg True n V V'
  refused : ¬ y.Acknowledges → V' = V

theorem Policy.flawless_hears : Policy.flawless.Hears := by
  intro q conn sql _
  rfl

/-- A request that is served alone is the only one that may take effect. -/
theorem Completes.serial {x : Option Reply} (h : Quiet pg c)
    (hs : Completes pg .flawless c i q x c') :
    ∃ L, Serializes pg .flawless c c' L ∧ (L = [] ∨ ∃ p, L = [p] ∧ p.thread = i ∧ p.request = q) := by
  obtain ⟨L, hL⟩ := h.reachable.serializes Policy.flawless_clean Policy.flawless_carriesOut hs.run
  -- nobody else has done anything
  have hown : ∀ p ∈ L, p.thread = i := by
    intro p hp
    by_contra hne
    obtain ⟨th, hth, -⟩ := hL.called p hp
    rw [hs.thread, Function.update_of_ne hne] at hth
    exact hL.running p hp th hth (h.finished _ _ hth)
  refine ⟨L, hL, ?_⟩
  cases L with
  | nil => exact .inl rfl
  | cons p rest =>
    have hp := hown p (List.mem_cons_self ..)
    refine .inr ⟨p, ?_, hp, ?_⟩
    · cases rest with
      | nil => rfl
      | cons p' rest =>
        have hnodup := hL.once
        simp [hp, hown p' (by simp)] at hnodup
    · obtain ⟨th, hth, hreq⟩ := hL.called p (List.mem_cons_self ..)
      rw [hp, hs.thread, Function.update_self] at hth
      cases hth
      exact hreq.symm

/-- What a request does that is served alone. -/
theorem Completes.meets {y : Reply} (h : Quiet pg c) (hq : q.Changes)
    (hs : Completes pg .flawless c i q (some y) c') :
    q.Meets pg y c.state.db.catalog c'.state.db.catalog := by
  have hret : c'.Returned i q y := by
    show c'.thread i = _
    rw [hs.thread, Function.update_self]
    rfl
  obtain ⟨L, hL, hone⟩ := hs.serial h
  have hserial := hL.serial
  rw [eq_true Policy.flawless_flawless.steady] at hserial
  obtain rfl | ⟨p, rfl, hp, rfl⟩ := hone
  · refine ⟨fun hok => ?_, fun _ => hserial.eq⟩
    obtain ⟨p, hp, -⟩ := hL.acknowledged i q y hs.idle hret hok hq
    cases hp
  · refine ⟨fun hok => ?_, fun hno => ?_⟩
    · obtain ⟨p', hp', -, -, htells⟩ := hL.acknowledged i _ y hs.idle hret hok hq
      obtain rfl := List.mem_singleton.mp hp'
      exact ⟨p'.told, htells, hserial.does⟩
    · have hmem := List.mem_singleton_self p
      have hth : c'.thread p.thread = some ⟨_, .ret y⟩ := hp ▸ hret
      obtain ⟨y', hy', hok, -⟩ := hL.answered p hmem _ hth trivial (.inr Policy.flawless_hears)
      rw [hp] at hy'
      cases hret.symm.trans hy'
      exact absurd hok hno

end IceLog
