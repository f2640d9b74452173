import IceLog.Concurrency.Linearization
import IceLog.Server.Settling

/-! The action with which a request changes what is stored about tables: a `COMMIT`, or a statement
that gives a table a name. There is one such action, and after it the request only closes. -/
namespace IceLog

open Interleaved

variable {pg : Postgres} {policy : Policy} {i : ℕ} {q q' : Request} {α β : Type} {t : String}
  {a a' : Act} {r : a.Result} {r' : a'.Result} {conn : Conn} {sql : Sql} {P : Reply → Prop}
  {c c' : ServerConfig} {v : Moment} {s : Server} {tr : List (Σ a : Act, a.Result)} {x : Reply}

namespace Act

/-- A statement that gives a table a name. -/
def NamesTable (a : Act) : Prop := ∃ conn sql, a = .execParams conn sql ∧ sql.namesTables = true

/-- The action may change what is stored about tables. -/
def Decides (a : Act) : Prop := a.Commits ∨ a.NamesTable

/-- The statement has been answered, and said to have been carried out. -/
def Confirmed : (a : Act) → a.Result → Prop
  | .execParams _ (.insertTable ..), r => r.someAffected = true
  | .execParams _ (.renameTable ..), r => r.commandOk = true
  | _, _ => False

theorem Confirmed.namesTable (h : a.Confirmed r) : a.NamesTable := by
  cases a with
  | execParams conn sql => cases sql <;> first | exact ⟨conn, _, rfl, rfl⟩ | exact h.elim
  | _ => exact h.elim

theorem Closes.not_decides (h : a.Closes) : ¬ a.Decides := by
  rintro (⟨conn, rfl⟩ | ⟨conn, sql, rfl, -⟩) <;> exact h

end Act

/-! Code that gives no table a name. -/

/-- No statement of the program gives a table a name. -/
abbrev Unnaming (p : Code α) : Prop := Acts (fun a => ¬ a.NamesTable) p

theorem not_namesTable (h : ∀ conn sql, a ≠ .execParams conn sql) : ¬ a.NamesTable := by
  rintro ⟨conn, sql, ha, -⟩
  exact h conn sql ha

theorem not_namesTable_statement (h : sql.namesTables = false) :
    ¬ (Act.execParams conn sql).NamesTable := by
  rintro ⟨_, _, ha, hs⟩
  cases ha
  simp [h] at hs

theorem Sql.namesTables_of_selects (h : sql.selects = true) : sql.namesTables = false := by
  cases sql with
  | insertTable | renameTable => cases h
  | _ => rfl

theorem maySelect_unnaming : MaySelect fun a => ¬ a.NamesTable := fun _ _ hs =>
  not_namesTable_statement (Sql.namesTables_of_selects hs)

theorem mayConnect_unnaming : MayConnect fun a => ¬ a.NamesTable :=
  ⟨not_namesTable (by simp), fun _ => not_namesTable (by simp)⟩

theorem unnaming_statement (g : PGresult sql.Row → α) (h : sql.namesTables = false) :
    Unnaming ((execParams conn sql).bind fun res => .ret (g res)) :=
  Acts.statement g (not_namesTable_statement h)

theorem unnaming_atomically (h : ∀ conn sql, a ≠ .execParams conn sql) :
    Unnaming (atomically a) := Acts.atomically (not_namesTable h)

theorem unnaming_byId {f : ℕ → Code α} {x : α} (hf : ∀ id, Unnaming (f id)) :
    Unnaming ((PgClient.getTableId conn t).bind fun
      | none => .ret x
      | some id => f id) := Acts.byId maySelect_unnaming hf

/-- Under an exclusive lock, on a connection. -/
theorem unnaming_body {body : Conn → Code α} (h : ∀ conn, Unnaming (body conn)) :
    Unnaming (withExclusive t (withConnection body)) :=
  Acts.withExclusive (Acts.withConnection mayConnect_unnaming h) (not_namesTable (by simp))
    (not_namesTable (by simp))

theorem unnaming_insertPartitions (n : ℕ) (news : List PartitionRow) :
    Unnaming (PartitionRegistry.insertPartitions t conn n news) := by
  induction news with
  | nil => exact Acts.ret _
  | cons part rest ih =>
    refine Acts.bind (unnaming_byId fun id => unnaming_statement _ rfl) fun ok => ?_
    cases ok with
    | false => exact Acts.ret _
    | true => exact ih

theorem unnaming_markPartitionsDeleted (n : ℕ) (keys : List String) :
    Unnaming (PartitionRegistry.markPartitionsDeleted t conn n keys) := by
  induction keys with
  | nil => exact Acts.ret _
  | cons key rest ih =>
    refine Acts.bind (unnaming_byId fun id => unnaming_statement _ rfl) fun ok => ?_
    cases ok with
    | false => exact Acts.ret _
    | true => exact ih

theorem unnaming_rollback (msg : String) : Unnaming (PartitionRegistry.rollback conn msg) :=
  Acts.bind (unnaming_atomically (by simp)) fun _ => Acts.ret _

theorem unnaming_commitSnapshot {parent : ℕ} {op : String} {news : List PartitionRow}
    {dels : List String} :
    Unnaming (PartitionRegistry.commitSnapshot t parent op news dels) := by
  refine unnaming_body fun conn => ?_
  refine Acts.bind (Acts.getCurrentSnapshot maySelect_unnaming) fun current => ?_
  split
  · exact Acts.ret _
  refine Acts.bind (unnaming_atomically (by simp)) fun _ => ?_
  refine Acts.bind (unnaming_byId fun id => unnaming_statement _ rfl) fun n => ?_
  split
  · exact unnaming_rollback _
  refine Acts.bind (unnaming_insertPartitions n news) fun r => ?_
  cases r with
  | some part => exact unnaming_rollback _
  | none =>
  refine Acts.bind (unnaming_markPartitionsDeleted n dels) fun r => ?_
  cases r with
  | some key => exact unnaming_rollback _
  | none =>
  refine Acts.bind (unnaming_statement _ rfl) fun moved => ?_
  split
  · exact unnaming_rollback _
  · exact Acts.bind (unnaming_atomically (by simp)) fun _ =>
      Acts.bind (p := PartitionRegistry.invalidateTableCache t)
        (unnaming_atomically (by simp)) fun _ => Acts.ret _

theorem unnaming_updateTableSchema {schema summary : String} {version : ℤ} :
    Unnaming (PgClient.updateTableSchema conn t schema version summary) := by
  refine Acts.bind (Acts.atomically (not_namesTable_statement rfl)) fun res => ?_
  show Unnaming (if _ then _ else _)
  split
  · exact Acts.ret _
  · exact unnaming_byId fun id => unnaming_statement _ rfl

theorem unnaming_alterTableSchema {schema summary : String} :
    Unnaming (CatalogManager.alterTableSchema t schema summary) := by
  refine unnaming_body fun conn => Acts.bind (Acts.getTable maySelect_unnaming) fun table => ?_
  cases table with
  | none => exact Acts.ret _
  | some existing =>
  refine Acts.bind (unnaming_atomically (by simp)) fun _ => ?_
  refine Acts.bind unnaming_updateTableSchema fun stored => ?_
  cases stored with
  | false => exact Acts.bind (unnaming_atomically (by simp)) fun _ => Acts.ret _
  | true => exact Acts.bind (unnaming_atomically (by simp)) fun _ => Acts.ret _

theorem unnaming_dropTable_client {purge : Bool} : Unnaming (PgClient.dropTable conn t purge) := by
  have hs : ∀ sql : Sql, sql.namesTables = false → Unnaming (execParams conn sql) :=
    fun _ h => Acts.atomically (not_namesTable_statement h)
  unfold PgClient.dropTable
  cases purge with
  | true =>
    exact unnaming_byId fun id => Acts.bind (hs _ rfl) fun _ => Acts.bind (hs _ rfl) fun _ =>
      Acts.bind (hs _ rfl) fun _ => unnaming_statement _ rfl
  | false => exact unnaming_statement _ rfl

theorem unnaming_dropTable {purge : Bool} : Unnaming (CatalogManager.dropTable t purge) := by
  refine unnaming_body fun conn => Acts.bind (unnaming_atomically (by simp)) fun _ => ?_
  refine Acts.bind unnaming_dropTable_client fun dropped => ?_
  cases dropped with
  | false => exact Acts.bind (unnaming_atomically (by simp)) fun _ => Acts.ret _
  | true => exact Acts.bind (unnaming_atomically (by simp)) fun _ => Acts.ret _

/-- The statement with which the request gives a table a name. -/
def Request.namingStatement : Request → Option Sql
  | .createTable t schema spec properties =>
    some (.insertTable (cStr t) (cStr schema) (cStr spec) (cStr (propertiesJson properties)))
  | .alterTable t (.rename newName) => some (.renameTable (cStr newName) (cStr t))
  | _ => none

/-- What the other requests send. -/
theorem Request.namesTables_of_mayRun (hm : q.mutates = false) (h : q.MayRun sql) :
    sql.namesTables = false := by
  cases q with
  | createTable | alterTable | dropTable | commitSnapshot | commit => cases hm
  | beginTransaction clientId isolation =>
    obtain ⟨_, _, _, rfl⟩ := h
    rfl
  | commitTransaction txnId | abortTransaction txnId =>
    obtain rfl : sql = _ := h
    rfl
  | _ => exact Sql.namesTables_of_selects h

theorem Request.unnaming (h : q.namingStatement = none) : Unnaming q.code := by
  have hend : ∀ (u : String) (x : Reply),
      Unnaming ((PartitionRegistry.invalidateTableCache u).bind fun _ => .ret x) :=
    fun _ _ => Acts.bind (unnaming_atomically (by simp)) fun _ => Acts.ret _
  have hread : q.mutates = false → Unnaming q.code := fun hm =>
    (code_acts q).mono fun a _ ha => by
      rintro ⟨conn, sql, rfl, hs⟩
      rw [Request.namesTables_of_mayRun hm ha] at hs
      cases hs
  cases q with
  | createTable => cases h
  | alterTable t a =>
    cases a with
    | newSchemaJson schema =>
      refine Acts.bind (Acts.getCurrentSchema maySelect_unnaming mayConnect_unnaming
        (not_namesTable (by simp)) (not_namesTable (by simp))) fun current => ?_
      dsimp only
      split
      · exact Acts.ret _
      · exact Acts.bind unnaming_alterTableSchema fun _ => hend t _
    | rename newName => cases h
    | newPartitionSpec | notSet => exact hend t _
  | dropTable t purge =>
    refine Acts.bind unnaming_dropTable fun result => ?_
    dsimp only
    split
    · exact Acts.bind (unnaming_atomically (by simp)) fun _ => Acts.ret _
    · exact Acts.ret _
  | commitSnapshot | commit => exact Acts.bind unnaming_commitSnapshot fun _ => Acts.ret _
  | _ => exact hread rfl

/-! Code that gives a table a name. -/

section naming
variable {f : PGresult sql.Row → α} {body : Conn → Code α} {Q : α → Prop}

/-- The statements of a request that give tables names. -/
theorem Request.naming_acts (q : Request) : Acts (fun a => a.NamesTable →
    ∃ conn sql, q.namingStatement = some sql ∧ a = .execParams conn sql) q.code := by
  have hother : ∀ {a : Act} {p : Prop}, (∀ conn sql, a ≠ .execParams conn sql) → a.NamesTable → p :=
    fun h ha => absurd ha (not_namesTable h)
  cases h : q.namingStatement with
  | none => exact (Request.unnaming h).mono fun _ _ ha hn => absurd hn ha
  | some sql =>
    have hc : MayConnect fun a : Act => a.NamesTable →
        ∃ conn sql', some sql = some sql' ∧ a = .execParams conn sql' :=
      ⟨hother (by simp), fun _ => hother (by simp)⟩
    cases q with
    | createTable t schema spec properties =>
      cases h
      refine Acts.bind (Acts.withExclusive (Acts.withConnection hc fun conn => ?_)
        (hother (by simp)) (hother (by simp))) fun _ => Acts.ret _
      refine Acts.bind (Acts.statement _ fun _ => ⟨conn, _, rfl, rfl⟩) fun ok => ?_
      cases ok <;> exact Acts.ret _
    | alterTable t a =>
      cases a with
      | rename newName =>
        cases h
        refine Acts.bind (Acts.withExclusive (Acts.withExclusive (Acts.withConnection hc
          fun conn => ?_) (hother (by simp)) (hother (by simp))) (hother (by simp))
          (hother (by simp))) fun _ => Acts.bind (p := PartitionRegistry.invalidateTableCache t)
            (Acts.atomically (hother (by simp))) fun _ => Acts.ret _
        refine Acts.bind (Acts.statement _ fun _ => ⟨conn, _, rfl, rfl⟩) fun ok => ?_
        cases ok <;> exact Acts.ret _
      | _ => cases h
    | _ => cases h

/-- A function that closes once it has decided. -/
abbrev Deciding (p : Code α) : Prop := p.LeadsBy Act.Decides Act.Closes fun _ => True

theorem not_decides (hc : ¬ a.Commits) (hn : ∀ conn sql, a ≠ .execParams conn sql) : ¬ a.Decides :=
  fun h => h.elim hc (not_namesTable hn)

theorem deciding_withExclusive {p : Code α} (h : Deciding p) : Deciding (withExclusive t p) := by
  refine .bind (p := atomically (.lockExclusive t)) ⟨?_, fun _ => trivial⟩ fun _ =>
    h.guarded ?_ trivial
  · exact not_decides (by simp [Act.Commits]) (by simp)
  · exact not_decides (by simp [Act.Commits]) (by simp)

theorem deciding_withConnection (h : ∀ conn, Deciding (body conn)) :
    Deciding (withConnection body) := by
  refine .bind (p := atomically .acquire) ⟨?_, fun _ => trivial⟩ fun conn => ?_
  · exact not_decides (by simp [Act.Commits]) (by simp)
  · cases conn with
    | none => trivial
    | some conn => exact (h conn).guarded (not_decides (by simp [Act.Commits]) (by simp)) trivial

/-- A statement, and an answer. -/
theorem deciding_body (g : PGresult sql.Row → Bool) (f : Bool → Code α)
    (hf : ∀ ok, (f ok).result.isSome) :
    Deciding (((execParams conn sql).bind fun res => .ret (g res)).bind f) := by
  have hret : ∀ ok, ∃ x, f ok = .ret x := fun ok => by
    obtain ⟨x, hx⟩ := Option.isSome_iff_exists.mp (hf ok)
    exact ⟨x, Prog.result_eq_some hx⟩
  refine ⟨fun _ r => ?_, fun r => ?_⟩
  · obtain ⟨x, hx⟩ := hret (g r)
    show (f (g r)).Ends _ ∧ (f (g r)).All _
    rw [hx]
    exact ⟨trivial, trivial⟩
  · obtain ⟨x, hx⟩ := hret (g r)
    show (f (g r)).LeadsBy _ _ _
    rw [hx]
    trivial

theorem Closing.deciding {P : α → Prop} {p : Code α} (h : Closing P p) (hn : Unnaming p) :
    Deciding p := by
  refine (h.and hn).mono fun a k ha hd r => ?_
  obtain ⟨hends, hcloses⟩ := ha.1 (hd.resolve_right ha.2) r
  exact ⟨hends.mono fun _ _ => trivial, hcloses⟩

theorem closing_dropTable {purge : Bool} : Closing (fun x => x.success = true)
    (CatalogManager.dropTable t purge) := by
  have h := mayEdit_any
  refine closing_body fun conn => closing_bind (Acts.command h nofun) fun _ => ?_
  refine closing_bind (Acts.dropTable (Acts.mayChange_noCommit h) purge) fun dropped => ?_
  cases dropped with
  | false => exact closing_noCommit (Acts.bind (Acts.command h nofun) fun _ => Acts.ret _)
  | true => exact ⟨fun _ _ => ⟨rfl, trivial⟩, fun _ => trivial⟩

theorem settles_dropTable {purge : Bool} : (Request.dropTable t purge).Settles fun y =>
    ∃ r, y = .operation r ∧ r.success = true := by
  constructor
  · refine commitsOnce_dropTable.andThen fun r => ?_
    show Acts _ (ite _ _ _)
    split
    · exact Acts.bind (Acts.atomically ⟨trivial, nofun⟩) fun _ => Acts.ret _
    · exact Acts.ret _
  · refine closing_dropTable.andThen (fun r hr => ?_) fun r => ?_
    · show Prog.Ends _ (ite _ _ _)
      rw [if_pos hr]
      exact fun _ => ⟨r, rfl, hr⟩
    · show Prog.All _ (ite _ _ _)
      split
      · exact ⟨⟨nofun, trivial⟩, fun _ => trivial⟩
      · trivial

/-- A request that sends `COMMIT`. -/
inductive Request.Commits : Request → Prop
  | commit {q : Request} {x : CommitCall} : q.commitCall = some x → q.Commits
  | alter {t schema : String} : Request.Commits (.alterTable t (.newSchemaJson schema))
  | drop {t : String} {purge : Bool} : Request.Commits (.dropTable t purge)

theorem Request.Commits.namingStatement (h : q.Commits) : q.namingStatement = none := by
  cases h with
  | commit hx =>
    cases q with
    | commit | commitSnapshot => rfl
    | _ => cases hx
  | alter | drop => rfl

theorem Request.Commits.closing (h : q.Commits) : ∃ P, Closing P q.code := by
  cases h with
  | commit hx => exact ⟨_, (settles_commitCall hx).closing⟩
  | alter => exact ⟨_, settles_alterTable.closing⟩
  | drop => exact ⟨_, settles_dropTable.closing⟩

/-- A request decides at most once. -/
theorem Request.deciding (q : Request) : Deciding q.code := by
  by_cases hcommits : q.Commits
  · obtain ⟨P, hP⟩ := hcommits.closing
    exact hP.deciding (Request.unnaming hcommits.namingStatement)
  have hinvalidate : ∀ (u : String) (x : Reply), (((PartitionRegistry.invalidateTableCache u).bind
      fun _ => .ret x : Code Reply).All fun a _ => ¬ a.Decides ∧ a.Closes) := fun _ _ =>
    ⟨⟨Act.Closes.not_decides trivial, trivial⟩, fun _ => trivial⟩
  have hends : ∀ (u : String) (x : Reply), ((PartitionRegistry.invalidateTableCache u).bind
      fun _ => .ret x : Code Reply).Ends fun _ => True := fun _ _ _ => trivial
  have hread : q.mutates = false → q.namingStatement = none → Deciding q.code := by
    intro hm hn
    refine .of_not ((code_acts q).and (Request.unnaming hn) |>.mono fun a _ ha => ?_)
    rintro (⟨conn, rfl⟩ | hd)
    · have hq : q.mutates = true := ha.1
      simp [hm] at hq
    · exact ha.2 hd
  cases q with
  | createTable t schema spec properties =>
    refine .andThen (deciding_withExclusive (deciding_withConnection fun conn =>
      deciding_body _ _ fun ok => ?_)) (fun _ _ => trivial) fun _ => trivial
    cases ok <;> trivial
  | alterTable t a =>
    cases a with
    | newSchemaJson schema => exact absurd .alter hcommits
    | rename newName =>
      refine .andThen (deciding_withExclusive (deciding_withExclusive (deciding_withConnection
        fun conn => deciding_body _ _ fun ok => ?_))) (fun _ _ => hends t _) fun _ => hinvalidate t _
      cases ok <;> trivial
    | newPartitionSpec | notSet => exact .of_not ((hinvalidate t _).mono fun _ _ h => h.1)
  | dropTable t purge => exact absurd .drop hcommits
  | commitSnapshot | commit => exact absurd (.commit rfl) hcommits
  | _ => exact hread rfl rfl

/-! The answer of a request that gives a name. -/

/-- A function that returns in `Q` if and only if its statement has been confirmed. -/
abbrev Telling (Q : α → Prop) (p : Code α) : Prop := p.Tells Act.Confirmed Q False

theorem telling_withExclusive {p : Code α} (h : Telling Q p) : Telling Q (withExclusive t p) := by
  refine .bind (p := atomically (.lockExclusive t)) ⟨fun _ => id, fun _ => trivial⟩ id fun _ => ?_
  exact h.guarded fun _ => id

theorem telling_withConnection (h : ∀ conn, Telling Q (body conn)) :
    Telling Q (withConnection body) := by
  refine .bind (p := atomically .acquire) ⟨fun _ => id, fun _ => trivial⟩ id fun conn => ?_
  cases conn with
  | none => exact id
  | some conn => exact (h conn).guarded fun _ => id

theorem Request.tells (h : q.namingStatement.isSome = true) :
    Telling (fun y => ∃ r, y = .operation r ∧ r.success = true) q.code := by
  have hend : ∀ (r : OperationResult) (seen : Prop), (r.success = true ↔ seen) →
      ((∃ r', Reply.operation r = .operation r' ∧ r'.success = true) ↔ seen) := by
    intro r seen hr
    rw [← hr]
    constructor
    · rintro ⟨r', he, hs⟩
      cases he
      exact hs
    · exact fun hs => ⟨r, rfl, hs⟩
  cases q with
  | createTable t schema spec properties =>
    refine .andThen (P := fun x => x.success = true)
      (telling_withExclusive (telling_withConnection fun conn => ?_)) hend
    intro r
    change PGresult Empty at r
    show Prog.Tells _ _ (if r.someAffected = true then _ else _) (False ∨ r.someAffected = true)
    split
    · rename_i hr
      simp [Prog.Tells, hr]
    · rename_i hr
      simp [Prog.Tells, hr]
  | alterTable t a =>
    cases a with
    | rename newName =>
      refine .andThen (P := fun x => x.success = true)
        (telling_withExclusive (telling_withExclusive (telling_withConnection fun conn => ?_)))
        fun x seen hx _ => hend x _ (hx.trans (or_iff_left id).symm)
      intro r
      change PGresult Empty at r
      show Prog.Tells _ _ (if r.commandOk = true then _ else _) (False ∨ r.commandOk = true)
      split
      · rename_i hr
        simp [Prog.Tells, hr]
      · rename_i hr
        simp [Prog.Tells, hr]
    | _ => cases h
  | _ => cases h

end naming

end IceLog
