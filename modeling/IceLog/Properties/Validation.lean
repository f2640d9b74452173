import IceLog.Server.RowChanges

/-! `AlterTable` checks a new schema before it takes the lock under which it stores it, and only if
it finds the table then. -/
namespace IceLog

open Interleaved Serial

variable {pg : Postgres} {policy : Policy} {c : ServerConfig} {i : ℕ} {t schema : String}
  {v w : Moment} {e : ServerEvent} {s : Server} {a : Act} {x : a.Result}
  {tr : List (Σ a : Act, a.Result)}

/-- A request for a schema that the check rejects. -/
def Request.rejected : Request → Bool
  | .alterTable _ (.newSchemaJson schema) =>
    decide (SchemaStore.validateSchemaChange "" schema ≠ "")
  | _ => false

/-- Thread `i` has looked for the row of a table and has not got it. -/
def Missed (i : ℕ) (w : Moment) : Prop :=
  ∃ conn name r, (⟨.execParams conn (.selectTable name), r⟩ : Σ a : Act, a.Result) ∈ actionsOf i w ∧
    PGresult.first r = none

/-- A request for a schema that the check rejects gets the row of its table, after it has looked for
the row in vain. -/
def FoundAgain (w : Moment) (e : ServerEvent) : Prop :=
  ∃ i q conn name r, e = .act i q (.execParams conn (.selectTable name)) r ∧ q.rejected = true ∧
    Missed i w ∧ PGresult.first r ≠ none

/-- The step to `s` gives the table in the row `r` another schema. -/
def Reschemed (w : Moment) (s : Server) (r : TableRec) : Prop :=
  ∃ k r', w.now.db.tables.row k = some r ∧ s.db.tables.row k = some r' ∧
    (r'.schemaVersion ≠ r.schemaVersion ∨ r'.schemaJson ≠ r.schemaJson)

theorem Db.Retitled.not_reschemed {r : TableRec} (h : w.now.db.Retitled s.db) :
    ¬ Reschemed w s r := by
  rintro ⟨k, r', hr, hr', hne⟩
  have he := h.tables k r r' hr hr'
  rw [he] at hne
  simp at hne

/-! The two lookups in the code. -/

/-- The schema is read in vain after the lookup of the table has been in vain. -/
theorem getCurrentSchema_missed
    (h : (SchemaStore.getCurrentSchema t).Leaves tr (.ret none)) :
    ∃ conn r, (⟨.execParams conn (.selectTable (cStr t)), r⟩ : Σ a : Act, a.Result) ∈ tr ∧
      PGresult.first r = none := by
  cases h with
  | cons h =>
  cases h with
  | @cons _ _ conn _ _ h =>
  cases conn with
  | none =>
    cases h with
    | cons h => cases h
  | some conn =>
    cases h with
    | @cons _ _ r _ _ h =>
    refine ⟨conn, r, by simp, ?_⟩
    cases hr : r.first with
    | none => rfl
    | some row =>
      simp only [Prog.pure_eq, Prog.ret_bind, hr] at h
      cases h with
      | cons h =>
      cases h with
      | cons h => cases h

/-- A `COMMIT` follows a lookup that finds the table. -/
theorem alterTableSchema_found {summary : String} {conn : Conn} {f : OperationResult → Code Reply}
    {k : Bool → Code Reply} (hf : ∀ r, Acts Act.noCommit (f r))
    (h : ((CatalogManager.alterTableSchema t schema summary).bind f).Leaves tr
      (.act (.exec conn .commit) k)) :
    ∃ conn r, (⟨.execParams conn (.selectTable (cStr t)), r⟩ : Σ a : Act, a.Result) ∈ tr ∧
      PGresult.first r ≠ none := by
  cases h with
  | cons h =>
  cases h with
  | @cons _ _ conn' _ _ h =>
  cases conn' with
  | none =>
    cases h with
    | cons h => cases h
  | some conn' =>
    cases h with
    | @cons _ _ r _ _ h =>
    refine ⟨conn', r, by simp, fun hr => ?_⟩
    simp only [Prog.pure_eq, Prog.ret_bind, hr] at h
    cases h with
    | cons h =>
    cases h with
    | cons h =>
      have := ((hf _).reaches h.reaches).1
      exact this conn rfl

/-- Where an `AlterTable` sends a `COMMIT`: it has checked the schema, or it has found the table after
it has looked for it in vain. -/
theorem alterTable_checked {conn : Conn} {k : Bool → Code Reply}
    (h : (Request.code (.alterTable t (.newSchemaJson schema))).Leaves tr
      (.act (.exec conn .commit) k)) :
    SchemaStore.validateSchemaChange "" schema = "" ∨
      ∃ tr₁ tr₂, tr = tr₁ ++ tr₂ ∧
        (∃ conn r, (⟨.execParams conn (.selectTable (cStr t)), r⟩ : Σ a : Act, a.Result) ∈ tr₁ ∧
          PGresult.first r = none) ∧
        ∃ conn r, (⟨.execParams conn (.selectTable (cStr t)), r⟩ : Σ a : Act, a.Result) ∈ tr₂ ∧
          PGresult.first r ≠ none := by
  have hread : Acts Act.noCommit (SchemaStore.getCurrentSchema t) :=
    .getCurrentSchema (fun _ _ _ => nofun) ⟨nofun, fun _ => nofun⟩ nofun nofun
  rcases Prog.Leaves.act_cases h with ⟨k', h₁⟩ | ⟨current, tr₁, tr₂, rfl, h₁, h₂⟩
  · exact absurd rfl ((hread.reaches h₁.reaches).1 conn)
  · cases current with
    | some current =>
      left
      by_contra hno
      have hno : SchemaStore.validateSchemaChange current.schemaJson schema ≠ "" := hno
      dsimp only [Option.elim] at h₂
      rw [if_pos hno] at h₂
      cases h₂
    | none =>
      right
      dsimp only [Option.elim] at h₂
      rw [if_neg (by simp)] at h₂
      have hinvalidate : ∀ r : OperationResult, Acts Act.noCommit
          ((PartitionRegistry.invalidateTableCache t).bind fun _ => .ret (Reply.operation r)) :=
        fun r => .bind (.atomically fun _ => nofun) fun _ => .ret _
      exact ⟨tr₁, tr₂, rfl, getCurrentSchema_missed h₁, alterTableSchema_found hinvalidate h₂⟩

/-- In a run in which no request for a schema that the check rejects finds its table after it has
looked for it in vain, an `AlterTable` stores in place of a schema only what the check lets through. -/
theorem altered_schema_checked (h : Reachable pg policy c)
    (hno : ∀ v e s, (v.next e s).Before c.world → ¬ FoundAgain v e)
    (hb : (v.next (.act i (.alterTable t (.newSchemaJson schema)) a x) s).Before c.world)
    {r : TableRec} (hr : Reschemed v s r) :
    SchemaStore.validateSchemaChange r.schemaJson schema = "" := by
  obtain ⟨d, d', hd, rfl, hs, hw, hrun⟩ := h.step_of_before hb
  obtain rfl : d'.state = s := congrArg World.now hw
  rcases hd.retitled hs with hsame | ⟨_, _, conn, _, he⟩
  · exact absurd hr hsame.not_reschemed
  cases he
  obtain ⟨-, k, hl⟩ := hd.at_action hs
  rcases alterTable_checked hl with hok | ⟨tr₁, tr₂, htr, ⟨conn₁, r₁, hm₁, hr₁⟩, conn₂, r₂, hm₂, hr₂⟩
  · exact hok
  by_contra hrej
  -- the second lookup, and what the thread had done before it
  obtain ⟨xs, ys, rfl⟩ := List.append_of_mem hm₂
  rw [← List.append_assoc] at htr
  obtain ⟨u, q, s, hu, hacts⟩ := exists_before_of_actionsOf htr
  have hq : q = .alterTable t (.newSchemaJson schema) := by
    obtain ⟨th, hth, hq⟩ := hd.traced.request i q _ r₂ _ hu.mem_past
    cases hs with
    | act hi _ =>
      cases hi.symm.trans hth
      exact hq.symm
  refine hno u _ s (hu.trans ((World.before_next _ _ _).trans hb)) ⟨i, q, conn₂, _, r₂, rfl, ?_, ?_, hr₂⟩
  · rw [hq]
    exact decide_eq_true hrej
  · exact ⟨conn₁, _, r₁, by rw [hacts]; exact List.mem_append_left _ hm₁, hr₁⟩

/-- The schema of the table is `old`, and the next step of the thread makes it `new`. -/
def aboutToStore (pg : Postgres) (policy : Policy) (c : ServerConfig) (i : ℕ) (name old new : String) :
    Bool :=
  (c.state.db.find name).any fun f => decide (f.2.schemaJson = old) &&
    ((server pg policy).move c (.step i .ok)).any fun c' =>
      (c'.state.db.tables.row f.1).any fun r => decide (r.schemaJson = new)

theorem reschemed_of_check {name old new : String} (hne : new ≠ old)
    (h : aboutToStore pg policy c i name old new = true) : ∃ th, ∃ (a : Act) (x : a.Result), ∃ c' r,
      c.thread i = some th ∧ Step (server pg policy) c (.act i th.request a x) c' ∧
        Reschemed c.world c'.state r := by
  simp only [aboutToStore, Option.any_eq_true, Bool.and_eq_true, decide_eq_true_eq] at h
  obtain ⟨⟨k, r⟩, hf, hr, c', hc', r', hr', hnew⟩ := h
  obtain ⟨th, a, x, hth, hs⟩ := System.act_of_move hc'
  refine ⟨th, a, x, c', r, hth, hs, k, r', (Db.row_of_find hf).1, hr', .inr ?_⟩
  rw [hnew, hr]
  exact hne

/-- The request that acts is not one that the check rejects. -/
def ServerEvent.accepted : ServerEvent → Bool
  | .act _ q _ _ => !q.rejected
  | _ => true

/-- A table that is created and then altered. -/
theorem altered_schema_checked_of_accepted : ∃ (c : ServerConfig) (v : Moment) (a : Act)
    (x : a.Result) (s : Server) (r : TableRec),
    (v.next (.act 1 (.alterTable "t" (.newSchemaJson "\x7b \x7d")) a x) s).Before c.world ∧
      Reschemed v s r ∧ SchemaStore.validateSchemaChange r.schemaJson "\x7b \x7d" = "" := by
  let altering (c : ServerConfig) : Bool := (c.thread 1).any fun th =>
    decide (th.request = .alterTable "t" (.newSchemaJson "\x7b \x7d"))
  obtain ⟨c, h, hp⟩ := @reachable_of_check .plain .any
    (serve 0 (.createTable "t" "\x7b\x7d" "" []) 5 ++
      serve 1 (.alterTable "t" (.newSchemaJson "\x7b \x7d")) 12)
    (fun c => altering c && (c.world.past.all fun p => ServerEvent.accepted p.2) &&
      aboutToStore .plain .any c 1 "t" "\x7b\x7d" "\x7b \x7d") (by decide +kernel)
  simp only [Bool.and_eq_true, altering, Option.any_eq_true, decide_eq_true_eq] at hp
  obtain ⟨⟨⟨th, hth, hq⟩, hall⟩, hstore⟩ := hp
  obtain ⟨th', a, x, c', r, hth', hs, hr⟩ := reschemed_of_check (by decide) hstore
  cases hth.symm.trans hth'
  rw [hq] at hs
  have hb : (c.world.next (.act 1 (.alterTable "t" (.newSchemaJson "\x7b \x7d")) a x) c'.state).Before
      c'.world := hs.world_eq.symm ▸ .refl
  refine ⟨c', c.world, a, x, c'.state, r, hb, hr,
    altered_schema_checked (h.step hs) (fun v e s hv hagain => ?_) hb hr⟩
  obtain ⟨j, q, conn, name, r₂, rfl, hrej, -, -⟩ := hagain
  rw [hs.world_eq] at hv
  rcases World.before_next_iff.mp hv with heq | hv
  · obtain ⟨-, he, -⟩ := World.next_inj heq
    cases he
    revert hrej
    decide
  · have := List.all_eq_true.mp hall _ hv.mem_past
    simp only [ServerEvent.accepted, hrej, Bool.not_true, Bool.false_eq_true] at this

/-- The table is created between the two lookups. -/
theorem altered_schema_not_checked : ¬ ∀ (pg : Postgres) (policy : Policy) (c : ServerConfig)
    (v : Moment) (i : ℕ) (t schema : String) (a : Act) (x : a.Result) (s : Server) (r : TableRec),
    Reachable pg policy c →
    (v.next (.act i (.alterTable t (.newSchemaJson schema)) a x) s).Before c.world →
    Reschemed v s r → SchemaStore.validateSchemaChange r.schemaJson schema = "" := by
  intro hall
  let altering (c : ServerConfig) : Bool := (c.thread 1).any fun th =>
    decide (th.request = .alterTable "t" (.newSchemaJson "[]"))
  obtain ⟨c, h, hp⟩ := @reachable_of_check .plain .clean
    (serve 1 (.alterTable "t" (.newSchemaJson "[]")) 5 ++
      serve 0 (.createTable "t" "\x7b\x7d" "" []) 5 ++ List.replicate 7 (.step 1 .ok))
    (fun c => altering c && aboutToStore .plain .clean c 1 "t" "\x7b\x7d" "[]") (by decide +kernel)
  simp only [Bool.and_eq_true, altering, Option.any_eq_true, decide_eq_true_eq] at hp
  obtain ⟨⟨th, hth, hq⟩, hstore⟩ := hp
  obtain ⟨th', a, x, c', r, hth', hs, hr⟩ := reschemed_of_check (by decide) hstore
  cases hth.symm.trans hth'
  rw [hq] at hs
  have hok := hall .plain .clean c' c.world 1 "t" "[]" a x c'.state r (h.step hs)
    (hs.world_eq.symm ▸ .refl) hr
  revert hok
  change ¬ SchemaStore.validateSchemaChange "" "[]" = ""
  decide

end IceLog
