import IceLog.Server.Alone
import IceLog.Server.TransactionTable

/-! The `COMMIT` of a request in the history of all: there is no second one, and what follows it
closes the request and acknowledges it. -/
namespace IceLog

open Interleaved

variable {pg : Postgres} {policy : Policy} {i parent : ℕ} {q q' : Request} {α β : Type}
  {p p' : Code α} {tr : List (Σ a : Act, a.Result)} {φ : Act → Prop} {P : Reply → Prop}
  {c : ServerConfig} {t op schema : String} {news : List PartitionRow} {dels : List String}
  {m m' w w' : Moment}

theorem not_noCommit {a : Act} : ¬ a.noCommit ↔ a.Commits := by
  simp only [Act.noCommit, Act.Commits, not_forall, ne_eq, not_not]

/-- Once a function has committed, it does not commit again. -/
theorem CommitsOnce.leaves (h : CommitsOnce φ p) (hl : p.Leaves tr p') (hc : ∃ e ∈ tr, e.1.Commits) :
    Acts Act.noCommit p' := by
  induction hl with
  | nil =>
    obtain ⟨e, he, -⟩ := hc
    cases he
  | @cons a k r tr p' hl ih =>
    by_cases ha : a.noCommit
    · refine ih (h.2 r) ?_
      obtain ⟨e, he, hc⟩ := hc
      rcases List.mem_cons.mp he with rfl | he
      · exact absurd ha (not_noCommit.mpr hc)
      · exact ⟨e, he, hc⟩
    · have hrest := h.1.2 ha r
      exact (hrest.reaches hl.reaches).mono fun _ _ hb => hb.2

/-- A function that commits once, and something that does not commit. -/
theorem CommitsOnce.andThen {f : α → Code β} (h : CommitsOnce φ p)
    (hf : ∀ x, Acts (fun a => φ a ∧ a.noCommit) (f x)) : CommitsOnce φ (p.bind f) := by
  induction p with
  | ret x => exact .of_acts (hf x)
  | throw => trivial
  | act a k ih =>
    refine ⟨⟨h.1.1, fun hc r => ?_⟩, fun r => ih r (h.2 r)⟩
    exact Acts.bind (h.1.2 hc r) hf

/-! The functions that commit. -/

theorem closing_commitSnapshot : Closing (fun x => x.success = true)
    (PartitionRegistry.commitSnapshot t parent op news dels) := by
  have h := mayEdit_any
  have hs := Acts.mayChange_noCommit h
  refine closing_body fun conn => ?_
  refine closing_bind (Acts.getCurrentSnapshot hs.select) fun current => ?_
  split
  · exact closing_noCommit (Acts.ret _)
  refine closing_bind (Acts.command h nofun) fun _ => ?_
  refine closing_bind (Acts.byId hs.select fun id => Acts.statement _ (hs conn _ rfl rfl)) fun n => ?_
  split
  · exact closing_noCommit (Acts.rollback h _)
  refine closing_bind (Acts.insertPartitions hs n news) fun r => ?_
  cases r with
  | some part => exact closing_noCommit (Acts.rollback h _)
  | none =>
  have hm : MayMark (fun a => True ∧ a.noCommit) n := fun _ _ _ => ⟨trivial, nofun⟩
  refine closing_bind (Acts.markPartitionsDeleted hs hm dels) fun r => ?_
  cases r with
  | some key => exact closing_noCommit (Acts.rollback h _)
  | none =>
  refine closing_bind (Acts.statement _ (hs conn _ rfl rfl)) fun moved => ?_
  split
  · exact closing_noCommit (Acts.rollback h _)
  · refine ⟨fun _ _ => ⟨fun _ => rfl, trivial, fun _ => trivial⟩, fun _ => closing_noCommit ?_⟩
    exact Acts.bind (p := PartitionRegistry.invalidateTableCache t)
      (Acts.atomically ⟨trivial, nofun⟩) fun _ => Acts.ret _

theorem closing_alterTableSchema {summary : String} : Closing (fun x => x.success = true)
    (CatalogManager.alterTableSchema t schema summary) := by
  have h := mayEdit_any
  have hs := Acts.mayChange_noCommit h
  refine closing_body fun conn => closing_bind (Acts.getTable hs.select) fun table => ?_
  cases table with
  | none => exact closing_noCommit (Acts.ret _)
  | some existing =>
  refine closing_bind (Acts.command h nofun) fun _ => ?_
  refine closing_bind (Acts.updateTableSchema hs _ _ _) fun stored => ?_
  cases stored with
  | false => exact closing_noCommit (Acts.bind (Acts.command h nofun) fun _ => Acts.ret _)
  | true => exact ⟨fun _ _ => ⟨rfl, trivial⟩, fun _ => trivial⟩

/-- The request sends a `COMMIT` at most once, and then replies in `P` without another wait. -/
structure Request.Settles (q : Request) (P : Reply → Prop) : Prop where
  once : CommitsOnce (fun _ => True) q.code
  closing : Closing P q.code

/-- What `commit_snapshot` is called with. -/
structure CommitCall where
  tableName : String
  parentSnapshotId : ℕ
  operation : String
  newPartitions : List PartitionRow
  deletedPartitionKeys : List String

def Request.commitCall : Request → Option CommitCall
  | .commit t parent op news dels => some ⟨t, parent, op, news, dels⟩
  | .commitSnapshot t news dels parent op =>
    some ⟨t, parent, if op = "" then "append" else op, news.map PartitionInfo.toRow, dels⟩
  | _ => none

theorem Request.code_commitCall {x : CommitCall} (h : q.commitCall = some x) :
    q.code = (PartitionRegistry.commitSnapshot x.tableName x.parentSnapshotId x.operation
      x.newPartitions x.deletedPartitionKeys).bind fun r => .ret (.snapshot r) := by
  cases q with
  | commit | commitSnapshot =>
    cases h
    rfl
  | _ => cases h

theorem settles_commitCall {x : CommitCall} (h : q.commitCall = some x) :
    q.Settles fun y => ∃ r, y = .snapshot r ∧ r.success = true := by
  constructor
  · rw [Request.code_commitCall h]
    exact commitsOnce_commitSnapshot.andThen fun _ => Acts.ret _
  · rw [Request.code_commitCall h]
    exact closing_commitSnapshot.andThen (fun r hr => ⟨r, rfl, hr⟩) fun _ => Acts.ret _

theorem settles_alterTable :
    (Request.alterTable t (.newSchemaJson schema)).Settles fun y =>
      ∃ r, y = .operation r ∧ r.success = true := by
  have hs := Acts.mayChange_noCommit mayEdit_any
  have hcurrent : Acts (fun a => True ∧ a.noCommit) (SchemaStore.getCurrentSchema t) :=
    Acts.getCurrentSchema hs.select ⟨⟨trivial, nofun⟩, fun _ => ⟨trivial, nofun⟩⟩
      ⟨trivial, nofun⟩ ⟨trivial, nofun⟩
  constructor
  · refine CommitsOnce.bind hcurrent fun current => ?_
    dsimp only
    split
    · exact .of_acts (Acts.ret _)
    · refine commitsOnce_alterTableSchema.andThen fun r => ?_
      exact Acts.bind (Acts.atomically ⟨trivial, nofun⟩) fun _ => Acts.ret _
  · refine closing_bind hcurrent fun current => ?_
    dsimp only
    split
    · exact closing_noCommit (Acts.ret _)
    · refine closing_alterTableSchema.andThen (fun r hr _ => ⟨r, rfl, hr⟩) fun r => ?_
      exact ⟨⟨nofun, trivial⟩, fun _ => trivial⟩

/-- The requests that can send `COMMIT`. -/
theorem Request.commits_cases {conn : Conn} {k : Bool → Code Reply}
    (h : q.code.Leaves tr (.act (.exec conn .commit) k)) : (∃ x, q.commitCall = some x) ∨
      (∃ t schema, q = .alterTable t (.newSchemaJson schema)) ∨ ∃ t purge, q = .dropTable t purge := by
  have hmutates : q.mutates = true := ((code_acts q).reaches h.reaches).1
  have hnone : ¬ Acts Act.noCommit q.code := fun hn => (hn.reaches h.reaches).1 conn rfl
  have hc : MayConnect Act.noCommit := ⟨nofun, fun _ => nofun⟩
  have hend : ∀ (t : String) (x : Reply), Acts Act.noCommit
      ((PartitionRegistry.invalidateTableCache t).bind fun _ => .ret x) :=
    fun _ _ => Acts.bind (Acts.atomically nofun) fun _ => Acts.ret _
  cases q with
  | createTable t schema spec properties =>
    refine absurd (Acts.bind (Acts.withExclusive (Acts.withConnection hc fun conn => ?_) nofun nofun)
      fun _ => Acts.ret _) hnone
    refine Acts.bind (Acts.statement _ nofun) fun ok => ?_
    cases ok <;> exact Acts.ret _
  | alterTable t a =>
    cases a with
    | newSchemaJson schema => exact .inr (.inl ⟨t, schema, rfl⟩)
    | rename newName =>
      refine absurd (Acts.bind (Acts.withExclusive (Acts.withExclusive
        (Acts.withConnection hc fun conn => ?_) nofun nofun) nofun nofun) fun _ => hend t _) hnone
      refine Acts.bind (Acts.statement _ nofun) fun ok => ?_
      cases ok <;> exact Acts.ret _
    | newPartitionSpec | notSet => exact absurd (hend t _) hnone
  | dropTable t purge => exact .inr (.inr ⟨t, purge, rfl⟩)
  | commit | commitSnapshot => exact .inl ⟨_, rfl⟩
  | _ => cases hmutates

/-! In the history. -/

/-- The thread `i` has sent `COMMIT` at the moment `m`, for the request `q`. -/
def Commits (i : ℕ) (q : Request) (m w : Moment) : Prop :=
  ∃ conn r s, (m.next (.act i q (.exec conn .commit) r) s).Before w

theorem Commits.mem_actionsOf (h : Commits i q m w) : ∃ e ∈ actionsOf i w, e.1.Commits := by
  obtain ⟨conn, r, s, hb⟩ := h
  exact ⟨⟨.exec conn .commit, r⟩, Interleaved.mem_actionsOf.mpr ⟨_, q, hb.mem_past⟩, conn, rfl⟩

theorem Commits.before (h : Commits i q m w) : m.Before w := by
  obtain ⟨conn, r, s, hb⟩ := h
  exact (World.before_next _ _ _).trans hb

theorem Commits.mono (h : Commits i q m w) (hw : w.Before w') : Commits i q m w' := by
  obtain ⟨conn, r, s, hb⟩ := h
  exact ⟨conn, r, s, hb.trans hw⟩

/-- The thread that has sent `COMMIT` still serves the request. -/
theorem Reachable.commits_request (h : Reachable pg policy c) (hm : Commits i q m c.world) :
    ∃ th, c.thread i = some th ∧ th.request = q := by
  obtain ⟨conn, r, s, hb⟩ := hm
  exact h.traced.request i q _ r _ hb.mem_past

/-- What is left of the code of a thread that sends `COMMIT` sends no second one. -/
theorem Reachable.commits_unique (h : Reachable pg policy c) (hq : q.Settles P)
    (hm : Commits i q m c.world) (hm' : Commits i q' m' c.world) : m = m' := by
  obtain ⟨th, hth, rfl⟩ := h.commits_request hm
  obtain ⟨th', hth', rfl⟩ := h.commits_request hm'
  obtain rfl := Option.some.inj (hth.symm.trans hth')
  have hlater : ∀ {u v : Moment}, Commits i th.request u v → ¬ Commits i th.request v c.world := by
    rintro u v hu ⟨conn, r, s, hb⟩
    obtain ⟨d, d', hd, rfl, hs, -⟩ := h.step_of_before hb
    obtain ⟨-, k, hl⟩ := hd.at_action hs
    exact (hq.once.leaves hl hu.mem_actionsOf).1 conn rfl
  obtain ⟨conn, r, s, hb⟩ := hm
  obtain ⟨conn', r', s', hb'⟩ := hm'
  rcases hb.total hb' with hbb | hbb
  · rcases World.before_next_iff.mp hbb with heq | hbb
    · exact (World.next_inj heq).1
    · exact absurd ⟨conn', r', s', hb'⟩ (hlater ⟨conn, r, s, hbb⟩)
  · rcases World.before_next_iff.mp hbb with heq | hbb
    · exact (World.next_inj heq).1.symm
    · exact absurd ⟨conn, r, s, hb⟩ (hlater ⟨conn', r', s', hbb⟩)

/-- A request that has stopped after its `COMMIT` has acknowledged it. -/
theorem Reachable.commits_acknowledged (h : Reachable pg policy c) (hq : q.Settles P)
    (hm : Commits i q m c.world) {th : Thread Act Act.Result Request Reply}
    (hth : c.thread i = some th) (hf : th.code.Finished) : ∃ x, c.Returned i q x ∧ P x := by
  obtain ⟨th', hth', hreq⟩ := h.commits_request hm
  obtain rfl := Option.some.inj (hth.symm.trans hth')
  have hl := h.traced.leaves i th hth
  obtain ⟨q, code⟩ := th
  obtain rfl : q = _ := hreq
  have hends := hq.closing.leads.leaves hl hm.mem_actionsOf
  cases code with
  | ret x => exact ⟨x, hth, hends⟩
  | throw => exact hends.elim
  | act a k => exact absurd hf Prog.finished_act

end IceLog
