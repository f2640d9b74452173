import IceLog.Catalog.Names
import IceLog.Db.Queries
import IceLog.Server.Thread

/-! The statements that read, and the client functions made of them. -/
namespace IceLog

open Interleaved Serial

variable {pg : Postgres} {policy : Policy} {others : Bool} {i : ℕ} {q : Request}
  {h : Held} {ds : List String} {w w' v : Moment} {t : String} {c : Conn} {sure : Prop} {α : Type}

/-- What a statement answers about `db`; if `sure`, only a violated constraint is an error. -/
inductive Answered (pg : Postgres) (sure : Prop) (sql : Sql) (db : Db) : PGresult sql.Row → Prop
  | error : (sure → ∃ now, sql.run pg now db = none) → Answered pg sure sql db .error
  | rows {now : ℕ} {r : PGresult sql.Row} {p : Changes} : sql.run pg now db = some (r, p) →
      Answered pg sure sql db r

/-- Every statement succeeds. -/
def Policy.Flawless (policy : Policy) : Prop :=
  ∀ q a o, policy.allows q a o = true →
    (∃ c k, a = .exec c k) ∨ (∃ c sql, a = .execParams c sql) → o = .ok

/-- The policy lets the statement succeed only. -/
def Policy.Sure (policy : Policy) (q : Request) (sql : Sql) : Prop :=
  ∀ c o, policy.allows q (.execParams c sql) o = true → o = .ok

theorem Policy.Flawless.statement (hf : policy.Flawless) (sql : Sql) : policy.Sure q sql :=
  fun c o ho => hf q _ o ho (.inr ⟨c, sql, rfl⟩)

theorem Policy.Flawless.steady (hf : policy.Flawless) : policy.Steady :=
  fun _ _ _ _ ho => hf.statement _ _ _ ho

theorem harmless_needs {sql : Sql} (hs : sql.harmless = true) {s : Server}
    (hc : (s.backend.session c).Closed) : StatementNeeds policy i q c s sql := by
  cases sql <;> first | exact hc | trivial

/-- A statement that reads, and the event that it is in the history. -/
theorem safe_sent {sql : Sql} {k : PGresult sql.Row → Code α} {post : α → Moment → Prop}
    {exc : Moment → Prop} (hc : Connected policy i q h ds c sure w) (hs : sql.harmless = true)
    (hsure : sure → policy.Sure q sql)
    (H : ∀ v r s, Later policy others h.locked w v →
      Connected policy i q h ds c sure (v.next (.act i q (.execParams c sql) r) s) →
      Later policy others h.locked v (v.next (.act i q (.execParams c sql) r) s) →
      Answered pg sure sql v.now.db r → Safe (view pg policy others i q) post exc (k r)
        (v.next (.act i q (.execParams c sql) r) s)) :
    Safe (view pg policy others i q) post exc (.act (.execParams c sql) k) w := by
  refine safe_act hc.own fun v hv hl hk => ?_
  have hsess := hk.session c hc.own.holder
  have hclosed : (v.now.backend.session c).Closed := hsess ▸ hc.closed
  refine ⟨⟨hv.holder, harmless_needs hs hclosed⟩, fun r s hx hp => ?_⟩
  have hidle : sure → v.now.backend.session c = .idle := fun h => hsess.trans (hc.idle h)
  obtain ⟨o, ho, hx⟩ := performed_of_exec hx
  cases hx with
  | @execParams _ _ a _ b' hans hb =>
    subst hans
    have hok : sure → a = .ok := fun h => by simpa using hsure h c _ ho
    have key : ∀ σ, b'.session c = σ → v.now.db.SameRows b'.db → σ.Closed → (sure → σ = .idle) →
        Answered pg sure sql v.now.db r →
        Safe (view pg policy others i q) post exc (k r)
          (v.next (.act i q (.execParams c sql) r) { v.now with backend := b' }) := by
      rintro σ rfl hrows hσ hσ' ha
      have hstill : v.now.Still { v.now with backend := b' } := ⟨hrows, rfl, rfl⟩
      have hh : Holds i { h with conn := some c } { v.now with backend := b' } :=
        ⟨hv.holds.writer, hv.holds.reader, hv.holds.holder, hv.holds.nodup⟩
      exact H v r _ hl ⟨hv.next hh hp hrows, hσ, hσ'⟩ (.next hp hstill) ha
    cases Backend.execParams_cases hb with
    | failed hf hq hnone =>
      refine key _ hq.session_self hq.sameRows (hclosed.fails hf) (fun h => ?_) (.error fun h => ?_)
      · exact (hnone (hok h) (hidle h)).2
      · exact ⟨_, (hnone (hok h) (hidle h)).1⟩
    | @committed r _ p σ _ hr _ ha =>
      have hrows : v.now.db.SameRows ((sql.draw v.now.backend.db).apply p) :=
        (Db.sameRows_draw sql _).trans (Sql.run_harmless hs hr _)
      rcases ha with ⟨-, rfl, rfl⟩ | ⟨ha, rfl, rfl⟩
      · exact key .idle (by simp) hrows trivial (fun _ => rfl) (.rows hr)
      · have hnot : ¬ sure := fun h => by simpa [ha] using hok h
        exact key .broken (by simp) hrows trivial (fun h => absurd h hnot)
          (.error fun h => absurd h hnot)
    | added _ hin _ _ => simp [hin, Session.Closed] at hclosed

theorem safe_select {sql : Sql} {k : PGresult sql.Row → Code α} {post : α → Moment → Prop}
    {exc : Moment → Prop} (hc : Connected policy i q h ds c sure w) (hs : sql.harmless = true)
    (hsure : sure → policy.Sure q sql)
    (H : ∀ v r v', Later policy others h.locked w v → Connected policy i q h ds c sure v' →
      Later policy others h.locked v v' → Answered pg sure sql v.now.db r →
        Safe (view pg policy others i q) post exc (k r) v') :
    Safe (view pg policy others i q) post exc (.act (.execParams c sql) k) w :=
  safe_sent hc hs hsure fun v r _ hl => H v r _ hl

section client
variable {exc : Moment → Prop}

/-- A statement of which the client keeps `f` of the result. -/
theorem safe_answer {sql : Sql} (f : PGresult sql.Row → α) {P : α → Moment → Prop}
    (hc : Connected policy i q h ds c sure w) (hs : sql.harmless = true)
    (hsure : sure → policy.Sure q sql) (hP : ∀ x, Durable policy others h.locked (P x))
    (H : ∀ v r v', Later policy others h.locked w v' → Later policy others h.locked v v' →
      Answered pg sure sql v.now.db r → P (f r) v') :
    Safe (view pg policy others i q) (fun x u => Connected policy i q h ds c sure u ∧ P x u) exc
      ((execParams c sql).bind fun res => .ret (f res)) w :=
  safe_select hc hs hsure fun v r v' hl hc' hl' ha =>
    safe_connected_ret hP hc' (H v r v' (hl.trans hl') hl' ha)

/-- What is read about a table that does not change meanwhile: `x`, or `failed` if a statement may
fail. -/
def Reads (policy : Policy) (others : Bool) (ts : List String) (sure : Prop) (name : String)
    (f : Db → α) (failed : α) (w : Moment) (x : α) (u : Moment) : Prop :=
  Later policy others ts w u ∧
    (Calm policy others ts name → x = f u.now.db ∨ (x = failed ∧ ¬ sure))

/-- Under a lock of a clean name, the table that the database finds for it does not change. -/
theorem Calm.of_clean {ts : List String} (hn : policy.Clean → NulFree t) (ht : t ∈ ts)
    (hc : policy.Clean) : Calm policy others ts (cStr t) :=
  .inr ⟨hc, (cStr_of_nulFree (hn hc)).symm ▸ ht⟩

variable {ts : List String} {name : String} {f : Db → α} {failed : α}

theorem durable_reads (hf : About name f) (x : α) :
    Durable policy others ts (Reads policy others ts sure name f failed w x) :=
  fun _ _ hl hr => ⟨hr.1.trans hl, fun hc => (hr.2 hc).imp_left fun hx =>
    hx.trans (hf _ _ (hl.sameTable hc)).symm⟩

theorem Reads.trans {x : α} (hl : Later policy others ts w v) {u : Moment}
    (hr : Reads policy others ts sure name f failed v x u) :
    Reads policy others ts sure name f failed w x u :=
  ⟨hl.trans hr.1, hr.2⟩

/-- A statement that reads `f` of the table, of which the client keeps `g` of the result. -/
theorem safe_read {sql : Sql} {g : PGresult sql.Row → α} (name : String)
    (hy : sql.Yields pg g f) (hc : Connected policy i q h ds c sure w) (hs : sql.harmless = true)
    (hsure : sure → policy.Sure q sql) (hf : About name f) :
    Safe (view pg policy others i q) (fun x u => Connected policy i q h ds c sure u ∧
      Reads policy others h.locked sure name f (g .error) w x u) exc
      ((execParams c sql).bind fun res => .ret (g res)) w := by
  refine safe_answer g hc hs hsure (durable_reads hf) fun v r v' hl hl' ha => ⟨hl, fun hcalm => ?_⟩
  have hsame := hf _ _ (hl'.sameTable hcalm)
  cases ha with
  | rows hr => exact .inl ((hy.ok _ _ _ _ hr).trans hsame.symm)
  | error h =>
    by_cases hsure : sure
    · obtain ⟨now, hn⟩ := h hsure
      exact .inl ((hy.violated _ _ hn).trans hsame.symm)
    · exact .inr ⟨rfl, hsure⟩

theorem safe_getTableId (hc : Connected policy i q h ds c sure w)
    (hsure : sure → policy.Sure q (.selectTableId (cStr t))) :
    Safe (view pg policy others i q) (fun x u => Connected policy i q h ds c sure u ∧
      Reads policy others h.locked sure (cStr t) (fun db => (db.find (cStr t)).map Prod.fst) none
        w x u) exc (PgClient.getTableId c t) w :=
  safe_read (cStr t) yields_tableId hc rfl hsure (about_find_map _ _)

theorem safe_getTable (hc : Connected policy i q h ds c sure w)
    (hsure : sure → policy.Sure q (.selectTable (cStr t))) :
    Safe (view pg policy others i q) (fun x u => Connected policy i q h ds c sure u ∧
      Reads policy others h.locked sure (cStr t)
        (fun db => (db.find (cStr t)).map fun p => p.2.toRow p.1) none w x u) exc
      (PgClient.getTable c t) w :=
  safe_read (cStr t) yields_table hc rfl hsure (about_find_map _ _)

theorem safe_getCurrentSnapshot (hc : Connected policy i q h ds c sure w)
    (hsure : sure → policy.Sure q (.selectCurrent (cStr t))) :
    Safe (view pg policy others i q) (fun x u => Connected policy i q h ds c sure u ∧
      Reads policy others h.locked sure (cStr t) (fun db => db.current (cStr t)) 0 w x u) exc
      (PgClient.getCurrentSnapshot c t) w :=
  safe_read (cStr t) yields_current hc rfl hsure (about_current _)

/-- A function of two statements: the second is about the id that the first has found. -/
theorem safe_by_id {β : Type} {sql : ℕ → Sql} {f : Db → ℕ → β} {failed : β}
    {g : ∀ id, PGresult (sql id).Row → β} (hy : ∀ id, (sql id).Yields pg (g id) fun db => f db id)
    (herr : ∀ id, g id .error = failed) (hf : AboutSlice f)
    (hc : Connected policy i q h ds c sure w) (hs : ∀ id, (sql id).harmless = true)
    (hid : sure → policy.Sure q (.selectTableId (cStr t)))
    (hsure : sure → ∀ id, policy.Sure q (sql id)) :
    Safe (view pg policy others i q) (fun x u => Connected policy i q h ds c sure u ∧
      Reads policy others h.locked sure (cStr t) (Db.ofTable f failed (cStr t)) failed w x u) exc
      ((PgClient.getTableId c t).bind fun
        | none => .ret failed
        | some id => (execParams c (sql id)).bind fun res => .ret (g id res)) w := by
  have hf' := hf.about failed (cStr t)
  refine Safe.bind ((safe_getTableId hc hid).mono (fun x u hu => ?_) fun _ => id)
  obtain ⟨hc', hl, hx⟩ := hu
  cases x with
  | none =>
    refine safe_connected_ret (durable_reads hf') hc' ⟨hl, fun hcalm => ?_⟩
    rcases hx hcalm with hx | ⟨-, hx⟩
    · refine .inl ?_
      have : u.now.db.find (cStr t) = none := Option.map_eq_none_iff.mp hx.symm
      simp [Db.ofTable, this]
    · exact .inr ⟨rfl, hx⟩
  | some id =>
    refine safe_answer (g id) hc' (hs id) (fun h => hsure h id) (durable_reads hf')
      fun v r v' hl' hl'' ha => ⟨hl.trans hl', fun hcalm => ?_⟩
    obtain hx | ⟨hx, -⟩ := hx hcalm
    · obtain ⟨⟨id', row⟩, hfind, rfl⟩ := Option.map_eq_some_iff.mp hx.symm
      have hsame := hl''.sameTable hcalm
      have hv' : v'.now.db.find (cStr t) = some (id', row) :=
        (hl'.sameTable hcalm).find.trans hfind
      have hv : v.now.db.find (cStr t) = some (id', row) := hsame.find.symm.trans hv'
      rw [hf' _ _ hsame]
      simp only [Db.ofTable, hv, Option.map_some, Option.getD_some]
      cases ha with
      | rows hr => exact .inl ((hy _).ok _ _ _ _ hr)
      | error he =>
        by_cases hsu : sure
        · obtain ⟨now, hn⟩ := he hsu
          exact .inl ((hy _).violated _ _ hn)
        · exact .inr ⟨herr _, hsu⟩
    · cases hx

/-- `f` of the rows that are read, where the reading statements succeed. -/
theorem safe_queryPartitions {s : ℕ} (hc : Connected policy i q h ds c sure w)
    (hid : sure → policy.Sure q (.selectTableId (cStr t)))
    (hsure : sure → ∀ id, policy.Sure q (.selectPartitions id s)) :
    Safe (view pg policy others i q) (fun x u => Connected policy i q h ds c sure u ∧
      Reads policy others h.locked sure (cStr t) (fun db => db.queryPartitions (cStr t) s) none
        w x u) exc (PgClient.queryPartitions c t s) w := by
  have := @safe_by_id pg policy others i q h ds w t c sure exc _ _ _ none _
    (yields_partitions s) (fun _ => rfl) (aboutSlice_listed _ s) hc (fun _ => rfl) hid hsure
  refine this.mono (fun x u hu => ?_) fun _ => id
  simpa only [funext (ofTable_listed _ s (cStr t)), Option.map_id_fun', id_eq] using hu

theorem safe_queryPartitionsPaged {s : ℕ} {pageSize last : ℤ}
    (hc : Connected policy i q h ds c sure w)
    (hid : sure → policy.Sure q (.selectTableId (cStr t)))
    (hsure : sure → ∀ id, policy.Sure q (.selectPartitionsPaged id s last (pageLimit pageSize))) :
    Safe (view pg policy others i q) (fun x u => Connected policy i q h ds c sure u ∧
      Reads policy others h.locked sure (cStr t)
        (fun db => (db.queryPartitions (cStr t) s).map (page (pageLimit pageSize) last)) none
        w x u) exc (PgClient.queryPartitionsPaged c t s pageSize last) w := by
  have := @safe_by_id pg policy others i q h ds w t c sure exc _ _ _ none _
    (fun id => yields_page s id (pageLimit pageSize) last) (fun _ => rfl) (aboutSlice_listed _ s)
    hc (fun _ => rfl) hid hsure
  simp only [funext (ofTable_listed _ s (cStr t))] at this
  exact this

theorem safe_client_getSnapshot {s : ℕ} (hc : Connected policy i q h ds c sure w)
    (hf : sure → policy.Flawless) :
    Safe (view pg policy others i q) (fun x u => Connected policy i q h ds c sure u ∧
      Reads policy others h.locked sure (cStr t) (Db.ofTable (Db.snapshotAt s) none (cStr t)) none
        w x u) exc (PgClient.getSnapshot c t s) w :=
  safe_by_id (yields_snapshot s) (fun _ => rfl) (aboutSlice_snapshotAt s) hc (fun _ => rfl)
    (fun hs => (hf hs).statement _) fun hs _ => (hf hs).statement _

theorem safe_client_listSnapshots {limit : ℤ} (hc : Connected policy i q h ds c sure w)
    (hf : sure → policy.Flawless) :
    Safe (view pg policy others i q) (fun x u => Connected policy i q h ds c sure u ∧
      Reads policy others h.locked sure (cStr t)
        (Db.ofTable (Db.snapshotsOf (snapshotLimit limit)) [] (cStr t)) [] w x u) exc
      (PgClient.listSnapshots c t limit) w :=
  safe_by_id (yields_snapshots (snapshotLimit limit)) (fun _ => rfl) (aboutSlice_snapshotsOf _) hc
    (fun _ => rfl) (fun hs => (hf hs).statement _) fun hs _ => (hf hs).statement _

end client
end IceLog
