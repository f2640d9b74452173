import IceLog.Db.SchemaVersions
import IceLog.Properties.Storage
import IceLog.Server.Readers

/-! What the history of schemas of a table tells. -/
namespace IceLog

open Interleaved Serial

variable {pg : Postgres} {policy : Policy} {c : ServerConfig} {i k : ℕ} {q : Request} {t : String}
  {r : TableRec} {w' : Moment} {tr : List (Act × Outcome)} {u v : Moment} {db : Db}

/-- The history of every table has an entry for each version after the first. -/
theorem Reachable.recorded (hc : policy.Clean) (h : Reachable pg policy c) :
    ∀ k r, c.state.db.tables.row k = some r → c.state.db.Recorded k r := by
  induction h with
  | @start s hs =>
    intro k r hr
    change s.db.tables.row k = some r at hr
    rw [hs.db] at hr
    cases hr
  | @restart c s _ hs ih =>
    intro k r hr
    change s.db.tables.row k = some r at hr
    change s.db.Recorded k r
    rw [hs.db] at hr ⊢
    exact ih k r hr
  | step h hs ih =>
    intro k
    refine @Db.recorded_of_slices _ _ _ policy.Steady (ih k) ?_
    rcases (h.promise hs).writes hc k with hsame | ⟨i, -, hw⟩
    · exact .inl hsame
    · exact .inr hw.change

/-! What the functions that read the history answer. -/

/-- A call of `p` that runs alone, and in which nothing fails, returns `x`. -/
def Tells (pg : Postgres) (policy : Policy) (c : ServerConfig) {α : Type} (p : Code α) (x : α) :
    Prop :=
  ∀ i q tr y w', c.thread i = none → Solo (server pg policy) i q p c.world tr (some y) w' →
    Faultless tr → y = x

/-- The three reads of the schemas of a table, as the rows of the database have them. -/
theorem tells_schemas (h : Reachable pg policy c) (t : String) :
    (∀ n, Tells pg policy c (SchemaStore.getSchemaAtVersion t n)
      (Db.ofTable (Db.historyAt n) none (cStr t) c.state.db)) ∧
    Tells pg policy c (SchemaStore.getCurrentSchema t) (c.state.db.currentSchema (cStr t)) ∧
    Tells pg policy c (SchemaStore.listSchemaHistory t)
      (Db.ofTable Db.historyOf [] (cStr t) c.state.db) := by
  refine ⟨fun n i q tr y w' hi hx h₀ => ?_, fun i q tr y w' hi hx h₀ => ?_,
    fun i q tr y w' hi hx h₀ => ?_⟩
  · have hr := solo_getSchemaAtVersion (own_fresh h.inv (h.good.fresh i hi)) hx
    exact Option.some.inj (hr.tells h₀)
  · have hr := solo_getCurrentSchema (own_fresh h.inv (h.good.fresh i hi)) hx
    exact Option.some.inj (hr.tells h₀)
  · have hr := solo_listSchemaHistory (own_fresh h.inv (h.good.fresh i hi)) hx
    exact Option.some.inj (hr.tells h₀)

/-- The versions `n`, …, 1. -/
def versionsDown (n : ℤ) : List ℤ := (List.range n.toNat).map fun j : ℕ => n - j

/-- What the reads of the schemas of the table `k`, which is called `t`, should answer. -/
structure FullHistory (w : Moment) (t : String) (k : ℕ) (r : TableRec) : Prop where
  /-- A version up to the current one is answered by the schema that the table had with it. -/
  past : ∀ n, 1 ≤ n → n ≤ r.schemaVersion →
    ∃ x, Db.ofTable (Db.historyAt n) none (cStr t) w.now.db = some x ∧
      ∀ (u : Moment) (r' : TableRec), u.Before w → u.now.db.tables.row k = some r' →
        r'.schemaVersion = n → x.schemaJson = r'.schemaJson
  current : (Db.ofTable (Db.historyAt r.schemaVersion) none (cStr t) w.now.db).map
      SchemaVersion.schemaJson = (w.now.db.currentSchema (cStr t)).map SchemaVersion.schemaJson
  versions : (Db.ofTable Db.historyOf [] (cStr t) w.now.db).map SchemaVersion.version =
    versionsDown r.schemaVersion

theorem length_historyOf (db : Db) (k : ℕ) :
    (db.historyOf k).length = (db.chronicle k).length := by
  rw [Db.historyOf_eq, List.length_mergeSort, List.length_map]

/-- The history of a live table has fewer entries than the table has had versions, whatever has
happened to it: the first version is not recorded. -/
theorem schema_history_not_full (hc : policy.Clean) (h : Reachable pg policy c)
    (hf : c.state.db.find (cStr t) = some (k, r)) : ¬ FullHistory c.world t k r := by
  intro hfull
  have hrec := h.recorded hc k r (Db.row_of_find hf).1
  have hlen := congrArg List.length hfull.versions
  change (List.map _ (Db.ofTable Db.historyOf [] (cStr t) c.state.db)).length = _ at hlen
  rw [Db.ofTable, hf, versionsDown, List.length_map, List.length_map, List.length_range] at hlen
  change (c.state.db.historyOf k).length = _ at hlen
  rw [length_historyOf] at hlen
  by_cases hneg : r.schemaVersion < 0
  · have hzero : (c.state.db.chronicle k).length = 0 := by omega
    have hone := hrec.version
    rw [hzero] at hone
    have : toInt32 ((0 : ℕ) + 1) = 1 := by decide
    omega
  · have hver := hrec.version
    have : ((c.state.db.chronicle k).length : ℤ) = r.schemaVersion := by omega
    rw [this] at hver
    exact toInt32_add_one_ne _ hver.symm

/-- A table that has been altered once. -/
theorem schema_history_not_full_after_alteration : ∃ (c : ServerConfig) (k : ℕ) (r : TableRec),
    r.schemaVersion = 2 ∧ ¬ FullHistory c.world "t" k r := by
  let altered (c : ServerConfig) : Bool :=
    (c.state.db.find "t").any fun f => decide (f.2.schemaVersion = 2)
  obtain ⟨c, h, hp⟩ := @reachable_of_check .plain .clean
    (serve 0 (.createTable "t" "\x7b\x7d" "" []) 5 ++
      serve 1 (.alterTable "t" (.newSchemaJson "\x7b \x7d")) 14) altered (by decide +kernel)
  simp only [altered, Option.any_eq_true, decide_eq_true_eq] at hp
  obtain ⟨⟨k, r⟩, hf, hr⟩ := hp
  have ht : cStr "t" = "t" := by decide
  exact ⟨c, k, r, hr, schema_history_not_full Policy.clean_clean h (ht.symm ▸ hf)⟩

/-- A table that has just been created has a version and no history. -/
theorem schema_history_full_fails : ¬ ∀ (pg : Postgres) (policy : Policy) (c : ServerConfig)
    (t : String) (k : ℕ) (r : TableRec), Reachable pg policy c →
    c.state.db.find (cStr t) = some (k, r) → FullHistory c.world t k r := by
  intro hall
  let bad (c : ServerConfig) : Bool := (c.state.db.find "t").any fun f =>
    decide (f.2.schemaVersion = 1 ∧ Db.historyAt 1 c.state.db f.1 = none)
  obtain ⟨c, h, hp⟩ := @reachable_of_check .plain .clean
    (serve 0 (.createTable "t" "\x7b\x7d" "" []) 5) bad (by decide +kernel)
  simp only [bad, Option.any_eq_true, decide_eq_true_eq] at hp
  obtain ⟨⟨k, r⟩, hf, hr, hnone⟩ := hp
  have ht : cStr "t" = "t" := by decide
  obtain ⟨x, hx, -⟩ := (hall _ _ c "t" k r h (ht.symm ▸ hf)).past 1 (by decide) (le_of_eq hr.symm)
  change Db.ofTable (Db.historyAt 1) none (cStr "t") c.state.db = some x at hx
  rw [ht, Db.ofTable, hf] at hx
  cases hnone.symm.trans hx

end IceLog
