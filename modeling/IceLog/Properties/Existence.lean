import IceLog.Server.SoleStatements
import IceLog.Server.TableReads

/-! When a name can be given to a table. -/
namespace IceLog

open Interleaved Serial

variable {pg : Postgres} {policy : Policy} {c c' : ServerConfig} {i : ℕ} {t n o : String}
  {x : Option Reply}

/-- What PostgreSQL is sent of the argument is JSON. -/
def Postgres.Accepts (pg : Postgres) (s : String) : Prop := (pg.jsonb (cStr s)).isSome = true

instance (s : String) : Decidable (pg.Accepts s) :=
  inferInstanceAs (Decidable ((pg.jsonb (cStr s)).isSome = true))

/-- `get_table` returns nothing. -/
def Missing (pg : Postgres) (policy : Policy) (c : ServerConfig) (t : String) : Prop :=
  Answers pg policy c (TableRead.getTable.code t) (.table none)

def Succeeds (x : Option Reply) : Prop := ∃ r, x = some (.operation r) ∧ r.success = true

theorem succeeds_operation {r : OperationResult} :
    Succeeds (some (.operation r)) ↔ r.success = true := by
  constructor
  · rintro ⟨r', hr, hs⟩
    cases hr
    exact hs
  · intro hs
    exact ⟨r, rfl, hs⟩

theorem AtRest.missing_iff (h : AtRest pg policy c) :
    Missing pg policy c t ↔ c.state.db.find (cStr t) = none := by
  have ha := h.answers_getTable t
  constructor
  · intro hm
    simpa [TableRead.answer, Db.tableRow] using ha.unique hm
  · intro hf
    rwa [TableRead.answer_of_none _ hf] at ha

/-- No row has the name, not even one that has been dropped softly. -/
def Db.Untaken (db : Db) (name : String) : Prop :=
  ∀ k r, db.tables.row k = some r → r.tableName ≠ name

theorem Db.Untaken.find {db : Db} (h : db.Untaken t) : db.find t = none := by
  rw [Db.find_eq_none_iff]
  intro k r hr
  by_contra hn
  exact h k r hr (Db.named_iff.mp (by simpa using hn)).1

/-- Creation succeeds where its arguments are JSON, a table id is left, and the name is not taken. -/
theorem AtRest.createTable_succeeds (h : AtRest pg policy c) {schema spec : String}
    {properties : List (String × String)} (hschema : pg.Accepts schema)
    (hproperties : pg.Accepts (propertiesJson properties))
    (hs : Completes pg policy c i (.createTable t schema spec properties) x c') :
    Succeeds x ↔ c.state.db.tables.next < maxBigint ∧ c.state.db.Untaken (cStr t) := by
  obtain ⟨tr, hx⟩ := hs.solo
  obtain ⟨res, r, rfl, hr, hsent⟩ :=
    solo_createTable h.unfailing (w := c.world.next _ c.state) h.pooled hx
  obtain ⟨now, he⟩ := hsent.effect
  rw [succeeds_operation, hr, Sql.effect_insertTable_succeeds he]
  exact ⟨fun hall => hall.2.2, fun hall => ⟨hschema, hproperties, hall⟩⟩

/-- The renaming of a live table succeeds where the new name is not taken. -/
theorem AtRest.rename_succeeds (h : AtRest pg policy c) (hne : cStr n ≠ cStr o)
    (hlive : c.state.db.find (cStr o) ≠ none)
    (hs : Completes pg policy c i (.alterTable o (.rename n)) x c') :
    Succeeds x ↔ c.state.db.Untaken (cStr n) := by
  obtain ⟨⟨id, row⟩, hf⟩ := Option.ne_none_iff_exists'.mp hlive
  obtain ⟨tr, hx⟩ := hs.solo
  obtain ⟨res, r, rfl, hr, -, hsent⟩ :=
    solo_rename h.unfailing (w := c.world.next _ c.state) h.pooled hx
  obtain ⟨now, he⟩ := hsent.effect
  rw [succeeds_operation, hr, Sql.effect_renameTable_succeeds h.unique hne hf he]
  rfl

/-- The name can be given to a table if and only if no live table has it. -/
structure CreationMatches (pg : Postgres) (policy : Policy) (c : ServerConfig)
    (n schema spec : String) (properties : List (String × String)) : Prop where
  served : ∃ i x c', Completes pg policy c i (.createTable n schema spec properties) x c'
  create : ∀ i x c', Completes pg policy c i (.createTable n schema spec properties) x c' →
    (Succeeds x ↔ Missing pg policy c n)
  rename : ∀ o, o ≠ n → ¬ Missing pg policy c o → Missing pg policy c n →
    ∃ i x c', Completes pg policy c i (.alterTable o (.rename n)) x c' ∧ Succeeds x

/-- The name of a table that is dropped softly stays taken, and no read finds the table. -/
theorem creation_matches_iff (h : AtRest pg .anyNames c) {schema spec : String}
    {properties : List (String × String)} (hschema : pg.Accepts schema)
    (hproperties : pg.Accepts (propertiesJson properties)) :
    CreationMatches pg .anyNames c n schema spec properties ↔
      (c.state.db.find (cStr n)).isSome ∨
        (c.state.db.Untaken (cStr n) ∧ c.state.db.tables.next < maxBigint) := by
  obtain ⟨i, hi⟩ := h.free
  obtain ⟨x, c', hs⟩ := h.exists_completes (q := .createTable n schema spec properties) hi rfl nofun
    (.inr rfl)
  have hcreate {j : ℕ} {y : Option Reply} {d : ServerConfig}
      (hd : Completes pg .anyNames c j (.createTable n schema spec properties) y d) :=
    h.createTable_succeeds hschema hproperties hd
  constructor
  · intro hm
    by_cases hf : c.state.db.find (cStr n) = none
    · obtain ⟨hnext, huntaken⟩ := (hcreate hs).mp ((hm.create i x c' hs).mpr (h.missing_iff.mpr hf))
      exact .inr ⟨huntaken, hnext⟩
    · exact .inl (Option.isSome_iff_ne_none.mpr hf)
  · intro hc
    -- where the name is neither that of a live table nor free, the two sides would differ
    have hmissing : Missing pg .anyNames c n ↔
        c.state.db.tables.next < maxBigint ∧ c.state.db.Untaken (cStr n) := by
      rw [h.missing_iff]
      rcases hc with hlive | ⟨huntaken, hnext⟩
      · have hf := Option.isSome_iff_ne_none.mp hlive
        exact ⟨fun hnone => absurd hnone hf, fun hall => absurd hall.2.find hf⟩
      · exact ⟨fun _ => ⟨hnext, huntaken⟩, fun _ => huntaken.find⟩
    refine ⟨⟨i, x, c', hs⟩, fun j y d hd => (hcreate hd).trans hmissing.symm, ?_⟩
    intro o hne hlive hfree
    rw [h.missing_iff] at hlive
    have huntaken := (hmissing.mp hfree).2
    have hself : ¬ (Request.alterTable o (.rename n)).SelfRename := by
      rintro ⟨t, ht⟩
      cases ht
      exact hne rfl
    have hne' : cStr n ≠ cStr o := by
      intro heq
      exact hlive (heq ▸ huntaken.find)
    obtain ⟨y, d, hd⟩ := h.exists_completes hi rfl hself (.inr rfl)
    exact ⟨i, y, d, hd, (h.rename_succeeds hne' hlive hd).mpr huntaken⟩

/-- A table that has been purged. -/
theorem creation_matches_after_purge : ∃ c : ServerConfig, c.state.db.find "t" = none ∧
    CreationMatches .plain .anyNames c "t" "\x7b\x7d" "" [] := by
  obtain ⟨c, h, hp⟩ := @atRest_of_check .plain .anyNames rfl
    [(.createTable "t" "\x7b\x7d" "" [], 5), (.dropTable "t" true, 12)]
    (fun c => (c.state.db.find "t").isNone && (c.state.db.tables.next == 2) &&
      !(c.state.db.tables.exist fun _ r => r.tableName == "t")) (by decide +kernel)
  simp only [Bool.and_eq_true, Option.isNone_iff_eq_none, beq_iff_eq, Bool.not_eq_true',
    ← Bool.not_eq_true, Rows.exist_iff] at hp
  obtain ⟨⟨hf, hnext⟩, hfree⟩ := hp
  have hname : cStr "t" = "t" := by decide
  have huntaken : c.state.db.Untaken (cStr "t") := by
    intro k r hr hn
    exact hfree ⟨k, r, hr, hn.trans hname⟩
  exact ⟨c, hf, (creation_matches_iff h (by decide +kernel) (by decide +kernel)).mpr
    (.inr ⟨huntaken, hnext ▸ by decide⟩)⟩

/-- A table is created, dropped softly, and cannot be created again. -/
theorem creation_does_not_match : ∃ c : ServerConfig, AtRest .plain .anyNames c ∧
    Postgres.plain.Accepts "\x7b\x7d" ∧ Postgres.plain.Accepts (propertiesJson []) ∧
    ¬ CreationMatches .plain .anyNames c "t" "\x7b\x7d" "" [] := by
  let again (c : ServerConfig) := completion .plain .anyNames c 2
    (.createTable "t" "\x7b\x7d" "" []) (List.replicate 5 .ok)
  obtain ⟨c, h, hp⟩ := @atRest_of_check .plain .anyNames rfl
    [(.createTable "t" "\x7b\x7d" "" [], 5), (.dropTable "t" false, 8)]
    (fun c => (c.state.db.find (cStr "t")).isNone && (again c).any fun r =>
      r.1.any fun x => x == .operation ⟨false, "Failed to create table (may already exist): t"⟩)
    (by decide +kernel)
  simp only [Bool.and_eq_true, Option.isNone_iff_eq_none, Option.any_eq_true, beq_iff_eq] at hp
  obtain ⟨hf, ⟨x, c'⟩, ha, r, rfl, rfl⟩ := hp
  refine ⟨c, h, by decide +kernel, by decide +kernel, fun hm => ?_⟩
  have hs := (hm.create 2 _ c' (completes_of_completion ha)).mpr (h.missing_iff.mpr hf)
  cases succeeds_operation.mp hs

end IceLog
