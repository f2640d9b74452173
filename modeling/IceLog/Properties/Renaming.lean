import IceLog.Properties.Existence
import IceLog.Properties.Storage
import IceLog.Server.Frames

/-! A renaming only relabels. -/
namespace IceLog

open Interleaved Serial

variable {pg : Postgres} {c c' c'' : ServerConfig} {i : ℕ} {t n o : String} {x : Option Reply}
  {db db' : Db}

/-- Where every table id keeps its contents, every name keeps its table. -/
theorem Db.sameTable_of_slices (hu : db.UniqueNames) (hu' : db'.UniqueNames)
    (h : ∀ k, db'.slice k = db.slice k) (t : String) : Db.SameTable t db db' := by
  have hrow : ∀ k, db'.tables.row k = db.tables.row k := fun k => (congrArg Slice.table (h k) :)
  refine ⟨?_, fun k _ _ => h k⟩
  cases hf : db.find t with
  | none =>
    rw [Db.find_eq_none_iff] at hf ⊢
    intro k r hr
    exact hf k r ((hrow k).symm.trans hr)
  | some found =>
    obtain ⟨k, r⟩ := found
    rw [Db.find_eq_some_iff hu] at hf
    rw [Db.find_eq_some_iff hu']
    exact ⟨(hrow k).trans hf.1, hf.2⟩

/-- What a renaming makes of the state: the table `id` with the row `r` goes from `o` to `n`. -/
structure Moved (o n : String) (id : ℕ) (r : TableRec) (s s' : Server) : Prop where
  found : s'.db.find n = some (id, { r with tableName := n })
  gone : s'.db.find o = none
  slice : s'.db.slice id = { s.db.slice id with table := some { r with tableName := n } }
  others : ∀ k, k ≠ id → s'.db.slice k = s.db.slice k
  latest : s'.mvcc.latestCommittedSnapshot = s.mvcc.latestCommittedSnapshot

theorem Quiet.renamed (h : Quiet pg c) (ho : NulFree o) (hn : NulFree n) (hne : n ≠ o) {id : ℕ}
    {r : TableRec} (hf : c.state.db.find o = some (id, r)) (hfree : c.state.db.Untaken n)
    (hs : Completes pg .flawless c i (.alterTable o (.rename n)) x c') :
    x = some (.operation { success := true }) ∧ Moved o n id r c.state c'.state := by
  obtain ⟨tr, hx⟩ := hs.solo
  obtain ⟨res, y, rfl, hy, hempty, hsent⟩ :=
    solo_rename h.unfailing (w := c.world.next _ c.state) h.pooled hx
  obtain ⟨now, he⟩ := hsent.effect
  rw [cStr_of_nulFree ho, cStr_of_nulFree hn] at he
  have hok : res.commandOk = true :=
    (Sql.effect_renameTable_succeeds h.unique hne hf he).mpr hfree
  refine ⟨by rw [hempty (hy.trans hok)], ?_⟩
  rcases Sql.effect_cases he with ⟨-, rfl, -⟩ | ⟨p, hrun, hdb⟩
  · cases hok
  · rcases Sql.run_renameTable_effect h.unique hrun with ⟨hnone, -⟩ |
      ⟨id', r', hf', hfound, hnames, hslice, hothers⟩
    · cases hnone.symm.trans hf
    · cases hf'.symm.trans hf
      have hdb : c'.state.db = c.state.db.apply p := hdb
      rw [← hdb] at hfound hnames hslice
      refine ⟨hfound, (hnames hne).1, hslice, fun k hk => ?_, ?_⟩
      · rw [hdb]
        exact hothers k hk
      · exact congrArg MVCCManager.latestCommittedSnapshot hsent.mvcc

/-- Moving back what has been moved leaves the contents of every table id as they were. -/
theorem Moved.back {s s' s'' : Server} {id : ℕ} {r : TableRec} (h : Moved o n id r s s')
    (h' : Moved n o id { r with tableName := n } s' s'') (hf : s.db.find o = some (id, r)) (k : ℕ) :
    s''.db.slice k = s.db.slice k := by
  by_cases hk : k = id
  · subst hk
    obtain ⟨hrow, hname⟩ := Db.row_of_find hf
    have hname : o = r.tableName := (Db.named_iff.mp hname).1.symm
    have hrow : (s.db.slice k).table = some r := hrow
    rw [h'.slice, h.slice, hname]
    exact Slice.ext hrow.symm rfl rfl rfl
  · rw [h'.others k hk, h.others k hk]

/-- Nothing else has the old name. -/
theorem Moved.untaken {s s' : Server} {id : ℕ} {r : TableRec} (h : Moved o n id r s s') (hne : n ≠ o)
    (hu : s.db.UniqueNames) (hf : s.db.find o = some (id, r)) : s'.db.Untaken o := by
  intro k y hy hname
  obtain ⟨hrow, hr⟩ := Db.row_of_find hf
  by_cases hk : k = id
  · subst hk
    cases hy.symm.trans (congrArg Slice.table h.slice)
    exact hne hname
  · have hy : s.db.tables.row k = some y := (congrArg Slice.table (h.others k hk)).symm.trans hy
    exact hk (hu id r hrow k y hy (hname.trans (Db.named_iff.mp hr).1.symm))

/-- `n` is in `c'` what `o` was in `c`, and nobody knows `o`. -/
structure Relabelled (pg : Postgres) (o n : String) (c c' : ServerConfig) : Prop where
  reads : ∀ r : TableRead, ∃ y, Answers pg .flawless c (r.code o) y ∧
    Answers pg .flawless c' (r.code n) (y.relabel o n)
  unknown : ∀ r : TableRead, Answers pg .flawless c' (r.code o) (r.unknown o)

/-- Every read of every table returns in `c'` what it returned in `c`. -/
def SameAnswers (pg : Postgres) (c c' : ServerConfig) : Prop :=
  ∀ t, NulFree t → ∀ r : TableRead, ∃ y, Answers pg .flawless c (r.code t) y ∧
    Answers pg .flawless c' (r.code t) y

theorem Quiet.relabelled (h : Quiet pg c) (h' : Quiet pg c') (ho : NulFree o) (hn : NulFree n)
    {id : ℕ} {r : TableRec} (hf : c.state.db.find o = some (id, r))
    (hm : Moved o n id r c.state c'.state) : Relabelled pg o n c c' where
  reads rd := by
    have hclear : (c'.state.db.slice id).clearTable = (c.state.db.slice id).clearTable := by
      rw [hm.slice]
      rfl
    refine ⟨rd.answer o c.state, h.answers ho rd, ?_⟩
    rw [← rd.answer_relabel ho hn hf hm.found hclear hm.latest]
    exact h'.answers hn rd
  unknown rd := by
    have hgone : c'.state.db.find (cStr o) = none := by
      rw [cStr_of_nulFree ho]
      exact hm.gone
    rw [← rd.answer_of_none hgone]
    exact h'.answers ho rd

theorem rename_admitted (ho : NulFree o) (hn : NulFree n) :
    Policy.flawless.admits (.alterTable o (.rename n)) = true := by
  simpa [Policy.flawless, Policy.clean, Request.tableNames] using ⟨ho, hn⟩

/-- A live table gets a name that no row has, and gets its own name back. -/
theorem rename_relabels (h : Quiet pg c) (ho : NulFree o) (hn : NulFree n) (hne : n ≠ o)
    (hlive : (c.state.db.find o).isSome) (hfree : c.state.db.Untaken n) :
    (∃ i x c', Completes pg .flawless c i (.alterTable o (.rename n)) x c') ∧
    ∀ i x c', Completes pg .flawless c i (.alterTable o (.rename n)) x c' →
      x = some (.operation { success := true }) ∧ Relabelled pg o n c c' ∧
      (∃ j y c'', Completes pg .flawless c' j (.alterTable n (.rename o)) y c'') ∧
      ∀ j y c'', Completes pg .flawless c' j (.alterTable n (.rename o)) y c'' →
        y = some (.operation { success := true }) ∧ SameAnswers pg c c'' := by
  have hserved {d : ServerConfig} (hd : Quiet pg d) {o n : String} (ho : NulFree o) (hn : NulFree n)
      (hne : n ≠ o) : ∃ i x d', Completes pg .flawless d i (.alterTable o (.rename n)) x d' := by
    obtain ⟨i, hi⟩ := hd.free
    have hself : ¬ (Request.alterTable o (.rename n)).SelfRename := by
      rintro ⟨t, ht⟩
      cases ht
      exact hne rfl
    obtain ⟨x, d', hs⟩ := hd.exists_completes hi (rename_admitted ho hn) hself
    exact ⟨i, x, d', hs⟩
  obtain ⟨⟨id, r⟩, hf⟩ := Option.isSome_iff_exists.mp hlive
  refine ⟨hserved h ho hn hne, ?_⟩
  intro i x c' hs
  have h' := h.completes hs
  obtain ⟨hx, hm⟩ := h.renamed ho hn hne hf hfree hs
  refine ⟨hx, h.relabelled h' ho hn hf hm, hserved h' hn ho hne.symm, ?_⟩
  intro j y c'' hs'
  have h'' := h'.completes hs'
  obtain ⟨hy, hm'⟩ := h'.renamed hn ho hne.symm hm.found (hm.untaken hne h.unique hf) hs'
  refine ⟨hy, fun t ht rd => ⟨rd.answer t c.state, h.answers ht rd, ?_⟩⟩
  have hsame := Db.sameTable_of_slices h.unique h''.unique (hm.back hm' hf) (cStr t)
  rw [← rd.answer_congr hsame (hm'.latest.trans hm.latest)]
  exact h''.answers ht rd

/-- A table with a cached listing, which gets the name of a table that has been purged. -/
theorem rename_relabels_after_purge : ∃ c c' c'' : ServerConfig, (c.state.cached "t" 2).isSome ∧
    Relabelled .plain "t" "u" c c' ∧ SameAnswers .plain c c'' := by
  obtain ⟨c, h, hp⟩ := @quiet_of_check .plain
    [(.createTable "u" "\x7b\x7d" "" [], 5),
      (.commitSnapshot "u" [samplePartition "a" "f"] [] 0 "", 13), (.partitions "u" 1, 8),
      (.dropTable "u" true, 12), (.createTable "t" "\x7b\x7d" "" [], 5),
      (.commitSnapshot "t" [samplePartition "a" "f"] [] 0 "", 13), (.partitions "t" 2, 8)]
    (fun c => (c.state.db.find "t").isSome && (c.state.cached "t" 2).isSome &&
      !(c.state.db.tables.exist fun _ r => r.tableName == "u")) (by decide +kernel)
  simp only [Bool.and_eq_true, Bool.not_eq_true', ← Bool.not_eq_true, Rows.exist_iff] at hp
  obtain ⟨⟨hlive, hcached⟩, hfree⟩ := hp
  have huntaken : c.state.db.Untaken "u" := fun k r hr hn => hfree ⟨k, r, hr, beq_iff_eq.mpr hn⟩
  obtain ⟨⟨i, x, c', hs⟩, hall⟩ :=
    rename_relabels h (o := "t") (n := "u") (by decide) (by decide) (by decide) hlive huntaken
  obtain ⟨-, hrelabelled, ⟨j, y, c'', hs'⟩, hback⟩ := hall i x c' hs
  exact ⟨c, c', c'', hcached, hrelabelled, (hback j y c'' hs').2⟩

end IceLog
