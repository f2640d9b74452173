import IceLog.Properties.Existence
import IceLog.Properties.Storage
import IceLog.Server.Frames

/-! Nothing of a purged table comes back under its name. -/
namespace IceLog

open Interleaved Serial

variable {pg : Postgres} {policy : Policy} {c c' c₁ c₂ c₃ : ServerConfig} {i j : ℕ} {q : Request}
  {t : String} {x y : Option Reply} {db : Db} {id : ℕ}

/-- A request that is served alone does what it is answered to have done. -/
theorem AtRest.served (h : AtRest pg policy c) {r : Reply}
    (hs : Completes pg policy c i q (some r) c') :
    Served pg policy false i q (c.world.next (.call i q) c.state) r c'.world := by
  obtain ⟨tr, hx⟩ := hs.solo
  exact (hx.post (safe_code (h.own_called hs.idle q) fun hc n hn => hc q hs.admitted n hn)).2

/-- A purge that succeeds leaves nothing of the table, and all of any other. -/
theorem Quiet.purged (h : Quiet pg c)
    (hs : Completes pg .flawless c i (.dropTable t true) x c') (hx : Succeeds x) :
    ∃ id r, c.state.db.find (cStr t) = some (id, r) ∧ c'.state.db.slice id = .empty ∧
      ∀ k, k ≠ id → c'.state.db.slice k = c.state.db.slice k := by
  obtain ⟨r, rfl, hr⟩ := hx
  obtain ⟨r', he, ht⟩ := h.served hs
  cases he
  rw [hr] at ht
  cases ht with
  | failed hf => cases hf
  | dropped _ _ _ hc =>
    -- a `COMMIT` that is answered is carried out
    obtain ⟨conn, a, ha, hno⟩ := hc
    cases (flawless_outcome ha).1 conn .commit rfl
    cases hno
  | done _ he =>
    obtain ⟨v, v', -, -, -, hstill, heffect⟩ := he
    obtain ⟨hbefore, hafter, -⟩ := hstill rfl
    obtain ⟨id, row, hf, hdropped, hothers⟩ := (heffect (.inl rfl)).table
    have hfind : v.now.db.find (cStr t) = c.state.db.find (cStr t) := hbefore.rows.find _
    have hv : ∀ k, v.now.db.slice k = c.state.db.slice k := hbefore.rows.slice
    refine ⟨id, row, hfind.symm.trans hf, (hafter.slice id).trans hdropped, fun k hk => ?_⟩
    exact (hafter.slice k).trans ((hothers k hk).trans (hv k))

/-- A creation that succeeds adds a table without contents, under an id that no table had before. -/
theorem Quiet.created (h : Quiet pg c) {schema spec : String} {properties : List (String × String)}
    (hs : Completes pg .flawless c i (.createTable t schema spec properties) x c')
    (hx : Succeeds x) :
    ∃ row, c'.state.db.find (cStr t) = some (c.state.db.tables.next, row) ∧
      row.schemaVersion = 1 ∧ row.currentSnapshotId = 0 ∧
      c'.state.db.slice c.state.db.tables.next = { Slice.empty with table := some row } ∧
      ∀ k, k ≠ c.state.db.tables.next → c'.state.db.slice k = c.state.db.slice k := by
  obtain ⟨tr, hsolo⟩ := hs.solo
  obtain ⟨res, r, rfl, hr, hsent⟩ :=
    solo_createTable h.unfailing (w := c.world.next _ c.state) h.pooled hsolo
  have hres : res.someAffected = true := hr.symm.trans (succeeds_operation.mp hx)
  obtain ⟨now, he⟩ := hsent.effect
  rcases Sql.effect_cases he with ⟨-, rfl, -⟩ | ⟨p, hrun, hdb⟩
  · cases hres
  · rcases Sql.run_insertTable hrun with
      ⟨rfl, -⟩ | ⟨row, hname, -, hversion, -, hcurrent, -, hdeleted, -, -, rfl⟩
    · cases hres
    · have horphan : c.state.db.slice c.state.db.tables.next = .empty :=
        (h.consistent.wellFormed _).orphans (Rows.row_next _)
      obtain ⟨hslice, hothers⟩ := @Db.slice_insertTable _ (cStr t) (cStr schema) (cStr spec)
        (cStr (propertiesJson properties)) row horphan
      have hdb : c'.state.db = _ := hdb
      refine ⟨row, ?_, hversion, hcurrent, hdb ▸ hslice, fun k hk => hdb ▸ hothers k hk⟩
      rw [Db.find_eq_some_iff (h.completes hs).unique]
      exact ⟨congrArg Slice.table (hdb ▸ hslice), Db.named_iff.mpr ⟨hname, hdeleted⟩⟩

/-- What is read about a table without contents is what is read in an empty database. -/
theorem AboutSlice.of_bare {β : Type} {f : Db → ℕ → β} (hf : AboutSlice f) {row : TableRec}
    (hs : db.slice id = { Slice.empty with table := some row }) : f db id = f .empty id := by
  refine hf _ _ _ ?_
  rw [hs]
  rfl

/-- All that can be read about the table says that nothing has happened to it. -/
structure Pristine (pg : Postgres) (c : ServerConfig) (t : String) : Prop where
  partitions : ∀ s, s < maxBigint → (s = 0 → c.state.mvcc.latestCommittedSnapshot < maxBigint) →
    Answers pg .flawless c ((TableRead.partitions s).code t) (.reply (.rows (some [])))
  partitionsPaged : ∀ s pageSize last, s < maxBigint →
    (s = 0 → c.state.mvcc.latestCommittedSnapshot < maxBigint) →
    Answers pg .flawless c ((TableRead.partitionsPaged s pageSize last).code t)
      (.reply (.rows (some [])))
  snapshots : ∀ limit,
    Answers pg .flawless c ((TableRead.listSnapshots limit).code t) (.reply (.snapshots []))
  history : Answers pg .flawless c (TableRead.listSchemaHistory.code t) (.schemas [])
  snapshot : ∀ n, Answers pg .flawless c ((TableRead.getSnapshot n).code t)
    (.reply (.notFound "Snapshot not found"))
  row : ∃ row, Answers pg .flawless c (TableRead.getTable.code t) (.table (some row)) ∧
    row.schemaVersion = 1 ∧ row.currentSnapshotId = 0

theorem Quiet.pristine (h : Quiet pg c) (ht : NulFree t) {tableId : ℕ} {row : TableRec}
    (hf : c.state.db.find (cStr t) = some (tableId, row)) (hversion : row.schemaVersion = 1)
    (hcurrent : row.currentSnapshotId = 0)
    (hs : c.state.db.slice tableId = { Slice.empty with table := some row }) : Pristine pg c t := by
  have hof : ∀ {β : Type} {f : Db → ℕ → β} {x : β}, AboutSlice f →
      Db.ofTable f x (cStr t) c.state.db = f .empty tableId := by
    intro β f x hfs
    rw [Db.ofTable, hf]
    exact hfs.of_bare hs
  have hsnap : ∀ s, s < maxBigint → (s = 0 → c.state.mvcc.latestCommittedSnapshot < maxBigint) →
      c.state.snapshotFor t s false < maxBigint := by
    intro s hlt hzero
    by_cases hs0 : s = 0
    · by_cases hm : c.state.mvcc.latestCommittedSnapshot = 0
      · simp only [Server.snapshotFor, hs0, hm, Db.current, hf]
        simp [hcurrent, maxBigint]
      · simpa [Server.snapshotFor, hs0, hm] using hzero hs0
    · simpa [Server.snapshotFor, hs0] using hlt
  have hlist : ∀ s l, l [] = [] → s < maxBigint →
      (s = 0 → c.state.mvcc.latestCommittedSnapshot < maxBigint) →
      c.state.listedFor t s l = some [] := by
    intro s l hl hlt hzero
    rw [Server.listedFor, ← ofTable_listed, hof (aboutSlice_listed _ _), Db.listed,
      if_neg (not_le.mpr (hsnap s hlt hzero))]
    exact congrArg some hl
  refine ⟨fun s hlt hzero => ?_, fun s pageSize last hlt hzero => ?_, fun limit => ?_, ?_,
    fun n => ?_, ?_⟩
  · have ha := h.answers ht (.partitions s)
    rwa [TableRead.answer, hlist s id rfl hlt hzero] at ha
  · have ha := h.answers ht (.partitionsPaged s pageSize last)
    rwa [TableRead.answer, hlist s _ (by simp [page]) hlt hzero] at ha
  · have ha := h.answers ht (.listSnapshots limit)
    rw [TableRead.answer, hof (aboutSlice_snapshotsOf _)] at ha
    simpa [Db.snapshotsOf, Db.empty, newestFirst, snapshotsReply] using ha
  · have ha := h.answers ht .listSchemaHistory
    rw [TableRead.answer, hof aboutSlice_historyOf] at ha
    simpa [Db.historyOf, Db.empty] using ha
  · have ha := h.answers ht (.getSnapshot n)
    rw [TableRead.answer, hof (aboutSlice_snapshotAt _)] at ha
    simpa [Db.snapshotAt, Db.empty, snapshotReply] using ha
  · have ha := h.answers ht .getTable
    rw [TableRead.answer, Db.tableRow, hf] at ha
    exact ⟨_, ha, hversion, hcurrent⟩

/-- A table that is created after one of its name has been purged. Of the old table nothing is left,
and neither request changes anything else. -/
theorem no_resurrection (h : Quiet pg c) (ht : NulFree t)
    (hdrop : Completes pg .flawless c i (.dropTable t true) x c₁) (hdropped : Succeeds x)
    (hrun : Run (server pg .flawless) c₁ c₂)
    (hfinished : ∀ k th, c₂.thread k = some th → th.code.Finished)
    {schema spec : String} {properties : List (String × String)}
    (hcreate : Completes pg .flawless c₂ j (.createTable t schema spec properties) y c₃)
    (hcreated : Succeeds y) :
    Pristine pg c₃ t ∧
    (∃ k r, c.state.db.find t = some (k, r) ∧ c₃.state.db.slice k = .empty ∧
      ∀ l, l ≠ k → c₁.state.db.slice l = c.state.db.slice l) ∧
    ∃ k r, c₃.state.db.find t = some (k, r) ∧ c₂.state.db.tables.next = k ∧
      ∀ l, l ≠ k → c₃.state.db.slice l = c₂.state.db.slice l := by
  have h₁ := h.completes hdrop
  have h₂ := h₁.run hrun hfinished
  have h₃ := h₂.completes hcreate
  obtain ⟨k, r, hf, hempty, hkept⟩ := h.purged hdrop hdropped
  obtain ⟨row, hf', hversion, hcurrent, hslice, hkept'⟩ := h₂.created hcreate hcreated
  rw [cStr_of_nulFree ht] at hf
  -- the id of the old table is never given again
  have hborn : k < c₁.state.db.tables.next := by
    have hnext := (h₁.reachable.evolves Policy.flawless_clean hdrop.run.before .refl).next
    have := (Rows.born (Db.row_of_find hf).1).2
    exact lt_of_lt_of_le this hnext.tables
  have hgone : c₃.state.db.slice k = .empty := by
    have hevolves := h₃.reachable.evolves Policy.flawless_clean (hrun.trans hcreate.run).before .refl
    exact (h₃.consistent.wellFormed k).orphans
      (hevolves.gone k hborn (congrArg Slice.table hempty))
  have hpristine := h₃.pristine ht hf' hversion hcurrent hslice
  rw [cStr_of_nulFree ht] at hf'
  exact ⟨hpristine, ⟨k, r, hf, hgone, hkept⟩, _, row, hf', rfl, hkept'⟩

/-- The old table had a commit and a cached listing, and another table is committed to before the
name is used again. -/
theorem no_resurrection_of_commit : ∃ c c₁ c₂ c₃ : ServerConfig,
    (c.state.cached "t" 1).isSome ∧ Pristine .plain c₃ "t" ∧
    (∃ k r, c.state.db.find "t" = some (k, r) ∧ c₃.state.db.slice k = .empty ∧
      ∀ l, l ≠ k → c₁.state.db.slice l = c.state.db.slice l) ∧
    ∃ k r, c₃.state.db.find "t" = some (k, r) ∧ c₂.state.db.tables.next = k ∧
      ∀ l, l ≠ k → c₃.state.db.slice l = c₂.state.db.slice l := by
  let success : Option Reply := some (.operation { success := true })
  let dropped (c : ServerConfig) := completion .plain .flawless c 4 (.dropTable "t" true) (List.replicate 12 .ok)
  let other (c : ServerConfig) := completion .plain .flawless c 5
    (.commitSnapshot "u" [samplePartition "a" "f"] [] 0 "") (List.replicate 13 .ok)
  let created (c : ServerConfig) := completion .plain .flawless c 6
    (.createTable "t" "\x7b\x7d" "" []) (List.replicate 5 .ok)
  obtain ⟨c, h, hp⟩ := @quiet_of_check .plain
    [(.createTable "t" "\x7b\x7d" "" [], 5), (.createTable "u" "\x7b\x7d" "" [], 5),
      (.commitSnapshot "t" [samplePartition "a" "f"] [] 0 "", 13), (.partitions "t" 1, 8)]
    (fun c => (c.state.cached "t" 1).isSome && (dropped c).any fun d => (d.1 == success) &&
      (other d.2).any fun e => (created e.2).any fun f => f.1 == success) (by decide +kernel)
  simp only [Bool.and_eq_true, Option.any_eq_true, beq_iff_eq] at hp
  obtain ⟨hcached, ⟨_, c₁⟩, hd, rfl, ⟨_, c₂⟩, ho, ⟨_, c₃⟩, hc, rfl⟩ := hp
  have hd := completes_of_completion hd
  have ho := completes_of_completion ho
  exact ⟨c, c₁, c₂, c₃, hcached, no_resurrection h (by decide) hd ⟨_, rfl, rfl⟩ ho.run
    (fun _ _ => ho.finished (h.completes hd).finished) (completes_of_completion hc) ⟨_, rfl, rfl⟩⟩

end IceLog
