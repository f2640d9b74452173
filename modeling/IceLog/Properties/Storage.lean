import IceLog.Server.Runs

/-! What holds of the stored rows in every reachable state. -/
namespace IceLog

open Interleaved Serial

variable {pg : Postgres} {policy : Policy} {c : ServerConfig} {db : Db}

/-! The rows of a table refer to each other as they should. -/

/-- The snapshot `n` is stored, and is one of the table. -/
def Db.HasSnapshot (db : Db) (tableId n : ℕ) : Prop :=
  ∃ x, db.snapshots.row n = some x ∧ x.tableId = tableId

structure Db.WellFormed (db : Db) : Prop where
  stored : ∀ p r, db.partitions.row p = some r → db.HasSnapshot r.tableId r.snapshotId
  tombstone : ∀ p r, db.partitions.row p = some r →
    (r.isDeleted = true ↔ r.deletedSnapshotId.isSome = true)
  tombstoned : ∀ p r d, db.partitions.row p = some r → r.deletedSnapshotId = some d →
    db.HasSnapshot r.tableId d ∧ r.snapshotId ≤ d
  current : ∀ p r table, db.partitions.row p = some r → db.tables.row r.tableId = some table →
    r.snapshotId ≤ table.currentSnapshotId ∧
      ∀ d, r.deletedSnapshotId = some d → d ≤ table.currentSnapshotId
  partitions : ∀ p r, db.partitions.row p = some r → (db.tables.row r.tableId).isSome = true
  snapshots : ∀ n x, db.snapshots.row n = some x → (db.tables.row x.tableId).isSome = true
  history : ∀ k x, db.history.row k = some x → (db.tables.row x.tableId).isSome = true

theorem Db.hasSnapshot_iff {id n : ℕ} : db.HasSnapshot id n ↔ ((db.slice id).snapshots n).isSome := by
  simp only [HasSnapshot, Option.isSome_iff_exists, slice_snapshots]

theorem Db.Consistent.wellFormed_db (h : db.Consistent) : db.WellFormed := by
  have hslice : ∀ p r, db.partitions.row p = some r →
      (db.slice r.tableId).partitions p = some r := fun p r hr => slice_partitions.mpr ⟨hr, rfl⟩
  have howner : ∀ id, db.slice id ≠ .empty → (db.tables.row id).isSome = true := by
    intro id hne
    by_contra hsome
    have hnone : db.tables.row id = none := by simpa using hsome
    exact hne ((h.wellFormed id).orphans hnone)
  refine ⟨fun p r hr => ?_, fun p r hr => ?_, fun p r d hr hd => ?_, fun p r table hr ht => ?_,
    fun p r hr => howner _ fun he => ?_, fun n x hx => howner _ fun he => ?_,
    fun k x hx => howner _ fun he => ?_⟩
  · exact hasSnapshot_iff.mpr ((h.wellFormed _).stored p r (hslice p r hr))
  · rw [(h.wellFormed _).tombstone p r (hslice p r hr)]
  · obtain ⟨hs, hle⟩ := (h.wellFormed _).tombstoned p r d (hslice p r hr) hd
    exact ⟨hasSnapshot_iff.mpr hs, hle⟩
  · have hw := h.wellFormed r.tableId
    have hle : ∀ n, ((db.slice r.tableId).snapshots n).isSome = true →
        n ≤ table.currentSnapshotId := by
      intro n hn
      obtain ⟨x, hx⟩ := Option.isSome_iff_exists.mp hn
      exact (hw.snapshots table n x ht hx).2
    exact ⟨hle _ (hw.stored p r (hslice p r hr)),
      fun d hd => hle d (hw.tombstoned p r d (hslice p r hr) hd).1⟩
  · have := hslice p r hr
    rw [he] at this
    cases this
  · have : (db.slice x.tableId).snapshots n = some x := slice_snapshots.mpr ⟨hx, rfl⟩
    rw [he] at this
    cases this
  · have : (db.slice x.tableId).history k = some x := by
      simp [Db.slice, Rows.only_eq_some, hx]
    rw [he] at this
    cases this

/-- The store is well formed at any moment of any interleaving, whatever statements fail. -/
theorem store_wellFormed (hc : policy.Clean) (h : Reachable pg policy c) :
    c.state.db.WellFormed :=
  (h.inv.consistent hc).wellFormed_db

def samplePartition (key path : String) : PartitionInfo where
  partitionKey := key
  dataFilePath := path
  rowCount := 1
  sizeBytes := 1

/-- A commit that inserts and one that deletes. -/
theorem store_wellFormed_after_commits :
    ∃ c : ServerConfig, c.state.db.partitions.next = 3 ∧ c.state.db.WellFormed := by
  obtain ⟨c, h, hp⟩ := @reachable_of_check .plain .clean
    (serve 0 (.createTable "t" "\x7b\x7d" "" []) 5 ++
      serve 1 (.commitSnapshot "t" [samplePartition "a" "f"] [] 0 "") 13 ++
      serve 2 (.commitSnapshot "t" [samplePartition "b" "g"] ["a"] 1 "") 15)
    (fun c => c.state.db.partitions.next == 3) (by decide +kernel)
  exact ⟨c, by simpa using hp, store_wellFormed Policy.clean_clean h⟩

/-! The snapshots of a table form one line. -/

/-- The parent that a commit names. -/
def Request.parent : Request → Option (String × ℕ)
  | .commitSnapshot t _ _ parent _ => some (t, parent)
  | .commit t parent _ _ _ => some (t, parent)
  | _ => none

/-- `COMMIT` does not fail. -/
def Policy.Commits (policy : Policy) : Prop :=
  ∀ q c o, policy.allows q (.exec c .commit) o = true → o = .ok

/-- An action of thread `i` has made `n` the snapshot after `parent` of the table `id`, which then
had the name. -/
structure CommittedTo (i : ℕ) (t : String) (parent n id : ℕ) (u v : Moment) : Prop where
  acted : Acted i u v
  found : ∃ r, u.now.db.find t = some (id, r) ∧ r.currentSnapshotId = parent
  lt : parent < n
  moved : ∃ r, v.now.db.tables.row id = some r ∧ r.currentSnapshotId = n
  stored : ∃ x, (v.now.db.slice id).snapshots n = some x ∧ x.parentSnapshotId = parent

structure LinearHistory (c : ServerConfig) : Prop where
  /-- By increasing id, each snapshot has the one before it as its parent. -/
  linked : ∀ id r, c.state.db.tables.row id = some r →
    ((c.state.db.chain id).map Prod.fst).Pairwise (· < ·) ∧
      Db.LinkedFrom 0 (c.state.db.chain id) r.currentSnapshotId
  forward : ∀ u v : Moment, u.Before v → v.Before c.world → ∀ id r r',
    u.now.db.tables.row id = some r → v.now.db.tables.row id = some r' →
      r.currentSnapshotId ≤ r'.currentSnapshotId
  /-- Two commits that succeed for the same parent are of different tables. -/
  once : ∀ i j q q' t t' parent x x', i ≠ j → q.parent = some (t, parent) →
    q'.parent = some (t', parent) → c.Returned i q (.snapshot x) → x.success = true →
    c.Returned j q' (.snapshot x') → x'.success = true → ∃ id id' u v u' v', id ≠ id' ∧
      v.Before c.world ∧ CommittedTo i t parent x.snapshotId id u v ∧
      v'.Before c.world ∧ CommittedTo j t' parent x'.snapshotId id' u' v'

theorem Db.chain_sorted (db : Db) (id : ℕ) :
    ((db.chain id).map Prod.fst).Pairwise (· < ·) := by
  refine List.pairwise_map.mpr (Rows.select_sorted fun k x b hb => ?_)
  split at hb
  · cases hb
    rfl
  · cases hb

section commits
variable {i j : ℕ} {q : Request} {t t' : String} {parent n n' id : ℕ}
  {x : PartitionRegistry.CommitResult} {u v u' v' w : Moment}

/-- A commit that is acknowledged where `COMMIT` does not fail. -/
theorem CommitAnswer.committedTo {op : String} {news : List PartitionRow} {dels : List String}
    (hc : policy.Clean) (hs : policy.Steady) (hcm : policy.Commits) (ht : NulFree t)
    (hok : x.success = true)
    (hx : CommitAnswer pg policy true i q t parent op news dels u x w) :
    ∃ v v' id, u.Before v ∧ v'.Before w ∧ CommittedTo i t parent x.snapshotId id v v' := by
  cases hx with
  | failed hf => simp [hok] at hf
  | dropped _ _ _ hd =>
    obtain ⟨c, a, ha, hno⟩ := hd
    cases hcm _ _ _ ha
    cases hno
  | done _ he =>
    obtain ⟨v, v', hv, hact, hw, -, he⟩ := he
    have he := he (.of_clean (fun _ => ht) (by simp) hc)
    obtain ⟨id, r, hf, hpar, hlt, hcomm, -⟩ := he.table
    have hr := (Db.row_of_find hf).1
    rw [cStr_of_nulFree ht] at hf
    obtain ⟨r', y, hr', ⟨now, z, hins, rfl⟩, hv'⟩ := hcomm
    have hlt := hlt hc
    rw [hpar hs] at hlt
    refine ⟨v, v', id, hv, hw, hact, ⟨r, hf, hpar hs⟩, hlt, ⟨_, congrArg Slice.table hv', rfl⟩, ?_⟩
    refine ⟨⟨id, parent, now, cStr op, toInt32 news.length, toInt32 dels.length⟩, ?_, rfl⟩
    rw [hv']
    show (Slice.markAll _ _ _).snapshots _ = _
    rw [(Slice.markAll_grows dels z).snapshots, hins.grows.snapshots]
    simp [Slice.insertSnapshot]

/-- After a commit for a parent, none of the same table is for that parent. -/
theorem CommittedTo.not_again (h : CommittedTo i t parent n id u v)
    (he : v.now.db.Evolves u'.now.db) (h' : CommittedTo j t' parent n' id u' v') : False := by
  obtain ⟨r, hr, hn⟩ := h.moved
  obtain ⟨r', hf, hpar⟩ := h'.found
  have hle := he.current id r r' hr (Db.row_of_find hf).1
  have hlt := h.lt
  omega

end commits

/-- No commit is lost: the history of every table is one line that only grows. -/
theorem linear_history (hc : policy.Clean) (hs : policy.Steady) (hcm : policy.Commits)
    (h : Reachable pg policy c) : LinearHistory c := by
  refine ⟨fun id r hr => ⟨Db.chain_sorted _ id, h.inv.linked hc hs id r hr⟩,
    fun u v huv hv id r r' hr hr' => (h.evolves hc huv hv).current id r r' hr hr', ?_⟩
  intro i j q q' t t' parent x x' hij hq hq' hx hok hx' hok'
  have key : ∀ {i q t x}, q.parent = some (t, parent) → c.Returned i q (.snapshot x) →
      x.success = true → ∃ v v' id, v'.Before c.world ∧
        CommittedTo i t parent x.snapshotId id v v' := by
    intro i q t x hq hx hok
    obtain ⟨u, -, -, ha, hserved⟩ := h.replied hx
    have ht : ∀ t' ∈ q.tableNames, NulFree t' := hc q ha
    cases q with
    | commitSnapshot | commit =>
      cases hq
      obtain ⟨r, hr, hserved⟩ := hserved
      cases hr
      obtain ⟨v, v', id, -, hw, hto⟩ :=
        hserved.committedTo hc hs hcm (ht t (by simp [Request.tableNames])) hok
      exact ⟨v, v', id, hw, hto⟩
    | _ => cases hq
  obtain ⟨v, v', id, hw, hto⟩ := key hq hx hok
  obtain ⟨u, u', id', hw', hto'⟩ := key hq' hx' hok'
  refine ⟨id, id', v, v', u, u', ?_, hw, hto, hw', hto'⟩
  rintro rfl
  rcases hto.acted.ordered hto'.acted hij hw hw' with hb | hb
  · exact hto.not_again (h.evolves hc hb (hto'.acted.before.trans hw')) hto'
  · exact hto'.not_again (h.evolves hc hb (hto.acted.before.trans hw)) hto

/-- Names without NUL, and a `SELECT` of the current snapshot and a `COMMIT` that do not fail. -/
def Policy.committing : Policy where
  admits := Policy.clean.admits
  allows _
    | .execParams _ (.selectCurrent _), o => o = .ok
    | .exec _ .commit, o => o = .ok
    | _, _ => true

/-- Of two commits for the parent 0, the second is refused. -/
theorem linear_history_of_conflict : ∃ c : ServerConfig,
    c.reply 2 = some (.commit "t" 0 "append" [] [], .snapshot ⟨false, 0,
      "Conflict: snapshot 0 is no longer current (current=1)"⟩) ∧ LinearHistory c := by
  obtain ⟨c, h, hp⟩ := @reachable_of_check .plain .committing
    (serve 0 (.createTable "t" "{}" "" []) 5 ++ serve 1 (.commit "t" 0 "append" [] []) 11 ++
      serve 2 (.commit "t" 0 "append" [] []) 5)
    (fun c => decide (c.reply 2 = some (.commit "t" 0 "append" [] [], .snapshot ⟨false, 0,
      "Conflict: snapshot 0 is no longer current (current=1)"⟩))) (by decide +kernel)
  have hclean : Policy.committing.Clean := Policy.clean_clean
  exact ⟨c, by simpa using hp, linear_history hclean
    (fun _ _ _ _ ho => by simpa [Policy.committing] using ho)
    (fun _ _ _ ho => by simpa [Policy.committing] using ho) h⟩

end IceLog
