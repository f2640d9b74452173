import Mathlib.Data.List.Sort
import IceLog.Properties.Ancestors
import IceLog.Properties.SchemaHistory
import IceLog.Server.StartTimes

/-! `ListSnapshots` answers with the history of the table, newest first. -/
namespace IceLog

open Interleaved Serial

variable {pg : Postgres} {policy : Policy} {c c' : ServerConfig} {past : ℕ → Prop} {t : String}
  {id k : ℕ} {r : TableRec} {n : ℤ} {db : Db}

/-- A list whose keys grow is sorted the other way by turning it around. -/
theorem mergeSort_eq_reverse {α : Type} {key : α → ℕ} {l : List α}
    (h : l.Pairwise fun a b => key a < key b) :
    l.mergeSort (fun a b => decide (key b ≤ key a)) = l.reverse := by
  have hinj : ∀ a ∈ l, ∀ b ∈ l, key a = key b → a = b := by
    have hnodup : (l.map key).Nodup := List.pairwise_map.mpr (h.imp fun hlt => hlt.ne)
    exact fun a ha b hb he => List.inj_on_of_nodup_map hnodup ha hb he
  have hsorted := @List.pairwise_mergeSort _ (fun a b => decide (key b ≤ key a))
    (fun a b c hab hbc => by simp only [decide_eq_true_eq] at hab hbc ⊢; omega)
    (fun a b => by simp only [Bool.or_eq_true, decide_eq_true_eq]; omega) l
  refine List.Perm.eq_of_pairwise ?_ hsorted ?_
    ((List.mergeSort_perm l _).trans (List.reverse_perm l).symm)
  · intro a b ha hb hab hba
    simp only [decide_eq_true_eq] at hab hba
    exact hinj a (List.mem_mergeSort.mp ha) b (List.mem_reverse.mp hb) (by omega)
  · rw [List.pairwise_reverse]
    exact h.imp fun hlt => decide_eq_true hlt.le

/-- The row that a query returns as a snapshot, its timestamp printed by `text`. -/
def SnapshotRow.toSnapshot (text : ℕ → String) (row : SnapshotRow) : Snapshot where
  snapshotId := row.snapshotId
  parentSnapshotId := row.parentSnapshotId
  tableId := row.tableId
  operation := row.operation
  addedFilesCount := row.addedFilesCount
  deletedFilesCount := row.deletedFilesCount
  committedAt := text row.committedAt

/-- The rows of the table, by increasing id. -/
def Db.snapshotRows (db : Db) (id : ℕ) : List SnapshotRow :=
  db.snapshots.select fun n x => if x.tableId = id then some (x.toRow n) else none

theorem Db.map_snapshotRows (text : ℕ → String) (db : Db) (id : ℕ) :
    (db.snapshotRows id).map (SnapshotRow.toSnapshot text) = db.tableSnapshots text id := by
  rw [Db.snapshotRows, ← List.filterMap_eq_map, Rows.select_filterMap, Db.tableSnapshots]
  refine Rows.select_congr fun n => ?_
  congr 1
  funext x
  by_cases hx : x.tableId = id <;>
    simp [hx, SnapshotRec.toRow, SnapshotRow.toSnapshot, SnapshotRec.toSnapshot]

/-- The dates of the snapshots of a table grow with their ids. -/
theorem Timely.snapshotRows_sorted {s : Server} (ht : Timely past s) (id : ℕ) :
    (s.db.snapshotRows id).Pairwise fun a b => a.committedAt < b.committedAt := by
  have hsorted : (s.db.snapshotRows id).Pairwise fun a b => a.snapshotId < b.snapshotId := by
    refine Rows.select_sorted fun n x b hb => ?_
    obtain ⟨-, hb⟩ := Option.ite_none_right_eq_some.mp hb
    cases hb
    rfl
  refine hsorted.imp_of_mem fun ha hb hab => ?_
  obtain ⟨n, x, hx, ha⟩ := Rows.mem_select.mp ha
  obtain ⟨m, y, hy, hb⟩ := Rows.mem_select.mp hb
  obtain ⟨hxid, ha⟩ := Option.ite_none_right_eq_some.mp ha
  obtain ⟨hyid, hb⟩ := Option.ite_none_right_eq_some.mp hb
  cases ha
  cases hb
  exact ht.ordered n m x y hx hy (hxid.trans hyid.symm) hab

theorem Db.length_snapshotsOf (limit : ℕ) (db : Db) (id : ℕ) :
    (Db.snapshotsOf limit db id).length = min limit (db.snapshotRows id).length := by
  rw [Db.snapshotsOf, newestFirst, List.length_take, List.length_mergeSort]
  rfl

theorem Timely.snapshotsOf {s : Server} (ht : Timely past s) (limit id : ℕ) :
    Db.snapshotsOf limit s.db id = (s.db.snapshotRows id).reverse.take limit := by
  rw [Db.snapshotsOf, newestFirst]
  exact congrArg (List.take limit) (mergeSort_eq_reverse (ht.snapshotRows_sorted id))

/-- The rows that `list_snapshots` returns. -/
def listedSnapshots (c : ServerConfig) (t : String) (n : ℤ) : List SnapshotRow :=
  Db.ofTable (Db.snapshotsOf (snapshotLimit n)) [] (cStr t) c.state.db

/-- The answer is the chain from the current snapshot `current`, up to the limit. -/
structure ListsHistory (pg : Postgres) (policy : Policy) (c : ServerConfig) (t : String) (n : ℤ)
    (current : ℕ) (text : ℕ → String) : Prop where
  told : Tells pg policy c (MetadataServer.listSnapshots t n)
    (snapshotsReply (listedSnapshots c t n))
  chain : ∃ chain, ChainReturns (c.state.db.allSnapshots text) current chain ∧
    (listedSnapshots c t n).map (SnapshotRow.toSnapshot text) = chain.take n.toNat

theorem tells_snapshots (h : Reachable pg policy c) (t : String) (n : ℤ) :
    Tells pg policy c (MetadataServer.listSnapshots t n)
      (snapshotsReply (listedSnapshots c t n)) := by
  intro i q tr y w' hi hx h₀
  have hr := solo_listSnapshots (own_fresh h.inv (h.good.fresh i hi)) hx
  exact Option.some.inj (hr.tells h₀)

theorem listSnapshots_history (hc : policy.Clean) (hs : policy.Steady)
    (h : Ticking pg policy past c) (hf : c.state.db.find (cStr t) = some (id, r)) (hn : 0 < n)
    (text : ℕ → String) : ListsHistory pg policy c t n r.currentSnapshotId text := by
  have hr := (Db.row_of_find hf).1
  refine ⟨tells_snapshots h.reachable t n, _, (h.reachable.histories hc hs).current_chain hr, ?_⟩
  have hlimit : snapshotLimit n = n.toNat := if_pos hn
  rw [listedSnapshots, Db.ofTable, hf, hlimit]
  change List.map _ (Db.snapshotsOf n.toNat c.state.db id) = _
  rw [(h.timely hc).snapshotsOf, List.map_take, List.map_reverse, Db.map_snapshotRows]

/-- Two commits, the second when the clock has gone on. -/
theorem listSnapshots_history_of_two : ∃ (past : ℕ → Prop) (c : ServerConfig),
    Ticking .plain .flawless past c ∧
    (c.state.db.allSnapshots toString).map Db.link = [(1, 0), (2, 1)] ∧
    ListsHistory .plain .flawless c "t" 50 2 toString := by
  let run (c : ServerConfig) (times : List ℕ) (i parent : ℕ) : Option (ServerConfig × List ℕ) :=
    tickingMoves .plain .flawless c times (serve i (.commit "t" parent "append" [] []) 11)
  let listed (c : ServerConfig) : Bool :=
    decide ((c.state.db.allSnapshots toString).map Db.link = [(1, 0), (2, 1)]) &&
    (c.state.db.find "t").any fun f => decide (f.2.currentSnapshotId = 2)
  have hcheck : ((tickingMoves .plain .flawless (.initial freshServer) []
      (serve 0 (.createTable "t" "\x7b\x7d" "" []) 5)).any fun p =>
        (run p.1 p.2 1 0).any fun p => (run p.1.tick p.2 2 1).any fun p => listed p.1) = true := by
    decide +kernel
  simp only [Option.any_eq_true, listed, Bool.and_eq_true, decide_eq_true_eq] at hcheck
  obtain ⟨p₀, h₀, p₁, h₁, p₂, h₂, hlist, f, hf, hcur⟩ := hcheck
  obtain ⟨past₀, hp₀, ht₀⟩ := (Ticking.start (started_fresh .empty)).of_moves nofun h₀
  obtain ⟨past₁, hp₁, ht₁⟩ := hp₀.of_moves ht₀ h₁
  obtain ⟨past, hp, ht⟩ := hp₁.tick
  obtain ⟨past₂, hp₂, -⟩ := hp.of_moves (fun u hu => ht₁ u (ht u hu)) h₂
  refine ⟨past₂, p₂.1, hp₂, hlist, ?_⟩
  have hname : cStr "t" = "t" := by decide
  rw [← hcur]
  exact listSnapshots_history Policy.flawless_clean Policy.flawless_flawless.steady hp₂
    (hname.symm ▸ hf) (by decide) toString

/-- The lock of a name with a NUL byte is another one, and the snapshots of two commits at once have
the same parent. -/
theorem listSnapshots_not_history : ¬ ∀ (pg : Postgres) (policy : Policy) (past : ℕ → Prop)
    (c : ServerConfig) (t : String) (id : ℕ) (r : TableRec) (n : ℤ) (text : ℕ → String),
    policy.Flawless → Ticking pg policy past c → c.state.db.find (cStr t) = some (id, r) → 0 < n →
      ListsHistory pg policy c t n r.currentSnapshotId text := by
  intro hall
  let commit (t : String) : Request := .commit t 0 "append" [] []
  let forked (c : ServerConfig) : Bool :=
    decide (c.state.db.allSnapshots (fun _ => "") =
      [⟨1, 0, 1, "append", 0, 0, ""⟩, ⟨2, 0, 1, "append", 0, 0, ""⟩]) &&
    (c.state.db.find "t").any fun f =>
      decide (f.2.currentSnapshotId = 2 ∧ (c.state.db.snapshotRows f.1).length = 2)
  have hcheck : ((tickingMoves .plain .anyNames (.initial freshServer) []
      (serve 0 (.createTable "t" "\x7b\x7d" "" []) 5 ++
        [.call 1 (commit "t"), .call 2 (commit "t\x00u")] ++ List.replicate 4 (.step 1 .ok) ++
        List.replicate 11 (.step 2 .ok) ++ List.replicate 7 (.step 1 .ok))).any fun p =>
        forked p.1) = true := by
    decide +kernel
  simp only [Option.any_eq_true, forked, Bool.and_eq_true, decide_eq_true_eq] at hcheck
  obtain ⟨p, hp, hrows, f, hf, hcur, hlen⟩ := hcheck
  obtain ⟨past, hp, -⟩ := (Ticking.start (started_fresh .empty)).of_moves nofun hp
  have hname : cStr "t" = "t" := by decide
  obtain ⟨-, chain, hr, hchain⟩ := hall _ _ past p.1 "t" f.1 f.2 50 (fun _ => "")
    Policy.anyNames_flawless hp (hname.symm ▸ hf) (by decide)
  rw [hrows, hcur] at hr
  have hrun : buildSnapshotChain [⟨1, 0, 1, "append", 0, 0, ""⟩, ⟨2, 0, 1, "append", 0, 0, ""⟩] 2 2 =
      some [⟨2, 0, 1, "append", 0, 0, ""⟩] := by decide
  rw [(chainReturns_iff.mp hr).unique (chainReturns_iff.mp ⟨2, hrun⟩)] at hchain
  have := congrArg List.length hchain
  rw [List.length_map, listedSnapshots, Db.ofTable, hname, hf] at this
  change (Db.snapshotsOf (snapshotLimit 50) p.1.state.db f.1).length = _ at this
  rw [Db.length_snapshotsOf, hlen] at this
  exact absurd this (by decide)

end IceLog
