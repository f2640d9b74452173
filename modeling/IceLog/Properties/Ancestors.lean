import IceLog.Db.SnapshotChains
import IceLog.Properties.Storage

/-! A snapshot is an ancestor of another one of its table if its id is not above that of the
parent. -/
namespace IceLog

open Interleaved Serial

variable {pg : Postgres} {policy : Policy} {c : ServerConfig}

theorem Reachable.histories (hc : policy.Clean) (hs : policy.Steady) (h : Reachable pg policy c) :
    c.state.db.Histories where
  linked := h.inv.linked hc hs
  owned := (store_wellFormed hc h).snapshots

/-- The comparison of ids says of two snapshots of a table whether the chain from the parent of `y`
meets `x`. -/
def AncestorsAgree (all : List Snapshot) : Prop :=
  ∀ x ∈ all, ∀ y ∈ all, x.tableId = y.tableId →
    ∃ chain, ChainReturns all y.parentSnapshotId chain ∧
      (x.isAncestorOf y.parentSnapshotId = true ↔ x ∈ chain)

theorem ancestors_agree (hc : policy.Clean) (hs : policy.Steady) (h : Reachable pg policy c)
    (text : ℕ → String) (all : List Snapshot) (hall : all.Perm (c.state.db.allSnapshots text)) :
    AncestorsAgree all := by
  intro x hx y hy hxy
  have hh := h.histories hc hs
  have hx := hall.mem_iff.mp hx
  have hy := hall.mem_iff.mp hy
  obtain ⟨n, r, -, he⟩ := Db.mem_allSnapshots.mp hy
  have hid : y.tableId = r.tableId := by rw [← he]; rfl
  obtain ⟨chain, hr, hm⟩ := hh.parent_chain (Db.mem_tableSnapshots.mpr ⟨hy, hid⟩)
  refine ⟨chain, ?_, ?_⟩
  · rw [chainReturns_iff, (hh.ordered text).lookupSnapshot_perm hall, ← chainReturns_iff]
    exact hr
  · rw [Snapshot.isAncestorOf, decide_eq_true_eq]
    exact (hm x (Db.mem_tableSnapshots.mpr ⟨hx, hxy.trans hid⟩)).symm

/-- Two snapshots that follow each other, with one of another table between them. -/
theorem ancestors_agree_interleaved : ∃ c : ServerConfig,
    (c.state.db.allSnapshots toString).map (fun s => (s.snapshotId, s.parentSnapshotId, s.tableId)) =
      [(1, 0, 1), (2, 0, 2), (3, 1, 1)] ∧
    AncestorsAgree (c.state.db.allSnapshots toString) := by
  obtain ⟨c, h, hp⟩ := @reachable_of_check .plain .flawless
    (serve 0 (.createTable "t" "\x7b\x7d" "" []) 5 ++ serve 1 (.createTable "u" "\x7b\x7d" "" []) 5 ++
      serve 2 (.commit "t" 0 "append" [] []) 11 ++ serve 3 (.commit "u" 0 "append" [] []) 11 ++
      serve 4 (.commit "t" 1 "append" [] []) 11)
    (fun c => decide ((c.state.db.allSnapshots toString).map
      (fun s => (s.snapshotId, s.parentSnapshotId, s.tableId)) =
        [(1, 0, 1), (2, 0, 2), (3, 1, 1)])) (by decide +kernel)
  exact ⟨c, by simpa using hp,
    ancestors_agree Policy.flawless_clean Policy.flawless_flawless.steady h
    _ _ (.refl _)⟩

/-- The lock of a name with a NUL byte is another one, so the history of the table can fork. -/
theorem ancestors_disagree : ¬ ∀ (pg : Postgres) (policy : Policy) (c : ServerConfig)
    (text : ℕ → String) (all : List Snapshot), policy.Flawless → Reachable pg policy c →
      all.Perm (c.state.db.allSnapshots text) → AncestorsAgree all := by
  intro hall
  let commit (t : String) (parent : ℕ) : Request := .commit t parent "append" [] []
  obtain ⟨c, h, hp⟩ := @reachable_of_check .plain .anyNames
    (serve 0 (.createTable "t" "\x7b\x7d" "" []) 5 ++
      [.call 1 (commit "t" 0), .call 2 (commit "t\x00u" 0)] ++ List.replicate 4 (.step 1 .ok) ++
      List.replicate 11 (.step 2 .ok) ++ List.replicate 7 (.step 1 .ok) ++ serve 3 (commit "t" 2) 11)
    (fun c => decide (c.state.db.allSnapshots (fun _ => "") =
      [⟨1, 0, 1, "append", 0, 0, ""⟩, ⟨2, 0, 1, "append", 0, 0, ""⟩, ⟨3, 2, 1, "append", 0, 0, ""⟩]))
    (by decide +kernel)
  have hp := of_decide_eq_true hp
  have hagree := hall _ _ c (fun _ => "") _ Policy.anyNames_flawless h (.refl _)
  rw [hp] at hagree
  obtain ⟨chain, hr, hm⟩ := hagree ⟨1, 0, 1, "append", 0, 0, ""⟩ (by decide)
    ⟨3, 2, 1, "append", 0, 0, ""⟩ (by decide) rfl
  have hrun : buildSnapshotChain [⟨1, 0, 1, "append", 0, 0, ""⟩, ⟨2, 0, 1, "append", 0, 0, ""⟩,
      ⟨3, 2, 1, "append", 0, 0, ""⟩] 2 2 = some [⟨2, 0, 1, "append", 0, 0, ""⟩] := by decide
  rw [(chainReturns_iff.mp hr).unique (chainReturns_iff.mp ⟨2, hrun⟩)] at hm
  exact absurd (hm.mp rfl) (by decide)

end IceLog
