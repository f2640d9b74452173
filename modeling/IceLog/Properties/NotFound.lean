import IceLog.Properties.Storage
import IceLog.Server.TableReads

/-! When `GetPartitions` says that there is no table. -/
namespace IceLog

open Interleaved

variable {pg : Postgres} {policy : Policy} {c c' : ServerConfig} {i : ℕ} {t token : String}
  {n : ℕ} {k last : ℤ} {x : Option Reply} {s : Server}

/-- A read at `n` that asks for no page finds its answer in the cache. -/
def Server.Hits (s : Server) (t : String) (pageSize : ℤ) (n : ℕ) : Prop :=
  ¬ pageSize > 0 ∧ (s.cached t n).isSome

/-- The id at which a request is evaluated fits `BIGINT` if there is a table, and the cache does not
answer if there is none. -/
def Server.Tells (s : Server) (t : String) (n : ℕ) (pageSize : ℤ) : Prop :=
  if (s.db.find t).isSome then
    s.snapshotFor t n false < maxBigint ∨ s.Hits t pageSize (s.snapshotFor t n false)
  else ¬ s.Hits t pageSize (s.snapshotFor t n false)

theorem Db.queryPartitions_eq_none {db : Db} :
    db.queryPartitions t n = none ↔ db.find t = none ∨ maxBigint ≤ n := by
  unfold Db.queryPartitions
  by_cases hn : maxBigint ≤ n <;> simp [hn]

theorem listing_notFound {rows : Option (List PartitionRow)} :
    (∃ e, some (listing t k rows) = some (.notFound e)) ↔ rows = none := by
  cases rows <;> simp [listing]

theorem Server.pageFor_eq_none (ht : NulFree t) : s.pageFor t k last n = none ↔
    (s.db.find t = none ∨ maxBigint ≤ n) ∧ ¬ s.Hits t k n := by
  rw [Server.pageFor, Server.Hits, cStr_of_nulFree ht]
  split
  · rename_i hk
    simp [Db.queryPartitions_eq_none, hk]
  · rename_i hk
    rw [Server.partitionsFor, Option.or_eq_none_iff, cStr_of_nulFree ht,
      Db.queryPartitions_eq_none]
    simp [hk, and_comm]

/-- A request that is served to its end says "not found" if and only if the page at its snapshot
cannot be read. -/
theorem AtRest.notFound_iff (h : AtRest pg policy c) (ht : NulFree t)
    (hx : Completes pg policy c i (.getPartitions t n k token) x c') :
    (∃ e, x = some (.notFound e)) ↔ (c.state.db.find t = none ∨
      maxBigint ≤ c.state.snapshotFor t n false) ∧
        ¬ c.state.Hits t k (c.state.snapshotFor t n false) := by
  obtain ⟨tr, hread⟩ := hx.solo
  have ho := h.own_called hx.idle (.getPartitions t n k token)
  have hw : (c.world.next (.call i (.getPartitions t n k token)) c.state).now.Working := h.working
  have h₀ : Faultless tr := (solo_working h.unfailing hw hread).2
  rw [(solo_getPartitions_handler ho (fun _ => ht) hread).tells h₀, h₀.fails,
    if_neg Bool.false_ne_true, listing_notFound]
  exact Server.pageFor_eq_none ht

/-- "Not found" means that there is no table if and only if the id fits `BIGINT` where there is one,
and no entry of the cache answers where there is none. -/
theorem not_found_means_not_found_iff (h : AtRest pg policy c) (ht : NulFree t)
    (hx : Completes pg policy c i (.getPartitions t n k token) x c') :
    ((∃ e, x = some (.notFound e)) ↔ c.state.db.find t = none) ↔ c.state.Tells t n k := by
  rw [h.notFound_iff ht hx, Server.Tells]
  cases hf : c.state.db.find t with
  | none => simp
  | some p => simp [imp_iff_not_or]

/-- Where no request has named a table with a NUL, the cache has nothing to do with it. -/
theorem Quiet.tells_iff (h : Quiet pg c) : c.state.Tells t n k ↔
    ((c.state.db.find t).isSome → c.state.snapshotFor t n false < maxBigint) := by
  have hhit : c.state.Hits t k (c.state.snapshotFor t n false) →
      c.state.db.find t ≠ none ∧ c.state.snapshotFor t n false < maxBigint := by
    rintro ⟨-, hc⟩
    obtain ⟨rows, hrows⟩ := Option.isSome_iff_exists.mp hc
    have hq : ¬ c.state.db.queryPartitions t (c.state.snapshotFor t n false) = none := by
      rw [h.queryPartitions hrows]
      exact Option.some_ne_none rows
    rw [Db.queryPartitions_eq_none, not_or, not_le] at hq
    exact hq
  rw [Server.Tells]
  split
  · rename_i hlive
    exact ⟨fun hor _ => hor.elim id fun hh => (hhit hh).2, fun hlt => .inl (hlt hlive)⟩
  · rename_i hnone
    rw [Option.not_isSome_iff_eq_none] at hnone
    exact ⟨fun _ hlive => absurd hnone (Option.isSome_iff_ne_none.mp hlive),
      fun _ hh => (hhit hh).1 hnone⟩

/-- A table with one partition, read at its snapshot. -/
theorem not_found_means_not_found_at_one : ∃ (c c' : ServerConfig) (x : Option Reply),
    Quiet .plain c ∧ Completes .plain .flawless c 2 (.getPartitions "t" 1 0 "") x c' ∧
      c.state.Tells "t" 1 0 ∧ ((∃ e, x = some (.notFound e)) ↔ c.state.db.find "t" = none) := by
  let read (c : ServerConfig) := completion .plain .flawless c 2 (.getPartitions "t" 1 0 "")
    (List.replicate 8 .ok)
  obtain ⟨c, h, hp⟩ := @quiet_of_check .plain
    [(.createTable "t" "\x7b\x7d" "" [], 5),
      (.commitSnapshot "t" [samplePartition "a" "f"] [] 0 "", 13)]
    (fun c => (read c).isSome) (by decide +kernel)
  obtain ⟨⟨x, c'⟩, hx⟩ := Option.isSome_iff_exists.mp hp
  have hx := completes_of_completion hx
  have ht : NulFree "t" := by decide
  have htells : c.state.Tells "t" 1 0 := h.tells_iff.mpr fun _ => by
    change 1 < maxBigint
    decide
  exact ⟨c, c', x, h, hx, htells, (not_found_means_not_found_iff h.toAtRest ht hx).mpr htells⟩

/-- A table that is there is not found at the snapshot `2 ^ 63`. -/
theorem not_found_of_live_table : ¬ ∀ (pg : Postgres) (c c' : ServerConfig) (i : ℕ) (t : String)
    (n : ℕ) (k : ℤ) (token : String) (x : Option Reply), Quiet pg c → NulFree t → n < 2 ^ 64 →
    Completes pg .flawless c i (.getPartitions t n k token) x c' →
    ((∃ e, x = some (.notFound e)) ↔ c.state.db.find t = none) := by
  intro hall
  let read (c : ServerConfig) := completion .plain .flawless c 1
    (.getPartitions "t" (2 ^ 63) 10 "") (List.replicate 6 .ok)
  obtain ⟨c, h, hp⟩ := @quiet_of_check .plain [(.createTable "t" "\x7b\x7d" "" [], 5)]
    (fun c => (c.state.db.find "t").isSome && (read c).any fun r =>
      r.1 == some (.notFound "Table not found: t")) (by decide +kernel)
  simp only [Bool.and_eq_true, Option.any_eq_true, beq_iff_eq] at hp
  obtain ⟨hlive, ⟨x, c'⟩, hx, rfl⟩ := hp
  have hnone := (hall .plain c c' 1 "t" (2 ^ 63) 10 "" _ h (by decide) (by decide)
    (completes_of_completion hx)).mp ⟨_, rfl⟩
  exact absurd hnone (Option.isSome_iff_ne_none.mp hlive)

end IceLog
