import Mathlib.Data.Finset.Dedup
import Mathlib.Data.List.Perm.Basic
import Mathlib.Logic.Function.Basic
import IceLog.Data.Pointers

/-! The chain of a snapshot: the way along the parents, in whatever vector they are given. -/
namespace IceLog

structure Snapshot where
  snapshotId : ℕ
  parentSnapshotId : ℕ
  tableId : ℤ
  operation : String
  addedFilesCount : ℤ
  deletedFilesCount : ℤ
  committedAt : String
deriving DecidableEq

def Snapshot.isAncestorOf (s : Snapshot) (otherParent : ℕ) : Bool := s.snapshotId ≤ otherParent

/-- The map from ids to snapshots: of several with one id, the last. -/
def snapshotIndex (allSnapshots : List Snapshot) : ℕ → Option Snapshot :=
  allSnapshots.foldl (fun index s => Function.update index s.snapshotId (some s)) fun _ => none

/-- The loop from `current` on, which has collected `chain`; `none` if `fuel` tests of its
condition do not see it end. -/
def chainLoop (index : ℕ → Option Snapshot) :
    (fuel current : ℕ) → (chain : List Snapshot) → Option (List Snapshot)
  | 0, _, _ => none
  | fuel + 1, current, chain =>
    if current ≠ 0 then
      match index current with
      | none => some chain
      | some s => chainLoop index fuel s.parentSnapshotId (chain ++ [s])
    else
      some chain

def buildSnapshotChain (allSnapshots : List Snapshot) (fromSnapshotId fuel : ℕ) :
    Option (List Snapshot) :=
  chainLoop (snapshotIndex allSnapshots) fuel fromSnapshotId []

open Pointers

variable {all all' : List Snapshot} {s : Snapshot} {f k fuel : ℕ} {chain : List Snapshot}

/-- What the loop finds under an id. -/
def lookupSnapshot (all : List Snapshot) (k : ℕ) : Option Snapshot :=
  if k = 0 then none else snapshotIndex all k

/-- The call ends and returns `chain`. -/
def ChainReturns (all : List Snapshot) (f : ℕ) (chain : List Snapshot) : Prop :=
  ∃ fuel, buildSnapshotChain all f fuel = some chain

/-- The loop goes on to `b` after the snapshot `a`. -/
def ParentOf (all : List Snapshot) (a b : ℕ) : Prop :=
  ∃ s, lookupSnapshot all a = some s ∧ s.parentSnapshotId = b

theorem snapshotIndex_snoc (all : List Snapshot) (s : Snapshot) :
    snapshotIndex (all ++ [s]) = Function.update (snapshotIndex all) s.snapshotId (some s) := by
  simp [snapshotIndex, List.foldl_append]

theorem mem_of_snapshotIndex (h : snapshotIndex all k = some s) : s ∈ all ∧ s.snapshotId = k := by
  induction all using List.reverseRecOn with
  | nil => cases h
  | append_singleton all x ih =>
    rw [snapshotIndex_snoc] at h
    by_cases hk : k = x.snapshotId
    · subst hk
      rw [Function.update_self] at h
      cases h
      exact ⟨by simp, rfl⟩
    · rw [Function.update_of_ne hk] at h
      obtain ⟨hm, he⟩ := ih h
      exact ⟨List.mem_append_left _ hm, he⟩

theorem snapshotIndex_isSome (h : s ∈ all) : (snapshotIndex all s.snapshotId).isSome = true := by
  induction all using List.reverseRecOn with
  | nil => cases h
  | append_singleton all x ih =>
    rw [snapshotIndex_snoc]
    by_cases hk : s.snapshotId = x.snapshotId
    · rw [hk, Function.update_self]
      rfl
    · rw [Function.update_of_ne hk]
      rcases List.mem_append.mp h with h | h
      · exact ih h
      · exact (hk (congrArg _ (List.mem_singleton.mp h))).elim

theorem lookupSnapshot_eq_some (h : lookupSnapshot all k = some s) :
    k ≠ 0 ∧ s ∈ all ∧ s.snapshotId = k := by
  unfold lookupSnapshot at h
  split at h
  · cases h
  · rename_i hk
    exact ⟨hk, mem_of_snapshotIndex h⟩

theorem lookupSnapshot_eq_none_iff :
    lookupSnapshot all k = none ↔ k = 0 ∨ ∀ s ∈ all, s.snapshotId ≠ k := by
  unfold lookupSnapshot
  split
  · simp [*]
  · rename_i hk
    constructor
    · rintro h
      refine .inr fun s hs he => ?_
      have := snapshotIndex_isSome hs
      rw [he, h] at this
      cases this
    · rintro (h | h)
      · exact (hk h).elim
      · rw [Option.eq_none_iff_forall_ne_some]
        rintro s hs
        obtain ⟨hm, he⟩ := mem_of_snapshotIndex hs
        exact h s hm he

theorem chainLoop_eq (acc : List Snapshot) : chainLoop (snapshotIndex all) fuel k acc =
    (trail (lookupSnapshot all) Snapshot.parentSnapshotId fuel k).map (acc ++ ·) := by
  induction fuel generalizing k acc with
  | zero => rfl
  | succ fuel ih =>
    rw [chainLoop, trail, lookupSnapshot]
    by_cases hk : k = 0
    · simp [hk]
    · simp only [hk, ne_eq, not_false_eq_true, if_true, if_false]
      cases snapshotIndex all k with
      | none => simp
      | some s =>
        simp only [ih, Option.map_map]
        congr 1
        funext l
        simp

/-- The loop sees each snapshot of the path once, and tests its condition once more. -/
theorem buildSnapshotChain_eq_some_iff : buildSnapshotChain all f fuel = some chain ↔
    Path (lookupSnapshot all) Snapshot.parentSnapshotId f chain ∧ chain.length < fuel := by
  rw [buildSnapshotChain, chainLoop_eq, ← trail_eq_some_iff]
  simp

theorem chainReturns_iff :
    ChainReturns all f chain ↔ Path (lookupSnapshot all) Snapshot.parentSnapshotId f chain := by
  simp only [ChainReturns, buildSnapshotChain_eq_some_iff]
  constructor
  · rintro ⟨fuel, h, -⟩
    exact h
  · intro h
    exact ⟨chain.length + 1, h, by omega⟩

theorem lookupSnapshot_mem (h : lookupSnapshot all k = some s) :
    k ∈ (all.map Snapshot.snapshotId).toFinset := by
  obtain ⟨-, hm, rfl⟩ := lookupSnapshot_eq_some h
  exact List.mem_toFinset.mpr (List.mem_map_of_mem hm)

theorem lookupSnapshot_id (k : ℕ) (s : Snapshot) (h : lookupSnapshot all k = some s) :
    s.snapshotId = k :=
  (lookupSnapshot_eq_some h).2.2

/-- The loop ends unless the parents lead it into a cycle, and it then takes up each id at most
once. -/
theorem buildSnapshotChain_ends_iff (all : List Snapshot) (f : ℕ) :
    ((∃ fuel chain, buildSnapshotChain all f fuel = some chain) ↔
      ¬ ∃ a, Relation.ReflTransGen (ParentOf all) f a ∧ Relation.TransGen (ParentOf all) a a) ∧
    ∀ fuel chain, buildSnapshotChain all f fuel = some chain →
      (chain.map Snapshot.snapshotId).Nodup ∧
      chain.length ≤ (all.map Snapshot.snapshotId).toFinset.card ∧
      buildSnapshotChain all f ((all.map Snapshot.snapshotId).toFinset.card + 1) = some chain := by
  constructor
  · rw [exists_comm]
    have hends := @exists_path_iff _ _ (lookupSnapshot all) Snapshot.parentSnapshotId f _
      fun _ _ => lookupSnapshot_mem
    refine Iff.trans (exists_congr fun chain => ?_) hends
    exact chainReturns_iff
  · intro fuel chain h
    have hp := (buildSnapshotChain_eq_some_iff.mp h).1
    have hlen := hp.length_le lookupSnapshot_id fun _ _ => lookupSnapshot_mem
    exact ⟨hp.nodup lookupSnapshot_id, hlen, buildSnapshotChain_eq_some_iff.mpr ⟨hp, by omega⟩⟩

/-- A snapshot that is its own parent. -/
def selfParent : Snapshot := ⟨1, 1, 1, "append", 0, 0, ""⟩

theorem buildSnapshotChain_not_ends : ¬ ∀ (all : List Snapshot) (f : ℕ),
    ∃ fuel chain, buildSnapshotChain all f fuel = some chain ∧
      chain.length ≤ (all.map Snapshot.snapshotId).toFinset.card := by
  intro h
  obtain ⟨fuel, chain, hc, -⟩ := h [selfParent] 1
  have hloop : ∀ fuel acc, chainLoop (snapshotIndex [selfParent]) fuel 1 acc = none := by
    intro fuel
    induction fuel with
    | zero => exact fun _ => rfl
    | succ fuel ih => exact fun acc => ih (acc ++ [selfParent])
  cases (hloop fuel []).symm.trans hc

/-- Every snapshot has an id of its own, above that of its parent. -/
structure Ordered (all : List Snapshot) : Prop where
  distinct : (all.map Snapshot.snapshotId).Nodup
  nonzero : ∀ s ∈ all, s.snapshotId ≠ 0
  parent_lt : ∀ s ∈ all, s.parentSnapshotId < s.snapshotId

/-- The longest path along the parents from `f`. -/
structure ParentPath (all : List Snapshot) (f : ℕ) (chain : List Snapshot) : Prop where
  empty : chain = [] ↔ f = 0 ∨ ∀ s ∈ all, s.snapshotId ≠ f
  head : ∀ s, chain.head? = some s → s.snapshotId = f
  linked : chain.IsChain fun s s' => s.parentSnapshotId = s'.snapshotId
  descending : (chain.map Snapshot.snapshotId).Pairwise (· > ·)
  stored : ∀ s ∈ chain, s ∈ all ∧ ∀ s' ∈ all, s'.snapshotId = s.snapshotId → s' = s
  last : ∀ s, chain.getLast? = some s →
    s.parentSnapshotId = 0 ∨ ∀ s' ∈ all, s'.snapshotId ≠ s.parentSnapshotId

theorem Ordered.lookupSnapshot_iff (h : Ordered all) :
    lookupSnapshot all k = some s ↔ s ∈ all ∧ s.snapshotId = k := by
  constructor
  · exact fun hs => (lookupSnapshot_eq_some hs).2
  · rintro ⟨hm, rfl⟩
    cases hs : lookupSnapshot all s.snapshotId with
    | none =>
      rcases lookupSnapshot_eq_none_iff.mp hs with h0 | hne
      · exact (h.nonzero s hm h0).elim
      · exact (hne s hm rfl).elim
    | some s' =>
      obtain ⟨-, hm', he⟩ := lookupSnapshot_eq_some hs
      rw [List.inj_on_of_nodup_map h.distinct hm' hm he]

theorem Ordered.perm (h : Ordered all) (hp : all'.Perm all) : Ordered all' where
  distinct := (hp.map _).nodup_iff.mpr h.distinct
  nonzero s hs := h.nonzero s (hp.subset hs)
  parent_lt s hs := h.parent_lt s (hp.subset hs)

/-- What is stored under an id does not depend on the order. -/
theorem Ordered.lookupSnapshot_perm (h : Ordered all) (hp : all'.Perm all) :
    lookupSnapshot all' = lookupSnapshot all := by
  funext k
  refine Option.ext fun s => ?_
  rw [(h.perm hp).lookupSnapshot_iff, h.lookupSnapshot_iff, hp.mem_iff]

theorem Ordered.lt (h : Ordered all) (k : ℕ) (s : Snapshot) (hs : lookupSnapshot all k = some s) :
    s.parentSnapshotId < k := by
  obtain ⟨-, hm, rfl⟩ := lookupSnapshot_eq_some hs
  exact h.parent_lt s hm

theorem Ordered.parentPath (h : Ordered all)
    (hp : Path (lookupSnapshot all) Snapshot.parentSnapshotId f chain) :
    ParentPath all f chain where
  empty := by
    rw [← lookupSnapshot_eq_none_iff]
    cases chain with
    | nil => exact iff_of_true rfl hp
    | cons s chain => simp [hp.1]
  head := by
    cases chain with
    | nil => simp
    | cons s chain =>
      rintro x ⟨⟩
      exact lookupSnapshot_id _ _ hp.1
  linked := hp.isChain lookupSnapshot_id
  descending := hp.descending h.lt lookupSnapshot_id
  stored s hs := by
    have hat := hp.stored lookupSnapshot_id hs
    refine ⟨(lookupSnapshot_eq_some hat).2.1, fun s' hs' he => ?_⟩
    exact Option.some.inj ((h.lookupSnapshot_iff.mpr ⟨hs', he⟩).symm.trans hat)
  last s hs := lookupSnapshot_eq_none_iff.mp (hp.last hs)

theorem Ordered.path (h : Ordered all) (hp : ParentPath all f chain) :
    Path (lookupSnapshot all) Snapshot.parentSnapshotId f chain := by
  refine path_of_isChain (fun hnil => lookupSnapshot_eq_none_iff.mpr (hp.empty.mp hnil)) hp.head
    hp.linked (fun s hs => h.lookupSnapshot_iff.mpr ⟨(hp.stored s hs).1, rfl⟩) fun s hs => ?_
  exact lookupSnapshot_eq_none_iff.mpr (hp.last s hs)

/-- Of an ordered history the call returns the one longest path, in whatever order it is given. -/
theorem buildSnapshotChain_correct (h : Ordered all) (f : ℕ) :
    ∃ chain, ChainReturns all f chain ∧ ParentPath all f chain ∧
      (∀ chain', ParentPath all f chain' → chain' = chain) ∧
      ∀ all', all'.Perm all → ChainReturns all' f chain := by
  obtain ⟨chain, hp⟩ := exists_path h.lt f
  refine ⟨chain, chainReturns_iff.mpr hp, h.parentPath hp, fun chain' hp' => ?_, ?_⟩
  · exact (h.path hp').unique hp
  · intro all' hperm
    rw [chainReturns_iff, h.lookupSnapshot_perm hperm]
    exact hp

/-- The histories of two tables, not in the order of their ids. -/
def sampleHistory : List Snapshot :=
  [⟨3, 1, 1, "delete", 0, 1, ""⟩, ⟨1, 0, 1, "append", 1, 0, ""⟩, ⟨2, 0, 2, "append", 1, 0, ""⟩]

theorem buildSnapshotChain_correct_sample :
    ∃ chain, ChainReturns sampleHistory 3 chain ∧ ParentPath sampleHistory 3 chain ∧
      chain.map Snapshot.snapshotId = [3, 1] := by
  obtain ⟨chain, hr, hp, -, -⟩ :=
    @buildSnapshotChain_correct sampleHistory ⟨by decide, by decide, by decide⟩ 3
  refine ⟨chain, hr, hp, ?_⟩
  have hrun : buildSnapshotChain sampleHistory 3 3 =
      some [⟨3, 1, 1, "delete", 0, 1, ""⟩, ⟨1, 0, 1, "append", 1, 0, ""⟩] := by decide
  rw [(chainReturns_iff.mp hr).unique (chainReturns_iff.mp ⟨3, hrun⟩)]
  rfl

end IceLog
