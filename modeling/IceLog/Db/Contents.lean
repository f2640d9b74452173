import IceLog.Catalog.Names
import IceLog.Server.Commits

/-! The partitions of a table as a list, and what a commit makes of that list. -/
namespace IceLog

open Serial

variable {α β : Type}

/-- Two lists of two parts each that a predicate tells apart. -/
theorem perm_append_iff {c : α → Bool} {xs xs' ys ys' : List α} (hx : ∀ a ∈ xs, c a = false)
    (hx' : ∀ a ∈ xs', c a = false) (hy : ∀ a ∈ ys, c a = true) (hy' : ∀ a ∈ ys', c a = true) :
    (xs ++ ys).Perm (xs' ++ ys') ↔ xs.Perm xs' ∧ ys.Perm ys' := by
  have hfst : ∀ {xs ys : List α}, (∀ a ∈ xs, c a = false) → (∀ a ∈ ys, c a = true) →
      (xs ++ ys).filter (fun a => !c a) = xs ∧ (xs ++ ys).filter c = ys := by
    intro xs ys hx hy
    have h₁ : xs.filter (fun a => !c a) = xs := List.filter_eq_self.mpr fun a ha => by simp [hx a ha]
    have h₂ : ys.filter (fun a => !c a) = [] := List.filter_eq_nil_iff.mpr fun a ha => by simp [hy a ha]
    have h₃ : xs.filter c = [] := List.filter_eq_nil_iff.mpr fun a ha => by simp [hx a ha]
    have h₄ : ys.filter c = ys := List.filter_eq_self.mpr fun a ha => hy a ha
    simp [List.filter_append, h₁, h₂, h₃, h₄]
  constructor
  · intro h
    have h₁ := h.filter fun a => !c a
    have h₂ := h.filter c
    rw [(hfst hx hy).1, (hfst hx' hy').1] at h₁
    rw [(hfst hx hy).2, (hfst hx' hy').2] at h₂
    exact ⟨h₁, h₂⟩
  · rintro ⟨h₁, h₂⟩
    exact h₁.append h₂

namespace Slice

variable {v w : Slice} {N n id : ℕ} {pg : Postgres} {news : List PartitionRow}
  {keys : List String}

/-- What `f` makes of the partitions under the keys below `N`. -/
def listed (v : Slice) (N : ℕ) (f : ℕ → PartitionRec → Option β) : List β :=
  (List.range N).filterMap fun p => (v.partitions p).bind (f p)

/-- The rows of the partitions that meet `c`. -/
def rowsWhere (c : PartitionRec → Prop) [DecidablePred c] (p : ℕ) (r : PartitionRec) :
    Option PartitionRow :=
  if c r then some (r.toRow p) else none

theorem mem_listed {f : ℕ → PartitionRec → Option β} {b : β} : b ∈ v.listed N f ↔
    ∃ p r, p < N ∧ v.partitions p = some r ∧ f p r = some b := by
  simp [listed, Option.bind_eq_some_iff]

theorem listed_congr {f g : ℕ → PartitionRec → Option β}
    (h : ∀ p r, p < N → v.partitions p = some r → f p r = g p r) : v.listed N f = v.listed N g := by
  refine List.filterMap_congr fun p hp => ?_
  cases hr : v.partitions p with
  | none => rfl
  | some r => exact h p r (List.mem_range.mp hp) hr

/-- Rows are told apart by their ids. -/
theorem listed_perm_iff {c d : PartitionRec → Prop} [DecidablePred c] [DecidablePred d] :
    (v.listed N (rowsWhere c)).Perm (v.listed N (rowsWhere d)) ↔
      ∀ p r, p < N → v.partitions p = some r → (c r ↔ d r) := by
  have hmem : ∀ {c : PartitionRec → Prop} [DecidablePred c] {p r}, p < N → v.partitions p = some r →
      (r.toRow p ∈ v.listed N (rowsWhere c) ↔ c r) := by
    intro c _ p r hp hr
    rw [mem_listed]
    constructor
    · rintro ⟨p', r', -, hr', h⟩
      simp only [rowsWhere, Option.ite_none_right_eq_some, Option.some.injEq] at h
      obtain rfl : p' = p := congrArg PartitionRow.partitionId h.2
      rw [hr] at hr'
      cases hr'
      exact h.1
    · exact fun h => ⟨p, r, hp, hr, if_pos h⟩
  constructor
  · intro h p r hp hr
    rw [← hmem (c := c) hp hr, ← hmem (c := d) hp hr, h.mem_iff]
  · intro h
    refine List.Perm.of_eq (listed_congr fun p r hp hr => ?_)
    simp only [rowsWhere, h p r hp hr]

/-- A partition under a free key. -/
theorem listed_insertPartition {p : ℕ} {r : PartitionRec} (f : ℕ → PartitionRec → Option β)
    (hp : v.partitions p = none) (hN : p < N) :
    ((v.insertPartition p r).listed N f).Perm (v.listed N f ++ (f p r).toList) := by
  have hsplit : (List.range N).Perm (p :: (List.range N).erase p) :=
    List.perm_cons_erase (List.mem_range.mpr hN)
  have hrest : ((List.range N).erase p).filterMap
      (fun k => ((v.insertPartition p r).partitions k).bind (f k)) =
      ((List.range N).erase p).filterMap fun k => (v.partitions k).bind (f k) := by
    refine List.filterMap_congr fun k hk => ?_
    have hne : k ≠ p := (List.nodup_range.mem_erase_iff.mp hk).1
    simp [insertPartition, hne]
  have hself : (v.insertPartition p r).partitions p = some r := by simp [insertPartition]
  have hnew := hsplit.filterMap fun k => ((v.insertPartition p r).partitions k).bind (f k)
  have hold := hsplit.filterMap fun k => (v.partitions k).bind (f k)
  rw [List.filterMap_cons, hrest, hself, Option.bind_some] at hnew
  rw [List.filterMap_cons, hp, Option.bind_none] at hold
  cases hf : f p r with
  | none =>
    rw [hf] at hnew
    simpa [listed] using hnew.trans hold.symm
  | some b =>
    rw [hf] at hnew
    exact (hnew.trans (hold.symm.cons b)).trans (List.perm_append_singleton b _).symm

theorem Inserted.keeps {p : ℕ} {r : PartitionRec} (h : Inserted pg id n news v w)
    (hr : v.partitions p = some r) : w.partitions p = some r := by
  induction h with
  | nil => exact hr
  | @cons part rest v w p' stats hp _ _ _ ih =>
    have hne : p ≠ p' := by
      rintro rfl
      simp [hp] at hr
    exact ih (by simpa [insertPartition, hne] using hr)

/-- The loop over the new partitions adds each of them once. -/
theorem Inserted.listed (h : Inserted pg id n news v w)
    (hN : ∀ p r, w.partitions p = some r → p < N) : ∃ added : List (ℕ × PartitionRec),
      List.Forall₂ (fun part e => ∃ stats,
        e.2 = (PgClient.partitionParams part).toRec id n stats) news added ∧
      ∀ (β : Type) (f : ℕ → PartitionRec → Option β),
        (w.listed N f).Perm (v.listed N f ++ added.filterMap fun e => f e.1 e.2) := by
  induction h with
  | nil v => exact ⟨[], .nil, fun β f => by simp⟩
  | @cons part rest v w p stats hp _ _ hrest ih =>
    obtain ⟨added, hadded, hperm⟩ := ih hN
    let r := (PgClient.partitionParams part).toRec id n stats
    have hkept : w.partitions p = some r :=
      hrest.keeps (by simp [insertPartition, r])
    refine ⟨(p, r) :: added, .cons ⟨stats, rfl⟩ hadded, fun β f => (hperm β f).trans ?_⟩
    have hfirst := (listed_insertPartition (r := r) f hp (hN p r hkept)).append_right
      (added.filterMap fun e => f e.1 e.2)
    rw [List.append_assoc] at hfirst
    rw [List.filterMap_cons]
    cases hf : f p r with
    | none => simpa [hf] using hfirst
    | some b => simpa [hf] using hfirst

/-- The loop over the deleted keys tombstones the live partitions of these keys. -/
theorem markAll_partitions (p : ℕ) : (v.markAll n keys).partitions p =
    (v.partitions p).map fun r =>
      if r.isDeleted = false ∧ r.partitionKey ∈ keys.map cStr then r.markDeleted n else r := by
  induction keys generalizing v with
  | nil => simp [markAll]
  | cons key keys ih =>
    rw [show v.markAll n (key :: keys) = (v.markDeleted n (cStr key)).markAll n keys from rfl, ih]
    cases hr : v.partitions p with
    | none => simp [markDeleted, hr]
    | some r =>
      by_cases hk : r.partitionKey = cStr key <;> by_cases hd : r.isDeleted = false
      all_goals simp [markDeleted, hr, hk, hd, PartitionRec.markDeleted]

end Slice
end IceLog
