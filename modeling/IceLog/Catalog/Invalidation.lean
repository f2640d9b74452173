import IceLog.Catalog.Identity
import IceLog.Server.Runs

/-! The keys of the cache, and which entries an invalidation removes: the keys are matched by
prefix, and a name may go on after the colon that ends the prefix. -/
namespace IceLog.PartitionRegistry

variable {t t' : String} {n : ℕ}

/-- A part without a colon does not extend the prefix of another name. -/
theorem prefix_append_colon_iff {xs ys ds : List Char} (hd : ':' ∉ ds) :
    xs ++ [':'] <+: ys ++ ':' :: ds ↔ ys = xs ∨ xs ++ [':'] <+: ys := by
  constructor
  · intro h
    have hys : ys <+: ys ++ ':' :: ds := List.prefix_append ..
    rcases Nat.lt_or_ge xs.length ys.length with hlt | hge
    · exact .inr (List.prefix_of_prefix_length_le h hys (by simpa [Nat.succ_le_iff] using hlt))
    · have hxs : xs <+: ys ++ ':' :: ds := (List.prefix_append ..).trans h
      obtain ⟨e, rfl⟩ := List.prefix_of_prefix_length_le hys hxs hge
      rw [List.append_assoc, List.prefix_append_right_inj] at h
      cases e with
      | nil => exact .inl (List.append_nil ys).symm
      | cons x e =>
        rw [List.cons_append, List.cons_prefix_cons] at h
        exact absurd (h.2.subset (by simp)) hd
  · rintro (rfl | h)
    · exact ⟨ds, by simp⟩
    · exact h.trans (List.prefix_append ..)

/-- The keys of the table, and those of tables whose name goes on after a colon. -/
theorem prefix_key_iff : (t ++ ":").toList.isPrefixOf (makeCacheKey t' n).toList = true ↔
    t' = t ∨ (t ++ ":").toList <+: t'.toList := by
  rw [List.isPrefixOf_iff_prefix, toList_makeCacheKey, String.toList_append]
  change t.toList ++ [':'] <+: _ ↔ _ ∨ t.toList ++ [':'] <+: _
  rw [prefix_append_colon_iff (colon_notMem_toString n), String.toList_inj]

/-- The entries of all tables but `t` stay, and those of `t` go. -/
def Exact (t : String) (s s' : Server) : Prop :=
  ∀ t' n rows, (makeCacheKey t' n, rows) ∈ s'.cache.entries ↔
    (makeCacheKey t' n, rows) ∈ s.cache.entries ∧ t' ≠ t

/-- What the action of `invalidate_table_cache` leaves. -/
theorem mem_invalidated {pg : Postgres} {o : Outcome} {i removed : ℕ} {s s' : Server}
    (h : Server.perform pg o i (.cacheInvalidate (t ++ ":")) s = some (removed, s'))
    (t' : String) (n : ℕ) (rows : List PartitionRow) :
    (makeCacheKey t' n, rows) ∈ s'.cache.entries ↔
      (makeCacheKey t' n, rows) ∈ s.cache.entries ∧ ¬ (t' = t ∨ (t ++ ":").toList <+: t'.toList) := by
  cases h
  rw [← prefix_key_iff (n := n), Bool.not_eq_true]
  exact Cache.mem_invalidateIf _ _ _

/-- Different reads have different keys, and each key of a table has the part that its
invalidation looks for, so none of them is left then. -/
theorem cacheKeys_separate :
    (∀ t t' n n', makeCacheKey t n = makeCacheKey t' n' ↔ t = t' ∧ n = n') ∧
    (∀ t n, (t ++ ":").toList <+: (makeCacheKey t n).toList) ∧
    ∀ (pg : Postgres) (o : Outcome) (i : ℕ) (s : Server) (t : String), ∃ removed s',
      Server.perform pg o i (.cacheInvalidate (t ++ ":")) s = some (removed, s') ∧
        ∀ n rows, (makeCacheKey t n, rows) ∉ s'.cache.entries := by
  refine ⟨fun t t' n n' => ⟨makeCacheKey_inj, ?_⟩, fun t n => ?_, fun pg o i s t => ?_⟩
  · rintro ⟨rfl, rfl⟩
    rfl
  · exact List.isPrefixOf_iff_prefix.mp (prefix_makeCacheKey t n)
  · refine ⟨_, _, rfl, fun n rows hm => ?_⟩
    exact ((@mem_invalidated t pg o i _ s _ rfl t n rows).mp hm).2 (.inl rfl)

/-- The action of `invalidate_table_cache` is exact if the cache has nothing of a table whose name
is that of `t`, a colon and more. -/
theorem invalidation_exact_iff (pg : Postgres) (o : Outcome) (i : ℕ) (s : Server) (t : String) :
    ∃ removed s', Server.perform pg o i (.cacheInvalidate (t ++ ":")) s = some (removed, s') ∧
      (Exact t s s' ↔ ∀ t' n rows, (makeCacheKey t' n, rows) ∈ s.cache.entries →
        ¬ (t ++ ":").toList <+: t'.toList) := by
  refine ⟨_, _, rfl, ?_⟩
  have hmem := @mem_invalidated t pg o i _ s _ rfl
  constructor
  · intro h t' n rows hm hp
    have hne : t' ≠ t := by
      rintro rfl
      have := hp.length_le
      simp only [String.toList_append, List.length_append] at this
      exact absurd this (by simp)
    exact ((hmem t' n rows).mp ((h t' n rows).mpr ⟨hm, hne⟩)).2 (.inr hp)
  · intro h t' n rows
    rw [hmem, not_or]
    exact and_congr_right fun hm => ⟨And.left, fun hne => ⟨hne, h t' n rows hm⟩⟩

/-- A server that has cached a read of the table `a:b`. -/
def cachingColon : Server :=
  match freshServer.cache.put (makeCacheKey "a:b" 1) [] with
  | some cache => { freshServer with cache := cache }
  | none => freshServer

/-- An invalidation of `a` removes the entry of `a:b`. -/
theorem invalidation_not_exact : ¬ ∀ (pg : Postgres) (o : Outcome) (i : ℕ) (s : Server) (t : String),
    ∃ removed s', Server.perform pg o i (.cacheInvalidate (t ++ ":")) s = some (removed, s') ∧
      Exact t s s' := by
  intro h
  obtain ⟨removed, s', hp, he⟩ := h .plain .ok 0 cachingColon "a"
  have hbefore : (makeCacheKey "a:b" 1, []) ∈ cachingColon.cache.entries := by decide +kernel
  have hafter := (mem_invalidated hp "a:b" 1 []).mp ((he "a:b" 1 []).mpr ⟨hbefore, by decide⟩)
  exact hafter.2 (.inr (by decide))

end IceLog.PartitionRegistry
