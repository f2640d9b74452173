import IceLog.Properties.Snapshots

/-! What the cache answers, against what the database would answer. -/
namespace IceLog

open Interleaved Serial

variable {pg : Postgres} {policy : Policy} {c : ServerConfig} {t : String} {n : ℕ}
  {v v' w : Moment} {rows : List PartitionRow}

/-- `get_partitions` takes the partitions of `t` at `n` from the cache. -/
def FromCache (t : String) (n : ℕ) (rows : List PartitionRow) (v v' : Moment) : Prop :=
  ∃ i q s, v' = v.next (.act i q (.cacheGet (PartitionRegistry.makeCacheKey t n)) (some rows)) s

/-- Every answer from the cache is the one the database would have given. -/
def CacheCoherent (w : Moment) : Prop := ∀ v v' t n rows, FromCache t n rows v v' → v'.Before w →
  v.now.db.queryPartitions t n = some rows

/-- An answer is right unless a request has taken a table off the name and has not yet dropped its
entries. -/
theorem Reachable.coherent_of_not_stale (h : Reachable pg policy c) (hc : policy.Clean)
    (ha : FromCache t n rows v v') (hb : v'.Before c.world) (hs : ¬ Stale t v) :
    v.now.db.queryPartitions t n = some rows := by
  obtain ⟨i, q, s, rfl⟩ := ha
  obtain ⟨d, d', hd, rfl, hstep, -, -⟩ := h.step_of_before hb
  cases hstep with
  | act hi hx =>
    obtain ⟨o, -, hx⟩ := hx
    have hget : (d.state.cache.get (PartitionRegistry.makeCacheKey t n)).1 = some rows :=
      congrArg Prod.fst (Option.some.inj hx)
    rcases hd.inv.coherent hc t n rows (Cache.get_hit hget) with hq | ⟨j, q', ho⟩
    · exact hq
    · -- nobody can owe and still have the lock that this thread shares
      obtain ⟨t', n', hkey, hreader⟩ := hd.needs hi
      obtain ⟨rfl, -⟩ := PartitionRegistry.makeCacheKey_inj hkey
      rcases hd.inv.debts hc j q' t ho with hw | hdet
      · rw [hd.inv.sound.exclusion t j hw] at hreader
        simp at hreader
      · exact absurd ⟨j, q', ho, hdet⟩ hs

/-- In a run in which no table is read from the cache while entries for its name remain to be
dropped, every answer from the cache is right. -/
theorem cache_coherent (hc : policy.Clean) (h : Reachable pg policy c)
    (hs : ∀ v v' t n rows, FromCache t n rows v v' → v'.Before c.world → ¬ Stale t v) :
    CacheCoherent c.world :=
  fun v v' t n rows ha hb => h.coherent_of_not_stale hc ha hb (hs v v' t n rows ha hb)

/-! Computed runs. -/

/-- The answers from the cache in a history, each with the state in which it was given. -/
def cacheAnswers (w : Moment) : List (String × List PartitionRow × Moment) :=
  w.moments.filterMap fun m => match m.past with
    | (s, .act _ _ (.cacheGet key) (some rows)) :: past => some (key, rows, ⟨past, s⟩)
    | _ => none

theorem mem_cacheAnswers {key : String} : (key, rows, v) ∈ cacheAnswers w ↔
    ∃ i q s, (v.next (.act i q (.cacheGet key) (some rows)) s).Before w := by
  rw [cacheAnswers, List.mem_filterMap]
  constructor
  · rintro ⟨⟨past, now⟩, hm, he⟩
    split at he
    · rename_i s i q key' rows' past' hp
      cases he
      cases hp
      exact ⟨i, q, now, World.before_of_mem_moments hm⟩
    · cases he
  · rintro ⟨i, q, s, hb⟩
    exact ⟨_, hb.mem_moments, rfl⟩

/-- A table is read from the cache before and after another one is dropped. -/
theorem cache_coherent_beside_drop : ∃ c : ServerConfig, c.state.db.find "u" = none ∧
    (cacheAnswers c.world).length = 2 ∧ CacheCoherent c.world := by
  let settled (w : Moment) : Bool := (cacheAnswers w).all fun p =>
    decide (p.1 = PartitionRegistry.makeCacheKey "t" 1) && undetached "t" p.2.2
  obtain ⟨c, h, hp⟩ := @reachable_of_check .plain .flawless
    (serve 0 (.createTable "t" "\x7b\x7d" "" []) 5 ++ serve 1 (.createTable "u" "\x7b\x7d" "" []) 5 ++
      serve 2 (.commitSnapshot "t" [samplePartition "a" "f"] [] 0 "") 13 ++
      serve 3 (.partitions "t" 1) 8 ++ serve 4 (.partitions "t" 1) 3 ++
      serve 5 (.dropTable "u" false) 7 ++ serve 6 (.partitions "t" 1) 3)
    (fun c => decide (c.state.db.find "u" = none ∧ (cacheAnswers c.world).length = 2) &&
      settled c.world) (by decide +kernel)
  simp only [settled, Bool.and_eq_true, decide_eq_true_eq, List.all_eq_true] at hp
  refine ⟨c, hp.1.1, hp.1.2, cache_coherent Policy.flawless_clean h fun v v' t n rows ha hb => ?_⟩
  obtain ⟨i, q, s, rfl⟩ := ha
  obtain ⟨hkey, hno⟩ := hp.2 _ (mem_cacheAnswers.mpr ⟨i, q, s, hb⟩)
  obtain ⟨rfl, -⟩ := PartitionRegistry.makeCacheKey_inj hkey
  exact not_stale_of_undetached hno

/-- Between the unlocking and the invalidation of a drop, the table is created again and read: the
partitions of the dropped table are served from the cache. -/
theorem cache_incoherent_after_drop : ¬ ∀ (pg : Postgres) (policy : Policy) (c : ServerConfig),
    policy.Flawless → policy.Clean → Reachable pg policy c → CacheCoherent c.world := by
  intro hall
  obtain ⟨c, h, hp⟩ := @reachable_of_check .plain .flawless
    (serve 0 (.createTable "t" "\x7b\x7d" "" []) 5 ++
      serve 1 (.commitSnapshot "t" [samplePartition "a" "f"] [] 0 "") 13 ++
      serve 2 (.partitions "t" 1) 8 ++ serve 3 (.dropTable "t" true) 11 ++
      serve 4 (.createTable "t" "\x7b\x7d" "" []) 5 ++ serve 5 (.partitions "t" 1) 2)
    (fun c => (cacheAnswers c.world).any fun p =>
      decide (p.1 = PartitionRegistry.makeCacheKey "t" 1 ∧
        p.2.2.now.db.queryPartitions "t" 1 ≠ some p.2.1)) (by decide +kernel)
  simp only [List.any_eq_true, decide_eq_true_eq] at hp
  obtain ⟨⟨key, rows, v⟩, hm, rfl, hne⟩ := hp
  obtain ⟨i, q, s, hb⟩ := mem_cacheAnswers.mp hm
  exact hne (hall _ _ c Policy.flawless_flawless Policy.flawless_clean h v _ "t" 1 rows
    ⟨i, q, s, rfl⟩ hb)

end IceLog
