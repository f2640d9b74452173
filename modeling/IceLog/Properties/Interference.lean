import IceLog.Properties.Storage
import IceLog.Server.Frames

/-! Tables do not interfere. -/
namespace IceLog

open Interleaved Serial

variable {pg : Postgres} {c c' : ServerConfig} {i : ℕ} {q : Request} {x : Option Reply} {t : String}

/-- A request that creates, alters, drops or commits changes no answer about a table that it does not
name, whatever comes of it. -/
theorem tables_do_not_interfere (h : Quiet pg c) (hs : Completes pg .flawless c i q x c')
    (hq : q.mutates = true) (ht : NulFree t) (hn : t ∉ q.tableNames) (r : TableRead) :
    ∃ y, Answers pg .flawless c (r.code t) y ∧ Answers pg .flawless c' (r.code t) y := by
  have hnew : ∀ j th, c.thread j = none → c'.thread j = some th → th.request = q := by
    intro j th hj hth
    rw [hs.thread] at hth
    by_cases hji : j = i
    · subst hji
      rw [Function.update_self] at hth
      rw [← Option.some.inj hth]
    · rw [Function.update_of_ne hji] at hth
      cases hj.symm.trans hth
  have hsame : Db.SameTable t c.state.db c'.state.db :=
    h.sameTable hs.run fun j th hj hth => hnew j th hj hth ▸ hn
  have hlatest := h.latest_eq hs.run fun j th hj hth => hnew j th hj hth ▸ hq
  refine ⟨r.answer t c.state, h.answers ht r, ?_⟩
  rw [← cStr_of_nulFree ht] at hsame
  rw [← r.answer_congr hsame hlatest]
  exact (h.completes hs).answers ht r

/-- A table whose name is the beginning of a cache key of another is dropped. -/
theorem tables_do_not_interfere_with_prefix : ∃ c c' : ServerConfig,
    (c.state.db.find "t").isSome ∧ c'.state.db.find "t" = none ∧
    (c.state.cached "t:" 1).isSome ∧ ∀ r : TableRead, ∃ y,
      Answers .plain .flawless c (r.code "t:") y ∧ Answers .plain .flawless c' (r.code "t:") y := by
  let dropped (c : ServerConfig) := completion .plain .flawless c 4 (.dropTable "t" true) (List.replicate 12 .ok)
  obtain ⟨c, h, hp⟩ := @quiet_of_check .plain
    [(.createTable "t" "\x7b\x7d" "" [], 5), (.createTable "t:" "\x7b\x7d" "" [], 5),
      (.commitSnapshot "t:" [samplePartition "a" "f"] [] 0 "", 13), (.partitions "t:" 1, 8)]
    (fun c => (c.state.db.find "t").isSome && (c.state.cached "t:" 1).isSome &&
      (dropped c).any fun r => (r.2.state.db.find "t").isNone) (by decide +kernel)
  simp only [Bool.and_eq_true, Option.any_eq_true, Option.isNone_iff_eq_none] at hp
  obtain ⟨⟨hf, hcached⟩, ⟨x, c'⟩, hd, hf'⟩ := hp
  exact ⟨c, c', hf, hf', hcached, tables_do_not_interfere h (completes_of_completion hd) rfl
    (by decide) (by decide)⟩

end IceLog
