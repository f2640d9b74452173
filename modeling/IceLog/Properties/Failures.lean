import IceLog.Properties.Storage
import IceLog.Server.Actions
import IceLog.Server.Scopes

/-! A mutation that is not acknowledged leaves no trace. -/
namespace IceLog

open Interleaved Serial

variable {pg : Postgres} {policy : Policy} {c : ServerConfig} {i : ℕ} {q : Request} {α β : Type}
  {w w' : Moment} {t : String}

/-! The one connection that a function takes. -/

/-- The action neither takes nor returns a connection. -/
def KeepsPool (a : Act) : Prop := a ≠ .acquire ∧ ∀ c, a ≠ .release c

theorem mayEdit_keepsPool : MayEdit KeepsPool :=
  ⟨fun _ _ _ _ => ⟨by simp, by simp⟩, fun _ _ => ⟨by simp, by simp⟩⟩

theorem mayMark_keepsPool (n : ℕ) : MayMark KeepsPool n := fun _ _ _ => ⟨by simp, by simp⟩

theorem perform_keepsPool {a : Act} {o : Outcome} {s s' : Server} {r : a.Result}
    (ha : KeepsPool a) (h : Server.perform pg o i a s = some (r, s')) :
    s'.availableConnections = s.availableConnections := by
  cases Server.perform_cases h with
  | acquire => exact absurd rfl ha.1
  | release c => exact absurd rfl (ha.2 c)
  | _ => rfl

/-- The connection `c` was at the front of the pool; `c'`, which is `c` or replaces it, is now at
its end. -/
structure Server.Rotated (s s' : Server) (c c' : Conn) : Prop where
  pool : ∃ rest, s.availableConnections = c :: rest ∧ s'.availableConnections = rest ++ [c']
  same : c' = c ∨ c' = s.backend.opened

theorem rotated {p : Code α} {tr : List (Act × Outcome)} {x : α}
    (h : Solo (server pg policy) i q p w tr (some x) w')
    (hb : ∃ body, p = withExclusive t (withConnection body) ∧ ∀ c, CommitsOnce KeepsPool (body c)) :
    ∃ c c', Server.Rotated w.now w'.now c c' := by
  obtain ⟨body, rfl, hb⟩ := hb
  obtain ⟨v, v', tr', m, m', h, hv, hw'⟩ := Solo.withExclusive_cases h
  rcases Solo.withConnection_cases h with ⟨hx, -⟩ | ⟨c', u, u', o, tr'', hacq, h, hv'⟩
  · cases hx
  have hkeep : u'.now.availableConnections = u.now.availableConnections :=
    h.keeps (hb c').acts (K := fun s s' : Server => s'.availableConnections = s.availableConnections)
      (fun _ => rfl) (fun h h' => h'.trans h) fun a o s r s' ha hx => perform_keepsPool ha hx
  have hpool : w'.now.availableConnections = u.now.availableConnections ++ [c'] := by
    rw [hw', hv', ← hkeep]
    rfl
  rw [hv] at hacq
  generalize u.now = s at hacq hpool
  cases hacq with
  | @valid c rest hp | @reset c rest hp => exact ⟨_, _, ⟨rest, hp, hpool⟩, .inl rfl⟩
  | @replaced c rest hp => exact ⟨_, _, ⟨rest, hp, hpool⟩, .inr rfl⟩

/-- After a call that thread `i` made between `s` and `s'`, all is as before: the rows of all
tables, the transaction table and the cache; and the connection that was used is in the pool,
outside any transaction. -/
structure Untouched (i : ℕ) (s s' : Server) : Prop where
  still : s.Still s'
  returned : ∃ c c', s.Rotated s' c c' ∧ (s'.backend.session c').Closed
  released : ∀ c, s'.holder c ≠ some i

theorem untouched (ho : Own policy i q {} [] w') (hs : w.now.Still w'.now) {c c' : Conn}
    (hr : w.now.Rotated w'.now c c') : Untouched i w.now w'.now := by
  refine ⟨hs, ⟨c, c', hr, ?_⟩, fun c hc => ?_⟩
  · obtain ⟨rest, -, hp⟩ := hr.pool
    exact ho.inv.sound.closed c' (ho.inv.sound.pooled c' (by simp [hp])).1
  · simpa using (ho.holds.holder c).mp hc

theorem Transacted.still {E : Moment → Moment → Prop} {ok : Bool}
    (h : Transacted policy false i q E w ok w') (hok : ok = false) : w.now.Still w'.now := by
  cases h with
  | failed _ hl => exact hl.still rfl
  | dropped h | done h => simp [hok] at h

theorem nulFree_of_any (t : String) : Policy.any.Clean → NulFree t := fun h =>
  absurd h Policy.any_not_clean

/-- A commit, a change of schema or a drop that is refused or fails, at any statement and in any
reachable state, changes nothing. -/
theorem failed_mutation_leaves_no_trace (h : Reachable pg .any c) (hi : c.thread i = none) :
    (∀ t parent op news dels tr x w', Solo (server pg .any) i (.commit t parent op news dels)
      (PartitionRegistry.commitSnapshot t parent op news dels) c.world tr (some x) w' →
      x.success = false → Untouched i c.state w'.now) ∧
    (∀ t schema summary tr x w', Solo (server pg .any) i (.alterTable t (.newSchemaJson schema))
      (CatalogManager.alterTableSchema t schema summary) c.world tr (some x) w' →
      x.success = false → Untouched i c.state w'.now) ∧
    ∀ t purge tr x w', Solo (server pg .any) i (.dropTable t purge)
      (CatalogManager.dropTable t purge) c.world tr (some x) w' →
      x.success = false → Untouched i c.state w'.now := by
  have ho : ∀ q, Own .any i q {} [] c.world := fun q => own_fresh h.inv (h.good.fresh i hi)
  refine ⟨fun t parent op news dels tr x w' hx hok => ?_,
    fun t schema summary tr x w' hx hok => ?_, fun t purge tr x w' hx hok => ?_⟩
  · obtain ⟨ho', hx'⟩ := hx.post (safe_commitSnapshot (ho _) (nulFree_of_any t) id)
    obtain ⟨_, _, hr⟩ := rotated hx
      (Acts.commitSnapshot_body mayEdit_keepsPool mayMark_keepsPool ⟨by simp, by simp⟩ parent op
        news dels)
    exact untouched ho' (hx'.still hok) hr
  · obtain ⟨ho', hx'⟩ := hx.post (safe_alterTableSchema (ho _) (nulFree_of_any t) rfl)
    obtain ⟨_, _, hr⟩ := rotated hx (Acts.alterTableSchema_body mayEdit_keepsPool schema summary)
    exact untouched ho' (hx'.still hok) hr
  · obtain ⟨ho', hx'⟩ := hx.post (safe_dropTable (ho _) (nulFree_of_any t) rfl)
    obtain ⟨_, _, hr⟩ := rotated hx (Acts.dropTable_body mayEdit_keepsPool purge)
    rw [dropDebts, hok] at ho'
    exact untouched ho' (hx'.still hok) hr

/-- A commit whose second partition cannot be stored. -/
theorem failed_commit_leaves_no_trace : ∃ (c : ServerConfig) (w' : Moment),
    c.state.db.tables.next = 2 ∧ w'.now.db.snapshots.next = 2 ∧ w'.now.db.partitions.next = 3 ∧
      Untouched 1 c.state w'.now := by
  let news : List PartitionRow :=
    [(samplePartition "a" "f").toRow, (samplePartition "b" "g").toRow]
  let code := PartitionRegistry.commitSnapshot "t" 0 "append" news []
  let alone (c : ServerConfig) := (server .plain .any).alone 1 (.commit "t" 0 "append" news []) code
    c.world (List.replicate 9 .ok ++ [.answer (.fail true)] ++ List.replicate 3 .ok)
  let failed (r : Option PartitionRegistry.CommitResult × Moment) : Bool :=
    decide (r.1 = some ⟨false, 0, "Failed to insert partition: b"⟩ ∧
      r.2.now.db.snapshots.next = 2 ∧ r.2.now.db.partitions.next = 3)
  obtain ⟨c, h, hp⟩ := @reachable_of_check .plain .any
    (serve 0 (.createTable "t" "\x7b\x7d" "" []) 5)
    (fun c => c.state.db.tables.next == 2 && (c.thread 1).isNone && (alone c).any failed)
    (by decide +kernel)
  simp only [Bool.and_eq_true, beq_iff_eq, Option.isNone_iff_eq_none, Option.any_eq_true,
    decide_eq_true_eq, failed] at hp
  obtain ⟨⟨ht, hi⟩, ⟨x, w'⟩, hx, hok, hs, hpart⟩ := hp
  dsimp only at hok hs hpart
  subst hok
  exact ⟨c, w', ht, hs, hpart, (failed_mutation_leaves_no_trace h hi).1 _ _ _ _ _ _ _ _
    (System.solo_of_alone hx) rfl⟩

end IceLog
