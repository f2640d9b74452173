import IceLog.Catalog.Names
import IceLog.Db.Evolution

/-! A table is named by a string of the request: the locks and the cache take it as it is, the
database up to its first NUL. -/
namespace IceLog

open Serial

variable {n n' t : String} {db : Db} {id : ℕ}

namespace PgClient

/-- What `get_table_id` finds for the name. -/
def tableIdIn (db : Db) (tableName : String) : Option ℕ :=
  (db.find (cStr tableName)).map Prod.fst

/-- The statement of `get_table_id` answers it. -/
theorem run_selectTableId {pg : Postgres} {now : ℕ} {r : PGresult ℕ} {p : Changes}
    (h : Sql.run pg now (.selectTableId (cStr t)) db = some (r, p)) :
    r.first = tableIdIn db t := by
  simp only [Sql.run, Option.some.injEq, Prod.mk.injEq] at h
  obtain ⟨rfl, -⟩ := h
  simp [PGresult.first, tableIdIn, Db.find]

/-- In some state the two names lead to the same row of `tables`. -/
def SameTable (n n' : String) : Prop :=
  ∃ db id, tableIdIn db n = some id ∧ tableIdIn db n' = some id

theorem tableIdIn_eq_some (h : tableIdIn db t = some id) :
    ∃ r, db.tables.row id = some r ∧ r.tableName = cStr t := by
  obtain ⟨⟨id, r⟩, hf, rfl⟩ := Option.map_eq_some_iff.mp h
  obtain ⟨hr, hn⟩ := Db.row_of_find hf
  simp only [TableRec.named, Bool.and_eq_true, beq_iff_eq] at hn
  exact ⟨r, hr, hn.1⟩

/-- The database in which one table has been created. -/
def created (name : String) : Db :=
  ((Sql.insertTable name "\x7b\x7d" "" "\x7b\x7d").draw Db.empty).apply { tables := Patch.write 1 {
    tableName := name, schemaJson := "\x7b\x7d", partitionSpec := "", properties := "\x7b\x7d" } }

theorem tableIdIn_created (t : String) : tableIdIn (created (cStr t)) t = some 1 := by
  simp [tableIdIn, Db.find, Db.named, created, Rows.select, TableRec.named, Sql.draw, Rows.apply,
    Rows.draw, Db.empty, Rows.empty, Patch.write, show List.range 2 = [0, 1] from rfl]

theorem sameTable_iff : SameTable n n' ↔ cStr n = cStr n' := by
  constructor
  · rintro ⟨db, id, h, h'⟩
    obtain ⟨r, hr, hn⟩ := tableIdIn_eq_some h
    obtain ⟨r', hr', hn'⟩ := tableIdIn_eq_some h'
    obtain rfl : r = r' := Option.some.inj (hr.symm.trans hr')
    exact hn.symm.trans hn'
  · intro h
    refine ⟨created (cStr n), 1, tableIdIn_created n, ?_⟩
    rw [h]
    exact tableIdIn_created n'

end PgClient

/-- The two names have one lock, so that holders of it exclude each other, and the same entries
of the cache, which an invalidation for either removes. -/
structure SameIdentity (n n' : String) : Prop where
  mutex : ∀ (s : Server) (m : SharedMutex), (s.setLock n m).tableLocks n' = m
  exclusion : ∀ (s : Server) (i j : ℕ) (m : SharedMutex), (s.tableLocks n).lock i = some m →
    ((s.setLock n m).tableLocks n').lock j = none
  key : ∀ k, PartitionRegistry.makeCacheKey n k = PartitionRegistry.makeCacheKey n' k
  keyPrefix : n ++ ":" = n' ++ ":"
  invalidation : ∀ (c : Cache String (List PartitionRow)) (k : ℕ) (rows : List PartitionRow),
    (PartitionRegistry.makeCacheKey n' k, rows) ∉
      (c.invalidateIf fun key => (n ++ ":").toList.isPrefixOf key.toList).1.entries

theorem sameIdentity_iff : SameIdentity n n' ↔ n = n' := by
  constructor
  · exact fun h => (PartitionRegistry.makeCacheKey_inj (h.key 0)).1
  · rintro rfl
    refine ⟨fun s m => by simp [Server.setLock], fun s i j m hm => ?_, fun _ => rfl, rfl,
      fun c k rows hm => ?_⟩
    · have hw : m.writer = some i := by
        simp only [SharedMutex.lock] at hm
        split at hm
        · cases hm
          rfl
        · cases hm
      simp [Server.setLock, SharedMutex.lock, hw]
    · have hp := ((Cache.mem_invalidateIf _ _ _).mp hm).2
      rw [PartitionRegistry.prefix_makeCacheKey] at hp
      cases hp

/-- The two identities agree for a pair of names exactly if the names are the same or differ
before a NUL. -/
theorem identity_of_sameTable_iff (n n' : String) :
    (PgClient.SameTable n n' → SameIdentity n n') ↔ n = n' ∨ cStr n ≠ cStr n' := by
  rw [PgClient.sameTable_iff, sameIdentity_iff, imp_iff_not_or, or_comm]

/-- A name and the same name with a NUL after it. -/
theorem not_identity_of_nul : ¬ ∀ n n', PgClient.SameTable n n' → SameIdentity n n' := by
  intro h
  have := sameIdentity_iff.mp (h "a" "a\x00" (PgClient.sameTable_iff.mpr (by decide)))
  exact absurd this (by decide)

end IceLog
