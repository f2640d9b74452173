import IceLog.Cache.Calls
import IceLog.Server.MetadataServer

/-! The configuration of a server, and the cache that it is given. -/
namespace IceLog

namespace Environment

open LRUCache

structure ServerConfig where
  pgConnString : String :=
    "host=localhost port=5432 dbname=metadata user=metadata_user password=metadata_pass"
  grpcAddress : String := "0.0.0.0:50051"
  cacheCapacity : ℕ := 10000
  poolSize : ℕ := 20
  txnTimeoutS : ℤ := 300
deriving DecidableEq

/-- `std::stoul`: as `std::stoll`, but the sign of a negative number is taken off modulo 2⁶⁴. -/
def stoul (s : String) : Option ℕ :=
  let (negative, rest) := takeSign (s.toList.dropWhile isBlank)
  let digits := rest.takeWhile Char.isDigit
  if digits = [] then none
  else
    let value : ℕ := digits.foldl (fun n c => 10 * n + (c.toNat - '0'.toNat)) 0
    if value < 2 ^ 64 then some (if negative then (2 ^ 64 - value) % 2 ^ 64 else value) else none

def stoi (s : String) : Option ℤ :=
  (stoll s).bind fun n => if -(2 ^ 31) ≤ n ∧ n < 2 ^ 31 then some n else none

/-- A number that is read if the variable is set. -/
def number {α : Type} (parse : String → Option α) (default : α) : Option String → Option α
  | none => some default
  | some v => parse v

/-- There is no configuration where a number cannot be read. -/
def ServerConfig.fromEnv (getenv : String → Option String) : Option ServerConfig := do
  let cfg : ServerConfig := {}
  let pgConnString := (getenv "PG_CONN_STRING").getD cfg.pgConnString
  let grpcAddress := match getenv "GRPC_PORT" with
    | some v => "0.0.0.0:" ++ v
    | none => (getenv "GRPC_ADDRESS").getD cfg.grpcAddress
  let cacheCapacity ← number stoul cfg.cacheCapacity (getenv "CACHE_CAPACITY")
  let poolSize ← number stoul cfg.poolSize (getenv "POOL_SIZE")
  let txnTimeoutS ← number stoi cfg.txnTimeoutS (getenv "TXN_TIMEOUT_SEC")
  return { pgConnString, grpcAddress, cacheCapacity, poolSize, txnTimeoutS }

/-- The cache of the registry, as it is constructed. -/
def ServerConfig.cache (cfg : ServerConfig) : LRUCache String (List PartitionRow) :=
  .new cfg.cacheCapacity

variable {getenv : String → Option String} {cfg : ServerConfig}
  {qs : List (Call String (List PartitionRow))}

/-- The cache is safe if it has been given room, or if nothing is put into it. -/
theorem safe_cache_iff (_ : ServerConfig.fromEnv getenv = some cfg) :
    Safe cfg.cache qs ↔ 1 ≤ cfg.cacheCapacity ∨ ∀ q ∈ qs, q.puts = false := by
  rcases Nat.eq_zero_or_pos cfg.cacheCapacity with h | h
  · have hr : cfg.cache.Roomless := ⟨h, rfl, rfl⟩
    rw [hr.safe_iff, h]
    simp
  · exact ⟨fun _ => .inl h, fun _ => safe_of_capacity h qs⟩

/-- `CACHE_CAPACITY=0`. -/
def zeroCapacity : String → Option String := fun name =>
  if name = "CACHE_CAPACITY" then some "0" else none

theorem fromEnv_zeroCapacity :
    ServerConfig.fromEnv zeroCapacity = some { cacheCapacity := 0 } := by
  decide +kernel

theorem safe_cache_iff_of_zero :
    Safe (ServerConfig.cache { cacheCapacity := 0 }) [.put "t:1" []] ↔
      1 ≤ 0 ∨ ∀ q ∈ [(.put "t:1" [] : Call String (List PartitionRow))], q.puts = false :=
  safe_cache_iff fromEnv_zeroCapacity

/-- Without room, the first put takes `back()` of the empty list. -/
theorem not_safe_cache : ¬ ∀ (getenv : String → Option String) (cfg : ServerConfig),
    ServerConfig.fromEnv getenv = some cfg → ∀ qs, Safe cfg.cache qs := by
  intro h
  have hs := h _ _ fromEnv_zeroCapacity [.put "t:1" []]
  obtain ⟨d, hd, -⟩ := hs 1
  have hput : (ServerConfig.cache { cacheCapacity := 0 }).put "t:1" [] = none :=
    Roomless.put ⟨rfl, rfl, rfl⟩ _ _
  simp [calls, call, hput] at hd

end Environment
end IceLog
