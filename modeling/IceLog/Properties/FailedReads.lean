import IceLog.Properties.Conflicts
import IceLog.Server.Readers

/-! What is reported as data when statements of a read fail, against what the same read reports
when none does. -/
namespace IceLog

open Interleaved Serial

variable {pg : Postgres} {policy : Policy} {c : ServerConfig} {i n : ℕ} {q : Request} {t : String}
  {w w' w₀ : Moment} {tr tr₀ : List (Act × Outcome)} {x x₀ : Option Reply} {s s' : Server}

/-- A request that lists the partitions of a table, or sums over them. -/
inductive Listing where
  | partitions (snapshotId : ℕ) (pageSize : ℤ) (pageToken : String)
  | metadata (snapshotId : ℕ)
  | stats

/-- The partitions or the statistics that a reply reports; nothing if it is an error. -/
def Reply.data : Reply → Option (List PartitionInfo ⊕ PartitionRegistry.PartitionStats)
  | .partitionList partitions _ _ => some (.inl partitions)
  | .metadata table => some (.inl table.partitions)
  | .partitionStats stats => some (.inr stats)
  | _ => none

namespace Listing

variable (l : Listing)

def request (t : String) : Listing → Request
  | partitions snapshotId pageSize pageToken => .getPartitions t snapshotId pageSize pageToken
  | metadata snapshotId => .getTableMetadata t snapshotId
  | stats => .getPartitionStats t

def snapshotId : Listing → ℕ
  | partitions snapshotId _ _ | metadata snapshotId => snapshotId
  | stats => 0

/-- The partitions at `n` that the request is about. -/
def rows (s : Server) (t : String) (n : ℕ) : Listing → Option (List PartitionRow)
  | partitions _ pageSize pageToken => s.pageFor t pageSize (MetadataServer.lastId pageToken) n
  | metadata _ => s.partitionsFor t n
  | stats => s.db.queryPartitions (cStr t) n

/-- What is reported of them. -/
def report (rows : Option (List PartitionRow)) :
    Listing → Option (List PartitionInfo ⊕ PartitionRegistry.PartitionStats)
  | partitions .. => rows.map fun rows => .inl (rows.map PartitionRow.toInfo)
  | metadata _ => some (.inl ((rows.getD []).map PartitionRow.toInfo))
  | stats => some (.inr (statsOf rows))

/-- What is reported at `n`. -/
def reportAt (s : Server) (t : String) (n : ℕ) :
    Option (List PartitionInfo ⊕ PartitionRegistry.PartitionStats) :=
  l.report (l.rows s t n)

/-- The failures `tr` of a request do not show: where the current snapshot is not read, the data at 0
are those at the current one, and where the database is not asked, there are none. -/
def Spared (t : String) (s : Server) (tr : List (Act × Outcome)) : Listing → Prop
  | partitions snapshotId pageSize pageToken =>
    fails Sql.readsCurrent tr → fails Sql.queries tr ∨
      (partitions snapshotId pageSize pageToken).reportAt s t 0 =
        (partitions snapshotId pageSize pageToken).reportAt s t (s.db.current (cStr t))
  | metadata snapshotId => fails Sql.queries tr →
      (metadata snapshotId).reportAt s t (s.snapshotFor t snapshotId false) =
        (metadata snapshotId).report none
  | stats =>
    if fails Sql.queries tr || loses Sql.readsCurrent tr then
      stats.reportAt s t (s.snapshotFor t 0 false) = stats.report none
    else fails Sql.readsCurrent tr →
      stats.reportAt s t 0 = stats.reportAt s t (s.db.current (cStr t))

end Listing

/-- A reply, if there is one, reports what `x₀` reports or no data, and what it has put into the
cache is what the database answers. -/
structure FailsVisibly (s s' : Server) (x x₀ : Option Reply) : Prop where
  data : x.bind Reply.data = none ∨ x.bind Reply.data = x₀.bind Reply.data
  caches : ∀ t n rows, (PartitionRegistry.makeCacheKey t n, rows) ∈ s'.cache.entries →
    (PartitionRegistry.makeCacheKey t n, rows) ∈ s.cache.entries ∨
      s.db.queryPartitions (cStr t) n = some rows

/-! The three kinds of requests. -/

theorem snapshotFor_unread (h : n = 0 ∧ s.mvcc.latestCommittedSnapshot = 0) :
    s.snapshotFor t n true = 0 ∧ s.snapshotFor t n false = s.db.current (cStr t) := by
  obtain ⟨h0, hl⟩ := h
  simp [Server.snapshotFor, h0, hl]

theorem ListsAs.reported {l : Listing} {f : ℕ → Bool → Reply} {failed : Bool}
    (hl : ListsAs f t n tr failed s s' x)
    (hf : ∀ m b, (f m b).data = l.report (if b then none else l.rows s t m)) :
    (refused tr = true ∧ x.bind Reply.data = none) ∨ (refused tr = false ∧ x.bind Reply.data =
      l.report (if failed then none
        else l.rows s t (s.snapshotFor t n (fails Sql.readsCurrent tr)))) := by
  rcases hl.answer with ⟨hr, rfl, -⟩ | ⟨hr, rfl⟩
  · exact .inl ⟨hr, rfl⟩
  · exact .inr ⟨hr, hf _ _⟩

theorem ListsAs.faultless {l : Listing} {f : ℕ → Bool → Reply}
    (hl : ListsAs f t n tr₀ false s s' x) (hf : ∀ m, (f m false).data = l.report (l.rows s t m))
    (h₀ : Faultless tr₀) : x.bind Reply.data = l.reportAt s t (s.snapshotFor t n false) := by
  rcases hl.answer with ⟨hr, -, -⟩ | ⟨-, rfl⟩
  · exact absurd (hr.symm.trans h₀.1) (by decide)
  · rw [h₀.fails] at *
    exact hf _

/-- What is listed at 0 is an error only where no table is found. -/
theorem current_of_reportAt_none {pageSize : ℤ} {token : String}
    (h : (Listing.partitions n pageSize token).reportAt s t 0 = none) :
    s.db.current (cStr t) = 0 := by
  have hrows : s.pageFor t pageSize (MetadataServer.lastId token) 0 = none :=
    Option.map_eq_none_iff.mp h
  have hquery : s.db.queryPartitions (cStr t) 0 = none := by
    rw [Server.pageFor] at hrows
    split at hrows
    · exact Option.map_eq_none_iff.mp hrows
    · exact (Option.or_eq_none_iff.mp hrows).2
  cases hf : s.db.find (cStr t) with
  | none =>
    rw [Db.current, hf]
    rfl
  | some kr => simp [Db.queryPartitions, hf, maxBigint] at hquery

theorem data_listing (pageSize : ℤ) (token : String) (rows : Option (List PartitionRow)) :
    (listing t pageSize rows).data = (Listing.partitions n pageSize token).report rows := by
  cases rows <;> rfl

theorem partitions_spared {pageSize : ℤ} {token : String}
    (hl : ListsAs (fun m failed => listing t pageSize
      (if failed then none else s.pageFor t pageSize (MetadataServer.lastId token) m)) t n tr
      (fails Sql.queries tr) s s' x)
    (h₀ : x₀.bind Reply.data =
      (Listing.partitions n pageSize token).reportAt s t (s.snapshotFor t n false)) :
    (x.bind Reply.data = none ∨ x.bind Reply.data = x₀.bind Reply.data) ↔
      refused tr = true ∨ (Listing.partitions n pageSize token).Spared t s tr := by
  have hdata := @ListsAs.reported _ _ _ _ _ _ (.partitions n pageSize token) _ _ hl
    fun m b => data_listing pageSize token _
  rcases hdata with ⟨hr, hx⟩ | ⟨hr, hx⟩
  · exact iff_of_true (.inl hx) (.inl hr)
  rw [hr, Listing.Spared, h₀]
  simp only [Bool.false_eq_true, false_or]
  cases hq : fails Sql.queries tr with
  | true =>
    rw [hq, if_pos rfl] at hx
    exact iff_of_true (.inl hx) fun _ => .inl rfl
  | false =>
    rw [hq, if_neg Bool.false_ne_true] at hx
    cases hf : fails Sql.readsCurrent tr with
    | false =>
      rw [hf] at hx
      exact iff_of_true (.inr hx) nofun
    | true =>
      obtain ⟨hzero, hcurrent⟩ := snapshotFor_unread (t := t) (hl.latest hf)
      rw [hf, hzero] at hx
      rw [hx, hcurrent]
      simp only [Bool.false_eq_true, false_or, forall_const]
      constructor
      · rintro (hnone | heq)
        · rw [current_of_reportAt_none hnone]
        · exact heq
      · exact .inr

theorem stats_spared
    (hl : ListsAs (fun m failed => .partitionStats (statsOf
      (if failed then none else s.db.queryPartitions (cStr t) m))) t 0 tr
      (fails Sql.queries tr || loses Sql.readsCurrent tr) s s' x)
    (h₀ : x₀.bind Reply.data = Listing.stats.reportAt s t (s.snapshotFor t 0 false)) :
    (x.bind Reply.data = none ∨ x.bind Reply.data = x₀.bind Reply.data) ↔
      refused tr = true ∨ Listing.stats.Spared t s tr := by
  have hdata := @ListsAs.reported _ _ _ _ _ _ .stats _ _ hl fun m b => rfl
  rcases hdata with ⟨hr, hx⟩ | ⟨hr, hx⟩
  · exact iff_of_true (.inl hx) (.inl hr)
  rw [hr, Listing.Spared, h₀]
  simp only [Bool.false_eq_true, false_or]
  have hsome : x.bind Reply.data ≠ none := by
    rw [hx]
    nofun
  rw [or_iff_right hsome, hx]
  split
  · exact eq_comm
  · cases hf : fails Sql.readsCurrent tr with
    | false => exact iff_of_true rfl nofun
    | true =>
      obtain ⟨hzero, hcurrent⟩ := snapshotFor_unread (t := t) (hl.latest hf)
      rw [hzero, hcurrent]
      exact ⟨fun h _ => h, fun h => h rfl⟩

theorem metadata_spared (hd : DescribesAs t n tr s x) (hd₀ : DescribesAs t n tr₀ s x₀)
    (h₀ : Faultless tr₀) : (x.bind Reply.data = none ∨ x.bind Reply.data = x₀.bind Reply.data) ↔
      refused tr = true ∨ (Listing.metadata n).Spared t s tr := by
  cases hd with
  | refused hr => exact iff_of_true (.inl rfl) (.inl hr)
  | notFound _ hq =>
    refine iff_of_true (.inl rfl) (.inr fun h => ?_)
    rw [hq] at h
    cases h
  | @found table hr hrow =>
    have hdata : x₀.bind Reply.data =
        (Listing.metadata n).reportAt s t (s.snapshotFor t n false) := by
      cases hd₀ with
      | refused hr₀ => exact absurd (hr₀.symm.trans h₀.1) (by decide)
      | notFound _ _ hnone =>
        rw [h₀.fails, hrow] at hnone
        simp at hnone
      | found =>
        rw [h₀.fails]
        rfl
    rw [hr, Listing.Spared, hdata]
    simp only [Bool.false_eq_true, false_or]
    cases fails Sql.queries tr with
    | true =>
      constructor
      · rintro (hnone | heq) -
        · cases hnone
        · exact heq.symm
      · exact fun heq => .inr (heq rfl).symm
    | false => exact iff_of_true (.inr rfl) nofun

/-- Whatever statements of a read fail, what it reports as data is what it would report without
failures, if and only if the failures are spared. -/
theorem read_failsVisibly_iff (l : Listing) (h : Reachable pg .any c) (hi : c.thread i = none)
    (hx : Solo (server pg .any) i (l.request t) (l.request t).code
      (c.world.next (.call i (l.request t)) c.state) tr x w')
    (hx₀ : Solo (server pg .any) i (l.request t) (l.request t).code
      (c.world.next (.call i (l.request t)) c.state) tr₀ x₀ w₀) (h₀ : Faultless tr₀) :
    FailsVisibly c.state w'.now x x₀ ↔ refused tr = true ∨ l.Spared t c.state tr := by
  have ho := own_called (q := l.request t) h.inv (h.good.fresh i hi)
  have hn : Policy.any.Clean → NulFree t := fun hc => absurd hc Policy.any_not_clean
  suffices H : c.state.Serves w'.now ∧ ((x.bind Reply.data = none ∨
      x.bind Reply.data = x₀.bind Reply.data) ↔ refused tr = true ∨ l.Spared t c.state tr) from
    ⟨fun hv => H.2.mp hv.data, fun hs => ⟨H.2.mpr hs, H.1.caches⟩⟩
  cases l with
  | partitions n pageSize token =>
    have hl := solo_getPartitions_handler ho hn hx
    have hl₀ := solo_getPartitions_handler ho hn hx₀
    rw [h₀.fails] at hl₀
    exact ⟨hl.serves, partitions_spared hl
      (hl₀.faultless (fun m => data_listing pageSize token _) h₀)⟩
  | metadata n =>
    obtain ⟨hserves, hd⟩ := solo_getTableMetadata ho hn hx
    obtain ⟨-, hd₀⟩ := solo_getTableMetadata ho hn hx₀
    exact ⟨hserves, metadata_spared hd hd₀ h₀⟩
  | stats =>
    have hl := solo_getPartitionStats ho hx
    have hl₀ := solo_getPartitionStats ho hx₀
    rw [h₀.fails, h₀.loses] at hl₀
    exact ⟨hl.serves, stats_spared hl (hl₀.faultless (fun m => rfl) h₀)⟩

/-! Reads of a table with one file, at its current snapshot. -/

abbrev Listing.first : Listing := .partitions 0 0 ""

/-- The moment at which the thread 2 is called. -/
abbrev calledFirst (c : ServerConfig) : Moment :=
  c.world.next (.call 2 (Listing.first.request "t")) c.state

/-- The read, with the given answers. -/
abbrev firstRead (c : ServerConfig) (os : List Outcome) : Option (Option Reply × Moment) :=
  (server .plain .any).alone 2 (Listing.first.request "t") (Listing.first.request "t").code
    (calledFirst c) os

abbrev firstReadTrace (c : ServerConfig) (os : List Outcome) : List (Act × Outcome) :=
  (server .plain .any).trace 2 (Listing.first.request "t") (Listing.first.request "t").code
    (calledFirst c) os

/-- The number of partitions that a reply reports. -/
def Reply.reported (x : Option Reply) : Option ℕ :=
  x.bind fun y => y.data.bind fun
    | .inl partitions => some partitions.length
    | .inr _ => none

/-- All statements succeed but the one at `k`. -/
def failsAt (k n : ℕ) : List Outcome :=
  List.replicate k .ok ++ .answer (.fail false) :: List.replicate n .ok

def faultless (c : ServerConfig) : Bool :=
  let tr := firstReadTrace c (List.replicate 12 .ok)
  !refused tr && !fails (fun _ => true) tr

/-- The database cannot be asked for the table, and the reply is an error. -/
theorem read_failsVisibly_without_table : ∃ (c : ServerConfig) (w' : Moment) (x x₀ : Option Reply)
    (tr : List (Act × Outcome)), fails Sql.queries tr = true ∧ Reply.reported x₀ = some 1 ∧
      FailsVisibly c.state w'.now x x₀ := by
  let good (c : ServerConfig) : Bool := (c.thread 2).isNone && faultless c &&
    fails Sql.queries (firstReadTrace c (failsAt 7 2)) && (firstRead c (failsAt 7 2)).isSome &&
    (firstRead c (List.replicate 12 .ok)).any fun r => decide (Reply.reported r.1 = some 1)
  obtain ⟨c, h, hp⟩ := @reachable_of_check .plain .any firstCommit good (by decide +kernel)
  simp only [good, faultless, Bool.and_eq_true, Bool.not_eq_true', Option.isNone_iff_eq_none,
    Option.any_eq_true, decide_eq_true_eq, Option.isSome_iff_exists] at hp
  obtain ⟨⟨⟨⟨hi, h₀⟩, hq⟩, ⟨x, w'⟩, hx⟩, ⟨x₀, w₀⟩, hx₀, hone⟩ := hp
  refine ⟨c, w', x, x₀, _, hq, hone, (read_failsVisibly_iff .first h hi (System.solo_of_alone hx)
    (System.solo_of_alone hx₀) h₀).mpr (.inr fun _ => .inl hq)⟩

/-- The current snapshot cannot be read, and the reply reports that there are no partitions. -/
theorem read_not_failsVisibly : ¬ ∀ (pg : Postgres) (c : ServerConfig) (i : ℕ) (t : String)
    (l : Listing) (tr tr₀ : List (Act × Outcome)) (x x₀ : Option Reply) (w' w₀ : Moment),
    Reachable pg .any c → c.thread i = none →
    Solo (server pg .any) i (l.request t) (l.request t).code
      (c.world.next (.call i (l.request t)) c.state) tr x w' →
    Solo (server pg .any) i (l.request t) (l.request t).code
      (c.world.next (.call i (l.request t)) c.state) tr₀ x₀ w₀ → Faultless tr₀ →
    FailsVisibly c.state w'.now x x₀ := by
  intro hall
  let bad (c : ServerConfig) : Bool := (c.thread 2).isNone && faultless c &&
    ((firstRead c (failsAt 3 8)).any fun r => decide (Reply.reported r.1 = some 0)) &&
    (firstRead c (List.replicate 12 .ok)).any fun r => decide (Reply.reported r.1 = some 1)
  obtain ⟨c, h, hp⟩ := @reachable_of_check .plain .any firstCommit bad (by decide +kernel)
  simp only [bad, faultless, Bool.and_eq_true, Bool.not_eq_true', Option.isNone_iff_eq_none,
    Option.any_eq_true, decide_eq_true_eq] at hp
  obtain ⟨⟨⟨hi, h₀⟩, ⟨x, w'⟩, hx, hzero⟩, ⟨x₀, w₀⟩, hx₀, hone⟩ := hp
  have hdata := (hall .plain c 2 "t" .first _ _ x x₀ w' w₀ h hi (System.solo_of_alone hx)
    (System.solo_of_alone hx₀) h₀).data
  have hreported : ∀ y : Option Reply, Reply.reported y = (y.bind Reply.data).bind fun
      | .inl partitions => some partitions.length
      | .inr _ => none := by
    intro y
    cases y <;> rfl
  rw [hreported] at hzero hone
  rcases hdata with hnone | heq
  · rw [hnone] at hzero
    cases hzero
  · rw [heq, hone] at hzero
    cases hzero

end IceLog
