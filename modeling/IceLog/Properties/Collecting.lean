import IceLog.Properties.Pages
import IceLog.Properties.TimeTravel

/-! The pages of a given snapshot against the listing without pages. -/
namespace IceLog

open Interleaved Serial

variable {pg : Postgres} {policy : Policy} {c c' c₁ : ServerConfig} {i : ℕ} {t token next : String}
  {s n : ℕ} {k : ℤ} {r : TableRec} {L : List PartitionRow} {pages : List (List PartitionInfo)}
  {rows : List PartitionInfo}

/-- From `c` on, a client asks for pages and follows the tokens of the replies; in `c'` it has
received `pages` and goes on with the token `next`. -/
inductive Fetching (pg : Postgres) (policy : Policy) (t : String) (s : ℕ) (k : ℤ) :
    ServerConfig → (token : String) → List (List PartitionInfo) → (next : String) →
      ServerConfig → Prop
  | start {c : ServerConfig} {token : String} : Fetching pg policy t s k c token [] token c
  | more {c c₁ c' : ServerConfig} {i : ℕ} {token next next' : String} {rows : List PartitionInfo}
      {n : ℤ} {pages : List (List PartitionInfo)} :
      c.thread i = none → Run (server pg policy) c c₁ →
      c₁.Returned i (.getPartitions t s k token) (.partitionList rows n next) → next ≠ "" →
      Fetching pg policy t s k c₁ next pages next' c' →
      Fetching pg policy t s k c token (rows :: pages) next' c'

theorem Fetching.run (h : Fetching pg policy t s k c token pages next c') :
    Run (server pg policy) c c' := by
  induction h with
  | start => exact .refl
  | more _ hr _ _ _ ih => exact hr.trans ih

/-- Each page that is fetched leaves less to fetch. -/
theorem Fetching.length_le (hL : Listable L) (hk : 0 < k)
    (h : Fetching pg policy t s k c token pages next c')
    (hreply : ∀ c₀ c₁ i token x, Run (server pg policy) c c₀ → c₀.thread i = none →
      Run (server pg policy) c₀ c₁ → Run (server pg policy) c₁ c' →
      c₁.Returned i (.getPartitions t s k token) x →
      x = listing t k (some (page (pageLimit k) (MetadataServer.lastId token) L))) :
    pages.length + (following next L).length ≤ (following token L).length := by
  induction h with
  | start => simp
  | @more c c₁ c' i token next next' rows n pages hi hr hx hne hp ih =>
    have he := hreply c c₁ i token _ .refl hi hr hp.run hx
    have hrest := ih fun c₀ c₂ j token' x hc => hreply c₀ c₂ j token' x (hr.trans hc)
    have hless := (listing_more hL hk he hne).2
    rw [List.length_cons]
    omega

/-- What a client collects page by page, following the tokens. -/
structure Collects (pg : Postgres) (policy : Policy) (t : String) (s : ℕ) (k : ℤ)
    (c c₁ : ServerConfig) (rows : List PartitionInfo) : Prop where
  /-- If it has reached the end, it has received `rows`. -/
  complete : ∀ pages c', Paging pg policy t s k c₁ "" pages c' → Stays t c.world c'.world →
    pages.flatten = rows
  /-- It does not go on for ever. -/
  bounded : ∀ pages next c', Fetching pg policy t s k c₁ "" pages next c' →
    Stays t c.world c'.world → pages.length ≤ rows.length
  /-- And it never gets another reply than a page. -/
  answered : ∀ pages next c' c'' i x, Fetching pg policy t s k c₁ "" pages next c' →
    c'.thread i = none → Run (server pg policy) c' c'' → Stays t c.world c''.world →
    c''.Returned i (.getPartitions t s k next) x → ∃ rows n next', x = .partitionList rows n next'

/-- Where no name has a NUL, the pages of a snapshot make up the listing of it. -/
theorem pages_are_listing {pageSize count : ℤ} {id : ℕ} (hc : policy.Clean) (hl : policy.Lists)
    (h : Reachable pg policy c) (hq : ∀ j q, c.Running j q → q.alters = false)
    (hf : c.state.db.find t = some (id, r)) (hs : 1 ≤ s) (hs' : s ≤ r.currentSnapshotId)
    (hk : 0 < k) (hr : Run (server pg policy) c c₁) (hst : Stays t c.world c₁.world)
    (hi : c.thread i = none) (hp : pageSize ≤ 0)
    (hx : c₁.Returned i (.getPartitions t s pageSize token) (.partitionList rows count next)) :
    Collects pg policy t s k c c₁ rows := by
  have hrows := (time_travel_immutable hc hl h hq hf hs hs' hr hst hi).2 pageSize token hp hx
  simp only [listing, Reply.partitionList.injEq] at hrows
  obtain ⟨rfl, -, -⟩ := hrows
  have hL : Listable (c.state.db.partitionsAt id s) := (h.inv.consistent hc).listable
  have hreply : ∀ {c'}, Run (server pg policy) c₁ c' → Stays t c.world c'.world →
      ∀ c₀ c₂ i token x, Run (server pg policy) c₁ c₀ → c₀.thread i = none →
        Run (server pg policy) c₀ c₂ → Run (server pg policy) c₂ c' →
        c₂.Returned i (.getPartitions t s k token) x → x = listing t k (some
          (page (pageLimit k) (MetadataServer.lastId token) (c.state.db.partitionsAt id s))) := by
    intro c' hc' hst' c₀ c₂ i token x hr₀ hi hr₂ hrc' hx
    obtain ⟨u, hu, -, -, -, y, rfl, hlists⟩ := ((h.run hr).run hr₀).served hr₂ hi hx
    rw [Lists, if_pos hk] at hlists
    exact congrArg (listing t k) (((h.run hr).run hc').listed_again hc hl
      (hr.trans hc').before hf hs hs' hst' (by simp)
      (hlists.since ((hr.trans hr₀).before.trans hu)) hrc'.before)
  refine ⟨fun pages c' hp hst' => ?_, fun pages next c' hp hst' => ?_,
    fun pages next c' c'' j x hp hj hr' hst' hx => ?_⟩
  · rw [hp.collect hL hk fun c₀ c₂ i token x hr₀ hi hr₂ hr' hx _ =>
      hreply hp.run hst' c₀ c₂ i token x hr₀ hi hr₂ hr' hx, hL.following_start]
  · have := hp.length_le hL hk (hreply hp.run hst')
    rw [hL.following_start] at this
    simp only [List.length_map]
    omega
  · obtain rfl := hreply (hp.run.trans hr') hst' c' c'' j next x hp.run hj hr' .refl hx
    exact ⟨_, _, _, rfl⟩

/-- Between the pages of the first snapshot, a commit replaces one of its partitions. -/
theorem pages_are_listing_beside_commit : ∃ (c c₁ c' : ServerConfig)
    (rows : List PartitionInfo) (pages : List (List PartitionInfo)),
    Paging .plain .flawless "t" 1 1 c₁ "" pages c' ∧ c'.state.db.current "t" = 2 ∧
      pages.length = 3 ∧ pages.flatten = rows ∧ Collects .plain .flawless "t" 1 1 c c₁ rows := by
  let sys := server .plain .flawless
  let pages (c₁ : ServerConfig) := follow .plain .flawless "t" 1 1 c₁ ""
    [(3, serve 3 (.getPartitions "t" 1 1 "") 6, "1"),
      (5, serve 4 (.commitSnapshot "t" [samplePartition "c" "h"] ["a"] 1 "") 15 ++
        serve 5 (.getPartitions "t" 1 1 "1") 6, "2"),
      (6, serve 6 (.getPartitions "t" 1 1 "2") 6, "")]
  let listed (c₁ : ServerConfig) : Option (List PartitionInfo) := pageOf c₁ 2 "t" 1 0 "" ""
  let collected (c : ServerConfig) (p : List (List PartitionInfo) × ServerConfig) : Bool :=
    decide (p.1.length = 3 ∧ p.2.state.db.current "t" = 2) && quiet (since c.world) "t" 1 p.2.world
  let ready (c : ServerConfig) : Bool := unaltered c.world && (c.thread 2).isNone &&
    (c.state.db.find "t").any fun p => decide (p.1 = 1 ∧ 1 ≤ p.2.currentSnapshotId)
  let list (c : ServerConfig) := sys.moves c (serve 2 (.getPartitions "t" 1 0 "") 8)
  obtain ⟨c, h, hp⟩ := @reachable_of_check .plain .flawless twoPartitions
    (fun c => ready c && (list c).any fun c₁ =>
      quiet (since c.world) "t" 1 c₁.world && (listed c₁).isSome &&
        (pages c₁).any (collected c)) (by decide +kernel)
  simp only [ready, collected, Bool.and_eq_true, Option.any_eq_true, decide_eq_true_eq,
    Option.isNone_iff_eq_none, Option.isSome_iff_exists] at hp
  obtain ⟨⟨⟨hno, hi⟩, ⟨k, r⟩, hf, rfl, hle⟩, c₁, hc₁, ⟨hst, rows, hx⟩, ⟨ps, c'⟩, hps,
    ⟨hlen, hcur⟩, hst'⟩ := hp
  obtain ⟨n, hx⟩ := returned_of_pageOf hx
  have hpaging := paging_of_follow hps
  have hcollects := pages_are_listing Policy.flawless_clean
    Policy.flawless_flawless.lists h (h.unaltered hno) hf (by decide) hle
    (k := 1) (by decide) (System.run_of_moves hc₁) (stays_of_quiet hst fun _ => since_of_before) hi
    (by decide) hx
  exact ⟨c, c₁, c', rows, ps, hpaging, hcur, hlen,
    hcollects.complete ps c' hpaging (stays_of_quiet hst' fun _ => since_of_before), hcollects⟩

/-- A commit to `t` under a name with a NUL leaves an entry in the cache for the snapshot it makes:
the listing of this snapshot lacks the partition that the pages have. -/
theorem pages_are_not_listing : ¬ ∀ (pg : Postgres) (policy : Policy) (c c₁ c' : ServerConfig)
    (t : String) (id : ℕ) (r : TableRec) (s i : ℕ) (k count : ℤ) (rows : List PartitionInfo)
    (pages : List (List PartitionInfo)), policy.Flawless → Reachable pg policy c →
    (∀ j q, c.Running j q → q.alters = false) → c.state.db.find t = some (id, r) → 1 ≤ s →
    s ≤ r.currentSnapshotId → 0 < k → Run (server pg policy) c c₁ → c.thread i = none →
    c₁.Returned i (.getPartitions t s 0 "") (.partitionList rows count "") →
    Paging pg policy t s k c₁ "" pages c' → unaltered c'.world = true → pages.flatten = rows := by
  intro hall
  let sys := server .plain .anyNames
  let pages (c₁ : ServerConfig) := follow .plain .anyNames "t" 2 10 c₁ ""
    [(5, serve 5 (.getPartitions "t" 2 10 "") 6, "2"),
      (6, serve 6 (.getPartitions "t" 2 10 "2") 6, "")]
  let list (c : ServerConfig) := sys.moves c (serve 4 (.getPartitions "t" 2 0 "") 3)
  let listed (c₁ : ServerConfig) : Option (List PartitionInfo) := pageOf c₁ 4 "t" 2 0 "" ""
  let other (rows : List PartitionInfo) (p : List (List PartitionInfo) × ServerConfig) : Bool :=
    unaltered p.2.world && decide (p.1.flatten ≠ rows)
  let ready (c : ServerConfig) : Bool := unaltered c.world && (c.thread 4).isNone &&
    (c.state.db.find "t").any fun p => decide (2 ≤ p.2.currentSnapshotId)
  obtain ⟨c, h, hp⟩ := @reachable_of_check .plain .anyNames
    (serve 0 (.createTable "t" "\x7b\x7d" "" []) 5 ++
      serve 1 (.commitSnapshot "t" [samplePartition "a" "f"] [] 0 "") 13 ++
      serve 2 (.getPartitions "t" 2 0 "") 8 ++
      serve 3 (.commitSnapshot "t\x00" [samplePartition "b" "g"] [] 1 "") 13)
    (fun c => ready c && (list c).any fun c₁ => (listed c₁).any fun rows =>
      (pages c₁).any (other rows)) (by decide +kernel)
  simp only [ready, other, Bool.and_eq_true, Option.any_eq_true, decide_eq_true_eq,
    Option.isNone_iff_eq_none] at hp
  obtain ⟨⟨⟨hno, hi⟩, ⟨k, r⟩, hf, hle⟩, c₁, hc₁, rows, hx, ⟨ps, c'⟩, hps, hno', hne⟩ := hp
  obtain ⟨n, hx⟩ := returned_of_pageOf hx
  exact hne (hall _ _ c c₁ c' "t" k r 2 4 10 n rows ps Policy.anyNames_flawless h
    (h.unaltered hno) hf (by decide) hle (by decide) (System.run_of_moves hc₁) hi hx
    (paging_of_follow hps) hno')

end IceLog
