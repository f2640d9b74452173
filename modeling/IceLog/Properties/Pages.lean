import Mathlib.Data.Nat.Find
import IceLog.Data.Keyset
import IceLog.Properties.Snapshots

/-! Listings that a client collects page by page. -/
namespace IceLog

open Interleaved Serial

variable {pg : Postgres} {policy : Policy} {c c' c₀ c₁ : ServerConfig} {i : ℕ} {t token : String}
  {s n id : ℕ} {k : ℤ} {u v w m m' : Moment} {db : Db} {r : TableRec} {L : List PartitionRow}
  {pages : List (List PartitionInfo)} {rows : List PartitionInfo}

/-- From `c` on, a client asks for the pages after `token` by following the tokens of the replies;
in `c'` it has received them all. Other requests may run at any time. -/
inductive Paging (pg : Postgres) (policy : Policy) (t : String) (s : ℕ) (k : ℤ) :
    ServerConfig → (token : String) → List (List PartitionInfo) → ServerConfig → Prop
  | last {c c' : ServerConfig} {i : ℕ} {token : String} {rows : List PartitionInfo} {n : ℤ} :
      c.thread i = none → Run (server pg policy) c c' →
      c'.Returned i (.getPartitions t s k token) (.partitionList rows n "") →
      Paging pg policy t s k c token [rows] c'
  | more {c c₁ c' : ServerConfig} {i : ℕ} {token next : String} {rows : List PartitionInfo}
      {n : ℤ} {pages : List (List PartitionInfo)} :
      c.thread i = none → Run (server pg policy) c c₁ →
      c₁.Returned i (.getPartitions t s k token) (.partitionList rows n next) → next ≠ "" →
      Paging pg policy t s k c₁ next pages c' → Paging pg policy t s k c token (rows :: pages) c'

theorem Paging.run (h : Paging pg policy t s k c token pages c') : Run (server pg policy) c c' := by
  induction h with
  | last _ hr _ => exact hr
  | more _ hr _ _ _ ih => exact hr.trans ih

theorem page_eq (limit : ℕ) (last : ℤ) (rows : List PartitionRow) :
    page limit last rows = Keyset.page (fun r => (r.partitionId : ℤ)) limit last rows := rfl

/-- What `partitionsAt` finds: by increasing id, and the ids fit their column. -/
structure Listable (L : List PartitionRow) : Prop where
  sorted : L.Pairwise fun a b => (a.partitionId : ℤ) < b.partitionId
  pos : ∀ p ∈ L, 0 < p.partitionId
  fits : ∀ p ∈ L, p.partitionId < 2 ^ 63

theorem Db.Consistent.listable (h : db.Consistent) : Listable (db.partitionsAt id n) := by
  have hmem : ∀ p ∈ db.partitionsAt id n, ∃ x, (db.slice id).partitions p.partitionId = some x := by
    intro p hp
    obtain ⟨k, x, hx, hb⟩ := Rows.mem_select.mp hp
    split at hb
    · rename_i hv
      cases hb
      simp only [Bool.and_eq_true, beq_iff_eq] at hv
      exact ⟨x, slice_partitions.mpr ⟨hx, hv.1⟩⟩
    · cases hb
  refine ⟨?_, fun p hp => ?_, fun p hp => ?_⟩
  · have hsorted : (db.partitionsAt id n).Pairwise fun a b => a.partitionId < b.partitionId := by
      refine Rows.select_sorted fun k x b hb => ?_
      split at hb
      · cases hb
        rfl
      · cases hb
    exact hsorted.imp fun h => by exact_mod_cast h
  · obtain ⟨x, hx⟩ := hmem p hp
    exact (Rows.born (slice_partitions.mp hx).1).1
  · obtain ⟨x, hx⟩ := hmem p hp
    exact (h.wellFormed id).ids _ x hx

theorem toString_ne_empty (n : ℕ) : toString n ≠ "" := by
  intro h
  have := congrArg String.toList h
  rw [toList_toString] at this
  exact Nat.toDigits_ne_nil this

theorem lastId_toString (hn : n < 2 ^ 63) : MetadataServer.lastId (toString n) = n := by
  rw [MetadataServer.lastId, if_neg (toString_ne_empty n), stoll_toString hn, Option.getD_some]

/-- What of `L` follows a token. -/
def following (token : String) (L : List PartitionRow) : List PartitionRow :=
  L.filter fun p => MetadataServer.lastId token < p.partitionId

theorem Listable.following_start (hL : Listable L) : following "" L = L :=
  List.filter_eq_self.mpr fun p hp => by simpa [MetadataServer.lastId] using hL.pos p hp

theorem pageLimit_pos (hk : 0 < k) : 0 < pageLimit k := by
  rw [pageLimit, if_pos hk]
  omega

section replies
variable {next : String} {count : ℤ}

/-- After a page without a token nothing follows. -/
theorem listing_last (hk : 0 < k) (he : Reply.partitionList rows count "" =
    listing t k (some (page (pageLimit k) (MetadataServer.lastId token) L))) :
    rows = [] ∧ following token L = [] := by
  simp only [listing, if_pos hk, Reply.partitionList.injEq] at he
  obtain ⟨rfl, -, hnext⟩ := he
  have hnil : page (pageLimit k) (MetadataServer.lastId token) L = [] := by
    cases hlast : (page (pageLimit k) (MetadataServer.lastId token) L).getLast? with
    | none => exact List.getLast?_eq_none_iff.mp hlast
    | some b =>
      rw [hlast] at hnext
      exact absurd hnext.symm (toString_ne_empty _)
  rw [page_eq] at hnil
  exact ⟨by simp [page_eq, hnil], Keyset.page_eq_nil (pageLimit_pos hk) hnil⟩

/-- A page with a token is not empty, and what follows its own token comes next. -/
theorem listing_more (hL : Listable L) (hk : 0 < k) (he : Reply.partitionList rows count next =
    listing t k (some (page (pageLimit k) (MetadataServer.lastId token) L))) (hne : next ≠ "") :
    rows ++ (following next L).map PartitionRow.toInfo =
        (following token L).map PartitionRow.toInfo ∧
      (following next L).length < (following token L).length := by
  simp only [listing, if_pos hk, Reply.partitionList.injEq] at he
  obtain ⟨rfl, -, hnext⟩ := he
  cases hlast : (page (pageLimit k) (MetadataServer.lastId token) L).getLast? with
  | none =>
    rw [hlast] at hnext
    exact absurd hnext hne
  | some b =>
    rw [hlast] at hnext
    obtain rfl : next = toString b.partitionId := hnext
    have hmem : b ∈ L :=
      List.mem_of_mem_filter (List.mem_of_mem_take (List.mem_of_getLast? hlast))
    have happend : page (pageLimit k) (MetadataServer.lastId token) L ++
        following (toString b.partitionId) L = following token L := by
      rw [following, lastId_toString (hL.fits b hmem)]
      exact Keyset.page_append hL.sorted hlast
    have hpos : 0 < (page (pageLimit k) (MetadataServer.lastId token) L).length :=
      List.length_pos_of_mem (List.mem_of_getLast? hlast)
    rw [← happend, List.map_append, List.length_append]
    exact ⟨rfl, by omega⟩

end replies

/-- If every page is cut from the list `L`, the client receives what of `L` follows its token, in
order. -/
theorem Paging.collect (hL : Listable L) (hk : 0 < k)
    (h : Paging pg policy t s k c token pages c')
    (hreply : ∀ c₀ c₁ i token x, Run (server pg policy) c c₀ → c₀.thread i = none →
      Run (server pg policy) c₀ c₁ → Run (server pg policy) c₁ c' →
      c₁.Returned i (.getPartitions t s k token) x → (∃ rows n next, x = .partitionList rows n next) →
      x = listing t k (some (page (pageLimit k) (MetadataServer.lastId token) L))) :
    pages.flatten = (following token L).map PartitionRow.toInfo := by
  induction h with
  | @last c c' i token rows n hi hr hx =>
    have he := hreply c c' i token _ .refl hi hr .refl hx ⟨_, _, _, rfl⟩
    obtain ⟨rfl, hnil⟩ := listing_last hk he
    simp [hnil]
  | @more c c₁ c' i token next rows n pages hi hr hx hne hp ih =>
    have he := hreply c c₁ i token _ .refl hi hr hp.run hx ⟨_, _, _, rfl⟩
    have hrest := ih fun c₀ c₂ j token' x hc => hreply c₀ c₂ j token' x (hr.trans hc)
    rw [List.flatten_cons, hrest, (listing_more hL hk he hne).1]

/-! The latest snapshot. -/

/-- From `u` to `w`, the latest snapshot of the table is `e`. -/
def LatestIs (t : String) (e : ℕ) (u w : Moment) : Prop :=
  ∀ m m' : Moment, u.Before m → m.Before m' → m'.Before w →
    latest m.now.mvcc.latestCommittedSnapshot (m'.now.db.current t) = e

/-- What is visible is what is visible at some snapshot of the table, or nothing. -/
theorem Db.Consistent.exists_snapshot (h : db.Consistent) (id n : ℕ) :
    ∃ n' ≤ n, (n' = 0 ∨ db.HasSnapshot id n') ∧ db.partitionsAt id n' = db.partitionsAt id n := by
  let p (k : ℕ) : Prop := ((db.slice id).snapshots k).isSome = true
  have hg : Nat.findGreatest p n = 0 ∨ p (Nat.findGreatest p n) := by
    by_cases h0 : Nat.findGreatest p n = 0
    · exact .inl h0
    · exact .inr (Nat.findGreatest_of_ne_zero rfl h0)
  have hle : ∀ k, p k → (k ≤ Nat.findGreatest p n ↔ k ≤ n) := fun k hk =>
    ⟨fun h => h.trans (Nat.findGreatest_le n), fun h => Nat.le_findGreatest h hk⟩
  refine ⟨_, Nat.findGreatest_le n, hg.imp_right Db.hasSnapshot_iff.mpr, ?_⟩
  refine Rows.select_congr fun k => ?_
  cases hx : db.partitions.row k with
  | none => rfl
  | some x =>
    by_cases hid : x.tableId = id
    · have hslice : (db.slice id).partitions k = some x := slice_partitions.mpr ⟨hx, hid⟩
      have hs := hle _ ((h.wellFormed id).stored k x hslice)
      have hv : x.visibleAt (Nat.findGreatest p n) = x.visibleAt n := by
        simp only [PartitionRec.visibleAt, hs]
        cases hd : x.deletedSnapshotId with
        | none => rfl
        | some d =>
          have hd' := hle _ ((h.wellFormed id).tombstoned k x d hslice hd).1
          have hlt : Nat.findGreatest p n < d ↔ n < d := by
            rw [← not_le, hd', not_le]
          simp only [Option.any_some, decide_eq_decide.mpr hlt]
      simp [hv]
    · simp [hid]


/-- A page of the latest snapshot is cut from what is visible at `e` in the end. -/
theorem Reachable.latest_page {α : Type} {f : Option (List PartitionRow) → α} {x : α} {e : ℕ}
    (h : Reachable pg policy c) (hc : policy.Clean) (hl : policy.Lists)
    (hst : Stays t u c.world) (he : LatestIs t e u c.world)
    (hx : Listed policy t 0 f false u x w) (hw : w.Before c.world) :
    x = f none ∨ ∃ id r, c.state.db.find t = some (id, r) ∧
      x = f (some (c.state.db.partitionsAt id e)) := by
  have he : StandsFor t 0 e u c.world := he
  obtain ⟨n, m, -, hum, hmw, rfl⟩ := h.listed_at hc hl hst he (by simp) hx hw
  by_cases hn : maxBigint ≤ n
  · exact .inl (by rw [if_pos hn])
  · rw [if_neg hn]
    cases hf : m.now.db.find t with
    | none => exact .inl rfl
    | some p =>
      obtain ⟨r', hf'⟩ := hst m c.world hum (hmw.trans hw) .refl p.1 p.2 hf
      exact .inr ⟨p.1, r', hf', rfl⟩

theorem Paging.first (h : Paging pg policy t s k c token pages c') :
    ∃ c₁ i rows n next, c.thread i = none ∧ Run (server pg policy) c c₁ ∧
      Run (server pg policy) c₁ c' ∧
      c₁.Returned i (.getPartitions t s k token) (.partitionList rows n next) := by
  cases h with
  | last hi hr hx => exact ⟨_, _, _, _, _, hi, hr, .refl, hx⟩
  | more hi hr hx _ hp => exact ⟨_, _, _, _, _, hi, hr, hp.run, hx⟩

/-- The page that `j` has returned for the token, if `next` is the token in it. -/
def pageOf (c : ServerConfig) (j : ℕ) (t : String) (s : ℕ) (k : ℤ) (token next : String) :
    Option (List PartitionInfo) :=
  match c.reply j with
  | some (q, .partitionList rows _ next') =>
    if q = .getPartitions t s k token ∧ next' = next then some rows else none
  | _ => none

/-- The pages that are returned one after the other to the given threads, after the given moves
and with the given tokens. -/
def follow (pg : Postgres) (policy : Policy) (t : String) (s : ℕ) (k : ℤ) :
    ServerConfig → (token : String) → List (ℕ × List (Move Request Outcome) × String) →
      Option (List (List PartitionInfo) × ServerConfig)
  | _, _, [] => none
  | c, token, (j, ms, next) :: rest =>
    if (c.thread j).isSome then none
    else ((server pg policy).moves c ms).bind fun c₁ =>
      (pageOf c₁ j t s k token next).bind fun rows =>
        if next = "" then some ([rows], c₁)
        else (follow pg policy t s k c₁ next rest).map fun r => (rows :: r.1, r.2)

theorem returned_of_pageOf {j : ℕ} {next : String}
    (h : pageOf c j t s k token next = some rows) :
    ∃ n, c.Returned j (.getPartitions t s k token) (.partitionList rows n next) := by
  unfold pageOf at h
  split at h
  · rename_i q rows' n next' hr
    split at h
    · rename_i hq
      obtain ⟨rfl, rfl⟩ := hq
      cases h
      exact ⟨n, Config.returned_iff.mpr hr⟩
    · cases h
  · cases h

theorem paging_of_follow {turns : List (ℕ × List (Move Request Outcome) × String)}
    (h : follow pg policy t s k c token turns = some (pages, c')) :
    Paging pg policy t s k c token pages c' := by
  induction turns generalizing c token pages with
  | nil => cases h
  | cons turn rest ih =>
    obtain ⟨j, ms, next⟩ := turn
    simp only [follow] at h
    split at h
    · cases h
    · rename_i hj
      obtain ⟨c₁, hms, h₁⟩ := Option.bind_eq_some_iff.mp h
      obtain ⟨rows, hrows, h₂⟩ := Option.bind_eq_some_iff.mp h₁
      obtain ⟨n, hx⟩ := returned_of_pageOf hrows
      have hr := System.run_of_moves hms
      have hj : c.thread j = none := by simpa using hj
      by_cases hnext : next = ""
      · subst hnext
        cases h₂
        exact .last hj hr hx
      · rw [if_neg hnext] at h₂
        obtain ⟨⟨pages', c₂⟩, hrest, he⟩ := Option.map_eq_some_iff.mp h₂
        cases he
        exact .more hj hr hx hnext (ih hrest)

theorem latestIs_of_check {e : ℕ} {when : Moment → Bool}
    (h : w.moments.all (fun m => !when m || decide (m.now.mvcc.latestCommittedSnapshot = 0 ∧
      m.now.db.current t = e)) = true)
    (hwhen : ∀ m : Moment, u.Before m → when m = true) : LatestIs t e u w := by
  intro m m' hum hmm' hm'
  have h₁ := List.all_eq_true.mp h m (hmm'.trans hm').mem_moments
  have h₂ := List.all_eq_true.mp h m' hm'.mem_moments
  simp only [hwhen m hum, hwhen m' (hum.trans hmm'), Bool.not_true, Bool.false_or,
    decide_eq_true_eq] at h₁ h₂
  rw [latest, if_pos h₁.1, h₂.2]

/-- A table with two partitions. -/
def twoPartitions : List (Move Request Outcome) :=
  serve 0 (.createTable "t" "{}" "" []) 5 ++
    serve 1 (.commitSnapshot "t" [samplePartition "a" "f", samplePartition "b" "g"] [] 0 "") 15

/-- The requests that list partitions or commit. -/
def Request.commits : Request → Bool
  | .getPartitions .. | .commitSnapshot .. | .commitTransaction _ => true
  | _ => false

/-- From `c` to `c'`, only such requests make steps. -/
def CommitsOnly (c c' : ServerConfig) : Bool :=
  (c'.world.past.take (c'.world.past.length - c.world.past.length)).all fun p => match p.2 with
    | .call _ q | .act _ q _ _ => q.commits
    | .drift => true

end IceLog
