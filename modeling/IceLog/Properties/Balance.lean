import IceLog.Db.FileCounts
import IceLog.Properties.Contents
import IceLog.Properties.Snapshots
import IceLog.Server.Conditions
import IceLog.Server.Settling

/-! The file counts of the snapshots against the files that are listed. -/
namespace IceLog

open Interleaved Serial

variable {pg : Postgres} {policy : Policy} {c c' : ServerConfig} {e : ServerEvent} {db db' : Db}
  {id n N next : ℕ} {r r' : TableRec} {x : CommitCall} {live : List PartitionRow}
  {dels : List String} {news : List PartitionRow}

/-- At each snapshot of a live table as many files are listed as the counts up to it say. -/
def CountsBalance (s : Server) : Prop :=
  ∀ t id r n y, s.db.find t = some (id, r) → (s.db.slice id).snapshots n = some y →
    ∃ parts, s.db.queryPartitions t n = some parts ∧ (parts.length : ℤ) = s.db.netFiles id n

/-- The same at whatever number. -/
def Db.Balanced (db : Db) (id : ℕ) : Prop :=
  ∀ s, ((db.partitionsAt id s).length : ℤ) = db.netFiles id s

/-- How many of the live files and of the new ones carry one of the deleted keys. -/
def CommitCall.tombstones (x : CommitCall) (live : List PartitionRow) : ℕ :=
  (live.countP fun row => row.partitionKey ∈ x.deletedPartitionKeys.map cStr) +
    x.newPartitions.countP fun part => cStr part.partitionKey ∈ x.deletedPartitionKeys.map cStr

/-- The lengths of the two lists, which the snapshot records, are those of what is added and
tombstoned. -/
def CommitCall.Tallies (x : CommitCall) (live : List PartitionRow) : Prop :=
  toInt32 x.newPartitions.length - toInt32 x.deletedPartitionKeys.length =
    x.newPartitions.length - x.tombstones live

/-- If the step is the `COMMIT` of a commit and takes effect, the commit tallies with the live files
of its table. -/
def CommitsTally (w : Moment) (e : ServerEvent) (s : Server) : Prop :=
  ∀ i q conn b x id r, e = .act i q (.exec conn .commit) b → q.commitCall = some x →
    ¬ w.now.db.SameRows s.db → w.now.db.find (cStr x.tableName) = some (id, r) →
      x.Tallies (w.now.db.partitionsAt id r.currentSnapshotId)

instance : Decidable (x.Tallies live) := inferInstanceAs (Decidable (_ = _))

/-- A stored snapshot of a live table can be listed. -/
theorem Db.Consistent.query_stored {t : String} {y : SnapshotRec} (hcons : db.Consistent)
    (hf : db.find t = some (id, r)) (hn : (db.slice id).snapshots n = some y) :
    db.queryPartitions t n = some (db.partitionsAt id n) ∧ n < db.snapshots.next := by
  obtain ⟨hr, -⟩ := Db.row_of_find hf
  obtain ⟨hcur, hmax⟩ := (hcons.wellFormed id).current r hr
  have hle := ((hcons.wellFormed id).snapshots r n y hr hn).2
  refine ⟨?_, hle.trans_lt hcur⟩
  rw [Db.queryPartitions, if_neg (by omega), hf, Option.map_some]

theorem countsBalance_iff {s : Server} (hcons : s.db.Consistent) : CountsBalance s ↔
    ∀ id r, s.db.tables.row id = some r → r.isDeleted = false → s.db.Balanced id := by
  constructor
  · intro h id r hr hlive m
    have hf : s.db.find r.tableName = some (id, r) :=
      (Db.find_eq_some_iff hcons.unique).mpr ⟨hr, by simp [TableRec.named, hlive]⟩
    have hwf := hcons.wellFormed id
    rcases (s.db.slice id).exists_last m with hnone | ⟨k, y, hk, hm⟩
    · rw [Db.netFiles_eq_zero hnone, Db.partitionsAt_eq_nil (hwf.visible_none hnone)]
      rfl
    · obtain ⟨parts, hq, hlen⟩ := h r.tableName id r k y hf hk
      rw [Db.partitionsAt_eq (hwf.visible_congr hm),
        Db.netFiles_congr fun n => Slice.counted_congr hm n, ← hlen]
      rw [(hcons.query_stored hf hk).1] at hq
      cases hq
      rfl
  · intro h t id r n y hf hn
    obtain ⟨hr, hname⟩ := Db.row_of_find hf
    exact ⟨_, (hcons.query_stored hf hn).1, h id r hr (Db.named_iff.mp hname).2 n⟩

/-! One commit. -/

/-- What is stored of a table is older than a new commit. -/
theorem Slice.WellFormed.below {v : Slice} (h : v.WellFormed next) (hr : v.table = some r)
    (hlt : r.currentSnapshotId < n) {p : ℕ} {y : PartitionRec} (hy : v.partitions p = some y) :
    y.Below n := by
  have hstored : ∀ k, (v.snapshots k).isSome = true → k < n := by
    intro k hk
    obtain ⟨z, hz⟩ := Option.isSome_iff_exists.mp hk
    exact (h.snapshots r k z hr hz).2.trans_lt hlt
  exact ⟨hstored _ (h.stored p y hy), fun d hd => hstored d (h.tombstoned p y d hy hd).1⟩

theorem length_sparedRows {added : List (ℕ × PartitionRec)} {k : ℕ}
    (h : List.Forall₂ (fun part e => ∃ stats,
      e.2 = (PgClient.partitionParams part).toRec k n stats) news added) :
    (sparedRows dels added).length + news.countP (fun part => cStr part.partitionKey ∈ dels.map cStr) =
      news.length := by
  induction h with
  | nil => rfl
  | @cons part e news added he _ ih =>
    obtain ⟨stats, he⟩ := he
    have hkey : e.2.Spared dels ↔ cStr part.partitionKey ∉ dels.map cStr := by
      rw [he]
      exact and_iff_right rfl
    by_cases hk : cStr part.partitionKey ∈ dels.map cStr
    · have hno : ¬ e.2.Spared dels := fun hs => hkey.mp hs hk
      have hcons : sparedRows dels (e :: added) = sparedRows dels added :=
        List.filterMap_cons_none (if_neg hno)
      rw [hcons, List.countP_cons_of_pos (by simpa using hk), List.length_cons]
      omega
    · have hcons : sparedRows dels (e :: added) = e.2.toRow e.1 :: sparedRows dels added :=
        List.filterMap_cons_some (if_pos (hkey.mpr hk))
      rw [hcons, List.countP_cons_of_neg (by simpa using hk), List.length_cons, List.length_cons]
      omega

/-- The listing after a commit is shorter by what the commit tombstones. -/
theorem Slice.CommittedAs.length_listed (hcons : db.Consistent) (hr : db.tables.row id = some r)
    (hlt : r.currentSnapshotId < n) (h : (db.slice id).CommittedAs pg id x.parentSnapshotId
      x.operation x.newPartitions x.deletedPartitionKeys n (db'.slice id)) :
    (db'.partitionsAt id n).length + x.tombstones (db.partitionsAt id r.currentSnapshotId) =
      (db.partitionsAt id r.currentSnapshotId).length + x.newPartitions.length := by
  have hwf := hcons.wellFormed id
  let N := max db.partitions.next db'.partitions.next
  obtain ⟨added, hadded, hperm⟩ := h.listed (N := N) (fun p y hy => hwf.below hr hlt hy)
    fun p y hy => (Rows.born (Db.slice_partitions.mp hy).1).2.trans_le (Nat.le_max_right _ _)
  have hlen := hperm.length_eq
  rw [List.length_append, ← Db.partitionsAt_eq_listed (N := N) (Nat.le_max_right _ _)] at hlen
  have hnew : (sparedRows x.deletedPartitionKeys added).length + _ = _ := length_sparedRows hadded
  -- the live files are those that the current snapshot shows
  have hlive : db.partitionsAt id r.currentSnapshotId =
      (db.slice id).listed N (Slice.rowsWhere fun y => y.isDeleted = false) := by
    rw [Db.partitionsAt_eq_listed (N := N) (Nat.le_max_left _ _)]
    refine Slice.listed_congr fun p y _ hy => if_congr ?_ rfl rfl
    exact (hwf.below hr (Nat.lt_succ_self _) hy).visibleAt
  have hspared : ((db.slice id).listed N (Slice.rowsWhere fun y => y.isDeleted = false)).filter
      (fun row => ¬ row.partitionKey ∈ x.deletedPartitionKeys.map cStr) =
      (db.slice id).listed N (Slice.rowsWhere fun y => y.Spared x.deletedPartitionKeys) :=
    Slice.filter_listed fun p y => by
      rw [decide_eq_true_eq]
      exact and_comm
  rw [← hspared, ← hlive, ← List.countP_eq_length_filter] at hlen
  have hold := List.length_eq_countP_add_countP (l := db.partitionsAt id r.currentSnapshotId)
    (fun row => decide (row.partitionKey ∈ x.deletedPartitionKeys.map cStr))
  simp only [decide_eq_true_eq] at hold
  rw [CommitCall.tombstones]
  omega

/-- A commit to a table that balances leaves it so if and only if it tallies. -/
theorem Slice.CommittedAs.balanced_iff (hcons : db.Consistent) (hcons' : db'.Consistent)
    (hr : db.tables.row id = some r) (hlt : r.currentSnapshotId < n) (h : (db.slice id).CommittedAs pg
      id x.parentSnapshotId x.operation x.newPartitions x.deletedPartitionKeys n (db'.slice id))
    (hb : db.Balanced id) :
    db'.Balanced id ↔ x.Tallies (db.partitionsAt id r.currentSnapshotId) := by
  have hlen := h.length_listed hcons hr hlt
  obtain ⟨r₀, _, hr₀, ⟨now, z, hins, rfl⟩, hw⟩ := h
  cases hr.symm.trans hr₀
  have hrow' : db'.tables.row id = some { r with currentSnapshotId := n } :=
    congrArg Slice.table hw
  have hgrows : Slice.Grows n _ _ :=
    hins.grows.trans (Slice.markAll_grows x.deletedPartitionKeys z)
  have hold : ∀ k y, (db.slice id).snapshots k = some y → k ≤ r.currentSnapshotId := fun k y hy =>
    ((hcons.wellFormed id).snapshots r k y hr hy).2
  have hnet := Db.netFiles_snoc (fun k y hy => (hold k y hy).trans_lt hlt)
    ((congrArg Slice.snapshots hw).trans hgrows.snapshots)
  have hbefore : ∀ s, n ≤ s → db.netFiles id s = db.netFiles id r.currentSnapshotId := fun s hs =>
    Db.netFiles_congr fun k => Slice.counted_congr (fun k y hy =>
      iff_of_true ((hold k y hy).trans (hlt.le.trans hs)) (hold k y hy)) k
  have hafter : ∀ s, n ≤ s → db'.partitionsAt id s = db'.partitionsAt id n := fun s hs => by
    rw [← hcons'.partitionsAt_min hrow', Nat.min_eq_right hs]
  have hcur := hb r.currentSnapshotId
  have hat : ∀ s, n ≤ s → (((db'.partitionsAt id s).length : ℤ) = db'.netFiles id s ↔
      x.Tallies (db.partitionsAt id r.currentSnapshotId)) := by
    intro s hs
    rw [hafter s hs, hnet s, hbefore s hs, if_pos hs, ← hcur, CommitCall.Tallies]
    dsimp only
    omega
  refine ⟨fun h => (hat n (Nat.le_refl n)).mp (h n), fun h s => ?_⟩
  rcases Nat.lt_or_ge s n with hs | hs
  · have hvis : (db'.slice id).visible s = (db.slice id).visible s := by
      rw [hw]
      exact hgrows.visible hs
    rw [Db.partitionsAt_congr hvis, hnet s, if_neg (Nat.not_le.mpr hs), add_zero]
    exact hb s
  · exact (hat s hs).mpr h

/-! The steps of a server. -/

/-- Only a commit moves the pointer of a live table. -/
theorem Reachable.commitCall_of_moved (h : Reachable pg policy c) (hc : policy.Clean)
    (hs : Step (server pg policy) c e c') (hr : c.state.db.tables.row id = some r)
    (hr' : c'.state.db.tables.row id = some r') (hlive : r'.isDeleted = false)
    (hmoved : r'.currentSnapshotId ≠ r.currentSnapshotId) :
    ∃ i q conn b x, e = .act i q (.exec conn .commit) b ∧ q.commitCall = some x := by
  rcases h.retitled hs with hret | ⟨i, q, conn, b, rfl⟩
  · refine absurd ?_ hmoved
    rw [hret.tables id r r' hr hr']
  have hrows : ¬ c.state.db.SameRows c'.state.db := by
    intro hsame
    rw [hsame.tables, hr] at hr'
    cases hr'
    exact hmoved rfl
  obtain ⟨-, k, hl⟩ := h.at_action hs
  rcases Request.commits_cases hl with ⟨x, hx⟩ | ⟨t, schema, rfl⟩ | ⟨t, purge, rfl⟩
  · exact ⟨i, q, conn, b, x, rfl, hx⟩
  · obtain ⟨k, r₀, -, ⟨r₁, schema', l, now, hr₁, -, -, hw⟩, hrest⟩ := (h.alterEffect hc hs hrows).table
    by_cases hk : id = k
    · subst hk
      cases hr.symm.trans hr₁
      cases hr'.symm.trans (congrArg Slice.table hw)
      exact absurd rfl hmoved
    · cases hr'.symm.trans ((congrArg Slice.table (hrest id hk)).trans hr)
      exact absurd rfl hmoved
  · obtain ⟨p, t', k, hcan, ht, hdb⟩ := h.committable hc hs hrows
    obtain rfl := List.mem_singleton.mp ht
    by_cases hk : id = k
    · subst hk
      rw [hdb] at hr'
      rw [hcan.detached rfl r' hr'] at hlive
      cases hlive
    · have hrest := hcan.within.slice_of_ne hk
      rw [← hdb] at hrest
      cases hr'.symm.trans ((congrArg Slice.table hrest).trans hr)
      exact absurd rfl hmoved

/-- The live tables balance. -/
def Db.LiveBalanced (db : Db) : Prop :=
  ∀ id r, db.tables.row id = some r → r.isDeleted = false → db.Balanced id

theorem CommitEffect.row {v v' : Moment} (h : CommitEffect pg policy x.tableName
    x.parentSnapshotId x.operation x.newPartitions x.deletedPartitionKeys n v v')
    (hf : v.now.db.find (cStr x.tableName) = some (id, r)) (hc : policy.Clean) :
    r.currentSnapshotId < n ∧
      v'.now.db.tables.row id = some { r with currentSnapshotId := n } ∧
      (v.now.db.slice id).CommittedAs pg id x.parentSnapshotId x.operation x.newPartitions
        x.deletedPartitionKeys n (v'.now.db.slice id) := by
  obtain ⟨k, r₀, hf₀, -, hlt, hcom, -⟩ := h.table
  cases hf.symm.trans hf₀
  refine ⟨hlt hc, ?_, hcom⟩
  obtain ⟨r₁, z, hr₁, -, hw⟩ := hcom
  cases (Db.row_of_find hf).1.symm.trans hr₁
  exact congrArg Slice.table hw

/-- A step from where all live tables balance leads to where they do if and only if it tallies. -/
theorem Reachable.balanced_step (hc : policy.Clean) (h : Reachable pg policy c)
    (hs : Step (server pg policy) c e c') (hb : c.state.db.LiveBalanced) :
    c'.state.db.LiveBalanced ↔ CommitsTally c.world e c'.state := by
  have hcons := h.inv.consistent hc
  have hcons' := (h.step hs).inv.consistent hc
  constructor
  · rintro hb' i q conn b x id r rfl hx hrows hf
    obtain ⟨n, he⟩ := h.commitEffect hc hx hs hrows
    obtain ⟨hlt, hr', hcom⟩ := he.row hf hc
    obtain ⟨hr, hname⟩ := Db.row_of_find hf
    have hlive := (Db.named_iff.mp hname).2
    exact (hcom.balanced_iff hcons hcons' hr hlt (hb id r hr hlive)).mp (hb' id _ hr' hlive)
  · intro hφ id r' hr' hlive
    rcases (h.promise hs).writes hc id with hsame | ⟨i, -, hw⟩
    · have hr : c.state.db.tables.row id = some r' := (congrArg Slice.table hsame).symm.trans hr'
      intro s
      rw [Db.partitionsAt_congr (congrArg (Slice.visible · s) hsame),
        Db.netFiles_congr fun n => congrArg (Slice.counted · s n) hsame]
      exact hb id r' hr hlive s
    · cases hr : c.state.db.tables.row id with
      | none =>
        have hempty := hw.change.of_none hr hr'
        intro s
        rw [Db.partitionsAt_eq_nil fun p => by rw [hempty]; rfl,
          Db.netFiles_eq_zero fun n y hy => by rw [hempty] at hy; cases hy]
        rfl
      | some r =>
        by_cases hcur : r'.currentSnapshotId = r.currentSnapshotId
        · have hr₀ : r.isDeleted = false := by
            by_contra hd
            rw [hw.change.deleted hr hr' (by simpa using hd)] at hlive
            cases hlive
          intro s
          rw [Db.partitionsAt_congr (hw.change.visible hr hr' (.inl hcur)),
            Db.netFiles_congr fun n => congrArg (fun row : ℕ → Option SnapshotRec => (row n).bind _)
              (hw.change.snapshots_eq hr hr' hcur)]
          exact hb id r hr hr₀ s
        · obtain ⟨i, q, conn, b, x, rfl, hx⟩ := h.commitCall_of_moved hc hs hr hr' hlive hcur
          have hrows : ¬ c.state.db.SameRows c'.state.db := by
            intro hsame
            rw [hsame.tables, hr] at hr'
            cases hr'
            exact hcur rfl
          obtain ⟨n, he⟩ := h.commitEffect hc hx hs hrows
          obtain ⟨k, r₀, hf, -, -, -, hrest⟩ := he.table
          obtain ⟨hlt, -, hcom⟩ := he.row hf hc
          obtain rfl : id = k := by
            by_contra hk
            cases hr'.symm.trans ((congrArg Slice.table (hrest id hk)).trans hr)
            exact hcur rfl
          obtain ⟨hr₁, hname⟩ := Db.row_of_find hf
          exact (hcom.balanced_iff hcons hcons' hr₁ hlt
            (hb id r₀ hr₁ (Db.named_iff.mp hname).2)).mpr (hφ i q conn b x id r₀ rfl hx hrows hf)

/-- In the states of a run the counts balance if and only if each commit that takes effect
tallies. -/
theorem counts_balance_iff (hc : policy.Clean) :
    ReachedBy pg policy (fun _ _ s => CountsBalance s) c ↔ ReachedBy pg policy CommitsTally c := by
  have hempty : Db.empty.LiveBalanced := by
    intro id r hr
    cases hr
  have hiff : ∀ {d : ServerConfig}, Reachable pg policy d →
      (CountsBalance d.state ↔ d.state.db.LiveBalanced) := fun hd =>
    countsBalance_iff (hd.inv.consistent hc)
  constructor
  · intro h
    have hstates : ReachedBy pg policy (fun _ _ s => s.db.LiveBalanced) c :=
      h.imp fun hd hs hb => (hiff (hd.step hs)).mp hb
    exact (hstates.before hempty).2.imp fun hd hs hb => (hd.balanced_step hc hs hb.1).mp hb.2
  · intro h
    obtain ⟨-, hb⟩ := h.keeps hempty fun hd hs hφ hb => (hd.balanced_step hc hs hb).mpr hφ
    exact hb.imp fun hd hs hb => (hiff (hd.step hs)).mpr hb

/-- The live tables balance at all snapshots drawn so far, as a check. -/
def Server.balances (s : Server) : Bool :=
  (List.range s.db.tables.next).all fun id => (s.db.tables.row id).all fun r => r.isDeleted ||
    (List.range s.db.snapshots.next).all fun n =>
      decide (((s.db.partitionsAt id n).length : ℤ) = s.db.netFiles id n)

theorem countsBalance_of_balances {s : Server} (hcons : s.db.Consistent)
    (h : s.balances = true) : CountsBalance s := by
  intro t id r n y hf hn
  obtain ⟨hr, hname⟩ := Db.row_of_find hf
  obtain ⟨hq, hlt⟩ := hcons.query_stored hf hn
  have hall := List.all_eq_true.mp h id (List.mem_range.mpr (Rows.born hr).2)
  rw [hr, Option.all_some, (Db.named_iff.mp hname).2, Bool.false_or] at hall
  exact ⟨_, hq, of_decide_eq_true (List.all_eq_true.mp hall n (List.mem_range.mpr hlt))⟩

/-- A file is stored, and another one takes its place. -/
theorem counts_balance_of_replacement : ∃ c : ServerConfig,
    (c.state.db.queryPartitions "t" 2).map (List.map PartitionRow.dataFilePath) = some ["g"] ∧
      ReachedBy .plain .clean CommitsTally c := by
  obtain ⟨c, hr, hp⟩ := System.run_of_check (server .plain .clean) (c := .initial freshServer)
    (firstCommit ++ serve 2 (overwrite "b") 15)
    (p := fun c => decide ((c.state.db.queryPartitions "t" 2).map
      (List.map PartitionRow.dataFilePath) = some ["g"]) &&
      c.world.moments.all fun u => u.now.balances) (by decide +kernel)
  simp only [Bool.and_eq_true, decide_eq_true_eq] at hp
  obtain ⟨hq, hall⟩ := hp
  have h : ReachedBy .plain .clean (fun _ _ s => s.balances = true) c :=
    .of_states (started_fresh .empty) hr fun u hu => List.all_eq_true.mp hall u hu.mem_moments
  refine ⟨c, hq, (counts_balance_iff Policy.clean_clean).mp (h.imp fun hd hs hb => ?_)⟩
  exact countsBalance_of_balances ((hd.step hs).inv.consistent Policy.clean_clean) hb

/-- A commit that deletes a key under which there is no file. -/
theorem counts_not_balance : ¬ ∀ (pg : Postgres) (policy : Policy) (c : ServerConfig),
    Reachable pg policy c → CountsBalance c.state := by
  intro hall
  let bad (c : ServerConfig) : Bool := (c.state.db.find "t").any fun f =>
    ((c.state.db.slice f.1).snapshots 2).isSome && decide (c.state.db.netFiles f.1 2 = 0) &&
      decide ((c.state.db.queryPartitions "t" 2).map List.length = some 1)
  obtain ⟨c, h, hp⟩ := @reachable_of_check .plain .clean
    (firstCommit ++ serve 2 (.commit "t" 1 "delete" [] ["b"]) 13) bad (by decide +kernel)
  simp only [bad, Option.any_eq_true, Bool.and_eq_true, decide_eq_true_eq,
    Option.isSome_iff_exists] at hp
  obtain ⟨⟨id, r⟩, hf, ⟨⟨y, hy⟩, hnet⟩, hlen⟩ := hp
  obtain ⟨parts, hq, hcount⟩ := hall .plain .clean c h "t" id r 2 y hf hy
  rw [hq, Option.map_some, Option.some.injEq] at hlen
  rw [hlen, hnet] at hcount
  exact absurd hcount (by decide)

end IceLog
