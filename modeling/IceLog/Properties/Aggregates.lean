import IceLog.Catalog.Totals
import IceLog.Properties.Snapshots
import IceLog.Properties.Storage
import IceLog.Server.Conditions

/-! The sums over the partitions of a table, on `int64_t`. -/
namespace IceLog

open Interleaved Serial

variable {pg : Postgres} {policy : Policy} {c c' : ServerConfig} {e : ServerEvent} {db db' : Db}
  {k n next : ℕ} {r r' : TableRec} {steady : Prop}

/-- Whatever snapshot of whatever table is asked for, the sums are exact. -/
def AllExact (s : Server) : Prop :=
  ∀ t n parts, s.db.queryPartitions t n = some parts → ExactTotals parts

/-- After a `COMMIT` the live files of every table can be added up. -/
def CommitsFit (_ : Moment) (e : ServerEvent) (s : Server) : Prop :=
  (∃ i q conn x, e = .act i q (.exec conn .commit) x) → ∀ k r, s.db.tables.row k = some r →
    r.isDeleted = false → SumsFit (s.db.partitionsAt k r.currentSnapshotId)

/-- The files of every table can be added up at all snapshots. -/
def Db.Fit (db : Db) : Prop :=
  ∀ k r, db.tables.row k = some r → r.isDeleted = false → ∀ n, SumsFit (db.partitionsAt k n)

theorem sumsFit_nil : SumsFit [] := by decide

/-- One change of a table, after which its live files can be added up if its pointer has moved. -/
theorem Db.Fit.change (h : db.Fit) (hcons : db'.Consistent)
    (hch : TableChange steady next (db.slice k) (db'.slice k)) (hr' : db'.tables.row k = some r')
    (hlive : r'.isDeleted = false)
    (hmoved : ∀ r, db.tables.row k = some r → r'.currentSnapshotId ≠ r.currentSnapshotId →
      SumsFit (db'.partitionsAt k r'.currentSnapshotId)) (n : ℕ) :
    SumsFit (db'.partitionsAt k n) := by
  cases hr : db.tables.row k with
  | none =>
    rw [Db.partitionsAt_eq_nil fun p => by rw [hch.of_none hr hr']; rfl]
    exact sumsFit_nil
  | some r =>
    have hbefore : r'.currentSnapshotId = r.currentSnapshotId ∨ n < r'.currentSnapshotId →
        SumsFit (db'.partitionsAt k n) := by
      intro hn
      have hr₀ : r.isDeleted = false := by
        by_contra hd
        rw [hch.deleted hr hr' (by simpa using hd)] at hlive
        cases hlive
      rw [Db.partitionsAt_congr (hch.visible hr hr' hn)]
      exact h k r hr hr₀ n
    by_cases hcur : r'.currentSnapshotId = r.currentSnapshotId
    · exact hbefore (.inl hcur)
    · rcases Nat.lt_or_ge n r'.currentSnapshotId with hn | hn
      · exact hbefore (.inr hn)
      · -- from the new snapshot on, the live files are listed
        rw [← hcons.partitionsAt_min hr', Nat.min_eq_right hn]
        exact hmoved r hr hcur

/-- A step keeps it that the files can be added up, if the `COMMIT`s leave files that can. -/
theorem Reachable.fit_step (hc : policy.Clean) (h : Reachable pg policy c)
    (hs : Step (server pg policy) c e c') (hφ : CommitsFit c.world e c'.state)
    (hfit : c.state.db.Fit) : c'.state.db.Fit := by
  intro k r' hr' hlive n
  have hp := h.promise hs
  have hcons := (h.step hs).inv.consistent hc
  rcases hp.writes hc k with hsame | ⟨i, -, hw⟩
  · have hr : c.state.db.tables.row k = some r' := (congrArg Slice.table hsame).symm.trans hr'
    rw [Db.partitionsAt_congr (congrArg (Slice.visible · n) hsame)]
    exact hfit k r' hr hlive n
  · refine hfit.change hcons hw.change hr' hlive (fun r hr hmoved => ?_) n
    rcases h.retitled hs with hkept | hcommit
    · refine absurd ?_ hmoved
      rw [hkept.tables k r r' hr hr']
    · exact hφ hcommit k r' hr' hlive

/-- In the states of a run all sums are exact if and only if each `COMMIT` leaves live files that can
be added up. -/
theorem sums_exact_iff (hc : policy.Clean) :
    ReachedBy pg policy (fun _ _ s => AllExact s) c ↔ ReachedBy pg policy CommitsFit c := by
  constructor
  · intro h
    refine h.imp fun {d d' e} hd hs hall _ k r hr hlive => ?_
    have hcons := (hd.step hs).inv.consistent hc
    have hf : d'.state.db.find r.tableName = some (k, r) :=
      (Db.find_eq_some_iff hcons.unique).mpr ⟨hr, by simp [TableRec.named, hlive]⟩
    have hmax := ((hcons.wellFormed k).current r hr).2
    refine exactTotals_iff.mp (hall r.tableName r.currentSnapshotId _ ?_)
    rw [Db.queryPartitions, if_neg (not_le.mpr hmax), hf, Option.map_some]
  · intro h
    have hempty : Db.empty.Fit := by
      intro k r hr
      cases hr
    obtain ⟨-, hfit⟩ := h.keeps hempty fun hd hs hφ hfit => hd.fit_step hc hs hφ hfit
    refine hfit.imp fun {d d' e} _ _ hfit t n parts hq => ?_
    rw [Db.queryPartitions] at hq
    split at hq
    · cases hq
    · obtain ⟨⟨k, r⟩, hf, rfl⟩ := Option.map_eq_some_iff.mp hq
      obtain ⟨hr, hname⟩ := Db.row_of_find hf
      exact exactTotals_iff.mpr (hfit k r hr (Db.named_iff.mp hname).2 n)

/-- The live files of every table can be added up, as a check. -/
def Server.fits (s : Server) : Bool :=
  (List.range s.db.tables.next).all fun k => (s.db.tables.row k).all fun r =>
    r.isDeleted || decide (SumsFit (s.db.partitionsAt k r.currentSnapshotId))

theorem commitsFit_of_fits {w : Moment} {s : Server} (h : s.fits = true) : CommitsFit w e s := by
  intro _ k r hr hlive
  have := List.all_eq_true.mp h k (List.mem_range.mpr (Rows.born hr).2)
  simpa [hr, hlive] using this

/-- A table with two files. -/
theorem sums_exact_of_two_files : ∃ c : ServerConfig,
    (c.state.db.queryPartitions "t" 1).map addTotals = some (some (2, 2)) ∧
      ReachedBy .plain .clean (fun _ _ s => AllExact s) c := by
  obtain ⟨c, hr, hp⟩ := System.run_of_check (server .plain .clean) (c := .initial freshServer)
    (serve 0 (.createTable "t" "\x7b\x7d" "" []) 5 ++ serve 1 (.commitSnapshot "t"
      [samplePartition "a" "f", samplePartition "b" "g"] [] 0 "") 15)
    (p := fun c => decide ((c.state.db.queryPartitions "t" 1).map addTotals = some (some (2, 2))) &&
      c.world.moments.all fun u => u.now.fits) (by decide +kernel)
  simp only [Bool.and_eq_true, decide_eq_true_eq] at hp
  obtain ⟨hq, hfits⟩ := hp
  have h : ReachedBy .plain .clean (fun _ _ s => s.fits = true) c :=
    .of_states (started_fresh .empty) hr fun u hu => List.all_eq_true.mp hfits u hu.mem_moments
  exact ⟨c, hq, (sums_exact_iff Policy.clean_clean).mpr (h.imp fun _ _ => commitsFit_of_fits)⟩

/-- A commit of two files with the greatest number of rows. -/
theorem sums_not_exact : ¬ ∀ (pg : Postgres) (policy : Policy) (c : ServerConfig),
    Reachable pg policy c → AllExact c.state := by
  intro hall
  let huge (key : String) : PartitionInfo := { samplePartition key key with rowCount := 2 ^ 63 - 1 }
  let overflows (parts : List PartitionRow) : Bool := (addTotals parts).isNone
  obtain ⟨c, h, hp⟩ := @reachable_of_check .plain .clean
    (serve 0 (.createTable "t" "\x7b\x7d" "" []) 5 ++
      serve 1 (.commitSnapshot "t" [huge "a", huge "b"] [] 0 "") 15)
    (fun c => (c.state.db.queryPartitions "t" 1).any overflows) (by decide +kernel)
  simp only [Option.any_eq_true] at hp
  obtain ⟨parts, hq, hover⟩ := hp
  have hexact := (hall .plain .clean c h "t" 1 parts hq).totals
  simp [overflows, hexact] at hover

end IceLog
