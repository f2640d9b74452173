import IceLog.Properties.Storage

/-! Whether a `GetTableMetadata` describes one table at one snapshot. -/
namespace IceLog

open Interleaved Serial

variable {pg : Postgres} {policy : Policy} {c : ServerConfig} {i : ℕ} {t : String} {s n id : ℕ}
  {u v w m m' : Moment} {db : Db} {r : TableRec}

/-- The schema is that of a table which had the name during the request, and the partitions and
their totals are those of this table that are visible at the snapshot of the reply. -/
def ConsistentView (t : String) (x : TableMetadata) (u w : Moment) : Prop :=
  ∃ (m m' : Moment) (id : ℕ) (r : TableRec), u.Before m ∧ m.Before m' ∧ m'.Before w ∧
    m.now.db.find t = some (id, r) ∧ x = metadata (r.toRow id) x.currentSnapshotId
      (m'.now.db.partitionsAt id x.currentSnapshotId)

/-- From `u` to `w`, once the name stands for a table it stands for that table. -/
def Stays (t : String) (u w : Moment) : Prop :=
  ∀ m m' : Moment, u.Before m → m.Before m' → m'.Before w → ∀ id r,
    m.now.db.find t = some (id, r) → ∃ r', m'.now.db.find t = some (id, r')

/-- From `u` to `w`, no request has taken a table off the name and not yet dropped its cache
entries. -/
def Settled (t : String) (u w : Moment) : Prop :=
  ∀ m : Moment, u.Before m → m.Before w → ¬ Stale t m

/-- Neither the snapshot that is asked for nor the counter is too large for its column. -/
def Fits (s : ℕ) (u w : Moment) : Prop :=
  s < maxBigint ∧ ∀ m : Moment, u.Before m → m.Before w →
    m.now.mvcc.latestCommittedSnapshot < maxBigint

/-- From `u` to `w`, the table does not get its first snapshot. -/
def NoFirstCommit (t : String) (u w : Moment) : Prop :=
  ∀ m m' : Moment, u.Before m → m.Before m' → m'.Before w → m.now.db.current t = 0 →
    m'.now.db.current t = 0

/-- What other requests must not do to `t` between `u` and `w`. -/
structure Undisturbed (t : String) (s : ℕ) (u w : Moment) : Prop where
  stays : Stays t u w
  settled : Settled t u w
  fits : Fits s u w
  first : s ≠ 0 ∨ u.now.mvcc.latestCommittedSnapshot ≠ 0 ∨ NoFirstCommit t u w

/-- A table without snapshots has no partitions. -/
theorem Db.Consistent.partitionsAt_eq_nil (h : db.Consistent) (hr : db.tables.row id = some r)
    (h0 : r.currentSnapshotId = 0) : db.partitionsAt id n = [] := by
  rw [List.eq_nil_iff_forall_not_mem]
  intro p hp
  obtain ⟨k, x, hx, hb⟩ := Rows.mem_select.mp hp
  split at hb
  · rename_i hv
    simp only [Bool.and_eq_true, beq_iff_eq] at hv
    have hs := (h.wellFormed id).stored k x (slice_partitions.mpr ⟨hx, hv.1⟩)
    obtain ⟨y, hy⟩ := Option.isSome_iff_exists.mp hs
    have := (h.wellFormed id).snapshots r _ y hr hy
    omega
  · cases hb

theorem Db.current_of_find (h : db.find t = some (id, r)) :
    db.current t = r.currentSnapshotId := by
  simp [Db.current, h]

theorem Db.queryPartitions_of_find (h : db.find t = some (id, r)) (hn : n < maxBigint) :
    db.queryPartitions t n = some (db.partitionsAt id n) := by
  simp [Db.queryPartitions, h, Nat.not_le_of_lt hn]

/-- The thread has been called. -/
def called (i : ℕ) (m : Moment) : Bool :=
  m.past.any fun p => match p.2 with
    | .call j _ => j == i
    | _ => false

theorem called_of_before {q : Request} (hcall : CalledAt i q u) (hum : u.Before m) :
    called i m = true := by
  obtain ⟨v, -, rfl⟩ := hcall
  exact List.any_eq_true.mpr ⟨_, hum.mem_past, by simp⟩

/-- No action so far is one of a request that takes a table off the name. -/
def undetached (t : String) (m : Moment) : Bool :=
  m.past.all fun p => match p.2 with
    | .act _ q _ _ => !decide (q.Detaches t)
    | _ => true

theorem not_stale_of_undetached (h : undetached t m = true) : ¬ Stale t m := by
  rintro ⟨j, q, ho, hd⟩
  obtain ⟨s, a, r, hm⟩ := ho.acted
  have := List.all_eq_true.mp h _ hm
  simp [hd] at this

/-- At the moments of `when`, the name stands for the table `id`, and nothing is in the way. -/
def quiet (when : Moment → Bool) (t : String) (id : ℕ) (w : Moment) : Bool :=
  w.moments.all fun m => !when m || ((m.now.db.find t).map Prod.fst == some id &&
    decide (m.now.mvcc.latestCommittedSnapshot < maxBigint) && undetached t m)

theorem quiet_at {when : Moment → Bool} (h : quiet when t id w = true) (hm : when m = true)
    (hmw : m.Before w) : (∃ r, m.now.db.find t = some (id, r)) ∧
      m.now.mvcc.latestCommittedSnapshot < maxBigint ∧ ¬ Stale t m := by
  have := List.all_eq_true.mp h m hmw.mem_moments
  simp only [hm, Bool.not_true, Bool.false_or, Bool.and_eq_true, beq_iff_eq,
    decide_eq_true_eq] at this
  obtain ⟨⟨_, r⟩, hf, rfl⟩ := Option.map_eq_some_iff.mp this.1.1
  exact ⟨⟨r, hf⟩, this.1.2, not_stale_of_undetached this.2⟩

theorem stays_of_quiet {when : Moment → Bool} (h : quiet when t id w = true)
    (hwhen : ∀ m : Moment, u.Before m → when m = true) : Stays t u w := by
  intro m m' hum hmm' hmw id' r hf
  obtain ⟨r₀, hf₀⟩ := (quiet_at h (hwhen m hum) (hmm'.trans hmw)).1
  obtain ⟨r₁, hf₁⟩ := (quiet_at h (hwhen m' (hum.trans hmm')) hmw).1
  rw [hf] at hf₀
  cases hf₀
  exact ⟨r₁, hf₁⟩

theorem fits_of_quiet {when : Moment → Bool} (h : quiet when t id w = true)
    (hwhen : ∀ m : Moment, u.Before m → when m = true) (hs : s < maxBigint) : Fits s u w :=
  ⟨hs, fun m hum hmw => (quiet_at h (hwhen m hum) hmw).2.1⟩

theorem undisturbed_of_quiet {q : Request} (hcall : CalledAt i q u)
    (h : quiet (called i) t id w = true) (hs : s ≠ 0) (hfits : s < maxBigint) :
    Undisturbed t s u w := by
  have hwhen := fun m => @called_of_before i u m q hcall
  exact ⟨stays_of_quiet h hwhen, fun m hum hmw => (quiet_at h (hwhen m hum) hmw).2.2,
    fits_of_quiet h hwhen hfits, .inl hs⟩

/-- Visible at 0 is nothing. -/
theorem Db.Consistent.partitionsAt_zero (h : db.Consistent) : db.partitionsAt id 0 = [] := by
  rw [List.eq_nil_iff_forall_not_mem]
  intro p hp
  obtain ⟨k, x, hx, hb⟩ := Rows.mem_select.mp hp
  split at hb
  · rename_i hv
    simp only [Bool.and_eq_true, beq_iff_eq, PartitionRec.visibleAt, decide_eq_true_eq] at hv
    have hs := (h.wellFormed id).stored k x (slice_partitions.mpr ⟨hx, hv.1⟩)
    obtain ⟨y, hy⟩ := Option.isSome_iff_exists.mp hs
    have := (Rows.born (slice_snapshots.mp hy).1).1
    omega
  · cases hb

end IceLog
