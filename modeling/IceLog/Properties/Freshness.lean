import IceLog.Properties.TimeTravel

/-! Whether those who read the latest snapshot of a table see its last commit. -/
namespace IceLog

open Interleaved Serial

variable {pg : Postgres} {policy : Policy} {c c' : ServerConfig} {b i : ℕ} {q : Request} {t : String}
  {parent n k : ℕ} {u v w : Moment} {x : PartitionRegistry.CommitResult} {y : Reply}

/-- `COMMIT` is carried out, even if the answer may not arrive. -/
def Policy.CarriesOut (policy : Policy) : Prop :=
  ∀ q c a, policy.allows q (.exec c .commit) (.answer a) = true → a.carriedOut = true

theorem Policy.flawless_carriesOut : Policy.flawless.CarriesOut := by
  intro q c a ha
  cases Policy.flawless_flawless q _ _ ha (.inl ⟨c, _, rfl⟩)
  rfl

/-- At `v`, thread `b` has just made `n` the current snapshot of the table `k` with the name `t`. -/
structure CommitsAt (b : ℕ) (t : String) (k n : ℕ) (v : Moment) : Prop where
  acted : ∃ u, Acted b u v
  found : ∃ r, v.now.db.find t = some (k, r) ∧ r.currentSnapshotId = n

/-- From `v` to `w`, the table has its name and no other commit makes a snapshot of it current. -/
structure NoCommit (t : String) (v w : Moment) : Prop where
  stays : Stays t v w
  current : ∀ m : Moment, v.Before m → m.Before w → m.now.db.current t = v.now.db.current t

/-- From `u` to `w`, the counter is 0 or not behind the snapshot `n`. -/
def Ahead (n : ℕ) (u w : Moment) : Prop := ∀ m : Moment, u.Before m → m.Before w →
  m.now.mvcc.latestCommittedSnapshot = 0 ∨
    n ≤ m.now.mvcc.latestCommittedSnapshot ∧ m.now.mvcc.latestCommittedSnapshot < maxBigint

/-- What a request for the latest partitions of `t` returns if these are `L`. -/
def Request.latestReply (t : String) (L : List PartitionRow) : Request → Option Reply
  | partitions u s => if u = t ∧ s = 0 then some (.rows (some L)) else none
  | partitionsPaged u s pageSize last =>
    if u = t ∧ s = 0 then some (.rows (some (page (pageLimit pageSize) last L))) else none
  | stats u => if u = t then some (.partitionStats (PartitionRegistry.sumStats L)) else none
  | _ => none

/-- An acknowledged commit has taken effect. -/
theorem Reachable.commitsAt (h : Reachable pg policy c) (hc : policy.Clean)
    (hcm : policy.CarriesOut) (hb : c.Returned b q (.snapshot x)) (hq : q.parent = some (t, parent))
    (hok : x.success = true) : ∃ v k, v.Before c.world ∧ CommitsAt b t k x.snapshotId v := by
  obtain ⟨u, -, -, ha, hserved⟩ := h.replied hb
  have key : ∀ {op news dels}, t ∈ q.tableNames →
      CommitAnswer pg policy true b q t parent op news dels u x c.world →
      ∃ v k, v.Before c.world ∧ CommitsAt b t k x.snapshotId v := by
    intro op news dels ht hx
    have ht := hc q ha t ht
    cases hx with
    | failed hf => simp [hok] at hf
    | dropped _ _ _ hd =>
      obtain ⟨_, a, ha, hno⟩ := hd
      rw [hcm _ _ _ ha] at hno
      cases hno
    | done _ he =>
      obtain ⟨v, v', -, hact, hw, -, he⟩ := he
      obtain ⟨k, r, hf, -, -, ⟨r', y, hr', -, hv'⟩, -⟩ :=
        (he (.of_clean (fun _ => ht) (by simp) hc)).table
      rw [cStr_of_nulFree ht] at hf
      obtain ⟨hrow, hnamed⟩ := Db.row_of_find hf
      have hsame : r' = r := Option.some.inj (hr'.symm.trans hrow)
      subst hsame
      have hfind : v'.now.db.find t = some (k, { r' with currentSnapshotId := x.snapshotId }) :=
        (Db.find_eq_some_iff ((h.invAt hw).consistent hc).unique).mpr
          ⟨congrArg Slice.table hv', hnamed⟩
      exact ⟨v', k, hw, ⟨v, hact⟩, _, hfind, rfl⟩
  cases q with
  | commitSnapshot t' news dels parent' op =>
    cases hq
    obtain ⟨r, hr, hserved⟩ := hserved
    cases hr
    exact key (by simp [Request.tableNames]) hserved
  | commit t' parent' op news dels =>
    cases hq
    obtain ⟨r, hr, hserved⟩ := hserved
    cases hr
    exact key (by simp [Request.tableNames]) hserved
  | _ => cases hq

theorem latest_eq {counter current : ℕ}
    (h : counter = 0 ∨ current ≤ counter) : latest counter current = current := by
  unfold latest
  split
  · rfl
  · omega

/-- Once `n` is the current snapshot of `t`, it stays so. -/
def keepsCurrent (t : String) (n : ℕ) (w : Moment) : Bool :=
  w.moments.all fun m => w.moments.all fun m' => !(since m m' && m.now.db.current t == n) ||
    m'.now.db.current t == n

theorem noCommit_of_check {id : ℕ} (hk : keepsCurrent t n w = true)
    (hq : quiet (fun m => m.now.db.current t == n) t id w = true)
    (hv : v.now.db.current t = n) : NoCommit t v w := by
  have hcurrent : ∀ m : Moment, v.Before m → m.Before w → m.now.db.current t = n := by
    intro m hm hmw
    have := List.all_eq_true.mp (List.all_eq_true.mp hk v (hm.trans hmw).mem_moments) m
      hmw.mem_moments
    simpa [since_of_before hm, hv] using this
  refine ⟨fun m m' hm hmm' hm' => ?_, fun m hm hm' => (hcurrent m hm hm').trans hv.symm⟩
  intro id' r hf
  have hw := hcurrent m hm (hmm'.trans hm')
  have hw' := hcurrent m' (hm.trans hmm') hm'
  obtain ⟨r₀, hf₀⟩ := (quiet_at hq (by simpa using hw) (hmm'.trans hm')).1
  obtain ⟨r₁, hf₁⟩ := (quiet_at hq (by simpa using hw') hm').1
  rw [hf] at hf₀
  cases hf₀
  exact ⟨r₁, hf₁⟩

end IceLog
