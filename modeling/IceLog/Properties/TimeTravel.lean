import IceLog.Properties.Snapshots

/-! What is read at a given snapshot, at different times. -/
namespace IceLog

open Interleaved Serial

variable {pg : Postgres} {policy : Policy} {c c' : ServerConfig} {i j : ℕ} {t : String} {s k : ℕ}
  {u v w : Moment} {r : TableRec} {x : Reply}

/-- A request for a snapshot that the table has reads that snapshot. -/
theorem Reachable.standsFor (h : Reachable pg policy c) (hc : policy.Clean)
    (hf : u.now.db.find t = some (k, r)) (hs : 1 ≤ s) (hs' : s ≤ r.currentSnapshotId)
    (hst : Stays t u c.world) : StandsFor t s s u c.world := by
  intro m m' hum hmm' hmw
  obtain ⟨r', hf'⟩ := hst u m' .refl (hum.trans hmm') hmw k r hf
  have hle := (h.evolves hc (hum.trans hmm') hmw).current k r r' (Db.row_of_find hf).1
    (Db.row_of_find hf').1
  rw [IceLog.standsFor, if_neg (by omega), Db.current_of_find hf']
  omega

/-- A listing of a snapshot that the table had at `u` lists what was visible then. -/
theorem Reachable.listed_again {α : Type} {f : Option (List PartitionRow) → α} {b : Bool} {x : α}
    (h : Reachable pg policy c) (hc : policy.Clean) (hl : policy.Lists) (hu : u.Before c.world)
    (hf : u.now.db.find t = some (k, r)) (hs : 1 ≤ s) (hs' : s ≤ r.currentSnapshotId)
    (hst : Stays t u c.world) (hno : b = true → ¬ Stale t u)
    (hx : Listed policy t s f b u x w) (hw : w.Before c.world) :
    x = f (some (u.now.db.partitionsAt k s)) := by
  have hlive : ∀ m : Moment, u.Before m → m.Before c.world →
      ∃ r', m.now.db.find t = some (k, r') := fun m hm hm' => hst _ m .refl hm hm' k r hf
  have hsettled : b = true → Settled t u c.world := fun hb =>
    h.settled hc (hno hb) fun m hm hm' => by
      obtain ⟨r', hf'⟩ := hlive m hm hm'
      simp [hf']
  obtain ⟨n, m, hres, hum, hmw, rfl⟩ :=
    h.listed_at hc hl hst (h.standsFor hc hf hs hs' hst) hsettled hx hw
  obtain ⟨r', hf'⟩ := hlive m hum (hmw.trans hw)
  obtain ⟨r'', hf''⟩ := hlive c.world hu .refl
  have hfits : s < maxBigint :=
    hs'.trans_lt ((((h.invAt hu).consistent hc).wellFormed k).current r (Db.row_of_find hf).1).2
  cases hres with
  | given =>
    rw [if_neg (Nat.not_le_of_lt hfits), hf', Option.map_some,
      (h.evolves hc hu .refl).partitionsAt (Db.row_of_find hf).1 (Db.row_of_find hf'').1 (.inl hs')]
  | counter h0 | current h0 => omega

/-- In a state in which no table is being altered or dropped, what can be read at a snapshot of a
table is read there as long as the table has its name. -/
theorem time_travel_immutable (hc : policy.Clean) (hl : policy.Lists) (h : Reachable pg policy c)
    (hq : ∀ j q, c.Running j q → q.alters = false) (hf : c.state.db.find t = some (k, r))
    (hs : 1 ≤ s) (hs' : s ≤ r.currentSnapshotId) (hr : Run (server pg policy) c c')
    (hst : Stays t c.world c'.world) (hi : c.thread i = none) :
    (c'.Returned i (.partitions t s) x → x = .rows (some (c.state.db.partitionsAt k s))) ∧
      ∀ pageSize token, pageSize ≤ 0 → c'.Returned i (.getPartitions t s pageSize token) x →
        x = listing t pageSize (some (c.state.db.partitionsAt k s)) := by
  have hno := fun _ : true = true => h.not_stale (t := t) hc hq
  constructor
  · intro hx
    obtain ⟨u, hcu, -, -, -, rows, rfl, hlisted⟩ := h.served hr hi hx
    exact congrArg Reply.rows ((h.run hr).listed_again hc hl hr.before hf hs hs' hst hno
      (hlisted.since hcu) .refl)
  · intro pageSize token hp hx
    obtain ⟨u, hcu, -, -, -, rows, rfl, hlists⟩ := h.served hr hi hx
    rw [Lists, if_neg (by omega)] at hlists
    exact congrArg (listing t pageSize) ((h.run hr).listed_again hc hl hr.before hf hs hs' hst hno
      (hlists.since hcu) .refl)

/-! Reads of one transaction. -/

/-- The history is not shorter than that of `u`. -/
def since (u : Moment) (m : Moment) : Bool := decide (u.past.length ≤ m.past.length)

theorem since_of_before (h : u.Before v) : since u v = true := by
  simpa [since] using h.length_le

/-- The first snapshot is read before and after it is replaced. -/
theorem time_travel_immutable_after_commit : ∃ c c' : ServerConfig, c.state.db.current "t" = 1 ∧
    c'.state.db.current "t" = 2 ∧ (∃ x, c'.Returned 4 (.partitions "t" 1) x ∧
      x = .rows (some (c.state.db.partitionsAt 1 1))) := by
  let sys := server .plain .flawless
  let later (c : ServerConfig) := sys.moves c
    (serve 2 (.partitions "t" 1) 8 ++
      serve 3 (.commitSnapshot "t" [samplePartition "b" "g"] ["a"] 1 "overwrite") 15 ++
      serve 4 (.partitions "t" 1) 8)
  let read (c c' : ServerConfig) : Bool := quiet (since c.world) "t" 1 c'.world &&
    decide (c'.state.db.current "t" = 2) &&
    (c'.reply 4).any fun y => decide (y.1 = .partitions "t" 1)
  let ready (c : ServerConfig) : Bool := unaltered c.world &&
    decide (c.state.db.current "t" = 1) &&
    (c.state.db.find "t").any (fun p => decide (p.1 = 1 ∧ 1 ≤ p.2.currentSnapshotId)) &&
    (c.thread 4).isNone
  obtain ⟨c, h, hp⟩ := @reachable_of_check .plain .flawless
    (serve 0 (.createTable "t" "\x7b\x7d" "" []) 5 ++
      serve 1 (.commitSnapshot "t" [samplePartition "a" "f"] [] 0 "") 13)
    (fun c => ready c && (later c).any (read c)) (by decide +kernel)
  simp only [ready, read, Bool.and_eq_true, Option.any_eq_true, decide_eq_true_eq,
    Option.isNone_iff_eq_none] at hp
  obtain ⟨⟨⟨⟨hno, hcur⟩, ⟨k, r⟩, hf, rfl, hle⟩, hi⟩, c', hc', ⟨hst, hcur'⟩, ⟨q, x⟩, hx, rfl⟩ := hp
  have hx := Config.returned_iff.mpr hx
  refine ⟨c, c', hcur, hcur', x, hx, (time_travel_immutable Policy.flawless_clean
    Policy.flawless_flawless.lists h (h.unaltered hno) hf (by decide) hle
    (System.run_of_moves hc') (stays_of_quiet hst fun _ => since_of_before) hi).1 hx⟩

/-- The transaction `x` has not been asked to commit or abort. -/
def unended (x : ℕ) (w : Moment) : Bool := w.past.all fun p => match p.2 with
  | .call _ q => decide (q ≠ .commitTransaction x ∧ q ≠ .abortTransaction x)
  | _ => true

end IceLog
