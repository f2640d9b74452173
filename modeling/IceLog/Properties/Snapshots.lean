import IceLog.Properties.Metadata
import IceLog.Server.TransactionSteps

/-! What a request reads at a snapshot while other requests run. -/
namespace IceLog

open Interleaved Serial

variable {pg : Postgres} {policy : Policy} {c c' : ServerConfig} {j : ℕ} {q : Request} {t : String}
  {s n e id : ℕ} {u v w m m' : Moment} {db : Db} {r : TableRec}

/-- The snapshot at which a latest read is evaluated, for the counter and the current snapshot of
the table. -/
def latest (counter current : ℕ) : ℕ := if counter = 0 then current else min counter current

/-- The snapshot of a table that a request for `s` reads, 0 being the latest one. -/
def standsFor (s counter current : ℕ) : ℕ := if s = 0 then latest counter current else min s current

/-- From `u` to `w`, a request for `s` reads the snapshot `e` of the table. -/
def StandsFor (t : String) (s e : ℕ) (u w : Moment) : Prop :=
  ∀ m m' : Moment, u.Before m → m.Before m' → m'.Before w →
    standsFor s m.now.mvcc.latestCommittedSnapshot (m'.now.db.current t) = e

/-- Beyond the current snapshot nothing more is visible. -/
theorem Db.Consistent.partitionsAt_min (h : db.Consistent) (hr : db.tables.row id = some r) :
    db.partitionsAt id (min n r.currentSnapshotId) = db.partitionsAt id n := by
  refine Rows.select_congr fun k => ?_
  cases hx : db.partitions.row k with
  | none => rfl
  | some x =>
    by_cases hid : x.tableId = id
    · have hw := h.wellFormed id
      have hslice : (db.slice id).partitions k = some x := slice_partitions.mpr ⟨hx, hid⟩
      have hle : ∀ n, ((db.slice id).snapshots n).isSome = true → n ≤ r.currentSnapshotId := by
        intro n hn
        obtain ⟨y, hy⟩ := Option.isSome_iff_exists.mp hn
        exact (hw.snapshots r n y hr hy).2
      have hs := hle _ (hw.stored k x hslice)
      have hv : x.visibleAt (min n r.currentSnapshotId) = x.visibleAt n := by
        simp only [PartitionRec.visibleAt, Nat.le_min, hs, and_true]
        cases hd : x.deletedSnapshotId with
        | none => rfl
        | some d =>
          have hdle := hle _ (hw.tombstoned k x d hslice hd).1
          have hmin : min n r.currentSnapshotId < d ↔ n < d := by omega
          simp only [Option.any_some, decide_eq_decide.mpr hmin]
      simp [hv]
    · simp [hid]

/-- A listing that nothing disturbs lists what is visible in the end at the snapshot that was
asked for. -/
theorem Reachable.listed_at {α : Type} {f : Option (List PartitionRow) → α} {b : Bool} {x : α}
    (h : Reachable pg policy c) (hc : policy.Clean) (hl : policy.Lists)
    (hst : Stays t u c.world) (he : StandsFor t s e u c.world)
    (hset : b = true → Settled t u c.world)
    (hx : Listed policy t s f b u x w) (hw : w.Before c.world) :
    ∃ n m, Resolved policy t s u n m ∧ u.Before m ∧ m.Before w ∧
      x = f (if maxBigint ≤ n then none
        else (m.now.db.find t).map fun p => c.state.db.partitionsAt p.1 e) := by
  obtain ⟨n, m, hres, hum, hmw, hx⟩ := hx
  have hmc := hmw.trans hw
  refine ⟨n, m, hres, hum, hmw, ?_⟩
  have hquery : x = f (m.now.db.queryPartitions t n) := by
    rcases hx hc with hx | ⟨-, hno⟩ | ⟨hb, rows, -, hstale⟩
    · exact hx
    · exact absurd hl hno
    · exact absurd hstale (hset hb m hum hmc)
  rw [hquery, Db.queryPartitions]
  congr 1
  split
  · rfl
  · cases hf : m.now.db.find t with
    | none => rfl
    | some p =>
      obtain ⟨id, r⟩ := p
      obtain ⟨r', hf'⟩ := hst m c.world hum hmc .refl id r hf
      have hcons := (h.invAt hmc).consistent hc
      have hmin := hcons.partitionsAt_min (n := n) (Db.row_of_find hf).1
      -- what was resolved is the snapshot `e`, which the table then had
      have hview : m.now.db.partitionsAt id n = m.now.db.partitionsAt id e ∧
          e ≤ r.currentSnapshotId := by
        cases hres with
        | given h0 =>
          have hstands := he m m hum .refl hmc
          rw [standsFor, if_neg h0, Db.current_of_find hf] at hstands
          rw [← hstands]
          exact ⟨hmin.symm, Nat.min_le_right _ _⟩
        | @counter v _ h0 huv hvm hne =>
          have hstands := he v m huv hvm hmc
          rw [standsFor, if_pos h0, latest, if_neg hne, Db.current_of_find hf] at hstands
          rw [← hstands]
          exact ⟨hmin.symm, Nat.min_le_right _ _⟩
        | @current v v' _ _ h0 huv hvv' hv'm hz hn =>
          rcases hn hc with hn | ⟨-, hno⟩
          · have hstands := he v v' huv hvv' (hv'm.trans hmc)
            rw [standsFor, if_pos h0, latest, if_pos hz, ← hn] at hstands
            subst hstands
            refine ⟨rfl, hn ▸ ?_⟩
            cases hf₀ : v'.now.db.find t with
            | none => simp [Db.current, hf₀]
            | some p =>
              obtain ⟨id₀, r₀⟩ := p
              obtain ⟨r₁, hf₁⟩ := hst v' m (huv.trans hvv') hv'm hmc id₀ r₀ hf₀
              rw [hf] at hf₁
              cases hf₁
              rw [Db.current_of_find hf₀]
              exact (h.evolves hc hv'm hmc).current id r₀ r (Db.row_of_find hf₀).1
                (Db.row_of_find hf).1
          · exact absurd hl hno
      have hev := (h.evolves hc hmc .refl).partitionsAt (Db.row_of_find hf).1
        (Db.row_of_find hf').1 (.inl hview.2)
      simp only [Option.map_some]
      rw [hview.1, hev]

/-! Requests that take tables off their names. -/

/-- `AlterTable` and `DropTable`. -/
def Request.alters : Request → Bool
  | .alterTable .. | .dropTable .. => true
  | _ => false

theorem Request.Detaches.alters (h : q.Detaches t) : q.alters = true := by
  cases q with
  | alterTable | dropTable => rfl
  | _ => cases h

/-- Who has yet to drop entries of the cache is still running. -/
theorem Reachable.running_of_owes (h : Reachable pg policy c) (hc : policy.Clean)
    (ho : Owes c.world j q t) : c.Running j q := by
  obtain ⟨s, a, r, hm⟩ := ho.acted
  obtain ⟨⟨q', p⟩, hj, rfl⟩ := h.traced.request j q a r s hm
  obtain ⟨u, -, -, -, hsafe⟩ := h.good.safe j _ hj
  cases p with
  | ret x =>
    have hown : Own policy j q' {} [] c.world := (hsafe _ .refl).1
    exact absurd (hown.debts hc q' t ho).2 (by simp)
  | throw =>
    have hown : Own policy j q' {} [] c.world := hsafe _ .refl
    exact absurd (hown.debts hc q' t ho).2 (by simp)
  | act a k => exact ⟨a, k, hj⟩

/-- While the table has its name, no new request takes it off. -/
theorem Reachable.settled (h : Reachable pg policy c) (hc : policy.Clean)
    (hno : ¬ Stale t u)
    (hlive : ∀ m : Moment, u.Before m → m.Before c.world → (m.now.db.find t).isSome) :
    Settled t u c.world := by
  intro m hum hm
  refine (h.lift (K := fun v m => v.Before m ∧ (u.Before v → ¬ Stale t v → ¬ Stale t m))
    (fun _ => ⟨.refl, fun _ => id⟩)
    (fun h h' => ⟨h.1.trans h'.1, fun hb hs => h'.2 (hb.trans h.1) (h.2 hb hs)⟩)
    (fun {d d' e} hd hs hb => ?_) hum hm).2 .refl hno
  have hbefore : d.world.Before d'.world := hs.world_eq ▸ World.before_next ..
  refine ⟨hbefore, fun hud hnd => ?_⟩
  rintro ⟨j, q, ho, hq⟩
  rw [hs.world_eq] at ho
  rcases (hd.promise hs).debts hc j q t ho with ho | ⟨-, hgone⟩
  · exact hnd ⟨j, q, ho, hq⟩
  · have hsome : (d'.state.db.find t).isSome := hlive d'.world (hud.trans hbefore) hb
    rw [hgone hq] at hsome
    cases hsome

/-- Where no table is being altered or dropped, no entry of the cache is stale. -/
theorem Reachable.not_stale (h : Reachable pg policy c) (hc : policy.Clean)
    (hq : ∀ j q, c.Running j q → q.alters = false) : ¬ Stale t c.world := by
  rintro ⟨j, q, ho, hd⟩
  have := hq j q (h.running_of_owes hc ho)
  simp [hd.alters] at this

/-- No table has been altered or dropped so far. -/
def unaltered (w : Moment) : Bool := w.past.all fun p => match p.2 with
  | .call _ q => !q.alters
  | _ => true

theorem Reachable.unaltered (h : Reachable pg policy c) (hw : unaltered c.world = true) :
    ∀ j q, c.Running j q → q.alters = false := by
  rintro j q ⟨a, k, hj⟩
  obtain ⟨u, hu, ⟨v, -, rfl⟩, -⟩ := h.good.safe j _ hj
  simpa using List.all_eq_true.mp hw _ hu.mem_past

end IceLog
