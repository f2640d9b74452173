import IceLog.Server.Frames

/-! Snapshots are dated by the start of their transaction. Where transactions that follow each other
start at different times, the dates of the snapshots of a table grow with their ids. -/
namespace IceLog

open Interleaved Serial

variable {pg : Postgres} {policy : Policy} {b b' : Backend} {conn : Conn} {sql : Sql} {k : Command}
  {ans : Answer} {now u n : ℕ} {db : Db} {p p' : Changes}

/-- The snapshots that are written are dated `now`. -/
def Changes.Dated (now : ℕ) (p : Changes) : Prop :=
  ∀ n x, p.snapshots n = some (some x) → x.committedAt = now

theorem Changes.dated_of_none (h : p.snapshots = Patch.none) : p.Dated now := by
  intro n x hx
  simp [h] at hx

theorem Changes.Dated.andThen (hp : p.Dated now) (hp' : p'.Dated now) :
    (p.andThen p').Dated now := by
  intro n x hx
  simp only [Changes.andThen, Patch.andThen, Option.or_eq_some_iff] at hx
  rcases hx with hx | ⟨-, hx⟩
  · exact hp' n x hx
  · exact hp n x hx

/-- The statement stores a snapshot. -/
def Sql.storesSnapshot : Sql → Bool
  | insertSnapshot .. => true
  | _ => false

namespace Sql

theorem run_snapshot {res : PGresult sql.Row} {x : SnapshotRec}
    (h : sql.run pg now db = some (res, p)) (hx : p.snapshots n = some (some x)) :
    sql.storesSnapshot = true ∧ x.committedAt = now := by
  cases sql with
  | insertSnapshot tableId parent operation added deleted =>
    simp only [run] at h
    split at h
    · cases h
    · cases h
      obtain ⟨-, hx⟩ := Patch.write_eq_some.mp hx
      cases hx
      exact ⟨rfl, rfl⟩
  | deleteSnapshots tableId =>
    simp only [run] at h
    split at h
    · cases h
    · cases h
      dsimp only at hx
      obtain ⟨_, -, -, hx⟩ := Rows.deleteWhere_eq_some.mp hx
      cases hx
  | insertTable name schema spec properties =>
    simp only [run, Option.bind_eq_bind, Option.bind_eq_some_iff] at h
    obtain ⟨schema', -, props', -, h⟩ := h
    split at h
    · cases h
    · split at h <;> cases h <;> cases hx
  | updateSchema =>
    simp only [run, Option.bind_eq_bind, Option.bind_eq_some_iff] at h
    obtain ⟨x, -, h⟩ := h
    cases h
    cases hx
  | insertHistory | insertPartition | selectTables =>
    simp only [run, Option.bind_eq_bind, Option.bind_eq_some_iff] at h
    obtain ⟨x, -, h⟩ := h
    split at h <;> cases h
    cases hx
  | renameTable | deleteTable | selectPartitions | selectPartitionsPaged | markDeleted
  | selectSnapshot | updateCurrent | insertTransaction | updateStatus =>
    simp only [run] at h
    split at h <;> cases h
    cases hx
  | selectTableId | selectTable | deletePartitions | deleteHistory | softDelete | selectSnapshots
  | selectCurrent | selectHistoryAt | selectHistory =>
    simp only [run] at h
    cases h
    cases hx

theorem run_dated {res : PGresult sql.Row} (h : sql.run pg now db = some (res, p)) :
    p.Dated now := fun _ _ hx => (run_snapshot h hx).2

end Sql

namespace Backend

/-- The transaction on the connection, which has written the snapshot, is committed. -/
def Stores (b b' : Backend) (conn : Conn) (n : ℕ) (x : SnapshotRec) : Prop :=
  ∃ u p, b.session conn = .inTransaction u p ∧ (b'.session conn).Closed ∧
    b'.db = b.db.apply p ∧ p.snapshots n = some (some x)

/-- What a statement on the connection makes of its session and of the rows. -/
structure Turns (b b' : Backend) (conn : Conn) : Prop where
  others : ∀ d, d ≠ conn → b'.session d = b.session d
  /-- A transaction goes on, or has just begun. -/
  running : ∀ u p', b'.session conn = .inTransaction u p' →
    (∃ p, b.session conn = .inTransaction u p ∧ (p.Dated u → p'.Dated u)) ∨
      ((∀ t p, b.session conn ≠ .inTransaction t p) ∧ u = b.clock ∧ p' = {})
  rows : b.db.SameRows b'.db ∨ (b'.session conn).Closed

theorem exec_began {ok : Bool} (h : b.exec conn k ans = (ok, b'))
    (hu : b'.session conn = .inTransaction u p') : b.session conn = .inTransaction u p' ∨
      ((∀ t p, b.session conn ≠ .inTransaction t p) ∧ u = b.clock ∧ p' = {}) := by
  obtain rfl : (b.exec conn k ans).2 = b' := by rw [h]
  cases hs : b.session conn with
  | broken =>
    simp only [exec, hs] at hu
    cases hu
  | idle =>
    cases ans <;> cases k <;> simp only [exec, hs, setSession_self] at hu <;> cases hu
    exact .inr ⟨by simp, rfl, rfl⟩
  | inTransaction t p =>
    cases ans <;> cases k <;> simp only [exec, hs, setSession_self] at hu <;> cases hu
    exact .inl rfl
  | aborted =>
    cases ans <;> cases k <;> simp only [exec, hs, setSession_self] at hu <;> cases hu

theorem Controlled.closed {r : Bool} (h : Controlled b conn k ans r b') :
    b.db.SameRows b'.db ∨ (b'.session conn).Closed := by
  cases h with
  | moved hq => exact .inl hq.sameRows
  | committed _ _ ha =>
    rw [setSession_self]
    rcases ha with ⟨-, -, rfl⟩ | ⟨-, -, rfl⟩ <;> exact .inr trivial

theorem exec_turns {ok : Bool} (h : b.exec conn k ans = (ok, b')) : Turns b b' conn where
  others _ hd := (exec_cases h).session_of_ne hd
  running u p' hs := by
    rcases exec_began h hs with hs | hs
    · exact .inl ⟨p', hs, id⟩
    · exact .inr hs
  rows := (exec_cases h).closed

theorem Executed.turns {r : PGresult sql.Row} (h : Executed pg b conn sql ans r b') :
    Turns b b' conn := by
  cases h with
  | failed hf hq _ =>
    refine ⟨fun d hd => hq.session_of_ne hd, fun u p' hs => ?_, .inl hq.sameRows⟩
    rw [hq.session_self] at hs
    exact absurd hs (hf.not_inTransaction u p')
  | @committed _ _ p σ _ _ _ ha =>
    have hσ : σ.Closed := by rcases ha with ⟨-, -, rfl⟩ | ⟨-, -, rfl⟩ <;> trivial
    refine ⟨fun d hd => setSession_of_ne _ _ hd, fun u p' hs => ?_, .inr ?_⟩
    · rw [setSession_self] at hs
      rw [hs] at hσ
      exact hσ.elim
    · rw [setSession_self]
      exact hσ
  | @added u p p' _ _ hs hr _ =>
    refine ⟨fun d hd => setSession_of_ne _ _ hd, fun t p'' ht => ?_, .inl ?_⟩
    · rw [setSession_self] at ht
      cases ht
      exact .inl ⟨p, hs, fun hp => hp.andThen (Sql.run_dated hr)⟩
    · exact Db.sameRows_draw sql b.db

theorem Controlled.stores {r : Bool} {x : SnapshotRec} (h : Controlled b conn k ans r b')
    (hx : b'.db.snapshots.row n = some x) :
    b.db.snapshots.row n = some x ∨ k = .commit ∧ Stores b b' conn n x := by
  cases h with
  | moved hq =>
    rw [hq.sameRows.snapshots] at hx
    exact .inl hx
  | @committed t p _ σ hk hs ha =>
    rcases Rows.apply_row_eq_some hx with hw | ⟨-, hold⟩
    · refine .inr ⟨hk, t, p, hs, ?_, rfl, hw⟩
      rw [setSession_self]
      rcases ha with ⟨-, -, rfl⟩ | ⟨-, -, rfl⟩ <;> trivial
    · exact .inl hold

theorem Executed.stores {r : PGresult sql.Row} {x : SnapshotRec}
    (h : Executed pg b conn sql ans r b') (hs : sql.storesSnapshot = true → b.session conn ≠ .idle)
    (hx : b'.db.snapshots.row n = some x) : b.db.snapshots.row n = some x := by
  have hdraw : ∀ n, (sql.draw b.db).snapshots.row n = b.db.snapshots.row n :=
    fun n => congrFun (Db.sameRows_draw sql b.db).snapshots n
  cases h with
  | failed hf hq _ =>
    rw [hq.sameRows.snapshots] at hx
    exact hx
  | @committed _ _ p σ hi hr _ ha =>
    rcases Rows.apply_row_eq_some hx with hw | ⟨-, hold⟩
    · exact absurd hi (hs (Sql.run_snapshot hr hw).1)
    · exact (hdraw n).symm.trans hold
  | added => exact (hdraw n).symm.trans hx

end Backend

/-! The actions. -/

/-- The action is a statement on the connection. -/
def Act.Uses (conn : Conn) (a : Act) : Prop :=
  (∃ k, a = .exec conn k) ∨ ∃ sql, a = .execParams conn sql

section actions
variable {a : Act} {i : ℕ} {q : Request} {o : Outcome} {r : a.Result} {s s' : Server} {w : Moment}
  {x : SnapshotRec}

theorem perform_turns (h : Server.perform pg o i a s = some (r, s')) :
    (∃ conn, a.Uses conn ∧ s.backend.Turns s'.backend conn) ∨
      (s'.db = s.db ∧ ∀ conn t p, s'.backend.session conn = .inTransaction t p →
        s.backend.session conn = .inTransaction t p) := by
  cases perform_queried h with
  | exec hx => exact .inl ⟨_, .inl ⟨_, rfl⟩, Backend.exec_turns hx⟩
  | @execParams conn sql _ _ _ hx => exact .inl ⟨conn, .inr ⟨sql, rfl⟩, hx.turns⟩
  | silent _ _ hdb hsess => exact .inr ⟨hdb, hsess⟩

/-- A transaction that is open after an action was open before it, or has just begun. -/
theorem perform_running (h : Server.perform pg o i a s = some (r, s'))
    (hs : s'.backend.session conn = .inTransaction u p') :
    (∃ p, s.backend.session conn = .inTransaction u p ∧ (p.Dated u → p'.Dated u)) ∨
      ((∀ t p, s.backend.session conn ≠ .inTransaction t p) ∧ u = s.backend.clock ∧ p' = {} ∧
        a.Uses conn) := by
  rcases perform_turns h with ⟨conn', hu, ht⟩ | ⟨-, hsess⟩
  · by_cases hc : conn = conn'
    · subst hc
      rcases ht.running u p' hs with hr | ⟨hno, hclock, hp'⟩
      · exact .inl hr
      · exact .inr ⟨hno, hclock, hp', hu⟩
    · exact .inl ⟨p', by rw [← ht.others conn hc, hs], id⟩
  · exact .inl ⟨p', hsess _ _ _ hs, id⟩

/-- An action that changes rows leaves its connection outside of any transaction. -/
theorem perform_rows (h : Server.perform pg o i a s = some (r, s')) :
    s.db.SameRows s'.db ∨ ∃ conn, a.Uses conn ∧ (s'.backend.session conn).Closed := by
  rcases perform_turns h with ⟨conn, hu, ht⟩ | ⟨hdb, -⟩
  · exact ht.rows.imp_right fun hc => ⟨conn, hu, hc⟩
  · rw [hdb]
    exact .inl (.refl _)

/-- A snapshot is stored by the commit of its transaction. -/
theorem perform_stores (hn : ∀ conn sql, a = .execParams conn sql → sql.storesSnapshot = true →
      s.backend.session conn ≠ .idle) (h : Server.perform pg o i a s = some (r, s'))
    (hx : s'.db.snapshots.row n = some x) :
    s.db.snapshots.row n = some x ∨
      ∃ conn, a = .exec conn .commit ∧ s.backend.Stores s'.backend conn n x := by
  cases perform_queried h with
  | exec he =>
    rcases (Backend.exec_cases he).stores hx with hold | ⟨rfl, hst⟩
    · exact .inl hold
    · exact .inr ⟨_, rfl, hst⟩
  | @execParams conn sql _ _ _ hrun => exact .inl (hrun.stores (hn conn sql rfl) hx)
  | silent _ _ hdb =>
    rw [hdb] at hx
    exact .inl hx

theorem not_idle_of_needs {conn : Conn} {sql : Sql} (h : Needs policy i q (.execParams conn sql) w)
    (hs : sql.storesSnapshot = true) : w.now.backend.session conn ≠ .idle := by
  cases sql with
  | insertSnapshot => exact h.2
  | _ => cases hs

theorem holder_of_uses (hn : Needs policy i q a w) (hu : a.Uses conn) :
    w.now.holder conn = some i := by
  rcases hu with ⟨k, rfl⟩ | ⟨sql, rfl⟩ <;> exact hn.1

end actions

/-! Runs in which time goes on. -/

/-- The transactions that the step ends had these start times. -/
def Server.Ends (s s' : Server) (u : ℕ) : Prop :=
  ∃ conn p, s.backend.session conn = .inTransaction u p ∧ (s'.backend.session conn).Closed

/-- A transaction that the step begins has a later start time than any of `past`. -/
def Server.BeginsLater (past : ℕ → Prop) (s s' : Server) : Prop :=
  ∀ conn u p, s'.backend.session conn = .inTransaction u p →
    (∀ t p', s.backend.session conn ≠ .inTransaction t p') → ∀ t, past t → t < u

/-- The reachable states, as long as each transaction starts later than those that have ended before
it begins; `past` has the start times of these. -/
inductive Ticking (pg : Postgres) (policy : Policy) : (ℕ → Prop) → ServerConfig → Prop
  | start {s : Server} : Started .empty s → Ticking pg policy (fun _ => False) (Config.initial s)
  | restart {past : ℕ → Prop} {c : ServerConfig} {s : Server} : Ticking pg policy past c →
      Started c.state.db s → Ticking pg policy past (Config.initial s)
  | step {past : ℕ → Prop} {c c' : ServerConfig} {e : ServerEvent} : Ticking pg policy past c →
      Step (server pg policy) c e c' → c.state.BeginsLater past c'.state →
      Ticking pg policy (fun u => past u ∨ c.state.Ends c'.state u) c'

variable {past : ℕ → Prop} {c c' : ServerConfig} {e : ServerEvent}

theorem Ticking.reachable (h : Ticking pg policy past c) : Reachable pg policy c := by
  induction h with
  | start hs => exact .start hs
  | restart _ hs ih => exact .restart ih hs
  | step _ hs _ ih => exact .step ih hs

/-- A thread has at most one connection. -/
theorem Reachable.single (h : Reachable pg policy c) (j : ℕ) : ∀ conn conn',
    c.state.holder conn = some j → c.state.holder conn' = some j → conn = conn' := by
  induction h with
  | start hs | restart _ hs =>
    intro conn conn' hc
    cases (hs.holder conn).symm.trans hc
  | @step c c' e h hs ih =>
    by_cases he : e.actor = some j
    · cases hs with
      | call => exact ih
      | @act i q a k r s hi hx =>
        obtain rfl := Option.some.inj he
        obtain ⟨o, -, hx⟩ := hx
        refine single_of_perform (fun ha => ?_) hx ih
        subst ha
        exact h.needs hi
      | drift => cases he
    · have hk := (h.promise hs).keeps j he
      intro conn conn' hc hc'
      exact ih conn conn' ((hk.holder conn).mp hc) ((hk.holder conn').mp hc')

/-- No change of a table stores a snapshot, or it stores one with the newest id. -/
theorem TableChange.newest {steady : Prop} {next m : ℕ} {v v' : Slice} {x : SnapshotRec}
    (h : TableChange steady next v v') (hv : v.WellFormed m) (hx : v'.snapshots n = some x)
    (hn : v.snapshots n ≠ some x) : ∀ k y, v'.snapshots k = some y → k ≤ n := by
  cases h with
  | created | purged => cases hx
  | renamed | dropped | altered => exact absurd hx hn
  | @committed _ w r n' z hr hcur _ _ _ hg =>
    intro k y hy
    have hold : ∀ k y, v.snapshots k = some y → k < n' := fun k y hy =>
      (hv.snapshots r k y hr hy).2.trans_lt hcur
    change w.snapshots k = some y at hy
    change w.snapshots n = some x at hx
    rw [hg.snapshots] at hx hy
    simp only [Slice.insertSnapshot] at hx hy
    have hnew : n = n' := by
      by_contra hne
      rw [Function.update_of_ne hne] at hx
      exact hn hx
    by_cases hk : k = n'
    · omega
    · rw [Function.update_of_ne hk] at hy
      have := hold k y hy
      omega

/-- The dates in a state: `past` has those of the stored snapshots. -/
structure Timely (past : ℕ → Prop) (s : Server) : Prop where
  stored : ∀ n x, s.db.snapshots.row n = some x → past x.committedAt
  /-- The dates of the snapshots of one table grow. -/
  ordered : ∀ n m x y, s.db.snapshots.row n = some x → s.db.snapshots.row m = some y →
    x.tableId = y.tableId → n < m → x.committedAt < y.committedAt
  drafts : ∀ conn u p, s.backend.session conn = .inTransaction u p → p.Dated u
  /-- Who has the lock of a table has begun its transaction after its snapshots. -/
  locked : ∀ conn u p i id r n x, s.backend.session conn = .inTransaction u p →
    s.holder conn = some i → s.db.tables.row id = some r →
    (s.tableLocks r.tableName).writer = some i → s.db.snapshots.row n = some x →
    x.tableId = id → x.committedAt < u

theorem timely_started {s : Server} (hs : Started db s)
    (hst : ∀ n x, db.snapshots.row n = some x → past x.committedAt)
    (ho : ∀ n m x y, db.snapshots.row n = some x → db.snapshots.row m = some y →
      x.tableId = y.tableId → n < m → x.committedAt < y.committedAt) : Timely past s where
  stored := by
    rw [hs.db]
    exact hst
  ordered := by
    rw [hs.db]
    exact ho
  drafts conn u p h := by cases (hs.session conn).symm.trans h
  locked conn u p i id r n x h := by cases (hs.session conn).symm.trans h

section act
variable {a : Act} {i : ℕ} {q : Request} {o : Outcome} {r : a.Result} {s : Server} {x : SnapshotRec}

/-- A snapshot that an action stores is one of the table of the transaction it commits: it is dated
by its start and has the newest id of the table. -/
theorem Timely.stores (hc : policy.Clean) (h : Reachable pg policy c) (ht : Timely past c.state)
    (hn : Needs policy i q a c.world) (hp : Server.perform pg o i a c.state = some (r, s))
    (hx : s.db.snapshots.row n = some x) (hnew : c.state.db.snapshots.row n ≠ some x) :
    c.state.Ends s x.committedAt ∧
      (∀ m y, s.db.snapshots.row m = some y → y.tableId = x.tableId → m ≤ n) ∧
      ∀ m y, c.state.db.snapshots.row m = some y → y.tableId = x.tableId →
        y.committedAt < x.committedAt := by
  rcases perform_stores (fun conn sql ha hs => by subst ha; exact not_idle_of_needs hn hs) hp hx
    with hold | ⟨conn, rfl, u, p, hsess, hclosed, hdb, hpx⟩
  · exact absurd hold hnew
  obtain ⟨hholder, hcommit⟩ := hn
  obtain ⟨t, id, hcommit⟩ := hcommit rfl hc u p hsess
  obtain ⟨table, hf⟩ := hcommit.found
  obtain ⟨hrow, hnamed⟩ := Db.row_of_find hf
  have hdate : x.committedAt = u := ht.drafts conn u p hsess n x hpx
  have hdb : s.db = c.state.db.apply p := hdb
  have hid : x.tableId = id := by
    by_contra hne
    have hslice : (s.db.slice x.tableId).snapshots n = some x := Db.slice_snapshots.mpr ⟨hx, rfl⟩
    rw [hdb, hcommit.within.slice_of_ne hne] at hslice
    exact hnew (Db.slice_snapshots.mp hslice).1
  refine ⟨⟨conn, p, hdate ▸ hsess, hclosed⟩, fun m y hy hyid => ?_, fun m y hy hyid => ?_⟩
  · refine hcommit.change.newest (x := x) ((h.inv.consistent hc).wellFormed id) ?_ ?_ m y ?_
    · rw [← hdb]
      exact Db.slice_snapshots.mpr ⟨hx, hid⟩
    · exact fun hold => hnew (Db.slice_snapshots.mp hold).1
    · rw [← hdb]
      exact Db.slice_snapshots.mpr ⟨hy, hyid.trans hid⟩
  · rw [hdate]
    refine ht.locked conn u p i id table m y hsess hholder hrow ?_ hy (hyid.trans hid)
    simp only [TableRec.named, Bool.and_eq_true, beq_iff_eq] at hnamed
    rw [hnamed.1]
    exact hcommit.lock

/-- While a thread has a transaction open and the lock of a table, its own actions leave the tables
and the snapshots as they are. -/
theorem own_transaction (h : Reachable pg policy c) (hn : Needs policy i q a c.world)
    (hp : Server.perform pg o i a c.state = some (r, s)) {u : ℕ} {p : Changes}
    (hs : s.backend.session conn = .inTransaction u p) (hh : s.holder conn = some i) :
    c.state.db.SameRows s.db := by
  rcases perform_rows hp with hsame | ⟨conn', hu, hclosed⟩
  · exact hsame
  · have hacq : a ≠ .acquire := by
      rintro rfl
      rcases hu with ⟨_, hu⟩ | ⟨_, hu⟩ <;> cases hu
    have hh := holder_of_perform hacq hp hh
    rw [h.single i conn' conn (holder_of_uses hn hu) hh, hs] at hclosed
    exact hclosed.elim

/-- The lock of a table that a thread has while it uses a connection, it has had before. -/
theorem writer_before (hn : Needs policy i q a c.world)
    (hp : Server.perform pg o i a c.state = some (r, s)) {t : String}
    (hh : c.state.holder conn = some i) (hw : (s.tableLocks t).writer = some i) :
    (c.state.tableLocks t).writer = some i := by
  rcases perform_writer hp hw with hw | ⟨-, rfl⟩
  · exact hw
  · rcases hn with hn | ⟨_, -, hn⟩
    · cases (hn.holder conn).mp hh
    · cases (hn.holder conn).mp hh

theorem Timely.act_locked (h : Reachable pg policy c) (ht : Timely past c.state)
    (hn : Needs policy i q a c.world) (he : (server pg policy).Exec i q a c.state r s)
    (hlater : c.state.BeginsLater past s) {u id n : ℕ} {p : Changes} {row : TableRec}
    (hs : s.backend.session conn = .inTransaction u p) (hh : s.holder conn = some i)
    (hr : s.db.tables.row id = some row) (hw : (s.tableLocks row.tableName).writer = some i)
    (hx : s.db.snapshots.row n = some x) (hid : x.tableId = id) : x.committedAt < u := by
  obtain ⟨o, ho, hp⟩ := he
  have hrows := own_transaction h hn hp hs hh
  rw [hrows.tables] at hr
  rw [hrows.snapshots] at hx
  rcases perform_running hp hs with ⟨p₀, hs₀, -⟩ | ⟨hno, -, -, -⟩
  · -- the connection of an open transaction has its holder
    have hh₀ : c.state.holder conn = some i := by
      by_cases hacq : a = .acquire
      · subst hacq
        cases hc : c.state.holder conn with
        | none =>
          have := h.inv.sound.closed conn hc
          rw [show c.world.now.backend.session conn = _ from hs₀] at this
          exact this.elim
        | some j =>
          by_cases hij : j = i
          · rw [hij]
          · have hk := (promise_act h.inv hn ⟨o, ho, hp⟩).keeps j fun he =>
              hij (Option.some.inj he).symm
            rw [(hk.holder conn).mpr hc] at hh
            exact hh
      · exact holder_of_perform hacq hp hh
    exact ht.locked conn u p₀ i id row n x hs₀ hh₀ hr (writer_before hn hp hh₀ hw) hx hid
  · exact hlater conn u p hs hno _ (ht.stored n x hx)

/-- A table whose lock another thread has stays as it is. -/
theorem Timely.others_locked (hc : policy.Clean) (ht : Timely past c.state)
    (hpr : Promise policy c.world e s) {j u id n : ℕ} {p : Changes} {row : TableRec}
    (hj : e.actor ≠ some j)
    (hs : s.backend.session conn = .inTransaction u p) (hh : s.holder conn = some j)
    (hr : s.db.tables.row id = some row) (hw : (s.tableLocks row.tableName).writer = some j)
    (hx : s.db.snapshots.row n = some x) (hid : x.tableId = id) : x.committedAt < u := by
  have hk := hpr.keeps j hj
  have hh := (hk.holder conn).mp hh
  have hw := (hk.writer _).mp hw
  rw [hk.session conn hh] at hs
  rcases hpr.writes hc id with hsame | ⟨i, hi, hwrites⟩
  · have hr : c.state.db.tables.row id = some row := (congrArg Slice.table hsame).symm.trans hr
    have hx : (s.db.slice id).snapshots n = some x := Db.slice_snapshots.mpr ⟨hx, hid⟩
    rw [hsame] at hx
    exact ht.locked conn u p j id row n x hs hh hr hw (Db.slice_snapshots.mp hx).1 hid
  · rw [hwrites.after row hr] at hw
    exact absurd (hi.trans hw) hj

theorem Timely.act (hc : policy.Clean) (h : Reachable pg policy c) (ht : Timely past c.state)
    (hn : Needs policy i q a c.world) (he : (server pg policy).Exec i q a c.state r s)
    (hlater : c.state.BeginsLater past s) : Timely (fun u => past u ∨ c.state.Ends s u) s := by
  obtain ⟨o, ho, hp⟩ := he
  have hpr : Promise policy c.world (.act i q a r) s := promise_act h.inv hn ⟨o, ho, hp⟩
  refine ⟨fun n x hx => ?_, fun n m x y hx hy hxy hnm => ?_, fun conn u p hs => ?_, ?_⟩
  · by_cases hold : c.state.db.snapshots.row n = some x
    · exact .inl (ht.stored n x hold)
    · exact .inr (ht.stores hc h hn hp hx hold).1
  · by_cases hold : c.state.db.snapshots.row n = some x
    · by_cases hold' : c.state.db.snapshots.row m = some y
      · exact ht.ordered n m x y hold hold' hxy hnm
      · exact (ht.stores hc h hn hp hy hold').2.2 n x hold hxy
    · have := (ht.stores hc h hn hp hx hold).2.1 m y hy hxy.symm
      omega
  · rcases perform_running hp hs with ⟨p₀, hs₀, hdated⟩ | ⟨-, -, rfl, -⟩
    · exact hdated (ht.drafts conn u p₀ hs₀)
    · exact Changes.dated_of_none rfl
  · intro conn u p j id row n x hs hh hr hw hx hid
    by_cases hj : j = i
    · subst hj
      exact ht.act_locked h hn ⟨o, ho, hp⟩ hlater hs hh hr hw hx hid
    · exact ht.others_locked hc hpr (fun he => hj (Option.some.inj he).symm) hs hh hr hw hx hid

end act

theorem Timely.mono {past' : ℕ → Prop} {s : Server} (ht : Timely past s)
    (hp : ∀ u, past u → past' u) : Timely past' s :=
  ⟨fun n x hx => hp _ (ht.stored n x hx), ht.ordered, ht.drafts, ht.locked⟩

theorem Timely.step (hc : policy.Clean) (h : Reachable pg policy c) (ht : Timely past c.state)
    (hs : Step (server pg policy) c e c') (hlater : c.state.BeginsLater past c'.state) :
    Timely (fun u => past u ∨ c.state.Ends c'.state u) c'.state := by
  cases hs with
  | call => exact ht.mono fun u => .inl
  | act hi he => exact ht.act hc h (h.needs hi) he hlater
  | drift hd =>
    obtain ⟨_, _, -, -, rfl⟩ := hd
    exact ⟨fun n x hx => .inl (ht.stored n x hx), ht.ordered, ht.drafts, ht.locked⟩

theorem Ticking.timely (hc : policy.Clean) (h : Ticking pg policy past c) :
    Timely past c.state := by
  induction h with
  | start hs => exact timely_started hs nofun nofun
  | restart _ hs ih => exact timely_started hs ih.stored ih.ordered
  | step h hs hlater ih => exact ih.step hc h.reachable hs hlater

/-! Computed runs in which time goes on. -/

def Session.startedAt : Session → Option ℕ
  | .inTransaction u _ => some u
  | _ => none

/-- No step of the computed run begins a transaction too early, given those that ended before it had
start times in `past`; with what it leads to, the start times of those that have ended then. -/
def tickingMoves (pg : Postgres) (policy : Policy) : ServerConfig → List ℕ →
    List (Move Request Outcome) → Option (ServerConfig × List ℕ)
  | c, past, [] => some (c, past)
  | c, past, m :: ms =>
    ((server pg policy).move c m).bind fun c' =>
      let conns := List.range (c.state.backend.opened + c'.state.backend.opened)
      let before (conn : Conn) := (c.state.backend.session conn).startedAt
      let after (conn : Conn) := (c'.state.backend.session conn).startedAt
      if conns.all fun conn =>
          (before conn).isSome || (after conn).all fun u => past.all (· < u) then
        tickingMoves pg policy c' (past ++ conns.filterMap fun conn =>
          if (after conn).isNone then before conn else none) ms
      else none

theorem startedAt_eq_some {σ : Session} : σ.startedAt = some u ↔ ∃ p, σ = .inTransaction u p := by
  cases σ with
  | inTransaction t p => simp [Session.startedAt]
  | _ => simp [Session.startedAt]

theorem Reachable.opened (h : Reachable pg policy c)
    (hs : (c.state.backend.session conn).startedAt = some u) : conn < c.state.backend.opened := by
  obtain ⟨p, hs⟩ := startedAt_eq_some.mp hs
  refine h.inv.sound.backend.opened conn ?_
  rw [show c.world.now.backend.session conn = _ from hs]
  exact id

theorem Ticking.of_moves {ms : List (Move Request Outcome)} {times times' : List ℕ}
    (h : Ticking pg policy past c) (ht : ∀ u, past u → u ∈ times)
    (hm : tickingMoves pg policy c times ms = some (c', times')) :
    ∃ past', Ticking pg policy past' c' ∧ ∀ u, past' u → u ∈ times' := by
  induction ms generalizing c past times with
  | nil =>
    cases hm
    exact ⟨past, h, ht⟩
  | cons m ms ih =>
    obtain ⟨c₁, hc₁, hm⟩ := Option.bind_eq_some_iff.mp hm
    obtain ⟨e, hs, -⟩ := System.step_of_move hc₁
    dsimp only at hm
    split at hm
    case isFalse => cases hm
    rename_i hall
    refine ih (h.step hs ?_) ?_ hm
    · intro conn u p hsess hno v hv
      have hu := startedAt_eq_some.mpr ⟨p, hsess⟩
      have hopened := (h.reachable.step hs).opened hu
      have hcheck := List.all_eq_true.mp hall conn
        (List.mem_range.mpr (hopened.trans_le (Nat.le_add_left ..)))
      rw [hu, Bool.or_eq_true] at hcheck
      rcases hcheck with hb | ha
      · obtain ⟨t, ht⟩ := Option.isSome_iff_exists.mp hb
        obtain ⟨p', hp'⟩ := startedAt_eq_some.mp ht
        exact absurd hp' (hno t p')
      · simpa using List.all_eq_true.mp ha v (ht v hv)
    · rintro u (hu | ⟨conn, p, hsess, hclosed⟩)
      · exact List.mem_append_left _ (ht u hu)
      · have hb := startedAt_eq_some.mpr ⟨p, hsess⟩
        have hopened := h.reachable.opened hb
        refine List.mem_append_right _ (List.mem_filterMap.mpr
          ⟨conn, List.mem_range.mpr (hopened.trans_le (Nat.le_add_right ..)), ?_⟩)
        have ha : (c₁.state.backend.session conn).startedAt = none := by
          cases hσ : c₁.state.backend.session conn with
          | inTransaction t p =>
            rw [hσ] at hclosed
            exact hclosed.elim
          | _ => rfl
        simp only [ha, Option.isNone_none, if_true]
        exact hb

/-- The clock of the database goes on by one. -/
def ServerConfig.tick (c : ServerConfig) : ServerConfig :=
  ⟨c.world.next .drift { c.state with
    backend := { c.state.backend with clock := c.state.backend.clock + 1 } }, c.thread⟩

theorem Ticking.tick (h : Ticking pg policy past c) :
    ∃ past', Ticking pg policy past' c.tick ∧ ∀ u, past' u → past u := by
  have hs : Step (server pg policy) c .drift c.tick :=
    .drift ⟨c.state.steadyClock, _, le_refl _, Nat.le_succ _, rfl⟩
  refine ⟨_, h.step hs fun conn u p hsess hno => absurd hsess (hno u p), ?_⟩
  rintro u (hu | ⟨conn, p, hsess, hclosed⟩)
  · exact hu
  · change (c.state.backend.session conn).Closed at hclosed
    rw [hsess] at hclosed
    exact hclosed.elim

end IceLog
