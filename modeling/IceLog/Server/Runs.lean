import IceLog.Db.History
import IceLog.Server.Handlers
import IceLog.Transaction.Calls

/-! The runs of a server, and of the servers that are started after it over the same database. -/
namespace IceLog

open Interleaved

abbrev ServerConfig : Type := Config Act Act.Result Request Reply Server

/-- A server that has just been started over the database `db`. -/
structure Started (db : Db) (s : Server) : Prop where
  locks : ∀ t, s.tableLocks t = {}
  pool : s.availableConnections.Nodup ∧ ∀ c ∈ s.availableConnections, c < s.backend.opened
  holder : ∀ c, s.holder c = none
  session : ∀ c, s.backend.session c = .idle
  db : s.db = db
  mvcc : ∃ txnTimeout, s.mvcc = .new txnTimeout
  cache : ∃ capacity, s.cache = .new capacity

/-- What the server needs of the database it is started over. -/
structure Intact (policy : Policy) (db : Db) : Prop where
  unique : db.UniqueNames
  consistent : policy.Clean → db.Consistent
  linked : policy.Clean → policy.Steady → db.Linked

/-- Any number of clients of one server after the other, the first over an empty database. What a
server has not committed when the next one is started is lost. -/
inductive Reachable (pg : Postgres) (policy : Policy) : ServerConfig → Prop
  | start {s : Server} : Started .empty s → Reachable pg policy (Config.initial s)
  | restart {c : ServerConfig} {s : Server} : Reachable pg policy c → Started c.state.db s →
      Reachable pg policy (Config.initial s)
  | step {c c' : ServerConfig} {e : ServerEvent} : Reachable pg policy c →
      Step (server pg policy) c e c' → Reachable pg policy c'

/-- What each thread returns. -/
def serverSpec (pg : Postgres) (policy : Policy) :
    Contract.Spec Reply Act Act.Result Request Server where
  post i q u x w := Own policy i q {} [] w ∧ Served pg policy true i q u x w
  exc i q _ w := Own policy i q {} [] w

variable {pg : Postgres} {policy : Policy} {i : ℕ} {q : Request} {w u v : Moment} {x : Reply}
  {c c' : ServerConfig} {db : Db} {s : Server} {e : ServerEvent}

theorem own_fresh (hi : Inv policy w) (hf : Fresh i w) : Own policy i q {} [] w :=
  ⟨hi, (hi.fresh i hf).1, fun _ q' t h => absurd h ((hi.fresh i hf).2 q' t)⟩

theorem own_called (hi : Inv policy w) (hf : Fresh i w) :
    Own policy i q {} [] (w.next (.call i q) w.now) := by
  have hp : Promise policy w (.call i q) w.now := promise_call hi
  refine ⟨hp.inv, (hi.fresh i hf).1, fun _ q' t ht => ?_⟩
  rcases owes_next.mp ht with ⟨_, _, he, -⟩ | ⟨ht, -⟩
  · cases he
  · exact absurd ht ((hi.fresh i hf).2 q' t)

theorem verified : (contract pg policy).Verified (serverSpec pg policy) := by
  intro i q w hi hf ha
  exact safe_code (own_called hi hf) fun hc n hn => hc q ha n hn

theorem inv_started (hd : Intact policy db) (hs : Started db s) : Inv policy ⟨[], s⟩ := by
  have hno : ∀ j q t, ¬ Owes ⟨[], s⟩ j q t := fun _ _ _ h => h
  refine ⟨⟨fun t i hw => by simp [hs.locks t] at hw, hs.pool.1,
    fun c hc => ⟨hs.holder c, hs.pool.2 c hc⟩, fun c i hc => ?_, fun c _ => ?_, ?_⟩,
    fun i _ => ⟨⟨fun t => ?_, fun t => ?_, fun c => ?_, List.nodup_nil⟩, hno i⟩, fun hc => ?_,
    fun hc hst => ?_, fun _ j q t h => absurd h (hno j q t), fun _ t n rows hm => ?_⟩
  · change s.holder c = some i at hc
    simp [hs.holder c] at hc
  · change (s.backend.session c).Closed
    rw [hs.session c]
    trivial
  · refine ⟨fun c hc => ?_, fun c t p hc => ?_, fun c t p hc => ?_, fun c d t u p q _ hc => ?_, ?_⟩
    · exact absurd (hs.session c ▸ trivial) hc
    · cases (hs.session c).symm.trans hc
    · cases (hs.session c).symm.trans hc
    · cases (hs.session c).symm.trans hc
    · have hdb : s.backend.db = db := hs.db
      exact hdb ▸ hd.unique
  · simp [hs.locks t]
  · simp [hs.locks t]
  · simp [hs.holder c]
  · exact hs.db ▸ hd.consistent hc
  · exact hs.db ▸ hd.linked hc hst
  · change _ ∈ s.cache.entries at hm
    obtain ⟨capacity, hcache⟩ := hs.cache
    rw [hcache] at hm
    cases hm

theorem Inv.intact (hi : Inv policy w) : Intact policy w.now.db :=
  ⟨hi.sound.backend.unique, hi.consistent, hi.linked⟩

theorem intact_empty : Intact policy .empty where
  unique := by
    intro id r hr
    cases hr
  consistent _ := {
    unique := by
      intro id r hr
      cases hr
    wellFormed := fun id => Slice.empty_wellFormed _ }
  linked _ _ := by
    intro id r hr
    cases hr

/-- Whatever the handlers are proved to do holds in every run. -/
theorem Reachable.good_of {spec : Contract.Spec Reply Act Act.Result Request Server}
    (hspec : (contract pg policy).Verified spec) (h : Reachable pg policy c) :
    (contract pg policy).Good spec c := by
  induction h with
  | start hs => exact Contract.good_initial (inv_started intact_empty hs)
  | restart _ hs ih => exact Contract.good_initial (inv_started ih.inv.intact hs)
  | step _ hs ih => exact Contract.good_step hspec ih hs

theorem Reachable.good (h : Reachable pg policy c) :
    (contract pg policy).Good (serverSpec pg policy) c := h.good_of verified

theorem Reachable.run (h : Reachable pg policy c) (hr : Run (server pg policy) c c') :
    Reachable pg policy c' := by
  induction hr with
  | refl => exact h
  | step _ hs ih => exact ih.step hs

theorem Reachable.inv (h : Reachable pg policy c) : Inv policy c.world := h.good.inv

/-- What a thread has returned says about the time since its call. -/
theorem Reachable.replied (h : Reachable pg policy c) (hx : c.Returned i q x) :
    ∃ u, u.Before c.world ∧ CalledAt i q u ∧ policy.admits q = true ∧
      Served pg policy true i q u x c.world := by
  obtain ⟨u, hu, hcall, ha, hsafe⟩ := h.good.safe i _ hx
  exact ⟨u, hu, hcall, ha, (hsafe _ .refl).2⟩

/-- What a request called after `c` has returned says about the time since its call. -/
theorem Reachable.served (h : Reachable pg policy c) (hr : Run (server pg policy) c c')
    (hi : c.thread i = none) (hx : c'.Returned i q x) :
    ∃ u, c.world.Before u ∧ u.Before c'.world ∧ CalledAt i q u ∧ policy.admits q = true ∧
      Served pg policy true i q u x c'.world := by
  obtain ⟨u, hcu, hu, hcall, ha, -, hx⟩ := Contract.returned_post verified h.good hr hi hx
  exact ⟨u, hcu, hu, hcall, ha, hx⟩

/-- What holds of each step holds between any two moments of a history. -/
theorem Reachable.lift (h : Reachable pg policy c) {K : Moment → Moment → Prop}
    (hrefl : ∀ u, K u u) (htrans : ∀ {u v w}, K u v → K v w → K u w)
    (hstep : ∀ {d d' e}, Reachable pg policy d → Step (server pg policy) d e d' →
      d'.world.Before c.world → K d.world d'.world)
    (huv : u.Before v) (hv : v.Before c.world) : K u v := by
  induction h generalizing v with
  | @start s hs | @restart _ s _ hs =>
    have hnil : ∀ {w : Moment}, w.Before ⟨[], s⟩ → w = ⟨[], s⟩ := by
      intro w hw
      generalize hw' : (⟨[], s⟩ : Moment) = w' at hw
      cases hw with
      | refl => rfl
      | next e s' hw => cases hw'
    obtain rfl := hnil hv
    obtain rfl := hnil huv
    exact hrefl _
  | @step d d' e h hs ih =>
    have hd' := hs.world_eq
    have hdd' : d.world.Before d'.world := hd' ▸ World.before_next _ _ _
    have hstep' : ∀ {v}, u.Before v → v.Before d.world → K u v := fun huv hv =>
      ih (fun h hs hb => hstep h hs (hb.trans hdd')) huv hv
    rcases World.before_next_iff.mp (hd' ▸ hv) with rfl | hv
    · rcases World.before_next_iff.mp huv with rfl | hud
      · exact hrefl _
      · exact hd' ▸ htrans (hstep' hud .refl) (hstep h hs .refl)
    · exact hstep' huv hv

/-- Every moment of a history is one of a reachable configuration. -/
theorem Reachable.moment (h : Reachable pg policy c) (hu : u.Before c.world) :
    ∃ d, Reachable pg policy d ∧ d.world = u ∧ Run (server pg policy) d c := by
  induction h with
  | @start s hs =>
    cases hu
    exact ⟨_, .start hs, rfl, .refl⟩
  | @restart c s h hs =>
    cases hu
    exact ⟨_, .restart h hs, rfl, .refl⟩
  | @step d d' e h hs ih =>
    rcases World.before_next_iff.mp (hs.world_eq ▸ hu) with rfl | hu
    · exact ⟨d', h.step hs, hs.world_eq, .refl⟩
    · obtain ⟨d₀, h₀, hw, hr⟩ := ih hu
      exact ⟨d₀, h₀, hw, hr.step hs⟩

theorem Reachable.invAt (h : Reachable pg policy c) (hu : u.Before c.world) : Inv policy u := by
  obtain ⟨d, hd, rfl, -⟩ := h.moment hu
  exact hd.inv

theorem Reachable.promise (h : Reachable pg policy c) (hs : Step (server pg policy) c e c') :
    Promise policy c.world e c'.state :=
  Contract.good_promise h.good hs

/-- The database of clean names goes on in the allowed ways. -/
theorem Reachable.evolves (h : Reachable pg policy c) (hc : policy.Clean) (huv : u.Before v)
    (hv : v.Before c.world) : u.now.db.Evolves v.now.db := by
  refine h.lift (K := fun u v => u.now.db.Evolves v.now.db) (fun _ => .refl _) Db.Evolves.trans
    (fun {d d' e} hd hs _ => ?_) huv hv
  have hp := hd.promise hs
  have hslices : ∀ id, d'.state.db.slice id = d.state.db.slice id ∨
      ((d.state.db.tables.row id = none → d.state.db.tables.next ≤ id) ∧
        TableChange policy.Steady d'.state.db.snapshots.next (d.state.db.slice id)
          (d'.state.db.slice id)) :=
    fun id => (hp.writes hc id).imp_right fun ⟨i, _, hw⟩ => ⟨hw.fresh, hw.change⟩
  exact .of_slices (hd.inv.consistent hc) hp.nextLe hslices

/-- The counter never goes back. -/
theorem perform_latest_le {a : Act} {o : Outcome} {s s' : Server} {r : a.Result}
    (h : Server.perform pg o i a s = some (r, s')) :
    s.mvcc.latestCommittedSnapshot ≤ s'.mvcc.latestCommittedSnapshot := by
  cases Server.perform_cases h with
  | acquire ha => cases ha <;> exact Nat.le_refl _
  | commitTransaction => simp [MVCCManager.commitTransaction_latest]
  | abortTransaction => simp
  | _ => exact Nat.le_refl _

theorem Reachable.latest_le (h : Reachable pg policy c) (huv : u.Before v)
    (hv : v.Before c.world) :
    u.now.mvcc.latestCommittedSnapshot ≤ v.now.mvcc.latestCommittedSnapshot := by
  refine h.lift (K := fun u v : Moment => u.now.mvcc.latestCommittedSnapshot ≤
    v.now.mvcc.latestCommittedSnapshot) (fun _ => Nat.le_refl _) Nat.le_trans
    (fun {d d' e} _ hs _ => ?_) huv hv
  cases hs with
  | call => exact Nat.le_refl _
  | act _ hx =>
    obtain ⟨o, -, hx⟩ := hx
    exact perform_latest_le hx
  | drift hd =>
    obtain ⟨_, _, -, -, rfl⟩ := hd
    exact Nat.le_refl _

/-! A concrete server. -/

/-- JSON as it is written, and `BIGINT` in decimal. -/
def Postgres.plain : Postgres := ⟨some, String.toInt?⟩

/-- Any request whose names have no NUL, and any outcome. -/
def Policy.clean : Policy where
  admits q := q.tableNames.all fun t => decide (NulFree t)
  allows _ _ _ := true

theorem Policy.clean_clean : Policy.clean.Clean := by
  intro q hq t ht
  simpa using List.all_eq_true.mp hq t ht

/-- Names without NUL, and statements that do not fail. -/
def Policy.flawless : Policy where
  admits := Policy.clean.admits
  allows _
    | .exec .., o | .execParams .., o => o = .ok
    | _, _ => true

theorem Policy.flawless_clean : Policy.flawless.Clean := Policy.clean_clean

theorem Policy.flawless_flawless : Policy.flawless.Flawless := by
  rintro q a o ho (⟨c, k, rfl⟩ | ⟨c, sql, rfl⟩)
  · simpa [Policy.flawless] using ho
  · simpa [Policy.flawless] using ho

/-- Statements that do not fail, but any names. -/
def Policy.anyNames : Policy where
  admits _ := true
  allows := Policy.flawless.allows

theorem Policy.anyNames_flawless : Policy.anyNames.Flawless := Policy.flawless_flawless

/-- Any request and any outcome. -/
def Policy.any : Policy where
  admits _ := true
  allows _ _ _ := true

theorem Policy.any_not_clean : ¬ Policy.any.Clean := fun h =>
  absurd (h (.stats "\x00") rfl "\x00" (by simp [Request.tableNames])) (by decide)

/-- A server with two connections, a cache of ten entries and a timeout of 300 seconds. -/
def freshOver (db : Db) : Server where
  availableConnections := [0, 1]
  backend := { db := db, opened := 2 }
  mvcc := .new 300
  cache := .new 10

def freshServer : Server := freshOver .empty

theorem started_fresh (db : Db) : Started db (freshOver db) where
  locks _ := rfl
  pool := by
    constructor
    · show [0, 1].Nodup
      decide
    · show ∀ c ∈ [0, 1], c < 2
      decide
  holder _ := rfl
  session _ := rfl
  db := rfl
  mvcc := ⟨300, rfl⟩
  cache := ⟨10, rfl⟩

/-- `i` is called with `q` and makes `n` steps that succeed. -/
def serve (i : ℕ) (q : Request) (n : ℕ) : List (Move Request Outcome) :=
  .call i q :: List.replicate n (.step i .ok)

/-- A computed run of a fresh server. -/
theorem reachable_of_check {ms : List (Move Request Outcome)} {p : ServerConfig → Bool}
    (h : ((server pg policy).moves (.initial freshServer) ms).map p = some true) :
    ∃ c, Reachable pg policy c ∧ p c = true := by
  obtain ⟨c, hr, hp⟩ := System.run_of_check _ ms h
  exact ⟨c, (Reachable.start (started_fresh .empty)).run hr, hp⟩

end IceLog
