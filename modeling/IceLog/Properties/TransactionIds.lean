import IceLog.Server.TransactionTable

/-! The ids that clients are given for their transactions, and the rows that are stored for
them. -/
namespace IceLog

open Interleaved Serial

variable {pg : Postgres} {policy : Policy} {c c' : ServerConfig} {e : ServerEvent} {i x k : ℕ}
  {q : Request} {a : Act} {r : a.Result} {w v v' : Moment} {ws : List Moment} {status : String}

/-- Servers that run one after the other over one database: the histories of the earlier ones,
last first, and the last one. -/
inductive Lives (pg : Postgres) (policy : Policy) : List Moment → ServerConfig → Prop
  | start {s : Server} : Started .empty s → Lives pg policy [] (.initial s)
  | restart {ws : List Moment} {c : ServerConfig} {s : Server} : Lives pg policy ws c →
      Started c.state.db s → Lives pg policy (c.world :: ws) (.initial s)
  | step {ws : List Moment} {c c' : ServerConfig} {e : ServerEvent} : Lives pg policy ws c →
      Step (server pg policy) c e c' → Lives pg policy ws c'

/-- Thread `i` sends the `INSERT` of `insert_transaction`. -/
def Inserts (i : ℕ) (v v' : Moment) : Prop :=
  ∃ q conn clientId n isolation r s,
    v' = v.next (.act i q (.execParams conn (.insertTransaction clientId n isolation)) r) s

/-- A call of `BeginTransaction` that was given the id `x` has stored the row `k`. -/
def Began (x k : ℕ) (w : Moment) : Prop :=
  ∃ i v v', Drew i x v ∧ Inserts i v v' ∧ v'.Before w ∧ v.now.db.transactions.row k = none ∧
    (v'.now.db.transactions.row k).isSome

/-- Whenever a call sends its `INSERT`, the sequence is about to draw the id of the call. -/
def InStep (w : Moment) : Prop :=
  ∀ i x v v', Drew i x v → Inserts i v v' → v'.Before w → v.now.db.transactions.next = x

/-- The request asks for the end of the transaction `x`, which is stored as the status. -/
inductive Request.Ends : Request → ℕ → String → Prop
  | commit (x : ℕ) : Ends (.commitTransaction x) x "committed"
  | abort (x : ℕ) : Ends (.abortTransaction x) x "aborted"

theorem Lives.reachable (h : Lives pg policy ws c) : Reachable pg policy c := by
  induction h with
  | start hs => exact .start hs
  | restart _ hs ih => exact .restart ih hs
  | step _ hs ih => exact .step ih hs

theorem Lives.moment (h : Lives pg policy ws c) (hw : w ∈ c.world :: ws) :
    ∃ d, Reachable pg policy d ∧ d.world = w := by
  induction h with
  | start hs =>
    obtain rfl := List.mem_singleton.mp hw
    exact ⟨_, .start hs, rfl⟩
  | restart h hs ih =>
    rcases List.mem_cons.mp hw with rfl | hw
    · exact ⟨_, .restart h.reachable hs, rfl⟩
    · exact ih hw
  | step h hs ih =>
    rcases List.mem_cons.mp hw with rfl | hw
    · exact ⟨_, h.reachable.step hs, rfl⟩
    · exact ih (List.mem_cons_of_mem _ hw)

/-- Who inserts is serving a `BeginTransaction` and has drawn an id. -/
theorem Reachable.drew (h : Reachable pg policy c) {conn : Conn} {clientId isolation : String}
    {n : ℕ} {r : PGresult ℕ} (hs : Step (server pg policy) c
      (.act i q (.execParams conn (.insertTransaction clientId n isolation)) r) c') :
    ∃ x, Drew i x c.world := by
  have hq := (h.at_action hs).1
  cases hs with
  | act hi =>
    have hl := h.traced.leaves i _ hi
    cases q with
    | beginTransaction clientId isolation =>
      unfold Drew
      generalize actionsOf i c.world = tr at hl ⊢
      cases hl with
      | @cons _ _ x tr hl => exact ⟨x, List.mem_cons_self ..⟩
    | commitTransaction | abortTransaction => cases hq
    | _ => simp [Request.MayAct, Request.MayRun, Request.mutates, Sql.storesTransaction,
        Sql.selects] at hq

theorem Began.mono (h : Began x k v) (hw : v.Before w) : Began x k w := by
  obtain ⟨i, u, u', hd, hi, hu, hk⟩ := h
  exact ⟨i, u, u', hd, hi, hu.trans hw, hk⟩

/-- Every stored row is that of a call. -/
theorem Lives.began (h : Lives pg policy ws c)
    (hk : (c.state.db.transactions.row k).isSome) : ∃ w ∈ c.world :: ws, ∃ x, Began x k w := by
  induction h with
  | @start s hs =>
    have hdb : s.backend.db = .empty := hs.db
    simp [Config.state, Config.initial, Server.db, hdb, Db.empty] at hk
  | @restart ws c s h hs ih =>
    have hdb : s.backend.db = c.state.db := hs.db
    obtain ⟨w, hw, hx⟩ := ih (by rw [← hdb]; exact hk)
    exact ⟨w, List.mem_cons_of_mem _ hw, hx⟩
  | @step ws c c' e h hs ih =>
    have hbefore : c.world.Before c'.world := hs.world_eq ▸ World.before_next _ _ _
    have hold : (c.state.db.transactions.row k).isSome →
        ∃ w ∈ c'.world :: ws, ∃ x, Began x k w := by
      intro hk
      obtain ⟨w, hw, x, hx⟩ := ih hk
      rcases List.mem_cons.mp hw with rfl | hw
      · exact ⟨_, List.mem_cons_self .., x, hx.mono hbefore⟩
      · exact ⟨w, List.mem_cons_of_mem _ hw, x, hx⟩
    by_cases hk₀ : (c.state.db.transactions.row k).isSome
    · exact hold hk₀
    · have hnone : c.state.db.transactions.row k = none := by simpa using hk₀
      cases h.reachable.stored hs with
      | kept hrow =>
        rw [hrow] at hk
        exact hold hk
      | inserted he =>
        subst he
        obtain ⟨x, hx⟩ := h.reachable.drew hs
        exact ⟨_, List.mem_cons_self .., x, _, c.world, c'.world, hx,
          ⟨_, _, _, _, _, _, _, hs.world_eq⟩, .refl, hnone, hk⟩
      | updated he hrow =>
        rw [hrow, Db.withStatus, hnone] at hk
        simp at hk

/-- A step never removes a row. -/
theorem Reachable.row_isSome (h : Reachable pg policy c) (hs : Step (server pg policy) c e c')
    (hk : (c.state.db.transactions.row k).isSome) : (c'.state.db.transactions.row k).isSome := by
  cases h.stored hs with
  | kept hrow => rwa [hrow]
  | inserted he hrow =>
    rw [hrow]
    by_cases hn : k = c.state.db.transactions.next
    · simp [hn]
    · rwa [Function.update_of_ne hn]
  | updated he hrow =>
    rw [hrow, Db.withStatus]
    split
    · simpa using hk
    · exact hk

/-- A row that has been stored stays. -/
theorem Lives.stored (h : Lives pg policy ws c) (hw : w ∈ c.world :: ws) (hb : Began x k w) :
    (c.state.db.transactions.row k).isSome := by
  induction h generalizing w with
  | start hs =>
    obtain rfl := List.mem_singleton.mp hw
    obtain ⟨i, v, v', -, ⟨q, conn, clientId, n, isolation, r, s, rfl⟩, hb, -⟩ := hb
    exact absurd hb.length_le (by simp [Config.initial])
  | @restart ws c s h hs ih =>
    rcases List.mem_cons.mp hw with rfl | hw
    · obtain ⟨i, v, v', -, ⟨q, conn, clientId, n, isolation, r, s, rfl⟩, hb, -⟩ := hb
      exact absurd hb.length_le (by simp [Config.initial])
    · have hdb : s.backend.db = c.state.db := hs.db
      have := ih hw hb
      rwa [← hdb] at this
  | @step ws c c' e h hs ih =>
    rcases List.mem_cons.mp hw with rfl | hw
    · obtain ⟨i, v, v', hd, hi, hb, hnone, hsome⟩ := hb
      rw [hs.world_eq] at hb
      rcases World.before_next_iff.mp hb with rfl | hb
      · exact hsome
      · exact h.reachable.row_isSome hs
          (ih (List.mem_cons_self ..) ⟨i, v, v', hd, hi, hb, hnone, hsome⟩)
    · exact h.reachable.row_isSome hs (ih (List.mem_cons_of_mem _ hw) hb)

/-- While the two counters are in step, the key of a row is the id of its call. -/
theorem Began.key {d : ServerConfig} (hd : Reachable pg policy d) (hb : Began x k d.world)
    (hin : InStep d.world) : k = x := by
  obtain ⟨i, v, v', hdrew, hi, hbefore, hnone, hsome⟩ := hb
  have hnext := hin i x v v' hdrew hi hbefore
  obtain ⟨q, conn, clientId, n, isolation, r, s, rfl⟩ := hi
  obtain ⟨d₀, d', hd₀, rfl, hs, hw, -⟩ := hd.step_of_before hbefore
  have hstate : d'.state = s := congrArg World.now hw
  have hst := hd₀.stored hs
  rw [hstate] at hst
  by_contra hne
  cases hst with
  | kept hrow =>
    rw [World.next_now, hrow, hnone] at hsome
    cases hsome
  | inserted _ hrow =>
    rw [World.next_now, hrow, Function.update_of_ne (hnext ▸ hne), hnone] at hsome
    cases hsome
  | updated he => cases he

/-- While the two counters are in step, `CommitTransaction` and `AbortTransaction` change the row of
the call that was given their id, and no other. -/
theorem status_goes_to_own_row (h : Lives pg policy ws c)
    (hin : ∀ w ∈ c.world :: ws, InStep w) (hq : q.Ends x status)
    (hs : Step (server pg policy) c e c') (he : ∃ i a r, e = .act i q a r) :
    (∀ k, c'.state.db.transactions.row k ≠ c.state.db.transactions.row k →
      ∃ w ∈ c.world :: ws, Began x k w) ∧
    ∀ w ∈ c.world :: ws, ∀ k, Began x k w → ∀ i conn st y n,
      e = .act i q (.execParams conn (.updateStatus st y)) (.command n) →
        ∃ row, c'.state.db.transactions.row k = some row ∧ row.status = status := by
  obtain ⟨i, a, r, rfl⟩ := he
  have hkey : ∀ w ∈ c.world :: ws, ∀ x k, Began x k w → k = x := by
    intro w hw x k hb
    obtain ⟨d, hd, rfl⟩ := h.moment hw
    exact hb.key hd (hin _ hw)
  have hact := (h.reachable.at_action hs).1
  have hstored := h.reachable.stored hs
  constructor
  · intro k hk
    cases hstored with
    | kept hrow => exact absurd (congrFun hrow k) hk
    | inserted he =>
      cases he
      cases hq <;> cases hact
    | @updated _ _ conn st y r he hrow =>
      cases he
      have hy : y = x := by cases hq <;> (cases hact; rfl)
      rw [hrow, Db.withStatus] at hk
      split at hk
      · rename_i hky
        have hsome : (c.state.db.transactions.row k).isSome := by
          by_contra hn
          have hn : c.state.db.transactions.row k = none := by simpa using hn
          simp [hn] at hk
        obtain ⟨w, hw, x', hb⟩ := h.began hsome
        obtain rfl := hkey w hw x' k hb
        exact ⟨w, hw, hky.trans hy ▸ hb⟩
      · exact absurd rfl hk
  · intro w hw k hb i' conn st y n he
    cases he
    obtain rfl := hkey w hw x k hb
    have hy : y = k ∧ st = status := by cases hq <;> (cases hact; exact ⟨rfl, rfl⟩)
    obtain ⟨rfl, rfl⟩ := hy
    obtain ⟨row, hrow⟩ := Option.isSome_iff_exists.mp (h.stored hw hb)
    cases hstored with
    | kept _ hr => cases hr _ _ _ _ _ _ rfl
    | inserted he => cases he
    | updated he hu =>
      cases he
      exact ⟨{ row with status := st }, by simp [hu, Db.withStatus, hrow], rfl⟩


/-! Computed runs. -/

theorem Lives.run (h : Lives pg policy ws c) (hr : Run (server pg policy) c c') :
    Lives pg policy ws c' := by
  induction hr with
  | refl => exact h
  | step _ hs ih => exact ih.step hs

/-- The ids that thread `i` has drawn. -/
def drawn (i : ℕ) (w : Moment) : List ℕ := (actionsOf i w).filterMap fun p => match p with
  | ⟨.fetchAddTxnId, x⟩ => some x
  | _ => none

theorem mem_drawn : x ∈ drawn i w ↔ Drew i x w := by
  rw [drawn, Drew, List.mem_filterMap]
  constructor
  · rintro ⟨⟨a, y⟩, hm, he⟩
    cases a with
    | fetchAddTxnId =>
      cases he
      exact hm
    | _ => cases he
  · exact fun h => ⟨_, h, rfl⟩

/-- For all insertions of a history: the moments before and after, and the thread. -/
def insertions (w : Moment) : List (ℕ × Moment × Moment) := w.moments.filterMap fun m =>
  match m.past with
  | (s, .act i _ (.execParams _ (.insertTransaction ..)) _) :: past => some (i, ⟨past, s⟩, m)
  | _ => none

theorem Inserts.mem (h : Inserts i v v') (hb : v'.Before w) : (i, v, v') ∈ insertions w := by
  obtain ⟨q, conn, clientId, n, isolation, r, s, rfl⟩ := h
  exact List.mem_filterMap.mpr ⟨_, hb.mem_moments, rfl⟩

theorem inStep_of_check (h : ((insertions w).all fun p =>
    (drawn p.1 p.2.1).all fun x => decide (p.2.1.now.db.transactions.next = x)) = true) :
    InStep w := by
  intro i x v v' hd hi hb
  have := List.all_eq_true.mp (List.all_eq_true.mp h _ (hi.mem hb)) x (mem_drawn.mpr hd)
  simpa using this

theorem Began.check (h : Began x k w) : ((insertions w).any fun p =>
    (drawn p.1 p.2.1).contains x && (p.2.1.now.db.transactions.row k).isNone &&
      (p.2.2.now.db.transactions.row k).isSome) = true := by
  obtain ⟨i, v, v', hd, hi, hb, hnone, hsome⟩ := h
  refine List.any_eq_true.mpr ⟨_, hi.mem hb, ?_⟩
  simp [mem_drawn.mpr hd, hnone, hsome]

/-- A transaction that is committed after a restart. -/
theorem status_goes_to_own_row_after_restart : ∃ (w : Moment) (c c' : ServerConfig),
    (c'.state.db.transactions.row 1).map TransactionRec.status = some "committed" ∧
      ∀ k, c'.state.db.transactions.row k ≠ c.state.db.transactions.row k →
        ∃ w' ∈ [c.world, w], Began 1 k w' := by
  let sys := server .plain .flawless
  let begun (c₀ : ServerConfig) := sys.moves (.initial (freshOver c₀.state.db))
    (serve 0 (.beginTransaction "client" .snapshot) 6 ++
      [.call 1 (.commitTransaction 1), .step 1 (.spurious 0), .step 1 .ok])
  let inStep (w : Moment) : Bool := (insertions w).all fun p =>
    (drawn p.1 p.2.1).all fun x => decide (p.2.1.now.db.transactions.next = x)
  let ended (c : ServerConfig) : Bool :=
    decide ((c.thread 1).map Thread.request = some (.commitTransaction 1)) && inStep c.world &&
      (sys.move c (.step 1 .ok)).any fun c' =>
        decide ((c'.state.db.transactions.row 1).map TransactionRec.status = some "committed")
  obtain ⟨c₀, hr₀, hp⟩ := sys.run_of_check (serve 0 (.createTable "t" "\x7b\x7d" "" []) 5)
    (p := fun c₀ => inStep c₀.world && (begun c₀).any ended)
    (c := .initial freshServer) (by decide +kernel)
  simp only [Bool.and_eq_true, Option.any_eq_true] at hp
  obtain ⟨h₀, c, hc, hp⟩ := hp
  simp only [ended, Bool.and_eq_true, Option.any_eq_true, decide_eq_true_eq] at hp
  obtain ⟨⟨hq, hin⟩, c', hc', hstatus⟩ := hp
  obtain ⟨t, a, r, ht, hs⟩ := System.act_of_move hc'
  have hlives : Lives .plain .flawless [c₀.world] c :=
    (Lives.restart ((Lives.start (started_fresh _)).run hr₀) (started_fresh _)).run
      (System.run_of_moves hc)
  have hq : t.request.Ends 1 "committed" := by
    have : t.request = .commitTransaction 1 := by simpa [ht] using hq
    exact this ▸ .commit 1
  refine ⟨c₀.world, c, c', hstatus, (status_goes_to_own_row hlives (fun w hw => ?_)
    hq hs ⟨_, _, _, rfl⟩).1⟩
  simp only [List.mem_cons, List.not_mem_nil, or_false] at hw
  rcases hw with rfl | rfl
  · exact inStep_of_check hin
  · exact inStep_of_check h₀

/-- Of two calls that overlap, the second stores its row first: `CommitTransaction(1)` changes the
row of the call that was given 2. -/
theorem status_goes_to_other_row : ¬ ∀ (pg : Postgres) (policy : Policy) (ws : List Moment)
    (c c' : ServerConfig) (e : ServerEvent) (q : Request) (x : ℕ) (status : String),
    policy.Flawless → Lives pg policy ws c → q.Ends x status →
    Step (server pg policy) c e c' → (∃ i a r, e = .act i q a r) →
    ∀ k, c'.state.db.transactions.row k ≠ c.state.db.transactions.row k →
      ∃ w ∈ c.world :: ws, Began x k w := by
  intro hall
  let sys := server .plain .flawless
  let other (c : ServerConfig) : Bool :=
    decide ((c.thread 2).map Thread.request = some (.commitTransaction 1)) &&
      !((insertions c.world).any fun p => (drawn p.1 p.2.1).contains 1 &&
        (p.2.1.now.db.transactions.row 1).isNone && (p.2.2.now.db.transactions.row 1).isSome) &&
      (sys.move c (.step 2 .ok)).any fun c' =>
        decide (c'.state.db.transactions.row 1 ≠ c.state.db.transactions.row 1)
  obtain ⟨c, hr, hp⟩ := sys.run_of_check (c := .initial freshServer)
    (serve 0 (.beginTransaction "client" .snapshot) 3 ++
      serve 1 (.beginTransaction "other" .snapshot) 6 ++ List.replicate 3 (.step 0 .ok) ++
      [.call 2 (.commitTransaction 1), .step 2 (.spurious 0), .step 2 .ok])
    (p := other) (by decide +kernel)
  simp only [other, Bool.and_eq_true, Option.any_eq_true, decide_eq_true_eq, Bool.not_eq_true'] at hp
  obtain ⟨⟨hq, hno⟩, c', hc', hrow⟩ := hp
  obtain ⟨t, a, r, ht, hs⟩ := System.act_of_move hc'
  have hq : t.request.Ends 1 "committed" := by
    have : t.request = .commitTransaction 1 := by simpa [ht] using hq
    exact this ▸ .commit 1
  obtain ⟨w, hw, hb⟩ := hall _ _ [] c c' _ _ 1 "committed" Policy.flawless_flawless
    ((Lives.start (started_fresh _)).run hr) hq hs ⟨_, _, _, rfl⟩ 1 hrow
  obtain rfl := List.mem_singleton.mp hw
  rw [hb.check] at hno
  cases hno

end IceLog
