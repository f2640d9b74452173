import IceLog.Cache.Calls
import IceLog.Server.Alone
import IceLog.Server.Readers

/-! Requests that are served one at a time, by a server on which no statement fails. -/
namespace IceLog

open Interleaved Serial

variable {pg : Postgres} {policy : Policy} {i j : ℕ} {q : Request} {α : Type}
  {w w' v : Moment} {tr : List (Act × Outcome)} {t : String} {c c' : ServerConfig} {s s' : Server}
  {a : Act} {o : Outcome}

/-- No connection has been lost. -/
def Backend.Unbroken (b : Backend) : Prop := ∀ conn, b.session conn ≠ .broken

namespace Backend

variable {b b' : Backend} {conn : Conn} {sql : Sql} {k : Command}

theorem Unbroken.setSession (h : b.Unbroken) {db : Db} {σ : Session} (hσ : σ ≠ .broken) :
    ({ b with db := db }.setSession conn σ).Unbroken := by
  intro d
  by_cases hd : d = conn
  · subst hd
    rwa [setSession_self]
  · rw [setSession_of_ne _ _ hd]
    exact h d

/-- What is answered leaves the connection in order. -/
theorem Unbroken.exec (h : b.Unbroken) (conn : Conn) (k : Command) :
    (b.exec conn k .ok).2.Unbroken := by
  have hset : ∀ {db : Db} {σ : Session}, σ ≠ .broken →
      ({ b with db := db }.setSession conn σ).Unbroken := fun hσ => h.setSession hσ
  cases hσ : b.session conn with
  | broken => exact absurd hσ (h conn)
  | idle | inTransaction | aborted =>
    cases k <;> simp only [Backend.exec, hσ] <;> first | exact h | exact hset (by rintro ⟨⟩)

theorem Unbroken.execParams (h : b.Unbroken) {r : PGresult sql.Row}
    (hx : b.execParams conn pg sql .ok = some (r, b')) : b'.Unbroken := by
  have hburn : (b.burn true sql).Unbroken := fun d => h d
  cases hσ : b.session conn with
  | broken => exact absurd hσ (h conn)
  | aborted =>
    simp only [Backend.execParams, hσ] at hx
    cases hx
    exact h
  | idle =>
    simp only [Backend.execParams, hσ] at hx
    split at hx
    · cases hx
      exact hburn
    · split at hx
      · cases hx
      · cases hx
        exact fun d => h d
  | inTransaction u p =>
    simp only [Backend.execParams, hσ] at hx
    split at hx
    · cases hx
      exact h.setSession (by rintro ⟨⟩)
    · split at hx
      · cases hx
      · cases hx
        exact h.setSession (by rintro ⟨⟩)

/-- A statement is answered where no other transaction is open. -/
theorem execParams_isSome (h : ∀ d, d ≠ conn → (b.session d).Closed) :
    ∃ r b', b.execParams conn pg sql .ok = some (r, b') := by
  have hwaits : ∀ p, b.waits conn p = false := by
    intro p
    rw [waits, List.any_eq_false]
    intro d _ hd
    rw [Bool.and_eq_true, bne_iff_ne] at hd
    obtain ⟨hne, hd⟩ := hd
    split at hd
    · rename_i hσ
      have := h d hne
      rw [hσ] at this
      exact this
    · exact Bool.false_ne_true hd
  cases hσ : b.session conn with
  | broken | aborted => simp [Backend.execParams, hσ]
  | idle =>
    simp only [Backend.execParams, hσ, hwaits]
    split <;> simp
  | inTransaction u p =>
    simp only [Backend.execParams, hσ, hwaits]
    split <;> simp

end Backend

/-- No connection has been lost, and there is one. -/
structure Server.Working (s : Server) : Prop where
  unbroken : s.backend.Unbroken
  pool : s.availableConnections ≠ [] ∨ ∃ conn i, s.holder conn = some i

/-- A failure is neither that of a statement nor that of a connection. -/
def Unfaulted (e : Act × Outcome) : Prop :=
  (e.1 = .acquire → e.2 = .ok) ∧ ∀ conn sql, e.1 = .execParams conn sql → e.2 = .ok

theorem faultless_of_unfaulted (h : ∀ e ∈ tr, Unfaulted e) : Faultless tr := by
  constructor
  · rw [refused, List.any_eq_false]
    rintro ⟨a, o⟩ he hr
    split at hr
    · rename_i conn heq
      cases heq
      cases (h _ he).1 rfl
    · exact Bool.false_ne_true hr
  · rw [fails, someStatement, List.any_eq_false]
    rintro ⟨a, o⟩ he hr
    split at hr
    · rename_i conn sql o' heq
      cases heq
      have := (h _ he).2 conn sql rfl
      simp_all
    · exact Bool.false_ne_true hr

theorem Holds.writer_ne (h : Holds j {} s) (t : String) : (s.tableLocks t).writer ≠ some j :=
  fun hw => List.not_mem_nil ((h.writer t).mp hw)

/-- The cache keeps its capacity. -/
theorem perform_capacity {r : a.Result} (hc : 1 ≤ s.cache.capacity)
    (h : Server.perform pg o i a s = some (r, s')) : s'.cache.capacity = s.cache.capacity := by
  cases Server.perform_cases h with
  | acquire ha => cases ha <;> rfl
  | cacheGet key =>
    exact (LRUCache.get_leads s.cache.wellFormed (Cache.raw_get _ _)).capacity
  | @cachePut key rows _ hp =>
    obtain ⟨d, hd, hl⟩ := LRUCache.put_leads s.cache.wellFormed hc key rows
    cases hd.symm.trans (Cache.raw_put hp)
    exact hl.capacity
  | cacheInvalidate keyPrefix =>
    obtain ⟨d, n, hd, -, hl⟩ := LRUCache.invalidateIf_leads s.cache.wellFormed
      fun key => keyPrefix.toList.isPrefixOf key.toList
    cases hd.symm.trans (Cache.raw_invalidateIf _ _)
    exact hl.capacity
  | _ => rfl

/-- What the policy leaves open. -/
theorem flawless_outcome (h : Policy.flawless.allows q a o = true) :
    (∀ conn k, a = .exec conn k → o = .ok) ∧ ∀ conn sql, a = .execParams conn sql → o = .ok := by
  constructor
  · rintro conn k rfl
    exact of_decide_eq_true h
  · rintro conn sql rfl
    exact of_decide_eq_true h

theorem perform_working {r : a.Result} (hs : s.Working)
    (ha : Policy.flawless.allows q a o = true) (h : Server.perform pg o i a s = some (r, s')) :
    s'.Working ∧ Unfaulted (a, o) := by
  obtain ⟨hexec, hsql⟩ := flawless_outcome ha
  have hb := hs.unbroken
  cases Server.perform_cases h with
  | acquire hacq =>
    cases hacq with
    | valid hp ho _ => exact ⟨⟨hb, .inr ⟨_, i, Function.update_self ..⟩⟩, by simp [Unfaulted, ho]⟩
    | reset _ _ hbr | replaced _ _ hbr | refused _ _ hbr => exact absurd hbr (hb _)
  | release conn =>
    exact ⟨⟨hb, .inl (by simp [Server.release])⟩, by simp [Unfaulted]⟩
  | @exec conn k _ _ _ ho hx =>
    subst ho
    cases hexec conn k rfl
    have hb' := hb.exec conn k
    rw [hx] at hb'
    exact ⟨⟨hb', hs.pool⟩, by simp [Unfaulted]⟩
  | @execParams conn sql _ _ _ ho hx =>
    subst ho
    cases hsql conn sql rfl
    exact ⟨⟨hb.execParams hx, hs.pool⟩, by simp [Unfaulted]⟩
  | _ => exact ⟨⟨hb, hs.pool⟩, by simp [Unfaulted]⟩

/-- A thread gets a connection from the pool only. -/
theorem holder_of_perform {r : a.Result} {conn : Conn} (ha : a ≠ .acquire)
    (h : Server.perform pg o i a s = some (r, s')) (hc : s'.holder conn = some j) :
    s.holder conn = some j := by
  cases Server.perform_cases h with
  | acquire => exact absurd rfl ha
  | release conn₀ =>
    by_cases hcc : conn = conn₀
    · subst hcc
      simp [Server.release] at hc
    · simpa [Server.release, hcc] using hc
  | _ => exact hc

/-- A thread without a connection gets one, and no other action gives one. -/
theorem single_of_perform {r : a.Result} (ha : a = .acquire → ∀ conn, s.holder conn ≠ some i)
    (h : Server.perform pg o i a s = some (r, s'))
    (hs : ∀ conn conn', s.holder conn = some i → s.holder conn' = some i → conn = conn') :
    ∀ conn conn', s'.holder conn = some i → s'.holder conn' = some i → conn = conn' := by
  by_cases hacq : a = .acquire
  · subst hacq
    have hone : ∀ conn₀ d, Function.update s.holder conn₀ (some i) d = some i → d = conn₀ := by
      intro conn₀ d hd
      by_contra hne
      rw [Function.update_of_ne hne] at hd
      exact ha rfl d hd
    cases Server.acquire_cases h with
    | refused => exact hs
    | valid | reset | replaced =>
      intro d d' hd hd'
      rw [hone _ d hd, hone _ d' hd']
  · intro d d' hd hd'
    exact hs d d' (holder_of_perform hacq h hd) (holder_of_perform hacq h hd')

/-- The outcomes that the policy leaves open are those of a server on which no statement fails. -/
def Policy.Unfailing (policy : Policy) : Prop := policy.allows = Policy.flawless.allows

theorem Policy.flawless_unfailing : Policy.flawless.Unfailing := rfl

/-- No statement of a run fails. -/
theorem solo_working (hu : policy.Unfailing) {p : Code α} {x : Option α} (hs : w.now.Working)
    (hx : Solo (server pg policy) i q p w tr x w') : w'.now.Working ∧ Faultless tr := by
  obtain ⟨hw, hall⟩ := hx.steps (J := Server.Working) (φ := Unfaulted)
    (fun a o _ _ _ ha hp hs => by
      have ha : Policy.flawless.allows q a o = true := hu ▸ ha
      exact perform_working hs ha hp) hs
  exact ⟨hw, faultless_of_unfaulted hall⟩

/-- Nothing stands in the way of the thread `i`: the others have nothing, and it has no more than one
connection. -/
structure Ready (i : ℕ) (s : Server) : Prop where
  working : s.Working
  others : ∀ j, j ≠ i → Holds j {} s
  single : ∀ conn conn', s.holder conn = some i → s.holder conn' = some i → conn = conn'

/-- An action of the thread itself leaves nothing in its way. -/
theorem Ready.act (hu : policy.Unfailing) {r : a.Result} (hr : Ready i w.now) (hi : Inv policy w)
    (hn : Needs policy i q a w) (ha : policy.allows q a o = true)
    (h : Server.perform pg o i a w.now = some (r, s)) : Ready i s := by
  have hp : Promise policy w (.act i q a r) s := promise_act hi hn ⟨o, ha, h⟩
  have ha : Policy.flawless.allows q a o = true := hu ▸ ha
  have hothers : ∀ j, j ≠ i → Holds j {} s := fun j hj =>
    (hp.keeps j fun he => hj (Option.some.inj he).symm).holds (hr.others j hj)
  refine ⟨(perform_working hr.working ha h).1, hothers, ?_⟩
  refine single_of_perform (fun hacq => ?_) h hr.single
  subst hacq
  exact hn

/-- A renaming of a table to its own name, which would wait for a lock that it has itself. -/
def Request.SelfRename (q : Request) : Prop := ∃ t, q = .alterTable t (.rename t)

/-- Every action can be performed. -/
theorem Ready.enabled (hr : Ready i w.now) (hi : Inv policy w) (hn : Needs policy i q a w)
    (hq : ¬ q.SelfRename) (hroom : ∀ key rows, a = .cachePut key rows → 1 ≤ w.now.cache.capacity) :
    ∃ o r s, Policy.flawless.allows q a o = true ∧ Server.perform pg o i a w.now = some (r, s) := by
  have hwriter : ∀ t k, (w.now.tableLocks t).writer = some k → k = i := by
    intro t k hk
    by_contra hne
    exact (hr.others k hne).writer_ne t hk
  have hclosed : ∀ conn, w.now.holder conn = some i →
      ∀ d, d ≠ conn → (w.now.backend.session d).Closed := by
    intro conn hc d hd
    refine hi.sound.closed d ?_
    cases hk : w.now.holder d with
    | none => rfl
    | some k =>
      by_cases hki : k = i
      · subst hki
        exact absurd (hr.single d conn hk hc) hd
      · have := ((hr.others k hki).holder d).mp hk
        cases this
  have hfree : ∀ t, (w.now.tableLocks t).writer ≠ some i → (w.now.tableLocks t).writer = none := by
    intro t ht
    cases hk : (w.now.tableLocks t).writer with
    | none => rfl
    | some k =>
      obtain rfl := hwriter t k hk
      exact absurd hk ht
  have hunread : ∀ t h, Holds i h w.now → t ∉ h.shared → (w.now.tableLocks t).readers = ∅ := by
    intro t h hh ht
    refine Finset.eq_empty_of_forall_notMem fun k hk => ?_
    by_cases hki : k = i
    · subst hki
      exact ht ((hh.reader t).mp hk)
    · exact List.not_mem_nil (((hr.others k hki).reader t).mp hk)
  cases a with
  | lockShared t =>
    have hw := hfree t (Holds.writer_ne hn t)
    exact ⟨.ok, (), _, rfl, by simp [Server.perform, SharedMutex.lockShared, hw]; rfl⟩
  | lockExclusive t =>
    have hlock : (w.now.tableLocks t).writer = none ∧ (w.now.tableLocks t).readers = ∅ := by
      rcases hn with hh | ⟨oldName, hq', hh⟩
      · exact ⟨hfree t (hh.writer_ne t), hunread t _ hh List.not_mem_nil⟩
      · refine ⟨hfree t fun hw => hq ⟨t, ?_⟩, hunread t _ hh List.not_mem_nil⟩
        obtain rfl := List.mem_singleton.mp ((hh.writer t).mp hw)
        exact hq'
    exact ⟨.ok, (), _, rfl, by simp [Server.perform, SharedMutex.lock, hlock]; rfl⟩
  | acquire =>
    cases hpool : w.now.availableConnections with
    | nil =>
      rcases hr.working.pool with hp | ⟨conn, k, hc⟩
      · exact absurd hpool hp
      · by_cases hki : k = i
        · exact absurd (hki ▸ hc) (hn conn)
        · cases ((hr.others k hki).holder conn).mp hc
    | cons conn rest =>
      have hsome : (w.now.acquire i .ok).isSome := by
        have hb := hr.working.unbroken conn
        simp only [Server.acquire, hpool]
        cases hσ : w.now.backend.session conn <;> simp_all
      obtain ⟨⟨r, s⟩, h⟩ := Option.isSome_iff_exists.mp hsome
      exact ⟨.ok, r, s, rfl, h⟩
  | exec conn k => exact ⟨.ok, _, _, by rfl, rfl⟩
  | execParams conn sql =>
    obtain ⟨r, b, hx⟩ : ∃ r b, w.now.backend.execParams conn pg sql .ok = some (r, b) :=
      Backend.execParams_isSome (hclosed conn hn.1)
    exact ⟨.ok, r, _, by rfl, by simp [Server.perform, hx]; rfl⟩
  | cachePut key rows =>
    obtain ⟨d, hd, -⟩ := LRUCache.put_leads w.now.cache.wellFormed (hroom key rows rfl) key rows
    exact ⟨.ok, (), _, rfl, by simp [Server.perform, Cache.put_eq hd]; rfl⟩
  | commitTransaction txnId => exact ⟨.spurious 0, _, _, rfl, rfl⟩
  | _ => exact ⟨.ok, _, _, rfl, rfl⟩

theorem Ready.step (hu : policy.Unfailing) (hr : Ready i w.now) (hi : Inv policy w)
    (hn : Needs policy i q a w) (hq : ¬ q.SelfRename)
    (hroom : ∀ key rows, a = .cachePut key rows → 1 ≤ w.now.cache.capacity) :
    ∃ o r s, (server pg policy).allows q a o = true ∧
      (server pg policy).perform o i a w.now = some (r, s) ∧ Ready i s := by
  obtain ⟨o, r, s, ho, hp⟩ := hr.enabled hi hn hq hroom
  have ho : policy.allows q a o = true := hu ▸ ho
  exact ⟨o, r, s, ho, hp, hr.act hu hi hn ho hp⟩

/-- A server on which nothing fails, while it serves no request. -/
structure AtRest (pg : Postgres) (policy : Policy) (c : ServerConfig) : Prop where
  reachable : Reachable pg policy c
  finished : ∀ i t, c.thread i = some t → t.code.Finished
  unfailing : policy.Unfailing
  working : c.state.Working

/-- Moreover its cache has room, and it gets no name with a NUL. -/
structure Quiet (pg : Postgres) (c : ServerConfig) : Prop extends AtRest pg .flawless c where
  capacity : 1 ≤ c.state.cache.capacity

/-- The thread `i` serves `q` while no other thread does anything, and stops with `x` (`none` if it
throws). -/
structure Completes (pg : Postgres) (policy : Policy) (c : ServerConfig) (i : ℕ) (q : Request)
    (x : Option Reply) (c' : ServerConfig) : Prop where
  idle : c.thread i = none
  admitted : policy.admits q = true
  solo : ∃ tr, Solo (server pg policy) i q q.code (c.world.next (.call i q) c.state) tr x c'.world
  thread : c'.thread = Function.update c.thread i (some ⟨q, x.elim .throw .ret⟩)

section rest
variable {x : Option Reply}

/-- A thread that is not in the middle of a request has nothing. -/
theorem Reachable.own_of_stopped (h : Reachable pg policy c)
    (hf : ∀ t, c.thread i = some t → t.code.Finished) : ∃ q, Own policy i q {} [] c.world := by
  cases hi : c.thread i with
  | none => exact ⟨.listTables 0 "", own_fresh h.inv (h.good.fresh i hi)⟩
  | some t =>
    obtain ⟨u, -, -, -, hsafe⟩ := h.good.safe i t hi
    have hf := hf t hi
    obtain ⟨q, code⟩ := t
    cases code with
    | ret y => exact ⟨q, (hsafe _ .refl).1⟩
    | throw => exact ⟨q, hsafe _ .refl⟩
    | act a k => exact absurd hf Prog.finished_act

theorem AtRest.own (h : AtRest pg policy c) (i : ℕ) : ∃ q, Own policy i q {} [] c.world :=
  h.reachable.own_of_stopped (h.finished i)

theorem AtRest.holds (h : AtRest pg policy c) (i : ℕ) : Holds i {} c.state := by
  obtain ⟨q, ho⟩ := h.own i
  exact ho.holds

theorem AtRest.ready (h : AtRest pg policy c) (i : ℕ) : Ready i c.state := by
  refine ⟨h.working, fun j _ => h.holds j, fun conn conn' hc _ => ?_⟩
  cases ((h.holds i).holder conn).mp hc

/-- Some thread has not been called yet. -/
theorem Reachable.free (h : Reachable pg policy c) : ∃ n, ∀ i, n ≤ i → c.thread i = none := by
  induction h with
  | start | restart => exact ⟨0, fun _ _ => rfl⟩
  | step _ hs ih =>
    obtain ⟨n, hn⟩ := ih
    cases hs with
    | @call j q hj _ | @act j q a k r s hj _ =>
      refine ⟨max n (j + 1), fun i hi => ?_⟩
      rw [Config.put_thread_of_ne _ _ _ _ (by omega)]
      exact hn i (by omega)
    | drift => exact ⟨n, hn⟩

theorem AtRest.free (h : AtRest pg policy c) : ∃ i, c.thread i = none := by
  obtain ⟨n, hn⟩ := h.reachable.free
  exact ⟨n, hn n (Nat.le_refl n)⟩

theorem AtRest.own_called (h : AtRest pg policy c) (hi : c.thread i = none) (q : Request) :
    Own policy i q {} [] (c.world.next (.call i q) c.state) :=
  IceLog.own_called h.reachable.inv (h.reachable.good.fresh i hi)

/-- A request is served to its end unless it needs two locks of one name, or puts something into a
cache without room. -/
theorem AtRest.exists_completes (h : AtRest pg policy c) (hi : c.thread i = none)
    (ha : policy.admits q = true) (hq : ¬ q.SelfRename)
    (hroom : 1 ≤ c.state.cache.capacity ∨ q.mutates = true) :
    ∃ x c', Completes pg policy c i q x c' := by
  have hsafe : Safe (view pg policy false i q) _ _ q.code _ :=
    safe_code (h.own_called hi q) fun hc n hn => hc q ha n hn
  obtain ⟨tr, x, w', hx⟩ := hsafe.solo
    (J := fun s => Ready i s ∧ (1 ≤ s.cache.capacity ∨ q.mutates = true))
    (fun u a hact hinv hn hr => by
      obtain ⟨hready, hroom⟩ := hr
      have hput : ∀ key rows, a = .cachePut key rows → 1 ≤ u.now.cache.capacity := by
        rintro key rows rfl
        rcases hroom with hr | hm
        · exact hr
        · cases hm.symm.trans hact
      obtain ⟨o, r, s, ho, hp, hr'⟩ := hready.step h.unfailing hinv hn hq hput
      refine ⟨o, r, s, ho, hp, hr', hroom.imp_left fun hcap => ?_⟩
      rwa [perform_capacity hcap hp])
    (code_acts q) ⟨h.ready i, hroom⟩
  exact ⟨x, ⟨w', _⟩, hi, ha, ⟨tr, hx⟩, rfl⟩

theorem Completes.run (hs : Completes pg policy c i q x c') : Run (server pg policy) c c' := by
  obtain ⟨tr, hx⟩ := hs.solo
  have hcall : Step (server pg policy) c (.call i q) _ := .call hs.idle hs.admitted
  have hr := hx.config (c := c.put i ⟨q, q.code⟩ (.call i q) c.state) (Config.put_thread_self ..)
  rw [Config.put, Function.update_idem, ← hs.thread] at hr
  exact (Run.refl.step hcall).trans hr

theorem Run.working (hu : policy.Unfailing) (hr : Run (server pg policy) c c')
    (hw : c.state.Working) : c'.state.Working := by
  induction hr with
  | refl => exact hw
  | step _ hs ih =>
    cases hs with
    | call => exact ih
    | @act j q a k r s hj hx =>
      obtain ⟨o, ha, hp⟩ := hx
      have ha : Policy.flawless.allows q a o = true := hu ▸ ha
      exact (perform_working ih ha hp).1
    | drift hd =>
      obtain ⟨_, _, -, -, rfl⟩ := hd
      exact ⟨ih.unbroken, ih.pool⟩

theorem Run.capacity (hr : Run (server pg policy) c c') (hc : 1 ≤ c.state.cache.capacity) :
    1 ≤ c'.state.cache.capacity := by
  induction hr with
  | refl => exact hc
  | step _ hs ih =>
    cases hs with
    | call => exact ih
    | act _ hx =>
      obtain ⟨o, -, hp⟩ := hx
      exact (perform_capacity ih hp).symm ▸ ih
    | drift hd =>
      obtain ⟨_, _, -, -, rfl⟩ := hd
      exact ih

theorem AtRest.run (h : AtRest pg policy c) (hr : Run (server pg policy) c c')
    (hf : ∀ i t, c'.thread i = some t → t.code.Finished) : AtRest pg policy c' :=
  ⟨h.reachable.run hr, hf, h.unfailing, Run.working h.unfailing hr h.working⟩

theorem Completes.finished (hs : Completes pg policy c i q x c')
    (hf : ∀ i t, c.thread i = some t → t.code.Finished) {j : ℕ} {t : Thread Act Act.Result Request Reply}
    (hj : c'.thread j = some t) : t.code.Finished := by
  rw [hs.thread] at hj
  by_cases hji : j = i
  · subst hji
    rw [Function.update_self] at hj
    cases hj
    cases x <;> trivial
  · rw [Function.update_of_ne hji] at hj
    exact hf j t hj

theorem AtRest.completes (h : AtRest pg policy c) (hs : Completes pg policy c i q x c') :
    AtRest pg policy c' :=
  h.run hs.run fun _ _ => hs.finished h.finished

end rest

section quiet
variable {x : Option Reply}

theorem Quiet.start (hs : Started .empty s) (hw : s.Working) (hc : 1 ≤ s.cache.capacity) :
    Quiet pg (Config.initial s) :=
  ⟨⟨.start hs, nofun, Policy.flawless_unfailing, hw⟩, hc⟩

theorem Quiet.restart (h : Quiet pg c) (hs : Started c.state.db s) (hw : s.Working)
    (hc : 1 ≤ s.cache.capacity) : Quiet pg (Config.initial s) :=
  ⟨⟨.restart h.reachable hs, nofun, Policy.flawless_unfailing, hw⟩, hc⟩

/-- What is cached is what the database answers. -/
theorem Quiet.queryPartitions (h : Quiet pg c) {n : ℕ} {rows : List PartitionRow}
    (hc : c.state.cached t n = some rows) : c.state.db.queryPartitions t n = some rows := by
  rcases h.reachable.inv.coherent Policy.flawless_clean t n rows (Cache.get_hit hc) with hq | ⟨j, q, ho⟩
  · exact hq
  · obtain ⟨q', hown⟩ := h.own j
    cases (hown.debts Policy.flawless_clean q t ho).2

theorem Quiet.partitionsFor (h : Quiet pg c) (ht : NulFree t) (n : ℕ) :
    c.state.partitionsFor t n = c.state.db.queryPartitions (cStr t) n := by
  rw [Server.partitionsFor]
  cases hc : c.state.cached t n with
  | none => rfl
  | some rows =>
    rw [cStr_of_nulFree ht, h.queryPartitions hc]
    rfl

theorem Quiet.run (h : Quiet pg c) (hr : Run (server pg .flawless) c c')
    (hf : ∀ i t, c'.thread i = some t → t.code.Finished) : Quiet pg c' :=
  ⟨h.toAtRest.run hr hf, Run.capacity hr h.capacity⟩

theorem Quiet.completes (h : Quiet pg c) (hs : Completes pg .flawless c i q x c') : Quiet pg c' :=
  h.run hs.run fun _ _ => hs.finished h.finished

/-- Every request but one is served to its end. -/
theorem Quiet.exists_completes (h : Quiet pg c) (hi : c.thread i = none)
    (ha : Policy.flawless.admits q = true) (hq : ¬ q.SelfRename) :
    ∃ x c', Completes pg .flawless c i q x c' :=
  h.toAtRest.exists_completes hi ha hq (.inl h.capacity)

end quiet

/-! Computed runs, one request after the other. -/
section computed
variable {x : Option Reply}

/-- The request served by the thread `i` alone, with the given outcomes of its actions. -/
def completion (pg : Postgres) (policy : Policy) (c : ServerConfig) (i : ℕ) (q : Request)
    (os : List Outcome) : Option (Option Reply × ServerConfig) :=
  if (c.thread i).isNone && policy.admits q then
    ((server pg policy).alone i q q.code (c.world.next (.call i q) c.state) os).map fun r =>
      (r.1, ⟨r.2, Function.update c.thread i (some ⟨q, r.1.elim .throw .ret⟩)⟩)
  else none

theorem completes_of_completion {os : List Outcome}
    (h : completion pg policy c i q os = some (x, c')) : Completes pg policy c i q x c' := by
  simp only [completion] at h
  split at h
  · rename_i hi
    rw [Bool.and_eq_true, Option.isNone_iff_eq_none] at hi
    obtain ⟨⟨y, w'⟩, hx, he⟩ := Option.map_eq_some_iff.mp h
    cases he
    exact ⟨hi.1, hi.2, ⟨_, System.solo_of_alone hx⟩, rfl⟩
  · cases h

/-- Requests served by the threads `i`, `i + 1`, …, each with the number of its actions. -/
def completions (pg : Postgres) (policy : Policy) :
    ServerConfig → ℕ → List (Request × ℕ) → Option ServerConfig
  | c, _, [] => some c
  | c, i, (q, n) :: rest => (completion pg policy c i q (List.replicate n .ok)).bind fun r =>
      completions pg policy r.2 (i + 1) rest

theorem AtRest.completions {qs : List (Request × ℕ)} (h : AtRest pg policy c)
    (hc : IceLog.completions pg policy c i qs = some c') :
    AtRest pg policy c' ∧ Run (server pg policy) c c' := by
  induction qs generalizing c i with
  | nil =>
    cases hc
    exact ⟨h, .refl⟩
  | cons e qs ih =>
    obtain ⟨⟨x, d⟩, hd, hc⟩ := Option.bind_eq_some_iff.mp hc
    have hd := completes_of_completion hd
    obtain ⟨h', hr⟩ := ih (h.completes hd) hc
    exact ⟨h', hd.run.trans hr⟩

theorem atRest_fresh (hu : policy.Unfailing) : AtRest pg policy (Config.initial freshServer) :=
  ⟨.start (started_fresh _), nofun, hu, ⟨fun _ => nofun, .inl (List.cons_ne_nil _ _)⟩⟩

/-- What can be computed after some requests to a fresh server. -/
theorem atRest_of_check (hu : policy.Unfailing) {qs : List (Request × ℕ)} {p : ServerConfig → Bool}
    (h : (completions pg policy (.initial freshServer) 0 qs).any p = true) :
    ∃ c, AtRest pg policy c ∧ p c = true := by
  obtain ⟨c, hc, hp⟩ := (Option.any_eq_true ..).mp h
  exact ⟨c, ((atRest_fresh hu).completions hc).1, hp⟩

theorem quiet_of_check {qs : List (Request × ℕ)} {p : ServerConfig → Bool}
    (h : (completions pg .flawless (.initial freshServer) 0 qs).any p = true) :
    ∃ c, Quiet pg c ∧ p c = true := by
  obtain ⟨c, hc, hp⟩ := (Option.any_eq_true ..).mp h
  have hcap : 1 ≤ (Config.initial freshServer : ServerConfig).state.cache.capacity := by
    change 1 ≤ 10
    omega
  obtain ⟨hrest, hr⟩ := (atRest_fresh Policy.flawless_unfailing).completions hc
  exact ⟨c, ⟨hrest, Run.capacity hr hcap⟩, hp⟩

end computed
end IceLog
