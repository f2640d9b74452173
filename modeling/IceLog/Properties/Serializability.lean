import IceLog.Properties.Acknowledged
import IceLog.Properties.Freshness
import IceLog.Server.Serial

/-! The requests that change tables are strictly serializable: whatever runs at the same time, they
have the effects and the answers that they would have had one after the other. -/
namespace IceLog

open Interleaved Serial

variable {pg : Postgres} {policy : Policy} {c c' d : ServerConfig} {i n m : ℕ} {q q' : Request}
  {a : Act} {r : a.Result} {e : ServerEvent} {v v' w : Moment} {s : Server} {x : Reply}
  {P : Reply → Prop} {t : String}

abbrev ServerPoint : Type := Point Act Act.Result Request Server ℕ

/-- The request changes tables if it succeeds. -/
def Request.Changes (q : Request) : Prop := q.Commits ∨ q.namingStatement.isSome = true

/-- The reply is a success, and says `n` if it says a number. -/
def Reply.Tells (n : ℕ) (x : Reply) : Prop :=
  x.Acknowledges ∧ ∀ r, x = .snapshot r → r.snapshotId = n

/-- The answer to a statement that gives a table a name arrives if the statement is carried out. -/
def Policy.Hears (policy : Policy) : Prop :=
  ∀ q conn sql, sql.namesTables = true →
    policy.allows q (.execParams conn sql) (.answer .unheard) = false

/-- In the order `L` the requests lead, one after the other, from what is stored at `c` to what is
stored at `c'`. It has each thread once, none that had stopped at `c`, and agrees with the order of
requests that did not overlap.
All that has been acknowledged since `c` is in it; and what is in it and has stopped has been
acknowledged, unless the answer of the database did not arrive. -/
structure Serializes (pg : Postgres) (policy : Policy) (c c' : ServerConfig)
    (L : List ServerPoint) : Prop where
  serial : Serially (Request.Does pg policy.Steady) c.state.db.catalog L c'.state.db.catalog
  once : (L.map Point.thread).Nodup
  realTime : ∀ d, Run (server pg policy) c d → Run (server pg policy) d c' →
    L.Pairwise fun p p' => d.thread p.thread = none →
      ∀ th, d.thread p'.thread = some th → ¬ th.code.Finished
  running : ∀ p ∈ L, ∀ th, c.thread p.thread = some th → ¬ th.code.Finished
  called : ∀ p ∈ L, ∃ th, c'.thread p.thread = some th ∧ th.request = p.request
  acknowledged : ∀ i q x, c.thread i = none → c'.Returned i q x → x.Acknowledges → q.Changes →
    ∃ p ∈ L, p.thread = i ∧ p.request = q ∧ x.Tells p.told
  answered : ∀ p ∈ L, ∀ th, c'.thread p.thread = some th → th.code.Finished →
    p.request.Commits ∨ policy.Hears → ∃ x, c'.Returned p.thread p.request x ∧ x.Tells p.told

/-! The numbers of commits. -/

/-- The pointer of the table is the number that is told. -/
theorem Request.Does.moves {V V' : Catalog} {steady : Prop} {call : CommitCall}
    (h : q.Does pg steady n V V') (hcall : q.commitCall = some call) :
    ∃ id r r', V.Finds (cStr call.tableName) id r ∧ (V' id).table = some r' ∧
      r'.currentSnapshotId = n := by
  cases h with
  | @committed _ _ call' id _ r x hcall' hf _ _ _ hcommit =>
    cases hcall.symm.trans hcall'
    obtain ⟨r₀, z, -, -, rfl⟩ := hcommit
    exact ⟨id, r, _, hf, by rw [Function.update_self], rfl⟩
  | _ => cases hcall

theorem CommitEffect.told {parent : ℕ} {op : String} {news : List PartitionRow} {dels : List String}
    (h : CommitEffect pg policy t parent op news dels n v v') (hu : v.now.db.UniqueNames)
    {steady : Prop} (hdoes : q.Does pg steady m v.now.db.catalog v'.now.db.catalog)
    (hcall : q.commitCall = some ⟨t, parent, op, news, dels⟩) : n = m := by
  obtain ⟨id, r, hf, -, -, ⟨r₀, z, -, -, hw⟩, -⟩ := h.table
  obtain ⟨id', r', r'', hfinds, htable, rfl⟩ := hdoes.moves hcall
  cases hf.symm.trans ((Db.find_iff hu).mpr hfinds)
  have htable' : (v'.now.db.slice id).table = some { r₀ with currentSnapshotId := n } :=
    congrArg Slice.table hw
  cases htable'.symm.trans htable
  rfl

/-! Where in the history the requests take effect. -/

/-- A thread that has not been called at `c` has acted after it only. -/
theorem Reachable.since (h : Reachable pg policy c) (hi : c.thread i = none)
    (hr : Run (server pg policy) c c') (hb : (v.next (.act i q a r) s).Before c'.world) :
    c.world.Before v := by
  have hno : ¬ (v.next (.act i q a r) s).Before c.world := by
    intro hb
    obtain ⟨th, hth, -⟩ := h.traced.request i q a r _ hb.mem_past
    cases hi.symm.trans hth
  rcases hb.total hr.before with hb | hb
  · exact absurd hb hno
  · rcases World.before_next_iff.mp hb with heq | hb
    · exact absurd (heq ▸ .refl) hno
    · exact hb

/-- The event of an action carries the request that is answered. -/
theorem Reachable.request_of_returned (h : Reachable pg policy c) (hx : c.Returned i q x)
    (hb : (v.next (.act i q' a r) s).Before c.world) : q' = q := by
  obtain ⟨th, hth, hreq⟩ := h.traced.request i q' a r _ hb.mem_past
  cases hx.symm.trans hth
  exact hreq.symm

/-- An acknowledged `COMMIT` has taken effect. -/
theorem Reachable.committed (h : Reachable pg policy c) (hc : policy.Clean)
    (hcm : policy.CarriesOut) (hx : c.Returned i q x) (hok : x.Acknowledges) (hq : q.Commits) :
    ∃ v a r s, (v.next (.act i q a r) s).Before c.world ∧ ¬ v.now.db.SameRows s.db ∧
      ∀ y, x = .snapshot y → ∃ call, q.commitCall = some call ∧ CommitEffect pg policy
        call.tableName call.parentSnapshotId call.operation call.newPartitions
          call.deletedPartitionKeys y.snapshotId v (v.next (.act i q a r) s) := by
  obtain ⟨u, -, -, ha, hserved⟩ := h.replied hx
  have hcalm : ∀ t ∈ q.tableNames, Calm policy true [t] (cStr t) := fun t ht =>
    .inr ⟨hc, by simp [cStr_of_nulFree (hc q ha t ht)]⟩
  cases hq with
  | @commit q call hcall =>
    obtain ⟨y, rfl, hans⟩ := served_commitCall hcall hserved
    obtain ⟨v, v', -, ⟨q', a, r, s, rfl⟩, hb, -, he⟩ := hans.effected hok (hcm q)
    obtain rfl := h.request_of_returned hx hb
    have he := he (hcalm _ (Request.tableName_mem hcall))
    refine ⟨v, a, r, s, hb, fun hsame => he.not_retitled hc hsame.retitled, ?_⟩
    rintro _ ⟨⟩
    exact ⟨call, hcall, he⟩
  | @alter t schema =>
    obtain ⟨y, rfl, hans⟩ := hserved
    obtain ⟨v, v', -, ⟨q', a, r, s, rfl⟩, hb, -, he⟩ := (hans hok).effected rfl (hcm _)
    obtain rfl := h.request_of_returned hx hb
    have he := he (hcalm t (List.mem_singleton_self t))
    exact ⟨v, a, r, s, hb, fun hsame => he.not_retitled hsame.retitled, nofun⟩
  | @drop t purge =>
    obtain ⟨y, rfl, hans⟩ := hserved
    obtain ⟨v, v', -, ⟨q', a, r, s, rfl⟩, hb, -, he⟩ := hans.effected hok (hcm _)
    obtain rfl := h.request_of_returned hx hb
    have he := he (hcalm t (List.mem_singleton_self t))
    exact ⟨v, a, r, s, hb, he.not_sameRows, nofun⟩

/-- An acknowledged request that gives a name has been told that its statement was carried out. -/
theorem Reachable.named (h : Reachable pg policy c) (hr : Run (server pg policy) c c')
    (hi : c.thread i = none) (hx : c'.Returned i q x) (hok : x.Acknowledges)
    (hq : q.namingStatement.isSome = true) : ∃ v a r s y, c.world.Before v ∧
      (v.next (.act i q a r) s).Before c'.world ∧ a.Confirmed r ∧ x = .operation y := by
  have h' := h.run hr
  obtain ⟨u, -, -, -, -, hserved⟩ := h.served hr hi hx
  have hop : ∃ y, x = .operation y := by
    cases q with
    | createTable => exact hserved.imp fun _ => And.left
    | alterTable t alteration =>
      cases alteration with
      | rename newName => exact hserved.imp fun _ => And.left
      | _ => cases hq
    | _ => cases hq
  obtain ⟨y, rfl⟩ := hop
  have htold := (Request.tells hq).leaves (h'.traced.leaves i _ hx)
  rcases htold.mp ⟨y, rfl, hok⟩ with hf | ⟨⟨a, r⟩, hm, hconf⟩
  · exact hf.elim
  · obtain ⟨s₀, q', hm⟩ := mem_actionsOf.mp hm
    obtain ⟨v, s, -, hb⟩ := World.before_of_mem_past hm
    obtain rfl := h'.request_of_returned hx hb
    exact ⟨v, a, r, s, y, h.since hi hr hb, hb, hconf, rfl⟩

/-- Where answers arrive, a statement that takes effect is confirmed. -/
theorem Reachable.confirmed (h : Reachable pg policy c) (hh : policy.Hears)
    (hs : Step (server pg policy) c (.act i q a r) c')
    (he : TakesEffect c.world (.act i q a r) c'.state) (hn : a.NamesTable) : a.Confirmed r := by
  rcases he with hm | ⟨_, _, _, _, heq, hconf⟩
  swap
  · cases heq
    exact hconf
  have hnoCommit : a.noCommit := by
    obtain ⟨conn, sql, rfl, -⟩ := hn
    exact nofun
  cases hs with
  | @act _ _ _ k _ s hi hx =>
    obtain ⟨o, ha, hx⟩ := hx
    change ¬ c.state.db.SameRows s.db at hm
    rcases perform_names hnoCommit (h.needs hi) hx with ⟨hsame, -⟩ | hnaming
    · exact absurd hsame hm
    · generalize s.db = db' at hm hnaming
      cases hnaming with
      | @run conn sql r res p hnames hrun hans =>
        have hans : r = res := by
          rcases hans with ⟨-, hr⟩ | ⟨rfl, -⟩
          · exact hr
          · cases (hh q conn sql hnames).symm.trans ha
        subst hans
        cases sql with
        | insertTable name schema spec props =>
          rcases Sql.run_insertTable hrun with ⟨-, rfl⟩ | ⟨row, -, -, -, -, -, -, -, rfl, -⟩
          · rw [Db.apply_none] at hm
            exact absurd (Db.sameRows_draw _ _) hm
          · rfl
        | renameTable newName oldName =>
          simp only [Sql.run] at hrun
          split at hrun <;> cases hrun
          rfl
        | _ => cases hnames

/-- What takes effect for a request that commits is its `COMMIT`. -/
theorem Reachable.commits (h : Reachable pg policy c) (hq : q.Commits)
    (hb : (v.next (.act i q a r) s).Before c.world) (he : TakesEffect v (.act i q a r) s) :
    Commits i q v c.world := by
  obtain ⟨d, d', hd, rfl, hs, hw, -⟩ := h.step_of_before hb
  have hstate : d'.state = s := congrArg World.now hw
  obtain ⟨_, _, _, _, heq, ha⟩ := hd.decides hs (hstate ▸ he)
  cases heq
  rcases ha with ⟨conn, rfl⟩ | ha
  · exact ⟨conn, r, s, hb⟩
  · cases hs with
    | act hi =>
      have hl := hd.traced.leaves i _ hi
      exact absurd ha ((Request.unnaming hq.namingStatement).reaches hl.reaches).1

theorem Request.Commits.settles (h : q.Commits) : q.Settles Reply.Acknowledges := by
  have hop : ∀ {P : Reply → Prop}, q.Settles P → (∀ y, P y → y.Acknowledges) →
      q.Settles Reply.Acknowledges := fun hs hP =>
    ⟨hs.once, hs.closing.mono fun _ _ hx ha r => ⟨(hx ha r).1.mono hP, (hx ha r).2⟩⟩
  cases h with
  | commit hcall =>
    refine hop (settles_commitCall hcall) ?_
    rintro _ ⟨y, rfl, hy⟩
    exact hy
  | alter =>
    refine hop settles_alterTable ?_
    rintro _ ⟨y, rfl, hy⟩
    exact hy
  | drop =>
    refine hop settles_dropTable ?_
    rintro _ ⟨y, rfl, hy⟩
    exact hy

/-- What takes effect for a request that does not commit gives a name. -/
theorem Reachable.namesTable (h : Reachable pg policy c) (hs : Step (server pg policy) c
    (.act i q a r) c') (he : TakesEffect c.world (.act i q a r) c'.state) (hq : ¬ q.Commits) :
    a.NamesTable := by
  obtain ⟨_, _, _, _, heq, ha⟩ := h.decides hs he
  cases heq
  refine ha.resolve_left ?_
  rintro ⟨conn, rfl⟩
  obtain ⟨-, k, hl⟩ := h.at_action hs
  rcases Request.commits_cases hl with ⟨call, hcall⟩ | ⟨t, schema, rfl⟩ | ⟨t, purge, rfl⟩
  · exact hq (.commit hcall)
  · exact hq .alter
  · exact hq .drop

/-- A request whose statement has been confirmed has acknowledged it when it stops. -/
theorem Reachable.tells (h : Reachable pg policy c) {th : Thread Act Act.Result Request Reply}
    (hth : c.thread i = some th) (hf : th.code.Finished) (hm : (s, .act i q a r) ∈ c.world.past)
    (hconf : a.Confirmed r) : ∃ y, c.Returned i q (.operation y) ∧ y.success = true := by
  obtain ⟨th', hth', hreq⟩ := h.traced.request i q a r _ hm
  obtain rfl := Option.some.inj (hth.symm.trans hth')
  have hl := h.traced.leaves i th hth
  obtain ⟨q, code⟩ := th
  obtain rfl : q = _ := hreq
  have hact : (⟨a, r⟩ : Σ a : Act, a.Result) ∈ actionsOf i c.world := mem_actionsOf.mpr ⟨s, q, hm⟩
  have hnaming : q.namingStatement.isSome = true := by
    obtain ⟨d, d', hd, -, hs, -⟩ := h.occurred hm
    obtain ⟨-, k, hl⟩ := hd.at_action hs
    obtain ⟨_, _, hsql, -⟩ := ((Request.naming_acts q).reaches hl.reaches).1 hconf.namesTable
    exact Option.isSome_iff_exists.mpr ⟨_, hsql⟩
  have htells := (Request.tells hnaming).leaves hl
  cases code with
  | ret x =>
    obtain ⟨y, rfl, hy⟩ := htells.mpr (.inr ⟨_, hact, hconf⟩)
    exact ⟨y, hth, hy⟩
  | throw => exact absurd (.inr ⟨_, hact, hconf⟩) htells
  | act a k => exact absurd hf Prog.finished_act

/-- What a commit is told is the number under which it has been stored. -/
theorem told_eq {hc : policy.Clean} {L : List ServerPoint}
    (hL : Linearized (catalog pg policy hc) c c' L) (h' : Reachable pg policy c')
    {p : ServerPoint} (hp : p ∈ L) (hm : p.moment = v)
    (hafter : p.after = v.next (.act i q a r) s) (hb : (v.next (.act i q a r) s).Before c'.world)
    (hq : p.request = q)
    (hnum : ∀ y, x = .snapshot y → ∃ call, q.commitCall = some call ∧ CommitEffect pg policy
      call.tableName call.parentSnapshotId call.operation call.newPartitions
        call.deletedPartitionKeys y.snapshotId v (v.next (.act i q a r) s)) :
    ∀ y, x = .snapshot y → y.snapshotId = p.told := by
  intro y hy
  obtain ⟨call, hcall, heffect⟩ := hnum y hy
  have hu := (h'.invAt ((World.before_next _ _ _).trans hb)).sound.backend.unique
  have hdoes := (hL.occurs p hp).does
  rw [hm, hafter, hq] at hdoes
  exact heffect.told hu hdoes hcall

/-- What is linear in the stored tables serializes. -/
theorem Reachable.serializes_linear (h : Reachable pg policy c) {hc : policy.Clean}
    (hcm : policy.CarriesOut) (hr : Run (server pg policy) c c') {L : List ServerPoint}
    (hL : Linearized (catalog pg policy hc) c c' L) : Serializes pg policy c c' L := by
  have h' := h.run hr
  refine ⟨hL.serial, hL.once, fun d hcd hdc => hL.realTime hcd hdc, fun p hp th hth hf => ?_,
    fun p hp => ?_, fun i q x hi hx hok hq => ?_, fun p hp th hth hf hq => ?_⟩
  · obtain ⟨b, -, hcb, -, ⟨a, k, hb⟩, -⟩ := (hL.occurs p hp).running hr
    cases (hcb.finished_eq hth hf).symm.trans hb
    exact Prog.finished_act hf
  · obtain ⟨a, r, s, hafter, -⟩ := (hL.occurs p hp).acts
    have hb := (hL.occurs p hp).upto
    rw [hafter] at hb
    exact h'.traced.request _ _ _ _ _ hb.mem_past
  · by_cases hcommits : q.Commits
    · obtain ⟨v, a, r, s, hb, hmoved, hnum⟩ := h'.committed hc hcm hx hok hcommits
      obtain ⟨p, hp, hpi, hpq, hpv, hpa⟩ := hL.all (h.since hi hr hb) hb (.inl hmoved)
      exact ⟨p, hp, hpi, hpq, hok, told_eq hL h' hp hpv hpa hb hpq hnum⟩
    · have hnaming := hq.resolve_left hcommits
      obtain ⟨v, a, r, s, y, hcv, hb, hconf, rfl⟩ := h.named hr hi hx hok hnaming
      obtain ⟨p, hp, hpi, hpq, -, -⟩ := hL.all hcv hb (.inr ⟨i, q, a, r, rfl, hconf⟩)
      exact ⟨p, hp, hpi, hpq, hok, nofun⟩
  · obtain ⟨a, r, s, hafter, he⟩ := (hL.occurs p hp).acts
    have hb := (hL.occurs p hp).upto
    rw [hafter] at hb
    by_cases hcommits : p.request.Commits
    · have hm := h'.commits hcommits hb he
      obtain ⟨x, hx, hok⟩ := h'.commits_acknowledged hcommits.settles hm hth hf
      refine ⟨x, hx, hok, ?_⟩
      obtain ⟨v, a', r', s', hb', hmoved, hnum⟩ := h'.committed hc hcm hx hok hcommits
      have hm' := h'.commits hcommits hb' (.inl hmoved)
      obtain rfl := h'.commits_unique hcommits.settles hm hm'
      obtain ⟨heq, rfl⟩ := hb.next_unique hb'
      cases heq
      exact told_eq hL h' hp rfl hafter hb rfl hnum
    · have hh := hq.resolve_left hcommits
      obtain ⟨d, d', hd, hdw, hs, hw, -⟩ := h'.step_of_before hb
      have hstate : d'.state = s := congrArg World.now hw
      have he : TakesEffect d.world (.act p.thread p.request a r) d'.state := by
        rw [hdw, hstate]
        exact he
      have hnames := hd.namesTable hs he hcommits
      have hconf := hd.confirmed hh hs he hnames
      obtain ⟨y, hy, hok⟩ := h'.tells hth hf hb.mem_past hconf
      exact ⟨_, hy, hok, nofun⟩

theorem Reachable.serializes (h : Reachable pg policy c) (hc : policy.Clean)
    (hcm : policy.CarriesOut) (hr : Run (server pg policy) c c') :
    ∃ L, Serializes pg policy c c' L := by
  obtain ⟨L, hL⟩ := (catalog pg policy hc).linearized h hr
  exact ⟨L, h.serializes_linear hcm hr hL⟩

/-- The requests that change tables are strictly serializable. -/
theorem mutations_serialize (hc : policy.Clean) (hcm : policy.CarriesOut)
    (h : Reachable pg policy c) (hr : Run (server pg policy) c c') :
    ∃ L, Serializes pg policy c c' L :=
  h.serializes hc hcm hr

/-- A table is created, and gets its first commit while another request waits to rename it. -/
theorem mutations_serialize_commit : ∃ (c : ServerConfig) (L : List ServerPoint),
    (c.thread 2).isSome = true ∧ c.reply 2 = none ∧
      Serializes .plain .flawless (Config.initial freshServer) c L ∧
        (∃ p ∈ L, p.thread = 0 ∧ p.request = .createTable "t" "\x7b\x7d" "" []) ∧
        ∃ p ∈ L, p.thread = 1 ∧ p.request = appendFile ∧ p.told = 1 := by
  let create : Request := .createTable "t" "\x7b\x7d" "" []
  let rename : Request := .alterTable "t" (.rename "u")
  obtain ⟨c, hr, hp⟩ := (server .plain .flawless).run_of_check (c := Config.initial freshServer)
    (serve 0 create 5 ++ .call 2 rename :: serve 1 appendFile 13)
    (p := fun c => decide (c.reply 0 = some (create, .operation ⟨true, ""⟩) ∧
      c.reply 1 = some (appendFile, .snapshot ⟨true, 1, ""⟩) ∧ (c.thread 2).isSome = true ∧
        c.reply 2 = none)) (by decide +kernel)
  obtain ⟨h₀, h₁, h₂, hnone⟩ := of_decide_eq_true hp
  obtain ⟨L, hL⟩ : ∃ L, Serializes .plain .flawless (Config.initial freshServer) c L :=
    mutations_serialize Policy.flawless_clean Policy.flawless_carriesOut
      (.start (started_fresh .empty)) hr
  obtain ⟨p₀, hp₀, hi₀, hq₀, -⟩ := hL.acknowledged 0 create _ rfl (Config.returned_iff.mpr h₀) rfl
    (.inr rfl)
  obtain ⟨p₁, hp₁, hi₁, hq₁, -, htold⟩ := hL.acknowledged 1 appendFile _ rfl
    (Config.returned_iff.mpr h₁) rfl (.inl (.commit rfl))
  exact ⟨c, L, h₂, hnone, hL, ⟨p₀, hp₀, hi₀, hq₀⟩, p₁, hp₁, hi₁, hq₁, (htold _ rfl).symm⟩

end IceLog
