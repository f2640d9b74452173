import IceLog.Properties.Freshness
import IceLog.Properties.SchemaHistory
import IceLog.Server.Settling

/-! Concurrent changes of the schema of one table. -/
namespace IceLog

open Interleaved Serial

variable {pg : Postgres} {policy : Policy} {c₀ c c' : ServerConfig} {e : ServerEvent} {i k : ℕ}
  {q : Request} {t schema : String} {r r₀ : TableRec}

/-- A new schema for a table: who stored it, after which moment, and as what. -/
structure Update where
  thread : ℕ
  schema : String
  moment : Moment
  entry : HistoryRec

/-- The request is for the table `t`, whatever follows a NUL in the name. -/
def Request.UpdatesAs (t schema : String) (q : Request) : Prop :=
  ∃ u, cStr u = t ∧ q = .alterTable u (.newSchemaJson schema)

def Request.DetachesAs (t : String) (q : Request) : Prop := ∃ u, cStr u = t ∧ q.Detaches u

/-- From `c₀` to `c`, `t` is the table `k`, and every `COMMIT` is carried out. No change of its schema
is between its `COMMIT` and its reply at `c₀`, and none is running at `c`. -/
structure Updating (pg : Postgres) (policy : Policy) (c₀ c : ServerConfig) (t : String) (k : ℕ)
    (r₀ : TableRec) : Prop where
  reachable : Reachable pg policy c₀
  carriesOut : policy.CarriesOut
  found : c₀.state.db.find t = some (k, r₀)
  run : Run (server pg policy) c₀ c
  before : ∀ i q schema m th, q.UpdatesAs t schema → Commits i q m c₀.world →
    c₀.thread i = some th → th.code.Finished
  after : ∀ i th schema, c.thread i = some th → th.request.UpdatesAs t schema → th.code.Finished
  kept : ∀ i th, c.thread i = some th → th.request.DetachesAs t →
    ∃ th₀, c₀.thread i = some th₀ ∧ th₀.code.Finished
  fits : (c.state.db.chronicle k).length + 1 < 2 ^ 31

/-- The successful updates `L`, in their order, account for all that is stored. -/
structure NoneLost (pg : Postgres) (c₀ c : ServerConfig) (t : String) (k : ℕ) (r₀ : TableRec)
    (L : List Update) : Prop where
  successes : ∀ i schema, (∃ a ∈ L, a.thread = i ∧ a.schema = schema) ↔
    (∀ th, c₀.thread i = some th → ¬ th.code.Finished) ∧
      ∃ q y, q.UpdatesAs t schema ∧ c.Returned i q (.operation y) ∧ y.success = true
  once : (L.map Update.thread).Nodup
  order : L.Pairwise fun a b => a.moment.Before b.moment ∧ a.moment ≠ b.moment
  locked : ∀ a ∈ L, c₀.world.Before a.moment ∧ a.moment.Before c.world ∧
    (a.moment.now.tableLocks t).writer = some a.thread
  table : ∃ r, c.state.db.find t = some (k, r) ∧ r.schemaVersion = r₀.schemaVersion + L.length ∧
    (L = [] → r.schemaJson = r₀.schemaJson) ∧
    ∀ a, L.getLast? = some a → pg.jsonb (cStr a.schema) = some r.schemaJson
  history : c.state.db.chronicle k = c₀.state.db.chronicle k ++ L.map Update.entry
  entries : ∀ (j : ℕ) (a : Update), L[j]? = some a →
    a.entry.schemaVersion = r₀.schemaVersion + j + 1 ∧
    pg.jsonb (cStr a.schema) = some a.entry.schemaJson

/-! What each step adds. -/

/-- The update is a `COMMIT` that has been sent since `c₀`. -/
structure Update.Occurs (pg : Postgres) (c₀ c : ServerConfig) (t : String) (a : Update) : Prop where
  start : c₀.world.Before a.moment
  commits : Commits a.thread (.alterTable t (.newSchemaJson a.schema)) a.moment c.world
  lock : (a.moment.now.tableLocks t).writer = some a.thread
  json : pg.jsonb (cStr a.schema) = some a.entry.schemaJson

/-- The updates so far. -/
structure Tally (pg : Postgres) (c₀ c : ServerConfig) (t : String) (k : ℕ) (r₀ : TableRec)
    (L : List Update) : Prop where
  table : ∃ r, c.state.db.find t = some (k, r) ∧ (L = [] → r.schemaJson = r₀.schemaJson)
  history : c.state.db.chronicle k = c₀.state.db.chronicle k ++ L.map Update.entry
  occurs : ∀ a ∈ L, a.Occurs pg c₀ c t
  order : L.Pairwise fun a b => a.moment.Before b.moment ∧ a.moment ≠ b.moment
  stays : ∀ v, c₀.world.Before v → v.Before c.world → ∃ r, v.now.db.find t = some (k, r)
  complete : ∀ v e s, c₀.world.Before v → (v.next e s).Before c.world →
    s.db.chronicle k ≠ v.now.db.chronicle k → ∃ a ∈ L, a.moment = v

theorem Request.UpdatesAs.eq_of_nulFree (h : q.UpdatesAs t schema)
    (hn : ∀ u ∈ q.tableNames, NulFree u) : q = .alterTable t (.newSchemaJson schema) := by
  obtain ⟨u, hu, rfl⟩ := h
  rw [← hu, cStr_of_nulFree (hn u (List.mem_singleton_self u))]

theorem Request.updatesAs (ht : NulFree t) :
    (Request.alterTable t (.newSchemaJson schema)).UpdatesAs t schema :=
  ⟨t, cStr_of_nulFree ht, rfl⟩

theorem Update.Occurs.mono {a : Update} (h : a.Occurs pg c₀ c t) (hb : c.world.Before c'.world) :
    a.Occurs pg c₀ c' t :=
  ⟨h.start, h.commits.mono hb, h.lock, h.json⟩

/-- The table keeps its name where no request takes it off. -/
theorem Reachable.stays_found (hc : policy.Clean) (h : Reachable pg policy c)
    (hs : Step (server pg policy) c e c') (hf : c.state.db.find t = some (k, r))
    (hkept : ∀ i q a x, e = .act i q a x → ¬ q.Detaches t) :
    ∃ r', c'.state.db.find t = some (k, r') := by
  obtain ⟨hr, hname⟩ := Db.row_of_find hf
  obtain ⟨hn, hlive⟩ := Db.named_iff.mp hname
  obtain ⟨r', hr', hn', hlive'⟩ := (h.promise hs).kept hc k r hr hlive (hn.symm ▸ hkept)
  refine ⟨r', (Db.find_eq_some_iff ((h.step hs).inv.consistent hc).unique).mpr ⟨hr', ?_⟩⟩
  exact Db.named_iff.mpr ⟨hn'.trans hn, hlive'⟩

/-- A step either leaves the schema and the history of the table, or is the `COMMIT` of an update
that stores the next version. -/
theorem Reachable.update_step (hc : policy.Clean) (h : Reachable pg policy c)
    (hs : Step (server pg policy) c e c') (hf : c.state.db.find t = some (k, r)) {r' : TableRec}
    (hf' : c'.state.db.find t = some (k, r')) :
    (r'.schemaJson = r.schemaJson ∧ c'.state.db.chronicle k = c.state.db.chronicle k) ∨
      ∃ i schema entry, (c.state.tableLocks t).writer = some i ∧
        Commits i (.alterTable t (.newSchemaJson schema)) c.world c'.world ∧
        pg.jsonb (cStr schema) = some entry.schemaJson ∧
        c'.state.db.chronicle k = c.state.db.chronicle k ++ [entry] := by
  obtain ⟨hr, hname⟩ := Db.row_of_find hf
  obtain ⟨hr', -⟩ := Db.row_of_find hf'
  obtain ⟨hn, -⟩ := Db.named_iff.mp hname
  have hp := h.promise hs
  have hslices := hp.writes hc k
  rcases Db.altered_of_slices hr hr' (hslices.imp_right fun ⟨_, _, hw⟩ => hw.change) with
    ⟨-, hjson, hchron⟩ | ⟨hversion, -⟩
  · exact .inl ⟨hjson, hchron⟩
  refine .inr ?_
  obtain ⟨i, q, conn, x, rfl, hq⟩ := hp.alters hc k r r' hr hr' hversion
  rw [hn] at hq
  have hrows : ¬ c.state.db.SameRows c'.state.db := by
    intro hsame
    rw [hsame.tables, hr] at hr'
    cases hr'
    exact hversion rfl
  obtain ⟨schema, rfl⟩ : ∃ schema, q = .alterTable t (.newSchemaJson schema) := by
    cases q with
    | alterTable u a =>
      cases a with
      | newSchemaJson schema =>
        obtain rfl : u = t := hq
        exact ⟨schema, rfl⟩
      | _ => exact hq.elim
    | _ => exact hq.elim
  have ht : NulFree t := hc _ (h.admits hs) t (List.mem_singleton_self t)
  obtain ⟨k', r₁, hf₁, ⟨r₂, schema', l, now, hr₂, hjson, hlt, hw⟩, -⟩ :=
    (h.alterEffect hc hs hrows).table
  rw [cStr_of_nulFree ht] at hf₁
  cases hf.symm.trans hf₁
  have hlock : (c.state.tableLocks t).writer = some i := by
    rcases hslices with hsame | ⟨j, hj, hwrites⟩
    · have htable := congrArg Slice.table hsame
      change c'.state.db.tables.row k = c.state.db.tables.row k at htable
      rw [htable, hr] at hr'
      cases hr'
      exact absurd rfl hversion
    · cases hj
      exact hn ▸ hwrites.before r hr
  let entry : HistoryRec := ⟨k, toInt32 (r.schemaVersion + 1), schema', now,
    cStr "schema evolution via AlterTable"⟩
  have hhistory : (c'.state.db.slice k).history =
      ((c.state.db.slice k).insertHistory l entry).history := by
    rw [hw]
    rfl
  refine ⟨i, schema, entry, hlock, ⟨conn, x, c'.state, ?_⟩, hjson,
    Db.chronicle_snoc hlt hhistory⟩
  rw [hs.world_eq]
  exact .refl

theorem Tally.step {L : List Update} (hc : policy.Clean) (h : Reachable pg policy c)
    (hs : Step (server pg policy) c e c') (hb : c₀.world.Before c.world)
    (hkept : ∀ i q a x, e = .act i q a x → ¬ q.Detaches t) (ht : Tally pg c₀ c t k r₀ L) :
    ∃ L', Tally pg c₀ c' t k r₀ L' := by
  have hw := hs.world_eq
  have hnext : c.world.Before c'.world := hw ▸ World.before_next _ _ _
  obtain ⟨r, hf, hfirst⟩ := ht.table
  obtain ⟨r', hf'⟩ := h.stays_found hc hs hf hkept
  have hstays : ∀ v, c₀.world.Before v → v.Before c'.world → ∃ r, v.now.db.find t = some (k, r) := by
    intro v hv hv'
    rcases World.before_next_iff.mp (hw ▸ hv') with rfl | hv'
    · exact ⟨r', hf'⟩
    · exact ht.stays v hv hv'
  rcases h.update_step hc hs hf hf' with
    ⟨hjson, hchron⟩ | ⟨i, schema, entry, hlock, hcommit, hjson, hchron⟩
  · refine ⟨L, ⟨r', hf', fun hL => hjson.trans (hfirst hL)⟩, hchron.trans ht.history,
      fun a ha => (ht.occurs a ha).mono hnext, ht.order, hstays, fun v e' s hv hv' hne => ?_⟩
    rcases World.before_next_iff.mp (hw ▸ hv') with heq | hv'
    · obtain ⟨rfl, -, rfl⟩ := World.next_inj heq
      exact absurd hchron hne
    · exact ht.complete v e' s hv hv' hne
  · refine ⟨L ++ [⟨i, schema, c.world, entry⟩], ⟨r', hf', by simp⟩, ?_, fun a ha => ?_, ?_, hstays,
      fun v e' s hv hv' hne => ?_⟩
    · rw [hchron, ht.history, List.map_append, List.append_assoc]
      rfl
    · rcases List.mem_append.mp ha with ha | ha
      · exact (ht.occurs a ha).mono hnext
      · obtain rfl := List.mem_singleton.mp ha
        exact ⟨hb, hcommit, hlock, hjson⟩
    · refine List.pairwise_append.mpr ⟨ht.order, List.pairwise_singleton _ _, fun a ha b hb' => ?_⟩
      obtain rfl := List.mem_singleton.mp hb'
      -- what has been committed so far has been committed before this step
      obtain ⟨conn, x, s, hlast⟩ := (ht.occurs a ha).commits
      refine ⟨(World.before_next _ _ _).trans hlast, fun heq => ?_⟩
      have hle := hlast.length_le
      rw [show a.moment = c.world from heq] at hle
      exact absurd hle (by simp)
    · rcases World.before_next_iff.mp (hw ▸ hv') with heq | hv'
      · obtain ⟨rfl, -, -⟩ := World.next_inj heq
        exact ⟨_, List.mem_append_right _ (List.mem_singleton_self _), rfl⟩
      · obtain ⟨a, ha, rfl⟩ := ht.complete v e' s hv hv' hne
        exact ⟨a, List.mem_append_left _ ha, rfl⟩

namespace Updating

variable (hc : policy.Clean) (h : Updating pg policy c₀ c t k r₀)
include hc h

/-- No request that takes the table off its name makes a step. -/
theorem not_detaches {d d' : ServerConfig} (hd : Reachable pg policy d)
    (hr₀ : Run (server pg policy) c₀ d) (hr : Run (server pg policy) d' c)
    (hs : Step (server pg policy) d e d') (i : ℕ) (q : Request) (a : Act) (x : a.Result)
    (he : e = .act i q a x) : ¬ q.Detaches t := by
  subst he
  intro hdet
  have ht : NulFree t := by
    refine hc q (hd.admits hs) t ?_
    cases q with
    | dropTable => exact List.mem_singleton.mpr hdet.symm
    | alterTable u b =>
      cases b with
      | rename =>
        obtain rfl : u = t := hdet
        exact List.mem_cons_self ..
      | _ => exact hdet.elim
    | _ => exact hdet.elim
  cases hs with
  | @act _ _ _ k _ _ hi hx =>
    have hrun := (Run.refl.step (.act hi hx)).trans hr
    obtain ⟨th, hth, hq⟩ := hrun.request_eq hi
    obtain ⟨th₀, hth₀, hf⟩ := h.kept i th hth ⟨t, cStr_of_nulFree ht, hq ▸ hdet⟩
    cases hi.symm.trans (hr₀.finished_eq hth₀ hf)
    exact hf

theorem tally : ∃ L, Tally pg c₀ c t k r₀ L := by
  suffices hall : ∀ d, Run (server pg policy) c₀ d → Run (server pg policy) d c →
      ∃ L, Tally pg c₀ d t k r₀ L from hall c h.run .refl
  intro d hd
  induction hd with
  | refl =>
    refine fun _ => ⟨[], ⟨r₀, h.found, fun _ => rfl⟩, by simp, by simp, .nil, fun v hv hv' => ?_,
      fun v e s hv hv' => ?_⟩
    · exact hv.antisymm hv' ▸ ⟨r₀, h.found⟩
    · have hle := hv.length_le.trans_lt (Nat.lt_succ_self _)
      exact absurd hv'.length_le (by simpa using hle)
  | step hr hs ih =>
    intro hrest
    obtain ⟨L, hL⟩ := ih ((Run.refl.step hs).trans hrest)
    have hd := h.reachable.run hr
    exact hL.step hc hd hs hr.before (h.not_detaches hc hd hr hrest hs)

/-- Every update on the list has been acknowledged. -/
theorem returned {L : List Update} (hL : Tally pg c₀ c t k r₀ L) {a : Update} (ha : a ∈ L) :
    (Request.alterTable t (.newSchemaJson a.schema)).UpdatesAs t a.schema ∧
      ∃ y, c.Returned a.thread (.alterTable t (.newSchemaJson a.schema)) (.operation y) ∧
        y.success = true := by
  have hreach := h.reachable.run h.run
  have hcommits := (hL.occurs a ha).commits
  obtain ⟨th, hth, hreq⟩ := hreach.commits_request hcommits
  have hnul : NulFree t := by
    have hadmits := hreach.admitted hth
    rw [hreq] at hadmits
    exact hc _ hadmits t (List.mem_singleton_self t)
  have hupdates : (Request.alterTable t (.newSchemaJson a.schema)).UpdatesAs t a.schema :=
    Request.updatesAs hnul
  have hfinished := h.after a.thread th a.schema hth (hreq ▸ hupdates)
  obtain ⟨_, hret, y, rfl, hy⟩ :=
    hreach.commits_acknowledged settles_alterTable hcommits hth hfinished
  exact ⟨hupdates, y, hret, hy⟩

/-- Every update that has been acknowledged is on the list. -/
theorem listed {L : List Update} (hL : Tally pg c₀ c t k r₀ L) {y : OperationResult}
    (hnew : ∀ th, c₀.thread i = some th → ¬ th.code.Finished) (hq : q.UpdatesAs t schema)
    (hret : c.Returned i q (.operation y)) (hy : y.success = true) :
    ∃ a ∈ L, a.thread = i ∧ a.schema = schema := by
  have hreach := h.reachable.run h.run
  have hnames := hc q (hreach.admitted hret)
  obtain rfl := hq.eq_of_nulFree hnames
  have hnul : NulFree t := hnames t (List.mem_singleton_self t)
  obtain ⟨u, -, -, -, y', hyy', hserved⟩ := hreach.replied hret
  cases hyy'
  obtain ⟨v, v', huv, hact, hv', -, he⟩ :=
    (hserved hy).effected rfl fun conn a => h.carriesOut _ conn a
  have heffect := he (.inr ⟨hc, by simp [cStr_of_nulFree hnul]⟩)
  obtain ⟨q', conn, x, s, rfl⟩ := hreach.commit_of_acted hact hv' heffect.not_retitled
  have hcommit : Commits i q' v c.world := ⟨conn, x, s, hv'⟩
  obtain ⟨th, hth, rfl⟩ := hreach.commits_request hcommit
  cases hth.symm.trans hret
  -- the `COMMIT` was not before `c₀`
  have hnot : ¬ (v.next (.act i (.alterTable t (.newSchemaJson schema)) (.exec conn .commit) x)
      s).Before c₀.world := by
    intro hb
    have hcommit₀ : Commits i _ v c₀.world := ⟨conn, x, s, hb⟩
    obtain ⟨th₀, hth₀, hreq⟩ := h.reachable.commits_request hcommit₀
    exact hnew th₀ hth₀ (h.before i _ schema v th₀ (Request.updatesAs hnul) hcommit₀ hth₀)
  have hstart : c₀.world.Before v := by
    rcases hv'.total h.run.before with hb | hb
    · exact absurd hb hnot
    · rcases World.before_next_iff.mp hb with heq | hb
      · exact absurd (heq ▸ .refl) hnot
      · exact hb
  obtain ⟨r, hf⟩ := hL.stays v hstart ((World.before_next _ _ _).trans hv')
  obtain ⟨k', r', hf', ⟨r₁, schema', l, now, -, -, hlt, hw⟩, -⟩ := heffect.table
  rw [cStr_of_nulFree hnul] at hf'
  cases hf.symm.trans hf'
  have hne : s.db.chronicle k ≠ v.now.db.chronicle k := by
    have hhistory : (s.db.slice k).history = ((v.now.db.slice k).insertHistory l
        ⟨k, toInt32 (r.schemaVersion + 1), schema', now,
          cStr "schema evolution via AlterTable"⟩).history := by
      rw [show s.db.slice k = _ from hw]
      rfl
    have hsnoc := Db.chronicle_snoc hlt hhistory
    simp [hsnoc]
  obtain ⟨a, ha, rfl⟩ := hL.complete v _ s hstart hv' hne
  obtain ⟨conn', x', s', hb'⟩ := (hL.occurs a ha).commits
  obtain ⟨heq, -⟩ := hb'.next_unique hv'
  cases heq
  exact ⟨a, ha, rfl, rfl⟩

omit hc in
/-- Nobody has finished before it has made its `COMMIT`. -/
theorem not_finished {a : Update} (ha : a.Occurs pg c₀ c t) {th : Thread Act Act.Result Request Reply}
    (hth : c₀.thread a.thread = some th) : ¬ th.code.Finished := by
  intro hf
  obtain ⟨conn, x, s, hb⟩ := ha.commits
  obtain ⟨d, d', hd, -, hs, -⟩ := h.run.step_of_before ha.start hb
  cases hs with
  | act hi hx =>
    cases hi.symm.trans (hd.finished_eq hth hf)
    exact hf

/-- The versions and the schemas that are stored. -/
theorem versions {L : List Update} (hL : Tally pg c₀ c t k r₀ L) :
    (∃ r, c.state.db.find t = some (k, r) ∧ r.schemaVersion = r₀.schemaVersion + L.length ∧
      (L = [] → r.schemaJson = r₀.schemaJson) ∧
      ∀ a, L.getLast? = some a → a.entry.schemaJson = r.schemaJson) ∧
    ∀ (j : ℕ) (a : Update), L[j]? = some a →
      a.entry.schemaVersion = r₀.schemaVersion + j + 1 := by
  obtain ⟨r, hf, hfirst⟩ := hL.table
  have hrec₀ := h.reachable.recorded hc k r₀ (Db.row_of_find h.found).1
  have hrec := (h.reachable.run h.run).recorded hc k r (Db.row_of_find hf).1
  have hlen : (c.state.db.chronicle k).length = (c₀.state.db.chronicle k).length + L.length := by
    rw [hL.history, List.length_append, List.length_map]
  have hfits := h.fits
  have hversion₀ : r₀.schemaVersion = (c₀.state.db.chronicle k).length + 1 := by
    rw [hrec₀.version, toInt32_of_lt (by omega) (by omega)]
  refine ⟨⟨r, hf, ?_, hfirst, fun a ha => hrec.last _ ?_⟩, fun j a hj => ?_⟩
  · rw [hrec.version, toInt32_of_lt (by omega) (by omega), hversion₀]
    omega
  · rw [hL.history, List.getLast?_append, List.getLast?_map, ha]
    rfl
  · have hlt := (List.getElem?_eq_some_iff.mp hj).1
    have hentry : (c.state.db.chronicle k)[(c₀.state.db.chronicle k).length + j]? =
        some a.entry := by
      rw [hL.history, List.getElem?_append_right (by omega), Nat.add_sub_cancel_left,
        List.getElem?_map, hj]
      rfl
    rw [hrec.entry _ _ hentry, toInt32_of_lt (by omega) (by omega), hversion₀]
    omega

end Updating

/-- No update of a schema is lost where no name has a NUL byte. -/
theorem no_update_lost (hc : policy.Clean) (h : Updating pg policy c₀ c t k r₀) :
    ∃ L, NoneLost pg c₀ c t k r₀ L := by
  obtain ⟨L, hL⟩ := h.tally hc
  obtain ⟨⟨r, hf, hversion, hfirst, hlast⟩, hentries⟩ := h.versions hc hL
  have hreach := h.reachable.run h.run
  refine ⟨L, ?_, ?_, hL.order, ?_, ?_, hL.history, ?_⟩
  · intro i schema
    constructor
    · rintro ⟨a, ha, rfl, rfl⟩
      obtain ⟨hq, y, hret, hy⟩ := h.returned hc hL ha
      exact ⟨fun th hth => h.not_finished (hL.occurs a ha) hth, _, y, hq, hret, hy⟩
    · rintro ⟨hnew, q, y, hq, hret, hy⟩
      exact h.listed hc hL hnew hq hret hy
  · -- a thread sends one `COMMIT`
    refine List.pairwise_map.mpr (hL.order.imp_of_mem fun {a b} ha hb hab heq => hab.2 ?_)
    exact hreach.commits_unique settles_alterTable (hL.occurs a ha).commits
      (heq ▸ (hL.occurs b hb).commits)
  · intro a ha
    exact ⟨(hL.occurs a ha).start, (hL.occurs a ha).commits.before, (hL.occurs a ha).lock⟩
  · refine ⟨r, hf, hversion, hfirst, fun a ha => ?_⟩
    rw [(hL.occurs a (List.mem_of_getLast? ha)).json, hlast a ha]
  · intro j a hj
    exact ⟨hentries j a hj, (hL.occurs a (List.mem_of_getElem? hj)).json⟩

/-- The requests of a computed run update the schema of a table that stays. -/
theorem AtRest.updating (h : AtRest pg policy c₀) (hcarries : policy.CarriesOut)
    (hf : c₀.state.db.find t = some (k, r₀)) {ms : List (Move Request Outcome)}
    (hm : (server pg policy).moves c₀ ms = some c)
    (hends : ∀ i q, .call i q ∈ ms → ¬ q.DetachesAs t ∧ ∃ x, c.Returned i q x)
    (hfits : (c.state.db.chronicle k).length + 1 < 2 ^ 31) : Updating pg policy c₀ c t k r₀ where
  reachable := h.reachable
  carriesOut := hcarries
  found := hf
  run := System.run_of_moves hm
  before i _ _ _ th _ _ hth := h.finished i th hth
  after i th _ hth _ := by
    rcases System.thread_of_moves hm hth with ⟨th₀, hth₀⟩ | hcall
    · have hf₀ := h.finished i th₀ hth₀
      cases hth.symm.trans ((System.run_of_moves hm).finished_eq hth₀ hf₀)
      exact hf₀
    · obtain ⟨x, hx⟩ := (hends i _ hcall).2
      rw [Option.some.inj (hth.symm.trans hx)]
      trivial
  kept i th hth hdet := by
    rcases System.thread_of_moves hm hth with ⟨th₀, hth₀⟩ | hcall
    · exact ⟨th₀, hth₀, h.finished i th₀ hth₀⟩
    · exact absurd hdet (hends i _ hcall).1
  fits := hfits

theorem Request.not_detachesAs {u : String} {a : Alteration} (h : ∀ n, a ≠ .rename n) :
    ¬ (Request.alterTable u a).DetachesAs t := by
  rintro ⟨v, -, hd⟩
  cases a with
  | rename n => exact h n rfl
  | _ => exact hd

/-- Two requests at a time change the schema of a table. -/
theorem no_update_lost_of_two : ∃ (c₀ c : ServerConfig) (k : ℕ) (r₀ : TableRec) (L : List Update),
    NoneLost .plain c₀ c "t" k r₀ L ∧ r₀.schemaVersion = 1 ∧
      (c.state.db.find "t").map (fun f => f.2.schemaVersion) = some 3 := by
  let alter (schema : String) : Request := .alterTable "t" (.newSchemaJson schema)
  let ms : List (Move Request Outcome) :=
    [.call 1 (alter "\x7b \x7d"), .call 2 (alter "\x7b  \x7d")] ++ List.replicate 5 (.step 2 .ok) ++
      List.replicate 16 (.step 1 .ok) ++ List.replicate 11 (.step 2 .ok)
  let updated (k : ℕ) (c : ServerConfig) : Bool :=
    decide ((c.state.db.find "t").map (fun f => f.2.schemaVersion) = some 3) &&
    decide ((c.state.db.chronicle k).length = 2) &&
    decide (c.reply 1 = some (alter "\x7b \x7d", .operation ⟨true, ""⟩)) &&
    decide (c.reply 2 = some (alter "\x7b  \x7d", .operation ⟨true, ""⟩))
  let created (c : ServerConfig) (f : ℕ × TableRec) : Bool := decide (f.2.schemaVersion = 1) &&
    ((server .plain .flawless).moves c ms).any (updated f.1)
  obtain ⟨c₀, h₀, hp⟩ := @quiet_of_check .plain [(.createTable "t" "\x7b\x7d" "" [], 5)]
    (fun c => (c.state.db.find "t").any (created c)) (by decide +kernel)
  simp only [created, updated, Bool.and_eq_true, Option.any_eq_true, decide_eq_true_eq] at hp
  obtain ⟨⟨k, r₀⟩, hf, hr₀, c, hm, ⟨⟨hversion, hlen⟩, h1⟩, h2⟩ := hp
  have hends : ∀ i q, .call i q ∈ ms → ¬ q.DetachesAs "t" ∧ ∃ x, c.Returned i q x := by
    intro i q hq
    simp only [ms, List.mem_append, List.mem_cons, List.mem_replicate, Move.call.injEq, reduceCtorEq,
      and_false, or_false, List.not_mem_nil] at hq
    rcases hq with ⟨rfl, rfl⟩ | ⟨rfl, rfl⟩
    · exact ⟨Request.not_detachesAs nofun, _, Config.returned_iff.mpr h1⟩
    · exact ⟨Request.not_detachesAs nofun, _, Config.returned_iff.mpr h2⟩
  have hupdating := h₀.toAtRest.updating Policy.flawless_carriesOut hf hm hends (by rw [hlen]; omega)
  obtain ⟨L, hL⟩ := no_update_lost Policy.flawless_clean hupdating
  exact ⟨c₀, c, k, r₀, L, hL, hr₀, hversion⟩

/-- The lock of a name with a NUL byte is another one. Two requests then read the same version of the
same table. -/
theorem update_lost : ¬ ∀ (pg : Postgres) (policy : Policy) (c₀ c : ServerConfig) (t : String)
    (k : ℕ) (r₀ : TableRec), Updating pg policy c₀ c t k r₀ → ∃ L, NoneLost pg c₀ c t k r₀ L := by
  intro hall
  let alter (t schema : String) : Request := .alterTable t (.newSchemaJson schema)
  let ms : List (Move Request Outcome) :=
    [.call 1 (alter "t" "\x7b \x7d"), .call 2 (alter "t\x00u" "\x7b  \x7d")] ++
      List.replicate 8 (.step 2 .ok) ++ List.replicate 16 (.step 1 .ok) ++
      List.replicate 8 (.step 2 .ok)
  let updated (k : ℕ) (c : ServerConfig) : Bool :=
    decide ((c.state.db.find "t").map (fun f => f.2.schemaVersion) = some 2) &&
    decide ((c.state.db.chronicle k).length = 2) &&
    decide (c.reply 1 = some (alter "t" "\x7b \x7d", .operation ⟨true, ""⟩)) &&
    decide (c.reply 2 = some (alter "t\x00u" "\x7b  \x7d", .operation ⟨true, ""⟩))
  let created (c : ServerConfig) (f : ℕ × TableRec) : Bool := decide (f.2.schemaVersion = 1) &&
    ((server .plain .anyNames).moves c ms).any (updated f.1)
  obtain ⟨c₀, h₀, hp⟩ := @atRest_of_check .plain .anyNames rfl
    [(.createTable "t" "\x7b\x7d" "" [], 5)]
    (fun c => (c.thread 1).isNone && (c.thread 2).isNone && (c.state.db.find "t").any (created c))
    (by decide +kernel)
  simp only [created, updated, Bool.and_eq_true, Option.any_eq_true, decide_eq_true_eq,
    Option.isNone_iff_eq_none] at hp
  obtain ⟨⟨hi1, hi2⟩, ⟨k, r₀⟩, hf, hr₀, c, hm, ⟨⟨hversion, hlen⟩, h1⟩, h2⟩ := hp
  have h1 := Config.returned_iff.mpr h1
  have h2 := Config.returned_iff.mpr h2
  have hends : ∀ i q, .call i q ∈ ms → ¬ q.DetachesAs "t" ∧ ∃ x, c.Returned i q x := by
    intro i q hq
    simp only [ms, List.mem_append, List.mem_cons, List.mem_replicate, Move.call.injEq, reduceCtorEq,
      and_false, or_false, List.not_mem_nil] at hq
    rcases hq with ⟨rfl, rfl⟩ | ⟨rfl, rfl⟩
    · exact ⟨Request.not_detachesAs nofun, _, h1⟩
    · exact ⟨Request.not_detachesAs nofun, _, h2⟩
  obtain ⟨L, hL⟩ := hall _ _ c₀ c "t" k r₀
    (h₀.updating Policy.flawless_carriesOut hf hm hends (by rw [hlen]; omega))
  -- both have succeeded, and there is one new version
  obtain ⟨a, ha, ha', -⟩ := (hL.successes 1 "\x7b \x7d").mpr
    ⟨fun th hth => (by simp [hi1] at hth), _, _, ⟨"t", by decide, rfl⟩, h1, rfl⟩
  obtain ⟨b, hb, hb', -⟩ := (hL.successes 2 "\x7b  \x7d").mpr
    ⟨fun th hth => (by simp [hi2] at hth), _, _, ⟨"t\x00u", by decide, rfl⟩, h2, rfl⟩
  obtain ⟨r, hr, hlast, -⟩ := hL.table
  rw [hr] at hversion
  have htwo : r.schemaVersion = 2 := Option.some.inj hversion
  change r₀.schemaVersion = 1 at hr₀
  have hone : L.length = 1 := by omega
  obtain ⟨x, rfl⟩ := List.length_eq_one_iff.mp hone
  obtain rfl := List.mem_singleton.mp ha
  obtain rfl := List.mem_singleton.mp hb
  omega

end IceLog
