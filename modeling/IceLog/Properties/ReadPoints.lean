import IceLog.Properties.Responses

/-! Reads have their place among the requests that change tables: whatever runs meanwhile, each is
answered as it would be at one moment between its call and its return. -/
namespace IceLog

open Interleaved Serial

variable {pg : Postgres} {policy : Policy} {others : Bool} {c c' : ServerConfig} {i s n : ℕ}
  {q : Request} {t : String} {h : Held} {ds : List String} {w w' u v m : Moment} {x : Reply}
  {conn : Conn} {α : Type}

/-- The statements of the request that read succeed. -/
def Policy.Answers (policy : Policy) (q : Request) : Prop :=
  ∀ sql : Sql, sql.harmless = true → policy.Sure q sql

/-- Other requests do not keep the read from being one of a single moment. A listing must not meet
entries of another table in the cache. The history is read without a lock, so the table must keep
its name. -/
def Request.Undivided (u w : Moment) : Request → Prop
  | partitions t _ => Settled t u w
  | getPartitions t _ pageSize _ => pageSize ≤ 0 → Settled t u w
  | partitionsPaged .. | getPartitionStats _ | stats _ | listTables .. => True
  | getSnapshot t _ | listSnapshots t _ => Stays t u w
  | _ => False

theorem Settled.mono (hs : Settled t u w) (hu : u.Before v) (hw : w'.Before w) :
    Settled t v w' :=
  fun m hv hm => hs m (hu.trans hv) (hm.trans hw)

theorem Stays.mono (hs : Stays t u w) (hu : u.Before v) (hw : w'.Before w) : Stays t v w' :=
  fun m m' hv hm hw' => hs m m' (hu.trans hv) hm (hw'.trans hw)

theorem Request.Undivided.mono (hq : q.Undivided u w) (hu : u.Before v) (hw : w'.Before w) :
    q.Undivided v w' := by
  cases q with
  | partitions => exact Settled.mono hq hu hw
  | getPartitions => exact fun hp => Settled.mono (hq hp) hu hw
  | getSnapshot | listSnapshots => exact Stays.mono hq hu hw
  | partitionsPaged | getPartitionStats | stats | listTables => trivial
  | _ => exact hq.elim

/-! A reply is a function of the stored tables and the transaction table. -/

theorem Db.sameTable_of_catalog {db db' : Db} (h : db'.catalog = db.catalog) (t : String) :
    Db.SameTable t db db' := by
  have hrow : ∀ k, db'.tables.row k = db.tables.row k := fun k =>
    (congrArg Slice.table (congrFun h k) :)
  refine ⟨?_, fun k _ _ => congrFun h k⟩
  unfold Db.find Db.named
  exact congrArg List.head? (Rows.select_congr fun k => by rw [hrow])

theorem Request.response_congr {db db' : Db} (h : db'.catalog = db.catalog) (m : MVCCManager)
    (now : ℕ) : q.response pg db' m now = q.response pg db m now := by
  have hsame : ∀ name, Db.SameTable name db db' := Db.sameTable_of_catalog h
  have hpoint : ∀ t n, db'.readPoint m t n = db.readPoint m t n := by
    intro t n
    simp only [Db.readPoint, about_current (cStr t) _ _ (hsame (cStr t))]
  have hread : ∀ t n, db'.readPartitions m t n = db.readPartitions m t n := by
    intro t n
    simp only [Db.readPartitions, hpoint, (hsame (cStr t)).queryPartitions]
  have hlive : db'.liveTables = db.liveTables := by
    refine Rows.select_congr fun k => ?_
    have hrow : db'.tables.row k = db.tables.row k := congrArg Slice.table (congrFun h k)
    rw [hrow]
  have hof : ∀ {β : Type} {f : Db → ℕ → β} {x : β} {t : String}, AboutSlice f →
      Db.ofTable f x (cStr t) db' = Db.ofTable f x (cStr t) db := fun hf =>
    hf.about _ _ _ _ (hsame _)
  cases q with
  | getTableMetadata t n =>
    have hrow : db'.tableRow (cStr t) = db.tableRow (cStr t) := about_find_map _ _ _ _ (hsame _)
    simp only [response, hpoint, hread, hrow]
  | getPartitions | partitions | partitionsPaged | getPartitionStats | stats =>
    simp only [response, hread]
  | getSnapshot => simp only [response, hof (aboutSlice_snapshotAt _)]
  | listSnapshots => simp only [response, hof (aboutSlice_snapshotsOf _)]
  | listTables => simp only [response, Db.tablesPage, hlive]
  | alterTable _ alteration => cases alteration <;> rfl
  | _ => rfl

/-! What is read at one moment. -/

/-- What is read between `w` and `u` is `f` of the state at one moment. -/
def OneMoment (f : Server → α) (w : Moment) (x : α) (u : Moment) : Prop :=
  ∃ m : Moment, w.Before m ∧ m.Before u ∧ x = f m.now

theorem OneMoment.map {f : Server → α} {x : α} {β : Type} (g : α → β) (hx : OneMoment f w x u) :
    OneMoment (fun s => g (f s)) w (g x) u := by
  obtain ⟨m, hw, hm, rfl⟩ := hx
  exact ⟨m, hw, hm, rfl⟩

theorem OneMoment.since {f : Server → α} {x : α} (hx : OneMoment f v x u) (hw : w.Before v) :
    OneMoment f w x u := by
  obtain ⟨m, hv, hm, he⟩ := hx
  exact ⟨m, hw.trans hv, hm, he⟩

theorem OneMoment.until {f : Server → α} {x : α} (hx : OneMoment f w x u) (hu : u.Before v) :
    OneMoment f w x v := by
  obtain ⟨m, hw, hm, he⟩ := hx
  exact ⟨m, hw, hm.trans hu, he⟩

/-! Under the lock of the table. -/

/-- `n` is what the snapshot `s` of `t` stood for at some moment after `w`, since when the table has
not changed. -/
def Pinned (policy : Policy) (q : Request) (t : String) (s : ℕ) (w : Moment) (n : ℕ) (u : Moment) :
    Prop :=
  ∃ m : Moment, w.Before m ∧ m.Before u ∧ (policy.Clean → Db.SameTable t m.now.db u.now.db ∧
    (policy.Answers q → n = m.now.db.readPoint m.now.mvcc t s))

theorem Pinned.before (hn : Pinned policy q t s w n u) : w.Before u := by
  obtain ⟨m, hw, hm, -⟩ := hn
  exact hw.trans hm

theorem Pinned.later (hn : Pinned policy q t s w n u) (hb : u.Before v)
    (hs : policy.Clean → Db.SameTable t u.now.db v.now.db) : Pinned policy q t s w n v := by
  obtain ⟨m, hw, hm, he⟩ := hn
  exact ⟨m, hw, hm.trans hb, fun hc => ⟨(he hc).1.trans (hs hc), (he hc).2⟩⟩

theorem Pinned.locked (hn : Pinned policy q t s w n u) (hl : Later policy others [t] u v) :
    Pinned policy q t s w n v :=
  hn.later hl.before fun hc => hl.same hc t (List.mem_singleton_self t)

theorem durable_pinned (n : ℕ) : Durable policy others [t] (Pinned policy q t s w n) := by
  intro u u' hl hn
  exact hn.locked hl

theorem Pinned.since (hn : Pinned policy q t s v n u) (hw : w.Before v) :
    Pinned policy q t s w n u := by
  obtain ⟨m, hv, hm, he⟩ := hn
  exact ⟨m, hw.trans hv, hm, he⟩

/-- The listing `x` is `f` of the partitions of a single moment. -/
def ListedOnce (policy : Policy) (q : Request) (t : String) (s : ℕ)
    (f : Option (List PartitionRow) → α) (cached : Bool) (w : Moment) (x : α) (u : Moment) : Prop :=
  policy.Clean → policy.Answers q → (cached = true → Settled t w u) →
    OneMoment (fun s' => f (s'.db.readPartitions s'.mvcc t s)) w x u

theorem durable_listedOnce (f : Option (List PartitionRow) → α) (b : Bool) (x : α) :
    Durable policy others [] (ListedOnce policy q t s f b w x) := by
  intro u u' hl hx hc ha hs
  exact (hx hc ha fun hb => (hs hb).mono .refl hl.before).until hl.before

/-- What the database answers under the lock is what it would have answered when `n` was pinned. -/
theorem Pinned.once {f : Option (List PartitionRow) → α} {b : Bool} {x : α}
    (hn : Pinned policy q t s w n v) (ht : policy.Clean → NulFree t) (hv : v.Before u)
    (hx : policy.Clean → policy.Answers q → (b = true → Settled t w u) →
      x = f (v.now.db.queryPartitions t n)) : ListedOnce policy q t s f b w x u := by
  intro hc ha hs
  obtain ⟨m, hw, hm, he⟩ := hn
  obtain ⟨hsame, he⟩ := he hc
  have hname := cStr_of_nulFree (ht hc)
  refine ⟨m, hw, hm.trans hv, ?_⟩
  show x = f (m.now.db.readPartitions m.now.mvcc t s)
  rw [hx hc ha hs, hsame.queryPartitions, Db.readPartitions, hname, ← he ha]

/-- What a statement reads of the table under its lock. -/
theorem Reads.answers {f : Db → α} {failed x : α} {ts : List String}
    (hx : Reads policy others ts (policy.Answers q) (cStr t) f failed w x u) (hts : t ∈ ts)
    (ht : policy.Clean → NulFree t) (hc : policy.Clean) (ha : policy.Answers q) :
    x = f u.now.db := by
  rcases hx.clean hts ht hc with hx | ⟨-, hno⟩
  · exact hx
  · exact absurd ha hno

/-- The counter, as it is when it is loaded. -/
theorem pinned_counter (hw : w.Before v) (h0 : v.now.mvcc.latestCommittedSnapshot ≠ 0) :
    Pinned policy q t 0 w v.now.mvcc.latestCommittedSnapshot v := by
  refine ⟨v, hw, .refl, fun _ => ⟨⟨rfl, fun _ _ _ => rfl⟩, fun _ => ?_⟩⟩
  simp [Db.readPoint, h0]

/-- The current snapshot, which is still the one that the table had when the counter was loaded. -/
theorem pinned_current (hw : w.Before v) (hl : Later policy others [t] v u)
    (h0 : v.now.mvcc.latestCommittedSnapshot = 0) (ht : policy.Clean → NulFree t)
    (hx : policy.Clean → policy.Answers q → n = u.now.db.current (cStr t)) :
    Pinned policy q t 0 w n u := by
  refine ⟨v, hw, hl.before, fun hc => ?_⟩
  have hsame := hl.same hc t (List.mem_singleton_self t)
  refine ⟨hsame, fun ha => ?_⟩
  have hname := cStr_of_nulFree (ht hc)
  have hcurrent : u.now.db.current t = v.now.db.current t := about_current t _ _ hsame
  rw [hx hc ha, Db.readPoint, hname, hcurrent]
  simp [h0]

/-- The snapshot is resolved at the moment at which the counter is loaded. -/
theorem safe_pinned (ho : Own policy i q { shared := [t] } [] w) (ht : policy.Clean → NulFree t) :
    Safe (view pg policy others i q)
      (fun n u => Own policy i q { shared := [t] } [] u ∧ Pinned policy q t s w n u)
      (fun u => Own policy i q { shared := [t] } [] u ∧ True)
      (PartitionRegistry.readSnapshot t s) w := by
  unfold PartitionRegistry.readSnapshot
  by_cases hs : s = 0
  · subst hs
    refine safe_loadSnapshot ho fun v v' hv' hl hl' => ?_
    show Safe _ _ _ (if _ then _ else _) v'
    split
    · rename_i h0
      refine safe_withConnection (fun _ => []) hv' rfl durable_pinned durable_true
        (fun _ _ => trivial) fun conn u hc hu => ?_
      refine (safe_getCurrentSnapshot (hc.at (policy.Answers q)) fun ha => ha _ rfl).mono
        (fun n u' hu' => ?_) fun _ => id
      obtain ⟨hc', hr⟩ := hu'
      exact ⟨hc'.mono False.elim, pinned_current hl.before (hl'.trans (hu.trans hr.1)) h0 ht
        (hr.answers (by simp [Held.locked]) ht)⟩
    · rename_i h0
      exact safe_ret durable_pinned hv' ((pinned_counter hl.before h0).locked hl')
  · rw [if_neg hs]
    show Safe _ _ _ (if s = 0 then _ else _) w
    rw [if_neg hs]
    have hpin : Pinned policy q t s w s w := by
      refine ⟨w, .refl, .refl, fun _ => ⟨⟨rfl, fun _ _ _ => rfl⟩, fun _ => ?_⟩⟩
      simp [Db.readPoint, hs]
    exact safe_ret durable_pinned ho hpin

theorem safe_getPartitions_once (ho : Own policy i q {} [] w) (ht : policy.Clean → NulFree t) :
    Safe (view pg policy others i q)
      (fun x u => Own policy i q {} [] u ∧ ListedOnce policy q t s id true w x u)
      (fun u => Own policy i q {} [] u ∧ True) (PartitionRegistry.getPartitions t s) w := by
  have hP : ∀ x, Durable policy others [] (ListedOnce policy q t s id true w x) :=
    durable_listedOnce id true
  refine safe_withShared ho hP durable_true fun v hv hl => ?_
  refine Safe.bind ((safe_pinned hv ht).mono (fun n u hu => ?_) fun _ => id)
  obtain ⟨hou, hn⟩ := hu
  have hn := hn.since hl.before
  refine safe_cacheGet hou (List.mem_singleton.mpr rfl) fun m r m' hom hum hmm' hlm hsame hhit => ?_
  have hnm : Pinned policy q t s w n m := hn.locked hlm
  cases r with
  | some rows =>
    refine safe_ret (fun x => (hP x).lift) hom (hnm.once ht hmm' fun hc ha hs => ?_)
    rcases hhit hc rows rfl with hq | hstale
    · exact hq.symm
    · exact absurd hstale (hs rfl m hnm.before hmm')
  | none =>
    refine safe_withConnection (fun _ => []) hom rfl (fun x => (hP x).lift) durable_true
      (fun _ _ => trivial) fun conn v' hc hl' => ?_
    refine Safe.bind ((safe_queryPartitions (hc.at (policy.Answers q)) (fun ha => ha _ rfl)
      fun ha id => ha _ rfl).mono (fun x u' hu' => ?_) fun _ => id)
    obtain ⟨hc', hr⟩ := hu'
    have hnu : Pinned policy q t s w n u' := (hnm.later hmm' hsame).locked (hl'.trans hr.1)
    have hx : policy.Clean → policy.Answers q → x = u'.now.db.queryPartitions t n := by
      intro hclean ha
      have hx := hr.answers (by simp [Held.locked]) ht hclean ha
      rwa [cStr_of_nulFree (ht hclean)] at hx
    cases x with
    | none =>
      exact safe_connected_ret (fun x => (hP x).lift) (hc'.mono False.elim)
        (hnu.once ht .refl fun hclean ha _ => hx hclean ha)
    | some rows =>
      have hrows : policy.Clean → u'.now.db.queryPartitions t n = some rows := by
        intro hclean
        rcases hr.clean (by simp [Held.locked]) ht hclean with hx | ⟨hx, -⟩
        · rw [cStr_of_nulFree (ht hclean)] at hx
          exact hx.symm
        · cases hx
      refine safe_cachePut hc'.own (List.mem_singleton.mpr rfl) hrows
        fun u'' ho'' hb'' hsame'' hsess => ?_
      have hclosed : (u''.now.backend.session conn).Closed := by
        rw [hsess conn hc'.own.holder]
        exact hc'.closed
      exact safe_connected_ret (fun x => (hP x).lift) ⟨ho'', hclosed, False.elim⟩
        (hnu.once ht hb'' fun hclean ha _ => hx hclean ha)

theorem safe_getPartitionsPaged_once {pageSize last : ℤ} (ho : Own policy i q {} [] w)
    (ht : policy.Clean → NulFree t) :
    Safe (view pg policy others i q)
      (fun x u => Own policy i q {} [] u ∧
        ListedOnce policy q t s (Option.map (page (pageLimit pageSize) last)) false w x u)
      (fun u => Own policy i q {} [] u ∧ True)
      (PartitionRegistry.getPartitionsPaged t s pageSize last) w := by
  have hP : ∀ x, Durable policy others []
      (ListedOnce policy q t s (Option.map (page (pageLimit pageSize) last)) false w x) :=
    durable_listedOnce _ false
  refine safe_withShared ho hP durable_true fun v hv hl => ?_
  refine Safe.bind ((safe_pinned hv ht).mono (fun n u hu => ?_) fun _ => id)
  obtain ⟨hou, hn⟩ := hu
  refine safe_withConnection (fun _ => []) hou rfl (fun x => (hP x).lift) durable_true
    (fun _ _ => trivial) fun conn v' hc hl' => ?_
  refine (safe_queryPartitionsPaged (hc.at (policy.Answers q)) (fun ha => ha _ rfl)
    fun ha id => ha _ rfl).mono (fun x u' hu' => ?_) fun _ => id
  obtain ⟨hc', hr⟩ := hu'
  have hnu : Pinned policy q t s w n u' := (hn.since hl.before).locked (hl'.trans hr.1)
  refine ⟨hc'.mono False.elim, hnu.once ht .refl fun hclean ha _ => ?_⟩
  have hx := hr.answers (by simp [Held.locked]) ht hclean ha
  rwa [cStr_of_nulFree (ht hclean)] at hx

theorem safe_getStats_once (ho : Own policy i q {} [] w) (ht : policy.Clean → NulFree t) :
    Safe (view pg policy others i q)
      (fun x u => Own policy i q {} [] u ∧ ListedOnce policy q t 0 statsOf false w x u)
      (fun u => Own policy i q {} [] u ∧ True) (PartitionRegistry.getStats t) w := by
  have hP : ∀ x, Durable policy others [] (ListedOnce policy q t 0 statsOf false w x) :=
    durable_listedOnce statsOf false
  have hquery : ∀ conn n v k, (∀ x, k x = .ret (statsOf x)) →
      Connected policy i q { shared := [t] } [] conn (policy.Answers q) v →
      Pinned policy q t 0 w n v → Safe (view pg policy others i q)
        (fun x u => Connected policy i q { shared := [t] } [] conn False u ∧
          ListedOnce policy q t 0 statsOf false w x u) (fun _ => False)
        ((PgClient.queryPartitions conn t n).bind k) v := by
    intro conn n v k hk hc hn
    refine Safe.bind ((safe_queryPartitions hc (fun ha => ha _ rfl)
      fun ha id => ha _ rfl).mono (fun x u hu => ?_) fun _ => id)
    obtain ⟨hc', hr⟩ := hu
    rw [hk]
    refine safe_connected_ret (fun x => (hP x).lift) (hc'.mono False.elim)
      ((hn.locked hr.1).once ht .refl fun hclean ha _ => ?_)
    have hx := hr.answers (by simp [Held.locked]) ht hclean ha
    rw [cStr_of_nulFree (ht hclean)] at hx
    exact congrArg statsOf hx
  refine safe_withShared ho hP durable_true fun v hv hl => ?_
  refine safe_loadSnapshot hv fun m v' hv' hlm hlm' => ?_
  have hwm := hl.before.trans hlm.before
  refine safe_withConnection (fun _ => []) hv' rfl (fun x => (hP x).lift) durable_true
    (fun _ _ => trivial) fun conn u hc hl' => ?_
  have hmu : Later policy others [t] m u := hlm'.trans hl'
  by_cases h0 : m.now.mvcc.latestCommittedSnapshot = 0
  · simp only [h0, if_true]
    refine Safe.bind ((safe_getCurrentSnapshot (hc.at (policy.Answers q))
      fun ha => ha _ rfl).mono (fun n u' hu' => ?_) fun _ => id)
    obtain ⟨hc', hr⟩ := hu'
    exact hquery conn n u' _ (by rintro (_ | _) <;> rfl) hc'
      (pinned_current hwm (hmu.trans hr.1) h0 ht (hr.answers (by simp [Held.locked]) ht))
  · simp only [h0, if_false]
    exact hquery conn _ u _ (by rintro (_ | _) <;> rfl) (hc.at _)
      ((pinned_counter hwm h0).locked hmu)

/-! Without a lock. -/

/-- A statement that reads `f`, on its own. -/
theorem safe_read_once {sql : Sql} {f : Db → α} (g : PGresult sql.Row → α)
    (hy : sql.Yields pg g f) (hs : sql.harmless = true)
    (hc : Connected policy i q h ds conn (policy.Answers q) w) :
    Safe (view pg policy others i q) (fun x u =>
      Connected policy i q h ds conn (policy.Answers q) u ∧
      (policy.Answers q → OneMoment (fun s => f s.db) w x u)) (fun _ => False)
      ((execParams conn sql).bind fun res => .ret (g res)) w := by
  have hP : ∀ x, Durable policy others h.locked fun u =>
      policy.Answers q → OneMoment (fun s => f s.db) w x u :=
    fun x u u' hl hx ha => (hx ha).until hl.before
  refine safe_select hc hs (fun ha => ha sql hs) fun v r v' hl hc' hl' hr => ?_
  refine safe_connected_ret hP hc' fun ha => ⟨v, hl.before, hl'.before, ?_⟩
  cases hr with
  | error he =>
    obtain ⟨now, hn⟩ := he ha
    exact hy.violated _ _ hn
  | rows hr => exact hy.ok _ _ _ _ hr

/-- Two statements, the second about the id that the first has found: if the name stays with its
table, they read what the second finds. -/
theorem safe_by_id_once {β : Type} {sql : ℕ → Sql} {f : Db → ℕ → β} {failed : β}
    {g : ∀ id, PGresult (sql id).Row → β} (hy : ∀ id, (sql id).Yields pg (g id) fun db => f db id)
    (hs : ∀ id, (sql id).harmless = true) (ht : policy.Clean → NulFree t)
    (hc : Connected policy i q h ds conn (policy.Answers q) w) :
    Safe (view pg policy others i q) (fun x u =>
      Connected policy i q h ds conn (policy.Answers q) u ∧
      (policy.Clean → policy.Answers q → Stays t w u →
        OneMoment (fun s => Db.ofTable f failed (cStr t) s.db) w x u)) (fun _ => False)
      ((PgClient.getTableId conn t).bind fun
        | none => .ret failed
        | some id => (execParams conn (sql id)).bind fun res => .ret (g id res)) w := by
  have hP : ∀ x, Durable policy others h.locked fun u => policy.Clean → policy.Answers q →
      Stays t w u → OneMoment (fun s => Db.ofTable f failed (cStr t) s.db) w x u :=
    fun x u u' hl hx hc ha hst => (hx hc ha (hst.mono .refl hl.before)).until hl.before
  refine Safe.bind ((safe_read_once PGresult.first yields_tableId rfl hc).mono (fun x u hu => ?_)
    fun _ => id)
  obtain ⟨hcu, hx⟩ := hu
  cases x with
  | none =>
    refine safe_connected_ret hP hcu fun _ ha _ => ?_
    obtain ⟨m, hw, hm, hfound⟩ := hx ha
    have hnone : m.now.db.find (cStr t) = none := Option.map_eq_none_iff.mp hfound.symm
    refine ⟨m, hw, hm, ?_⟩
    simp [Db.ofTable, hnone]
  | some id =>
    refine (safe_read_once (g id) (hy id) (hs id) hcu).mono (fun y u' hu' => ?_) fun _ he => he
    obtain ⟨hcu', hy'⟩ := hu'
    refine ⟨hcu', fun hclean ha hst => ?_⟩
    obtain ⟨m, hw, hm, hfound⟩ := hx ha
    obtain ⟨m', hum', hm', rfl⟩ := hy' ha
    obtain ⟨⟨id', r⟩, hfind, rfl⟩ := Option.map_eq_some_iff.mp hfound.symm
    rw [cStr_of_nulFree (ht hclean)] at hfind
    obtain ⟨r', hfind'⟩ := hst m m' hw (hm.trans hum') hm' id' r hfind
    refine ⟨m', hw.trans (hm.trans hum'), hm', ?_⟩
    simp [Db.ofTable, cStr_of_nulFree (ht hclean), hfind']

/-! The handlers. -/

/-- The reply is the one that the whole request would get at one moment. -/
def RepliedOnce (pg : Postgres) (policy : Policy) (q : Request) (w : Moment) (x : Reply)
    (u : Moment) : Prop :=
  policy.Clean → policy.Answers q → q.Undivided w u →
    OneMoment (fun s => q.response pg s.db s.mvcc s.steadyClock) w (some x) u

theorem durable_repliedOnce (x : Reply) :
    Durable policy others [] (RepliedOnce pg policy q w x) := by
  intro u u' hl hx hc ha hq
  exact (hx hc ha (hq.mono .refl hl.before)).until hl.before

theorem safe_getPartitions_handler_once {pageSize : ℤ} {token : String}
    (ho : Own policy i q {} [] w) (ht : policy.Clean → NulFree t)
    (hq : q = .getPartitions t s pageSize token) :
    Safe (view pg policy others i q)
      (fun x u => Own policy i q {} [] u ∧ RepliedOnce pg policy q w x u) (Own policy i q {} [])
      (MetadataServer.getPartitions t s pageSize token) w := by
  subst hq
  let q : Request := .getPartitions t s pageSize token
  let f := if pageSize > 0 then page (pageLimit pageSize) (MetadataServer.lastId token) else id
  have hreply : ∀ r u, ListedOnce policy q t s (Option.map f) (decide (pageSize ≤ 0)) w r u →
      RepliedOnce pg policy q w (listing t pageSize r) u := by
    intro r u hx hc ha hq
    have hone := hx hc ha fun hp => hq (of_decide_eq_true hp)
    exact hone.map fun r => some (listing t pageSize r)
  unfold MetadataServer.getPartitions
  by_cases hp : pageSize > 0
  · have hf : f = page (pageLimit pageSize) (MetadataServer.lastId token) := if_pos hp
    have hb : decide (pageSize ≤ 0) = false := by
      rw [decide_eq_false_iff_not]
      omega
    rw [if_pos hp]
    refine Safe.bind ((safe_forget (safe_getPartitionsPaged_once ho ht)).mono (fun r u hu => ?_)
      fun _ h => h)
    obtain ⟨hu, hx⟩ := hu
    rw [← hf, ← hb] at hx
    have hx := hreply r u hx
    cases r <;> exact safe_ret durable_repliedOnce hu hx
  · have hf : f = id := if_neg hp
    have hb : decide (pageSize ≤ 0) = true := by
      rw [decide_eq_true_iff]
      omega
    rw [if_neg hp]
    refine Safe.bind ((safe_forget (safe_getPartitions_once ho ht)).mono (fun r u hu => ?_)
      fun _ h => h)
    obtain ⟨hu, hx⟩ := hu
    rw [← Option.map_id, ← hf, ← hb] at hx
    have hx := hreply r u hx
    cases r <;> exact safe_ret durable_repliedOnce hu hx

theorem safe_getSnapshot_once (ho : Own policy i q {} [] w) (ht : policy.Clean → NulFree t)
    (hq : q = .getSnapshot t s) :
    Safe (view pg policy others i q)
      (fun x u => Own policy i q {} [] u ∧ RepliedOnce pg policy q w x u) (Own policy i q {} [])
      (MetadataServer.getSnapshot t s) w := by
  subst hq
  refine safe_forget (E := fun _ => True) ?_
  refine safe_withConnection (fun _ => []) ho rfl durable_repliedOnce durable_true
    (fun _ _ => trivial) fun conn v hc hl => ?_
  refine Safe.bind ((safe_by_id_once (yields_snapshot s) (fun _ => rfl) ht (hc.at _)).mono
    (fun x u hu => ?_) fun _ he => he)
  obtain ⟨hcu, hx⟩ := hu
  have hreply : RepliedOnce pg policy (.getSnapshot t s) w (snapshotReply x) u := by
    intro hclean ha hst
    have hone := hx hclean ha (Stays.mono hst hl.before .refl)
    exact (hone.since hl.before).map fun x => some (snapshotReply x)
  cases x <;> exact safe_connected_ret (fun x => (durable_repliedOnce x).lift)
    (hcu.mono False.elim) hreply

theorem safe_listSnapshots_once {limit : ℤ} (ho : Own policy i q {} [] w)
    (ht : policy.Clean → NulFree t) (hq : q = .listSnapshots t limit) :
    Safe (view pg policy others i q)
      (fun x u => Own policy i q {} [] u ∧ RepliedOnce pg policy q w x u) (Own policy i q {} [])
      (MetadataServer.listSnapshots t limit) w := by
  subst hq
  refine safe_forget (E := fun _ => True) ?_
  refine safe_withConnection (fun _ => []) ho rfl durable_repliedOnce durable_true
    (fun _ _ => trivial) fun conn v hc hl => ?_
  refine Safe.bind ((safe_by_id_once (yields_snapshots (snapshotLimit limit)) (fun _ => rfl)
    ht (hc.at _)).mono (fun x u hu => ?_) fun _ he => he)
  obtain ⟨hcu, hx⟩ := hu
  refine safe_connected_ret (fun x => (durable_repliedOnce x).lift) (hcu.mono False.elim)
    fun hclean ha hst => ?_
  have hone := hx hclean ha (Stays.mono hst hl.before .refl)
  exact (hone.since hl.before).map fun x => some (snapshotsReply x)

theorem safe_listTables_once {pageSize : ℤ} {token : String} (ho : Own policy i q {} [] w)
    (hq : q = .listTables pageSize token) :
    Safe (view pg policy others i q)
      (fun x u => Own policy i q {} [] u ∧ RepliedOnce pg policy q w x u) (Own policy i q {} [])
      (MetadataServer.listTables pageSize token) w := by
  subst hq
  let f (s : Server) : List TableRow :=
    (s.db.tablesPage pg pageSize token).map fun p => p.2.toRow p.1
  have hP : ∀ rows, Durable policy others [] fun u =>
      policy.Answers (.listTables pageSize token) → OneMoment f w rows u :=
    fun rows u u' hl hx ha => (hx ha).until hl.before
  refine safe_reply (E := fun _ => True) durable_repliedOnce
    (safe_withConnection (fun _ => []) ho rfl hP durable_true (fun _ _ => trivial)
      fun conn v hc hl => (safe_read_once (fun res => res.all.getD [])
        (yields_tables pageSize token) rfl (hc.at _)).mono (fun rows u hu => ?_) fun _ he => he)
    fun rows u hx _ ha _ => ?_
  · exact ⟨hu.1.mono False.elim, fun ha => (hu.2 ha).since hl.before⟩
  · obtain ⟨m, hw, hm, rfl⟩ := hx ha
    refine ⟨m, hw, hm, ?_⟩
    show some (Reply.tables (((m.now.db.tablesPage pg pageSize token).map _).map _)) = _
    rw [List.map_map]
    rfl

/-- What is read in addition to what is said of every request. -/
def readSpec (pg : Postgres) (policy : Policy) :
    Contract.Spec Reply Act Act.Result Request Server where
  post _ q u x w := RepliedOnce pg policy q u x w
  exc _ _ _ _ := True

theorem reads_verified : (contract pg policy).Verified (readSpec pg policy) := by
  intro i q w hi hf ha
  have ho : Own policy i q {} [] (w.next (.call i q) w.now) := own_called hi hf
  have hn : ∀ t ∈ q.tableNames, policy.Clean → NulFree t := fun t ht hc => hc q ha t ht
  suffices hsafe : Safe (view pg policy true i q) (fun x u => Own policy i q {} [] u ∧
      RepliedOnce pg policy q (w.next (.call i q) w.now) x u) (Own policy i q {} []) q.code
      (w.next (.call i q) w.now) from hsafe.mono (fun _ _ hx => hx.2) fun _ _ => trivial
  have hother : (∀ u v, ¬ q.Undivided u v) → Safe (view pg policy true i q)
      (fun x u => Own policy i q {} [] u ∧
        RepliedOnce pg policy q (w.next (.call i q) w.now) x u) (Own policy i q {} []) q.code
      (w.next (.call i q) w.now) := fun hno =>
    (safe_code ho fun hc t ht => hn t ht hc).mono
      (fun _ _ hx => ⟨hx.1, fun _ _ hq => absurd hq (hno _ _)⟩) fun _ hx => hx
  cases q with
  | partitions t s =>
    have ht := hn t (List.mem_singleton_self t)
    exact safe_reply durable_repliedOnce (safe_getPartitions_once ho ht) fun rows u hx hc ha hq =>
      (hx hc ha fun _ => hq).map fun rows => some (Reply.rows rows)
  | partitionsPaged t s pageSize last =>
    have ht := hn t (List.mem_singleton_self t)
    exact safe_reply durable_repliedOnce (safe_getPartitionsPaged_once ho ht)
      fun rows u hx hc ha _ => (hx hc ha (by simp)).map fun rows => some (Reply.rows rows)
  | getPartitionStats t | stats t =>
    have ht := hn t (List.mem_singleton_self t)
    exact safe_reply durable_repliedOnce (safe_getStats_once ho ht)
      fun stats u hx hc ha _ =>
        (hx hc ha (by simp)).map fun stats => some (Reply.partitionStats stats)
  | getPartitions t s pageSize token =>
    exact safe_getPartitions_handler_once ho (hn t (List.mem_singleton_self t)) rfl
  | getSnapshot t s => exact safe_getSnapshot_once ho (hn t (List.mem_singleton_self t)) rfl
  | listSnapshots t limit =>
    exact safe_listSnapshots_once ho (hn t (List.mem_singleton_self t)) rfl
  | listTables pageSize token => exact safe_listTables_once ho rfl
  | _ => exact hother fun _ _ hq => hq

/-- Every reply to a read is the one of a single moment between the call and the return. -/
theorem Reachable.replied_once (h : Reachable pg policy c) (hc : policy.Clean)
    (hr : Run (server pg policy) c c') (hi : c.thread i = none) (hx : c'.Returned i q x)
    (ha : policy.Answers q) (hq : q.Undivided c.world c'.world) :
    OneMoment (fun s => q.response pg s.db s.mvcc s.steadyClock) c.world (some x) c'.world := by
  obtain ⟨u, hcu, -, -, -, hpost⟩ :=
    Contract.returned_post reads_verified (h.good_of reads_verified) hr hi hx
  exact (hpost hc ha (hq.mono hcu .refl)).since hcu

end IceLog
