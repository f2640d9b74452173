import IceLog.Server.Reads

/-! What the listings of the registry answer: the partitions at one moment between the call and
the return, for a snapshot that was resolved in between. -/
namespace IceLog

open Interleaved Serial

/-- The statements of which a listing consists. -/
def Sql.lists : Sql → Bool
  | selectTableId _ | selectCurrent _ | selectPartitions .. | selectPartitionsPaged .. => true
  | _ => false

/-- The statements of a listing do not fail. -/
def Policy.Lists (policy : Policy) : Prop := ∀ q sql, sql.lists = true → policy.Sure q sql

theorem Policy.Flawless.lists {policy : Policy} (hf : policy.Flawless) : policy.Lists :=
  fun _ sql _ => hf.statement sql

/-- Some thread has taken the table off the name and has yet to drop its cache entries. -/
def Stale (t : String) (m : Moment) : Prop := ∃ j q, Owes m j q t ∧ q.Detaches t

/-- A read for `s` between `w` and `u` is evaluated at `n`: `s` itself, or the counter as it was
at some moment, or while that was 0 the current snapshot of the table. -/
inductive Resolved (policy : Policy) (t : String) (s : ℕ) (w : Moment) :
    (n : ℕ) → (u : Moment) → Prop
  | given {u : Moment} : s ≠ 0 → Resolved policy t s w s u
  | counter {m u : Moment} : s = 0 → w.Before m → m.Before u →
      m.now.mvcc.latestCommittedSnapshot ≠ 0 →
      Resolved policy t s w m.now.mvcc.latestCommittedSnapshot u
  | current {m m' u : Moment} {n : ℕ} : s = 0 → w.Before m → m.Before m' → m'.Before u →
      m.now.mvcc.latestCommittedSnapshot = 0 →
      (policy.Clean → n = m'.now.db.current t ∨ (n = 0 ∧ ¬ policy.Lists)) →
      Resolved policy t s w n u

/-- A listing called at `w` may answer `x` in `u`; `f` is what it makes of the partitions. -/
def Listed {α : Type} (policy : Policy) (t : String) (s : ℕ)
    (f : Option (List PartitionRow) → α) (cached : Bool) (w : Moment) (x : α) (u : Moment) : Prop :=
  ∃ n m, Resolved policy t s w n m ∧ w.Before m ∧ m.Before u ∧
    (policy.Clean → x = f (m.now.db.queryPartitions t n) ∨ (x = f none ∧ ¬ policy.Lists) ∨
      (cached = true ∧ ∃ rows, x = f (some rows) ∧ Stale t m))

variable {pg : Postgres} {policy : Policy} {others : Bool} {i : ℕ} {q : Request}
  {h : Held} {ds ts : List String} {w w' u v : Moment} {t : String} {c : Conn} {s n : ℕ} {α : Type}

theorem Resolved.since (hr : Resolved policy t s v n u) (hw : w.Before v) :
    Resolved policy t s w n u := by
  cases hr with
  | given hs => exact .given hs
  | counter hs hv hu h0 => exact .counter hs (hw.trans hv) hu h0
  | current hs hv hm hu h0 hn => exact .current hs (hw.trans hv) hm hu h0 hn

theorem Resolved.until (hr : Resolved policy t s w n u) (hu : u.Before v) :
    Resolved policy t s w n v := by
  cases hr with
  | given hs => exact .given hs
  | counter hs hv hu' h0 => exact .counter hs hv (hu'.trans hu) h0
  | current hs hv hm hu' h0 hn => exact .current hs hv hm (hu'.trans hu) h0 hn

theorem durable_before (w : Moment) : Durable policy others ts fun u => w.Before u :=
  fun _ _ hl h => h.trans hl.before

theorem durable_resolved (n : ℕ) : Durable policy others ts (Resolved policy t s w n) :=
  fun _ _ hl h => h.until hl.before

theorem durable_listed (f : Option (List PartitionRow) → α) (b : Bool) (x : α) :
    Durable policy others ts (Listed policy t s f b w x) :=
  fun _ _ hl ⟨n, m, hr, hw, hm, hx⟩ => ⟨n, m, hr, hw, hm.trans hl.before, hx⟩

theorem Listed.since {f : Option (List PartitionRow) → α} {b : Bool} {x : α}
    (hx : Listed policy t s f b v x u) (hw : w.Before v) : Listed policy t s f b w x u := by
  obtain ⟨n, m, hr, hv, hm, hx⟩ := hx
  exact ⟨n, m, hr.since hw, hw.trans hv, hm, hx⟩

/-- What is read under the lock of the table. -/
theorem Reads.clean {f : Db → α} {failed : α} {sure : Prop} {x : α}
    (hx : Reads policy others ts sure (cStr t) f failed w x u) (ht : t ∈ ts)
    (hn : policy.Clean → NulFree t) (hc : policy.Clean) :
    x = f u.now.db ∨ (x = failed ∧ ¬ sure) :=
  hx.2 (.of_clean hn ht hc)

section registry

/-- The registry reads the current snapshot on a connection of its own. -/
theorem safe_readSnapshot (ho : Own policy i q { shared := [t] } [] w)
    (hn : policy.Clean → NulFree t) :
    Safe (view pg policy others i q)
      (fun n u => Own policy i q { shared := [t] } [] u ∧
        (w.Before u ∧ Resolved policy t s w n u))
      (fun u => Own policy i q { shared := [t] } [] u ∧ True)
      (PartitionRegistry.readSnapshot t s) w := by
  have hP : ∀ n, Durable policy others [t] fun u => w.Before u ∧ Resolved policy t s w n u :=
    fun n => (durable_before w).and (durable_resolved n)
  have hcur : ∀ m v, s = 0 → w.Before m → m.Before v → m.now.mvcc.latestCommittedSnapshot = 0 →
      Own policy i q { shared := [t] } [] v → Safe (view pg policy others i q)
        (fun n u => Own policy i q { shared := [t] } [] u ∧
          (w.Before u ∧ Resolved policy t s w n u))
        (fun u => Own policy i q { shared := [t] } [] u ∧ True)
        (withConnection fun conn => PgClient.getCurrentSnapshot conn t) v := by
    intro m v hs hm hv h0 hov
    refine safe_withConnection (fun _ => []) hov rfl hP durable_true (fun _ _ => trivial)
      fun c v' hc hl => ?_
    refine (safe_getCurrentSnapshot (hc.at policy.Lists)
      fun hp => hp q _ rfl).mono (fun n u hu => ?_) fun _ => id
    obtain ⟨hc', hr⟩ := hu
    refine ⟨hc'.mono False.elim, (hm.trans hv).trans (hl.before.trans hr.1.before), ?_⟩
    refine .current hs hm (hv.trans (hl.before.trans hr.1.before)) .refl h0 fun hclean => ?_
    have := hr.clean (by simp [Held.locked]) hn hclean
    rwa [cStr_of_nulFree (hn hclean)] at this
  unfold PartitionRegistry.readSnapshot
  by_cases hs : s = 0
  · subst hs
    refine safe_loadSnapshot ho fun v v' hv' hl hl' => ?_
    show Safe _ _ _ (if _ then _ else _) v'
    split
    · rename_i h0
      exact hcur v v' rfl hl.before hl'.before h0 hv'
    · rename_i h0
      refine safe_ret hP hv' ⟨hl.before.trans hl'.before, ?_⟩
      exact .counter rfl hl.before hl'.before h0
  · rw [if_neg hs]
    show Safe _ _ _ (if s = 0 then _ else _) w
    rw [if_neg hs]
    exact safe_ret hP ho ⟨.refl, .given hs⟩

theorem safe_getPartitions (ho : Own policy i q {} [] w) (hn : policy.Clean → NulFree t) :
    Safe (view pg policy others i q)
      (fun x u => Own policy i q {} [] u ∧ Listed policy t s id true w x u)
      (fun u => Own policy i q {} [] u ∧ True) (PartitionRegistry.getPartitions t s) w := by
  have hP : ∀ x, Durable policy others [] (Listed policy t s id true w x) :=
    fun x => durable_listed _ _ x
  refine safe_withShared ho hP durable_true fun v hv hl => ?_
  refine Safe.bind ((safe_readSnapshot hv hn).mono (fun n u hu => ?_) fun _ => id)
  obtain ⟨hou, hvu, hres⟩ := hu
  refine safe_cacheGet hou (List.mem_singleton.mpr rfl) fun m r m' hom hum hmm' hlm _ hhit => ?_
  have hwm := hl.before.trans (hvu.trans hum)
  cases r with
  | some rows =>
    refine safe_ret (fun x => (hP x).lift) hom ⟨n, m, (hres.since hl.before).until hum, hwm, hmm',
      fun hc => ?_⟩
    rcases hhit hc rows rfl with hq | hst
    · exact .inl hq.symm
    · exact .inr (.inr ⟨rfl, rows, rfl, hst⟩)
  | none =>
    refine safe_withConnection (fun _ => []) hom rfl (fun x => (hP x).lift) durable_true
      (fun _ _ => trivial) fun c v' hc hl' => ?_
    refine Safe.bind ((safe_queryPartitions (hc.at policy.Lists) (fun hp => hp q _ rfl)
      fun hp id => hp q _ rfl).mono (fun x u' hu' => ?_) fun _ => id)
    obtain ⟨hc', hr⟩ := hu'
    have hbefore : u.Before u' := hum.trans (hmm'.trans (hl'.before.trans hr.1.before))
    have hwu : w.Before u' := hl.before.trans (hvu.trans hbefore)
    have hres' : Resolved policy t s w n u' := (hres.since hl.before).until hbefore
    have hx : policy.Clean → x = u'.now.db.queryPartitions t n ∨ (x = none ∧ ¬ policy.Lists) := by
      intro hclean
      have := hr.clean (by simp [Held.locked]) hn hclean
      rwa [cStr_of_nulFree (hn hclean)] at this
    cases x with
    | none =>
      refine safe_connected_ret (fun x => (hP x).lift) (hc'.mono False.elim)
        ⟨n, u', hres', hwu, .refl, fun hclean => ?_⟩
      rcases hx hclean with hx | hx
      · exact .inl hx
      · exact .inr (.inl hx)
    | some rows =>
      have hrows : policy.Clean → u'.now.db.queryPartitions t n = some rows := by
        intro hclean
        rcases hx hclean with hx | ⟨hx, -⟩
        · exact hx.symm
        · cases hx
      refine safe_cachePut hc'.own (List.mem_singleton.mpr rfl) hrows
        fun u'' ho'' hb'' hsame hsess => ?_
      have hclosed : (u''.now.backend.session c).Closed := by
        rw [hsess c hc'.own.holder]
        exact hc'.closed
      refine safe_connected_ret (fun x => (hP x).lift) ⟨ho'', hclosed, False.elim⟩
        ⟨n, u', hres', hwu, hb'', fun hclean => .inl (hrows hclean).symm⟩

theorem safe_getPartitionsPaged {pageSize last : ℤ} (ho : Own policy i q {} [] w)
    (hn : policy.Clean → NulFree t) :
    Safe (view pg policy others i q)
      (fun x u => Own policy i q {} [] u ∧
        Listed policy t s (Option.map (page (pageLimit pageSize) last)) false w x u)
      (fun u => Own policy i q {} [] u ∧ True)
      (PartitionRegistry.getPartitionsPaged t s pageSize last) w := by
  have hP : ∀ x, Durable policy others []
      (Listed policy t s (Option.map (page (pageLimit pageSize) last)) false w x) :=
    fun x => durable_listed _ _ x
  refine safe_withShared ho hP durable_true fun v hv hl => ?_
  refine Safe.bind ((safe_readSnapshot hv hn).mono (fun n u hu => ?_) fun _ => id)
  obtain ⟨hou, hvu, hres⟩ := hu
  refine safe_withConnection (fun _ => []) hou rfl (fun x => (hP x).lift) durable_true
    (fun _ _ => trivial) fun c v' hc hl' => ?_
  refine (safe_queryPartitionsPaged (hc.at policy.Lists) (fun hp => hp q _ rfl)
    fun hp id => hp q _ rfl).mono (fun x u' hu' => ?_) fun _ => id
  obtain ⟨hc', hr⟩ := hu'
  have hbefore : u.Before u' := hl'.before.trans hr.1.before
  refine ⟨hc'.mono False.elim, n, u', (hres.since hl.before).until hbefore,
    hl.before.trans (hvu.trans hbefore), .refl, fun hclean => ?_⟩
  have hx := hr.clean (by simp [Held.locked]) hn hclean
  rw [cStr_of_nulFree (hn hclean)] at hx
  exact hx.imp_right .inl

/-- The statistics of a listing. -/
def statsOf (parts : Option (List PartitionRow)) : PartitionRegistry.PartitionStats :=
  (parts.map PartitionRegistry.sumStats).getD {}

theorem safe_getStats (ho : Own policy i q {} [] w) (hn : policy.Clean → NulFree t) :
    Safe (view pg policy others i q)
      (fun x u => Own policy i q {} [] u ∧ Listed policy t 0 statsOf false w x u)
      (fun u => Own policy i q {} [] u ∧ True) (PartitionRegistry.getStats t) w := by
  have hP : ∀ x, Durable policy others [] (Listed policy t 0 statsOf false w x) :=
    fun x => durable_listed _ _ x
  have hquery : ∀ c n v k, (∀ x, k x = .ret (statsOf x)) →
      Connected policy i q { shared := [t] } [] c policy.Lists v → w.Before v →
      Resolved policy t 0 w n v → Safe (view pg policy others i q)
        (fun x u => Connected policy i q { shared := [t] } [] c False u ∧
          Listed policy t 0 statsOf false w x u) (fun _ => False)
        ((PgClient.queryPartitions c t n).bind k) v := by
    intro c n v k hk hc hwv hres
    refine Safe.bind ((safe_queryPartitions hc (fun hp => hp q _ rfl)
      fun hp id => hp q _ rfl).mono (fun x u hu => ?_) fun _ => id)
    obtain ⟨hc', hr⟩ := hu
    have hx : Listed policy t 0 statsOf false w (statsOf x) u := by
      refine ⟨n, u, hres.until hr.1.before, hwv.trans hr.1.before, .refl, fun hclean => ?_⟩
      have hx := hr.clean (by simp [Held.locked]) hn hclean
      rw [cStr_of_nulFree (hn hclean)] at hx
      rcases hx with hx | ⟨hx, hs⟩
      · exact .inl (congrArg statsOf hx)
      · exact .inr (.inl ⟨congrArg statsOf hx, hs⟩)
    rw [hk]
    exact safe_connected_ret (fun x => (hP x).lift) (hc'.mono False.elim) hx
  refine safe_withShared ho hP durable_true fun v hv hl => ?_
  refine safe_loadSnapshot hv fun m v' hv' hlm hlm' => ?_
  have hwm := hl.before.trans hlm.before
  refine safe_withConnection (fun _ => []) hv' rfl (fun x => (hP x).lift) durable_true
    (fun _ _ => trivial) fun c u hc hl' => ?_
  have hmu := hlm'.before.trans hl'.before
  by_cases h0 : m.now.mvcc.latestCommittedSnapshot = 0
  · simp only [h0, if_true]
    refine Safe.bind ((safe_getCurrentSnapshot (hc.at policy.Lists)
      fun hp => hp q _ rfl).mono (fun n u' hu' => ?_) fun _ => id)
    obtain ⟨hc', hr⟩ := hu'
    refine hquery c n u' _ (by rintro (_ | _) <;> rfl) hc' (hwm.trans (hmu.trans hr.1.before)) ?_
    refine .current rfl hwm (hmu.trans hr.1.before) .refl h0 fun hclean => ?_
    have := hr.clean (by simp [Held.locked]) hn hclean
    rwa [cStr_of_nulFree (hn hclean)] at this
  · simp only [h0, if_false]
    exact hquery c _ u _ (by rintro (_ | _) <;> rfl) (hc.at policy.Lists) (hwm.trans hmu)
      (.counter rfl hwm hmu h0)

end registry
end IceLog
