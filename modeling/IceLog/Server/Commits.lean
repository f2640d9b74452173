import IceLog.Server.Edits
import IceLog.Server.Reads

/-! `commit_snapshot`: what it makes of the table, statement by statement. -/
namespace IceLog

open Interleaved Serial

/-- The loop over the new partitions, each stored under a key that was free. -/
inductive Slice.Inserted (pg : Postgres) (id n : ℕ) : List PartitionRow → Slice → Slice → Prop
  | nil (v : Slice) : Inserted pg id n [] v v
  | cons {part : PartitionRow} {rest : List PartitionRow} {v w : Slice} {p : ℕ} {stats : String} :
      v.partitions p = none → p < maxBigint →
      pg.jsonb (PgClient.partitionParams part).columnStatsJson = some stats →
      Inserted pg id n rest
        (v.insertPartition p ((PgClient.partitionParams part).toRec id n stats)) w →
      Inserted pg id n (part :: rest) v w

/-- The loop over the deleted keys. -/
def Slice.markAll (n : ℕ) (keys : List String) (v : Slice) : Slice :=
  keys.foldl (fun v key => v.markDeleted n (cStr key)) v

/-- A commit as `n` before the pointer of the table is moved. -/
def Slice.Stored (pg : Postgres) (id parent : ℕ) (operation : String)
    (newPartitions : List PartitionRow) (deletedKeys : List String) (n : ℕ) (v w : Slice) : Prop :=
  ∃ now x, Inserted pg id n newPartitions (v.insertSnapshot n ⟨id, parent, now, cStr operation,
    toInt32 newPartitions.length, toInt32 deletedKeys.length⟩) x ∧ w = x.markAll n deletedKeys

/-- A commit as `n` of the table `id`. -/
def Slice.CommittedAs (pg : Postgres) (id parent : ℕ) (operation : String)
    (newPartitions : List PartitionRow) (deletedKeys : List String) (n : ℕ) (v w : Slice) : Prop :=
  ∃ r x, v.table = some r ∧ Stored pg id parent operation newPartitions deletedKeys n v x ∧
    w = { x with table := some { r with currentSnapshotId := n } }

namespace Slice

variable {pg : Postgres} {id n : ℕ} {news : List PartitionRow} {v w : Slice}

theorem Inserted.grows (h : Inserted pg id n news v w) : Grows n v w := by
  induction h with
  | nil => exact .refl
  | cons hp hmax _ _ ih => exact .head (.insert hp hmax rfl rfl rfl) ih

theorem markAll_grows (keys : List String) (v : Slice) : Grows n v (v.markAll n keys) := by
  induction keys generalizing v with
  | nil => exact .refl
  | cons key keys ih => exact .head (.mark v (cStr key)) (ih _)

end Slice

variable {pg : Postgres} {policy : Policy} {others : Bool} {i : ℕ} {q : Request}
  {h : Held} {ds : List String} {w w' v : Moment} {t : String} {c : Conn}
  {id next n : ℕ} {base : Slice} {φ : Slice → Prop} {exc : Moment → Prop}

section statements

theorem safe_insertSnapshot {parent : ℕ} {operation : String} {added deleted : ℤ}
    (hx : InTransaction policy others i q h ds c (.edits (cStr t) id base next (Eq base)) w)
    (hb : Calm policy others h.locked (cStr t) → Live (cStr t) (Eq base)) :
    Safe (view pg policy others i q) (fun x v => Continues policy others i q h ds c
      (.edits (cStr t) id base (x + 1) fun V => next ≤ x ∧ x < maxBigint ∧ parent < maxBigint ∧
        ∃ now, V = base.insertSnapshot x ⟨id, parent, now, cStr operation, added, deleted⟩) w
      (x ≠ 0) v) exc (PgClient.insertSnapshot c t parent operation added deleted) w := by
  refine safe_edit_by_id (fun k => .insertSnapshot k parent (cStr operation) added deleted) 0
    (fun _ res => res.first.getD 0) (fun x => x ≠ 0) (fun x => x + 1)
    (fun x V => next ≤ x ∧ x < maxBigint ∧ parent < maxBigint ∧ ∃ now,
      V = base.insertSnapshot x ⟨id, parent, now, cStr operation, added, deleted⟩)
    hx hb (fun _ => rfl) (by simp) (fun _ => by simp [PGresult.first]) ?_
  intro db now r p' _ hnext hd hr
  obtain ⟨rfl, hpar, hmax, hw, hs⟩ := Db.run_insertSnapshot hr
  exact ⟨hw, Nat.le_refl _, hnext, hmax, hpar, now, hd ▸ hs⟩

theorem safe_insertSnapshot_absent {parent : ℕ} {operation : String} {added deleted : ℤ}
    (hcalm : Calm policy others h.locked (cStr t))
    (hx : InTransaction policy others i q h ds c (.absent (cStr t)) w) :
    Safe (view pg policy others i q) (fun x v => x = 0 ∧ Later policy others h.locked w v ∧
      InTransaction policy others i q h ds c (.any (cStr t)) v) exc
      (PgClient.insertSnapshot c t parent operation added deleted) w := by
  refine Safe.bind ((safe_absentTableId hcalm hx).mono (fun x v hv => ?_) fun _ he => he)
  obtain ⟨rfl, hl, hv⟩ := hv
  exact fun u hu => ⟨rfl, hl.trans (hv.rely hu).2, (hv.rely hu).1⟩

theorem safe_insertPartition {part : PartitionRow}
    (hx : InTransaction policy others i q h ds c (.edits (cStr t) id base next φ) w)
    (hφ : Calm policy others h.locked (cStr t) → Live (cStr t) φ) :
    Safe (view pg policy others i q) (fun x v => Continues policy others i q h ds c
      (.edits (cStr t) id base next fun V => ∃ V₁ p stats, φ V₁ ∧ V₁.partitions p = none ∧
        p < maxBigint ∧ pg.jsonb (PgClient.partitionParams part).columnStatsJson = some stats ∧
        V = V₁.insertPartition p ((PgClient.partitionParams part).toRec id n stats)) w
      (x = true) v) exc (PgClient.insertPartition c t n part) w := by
  refine safe_edit_by_id (fun k => .insertPartition k n (PgClient.partitionParams part))
    false (fun _ res => res.commandOk) (fun x => x = true) (fun _ => next) (fun _ V =>
      ∃ V₁ p stats, φ V₁ ∧ V₁.partitions p = none ∧
        p < maxBigint ∧ pg.jsonb (PgClient.partitionParams part).columnStatsJson = some stats ∧
        V = V₁.insertPartition p ((PgClient.partitionParams part).toRec id n stats))
    hx hφ (fun _ => rfl) (by simp) (fun _ => by simp [PGresult.commandOk]) ?_
  intro db now r p' _ hnext hd hr
  obtain ⟨stats, hstats, hmax, hw, hs⟩ := Db.run_insertPartition hr
  refine ⟨hw, hnext, db.slice id, db.partitions.next, stats, hd, ?_, hmax, hstats, hs⟩
  simp [Db.slice, Rows.only, Rows.row_next]

/-- The loop over the new partitions. -/
theorem safe_insertPartitions (news : List PartitionRow) {φ : Slice → Prop}
    (hx : Drafting policy others i q h ds c (.edits (cStr t) id base next φ) w)
    (hφ : Calm policy others h.locked (cStr t) → Live (cStr t) φ) :
    Safe (view pg policy others i q) (fun x v => Continues policy others i q h ds c
      (.edits (cStr t) id base next fun V => ∃ V₁, φ V₁ ∧ Slice.Inserted pg id n news V₁ V) w
      (x = none) v) exc (PartitionRegistry.insertPartitions t c n news) w := by
  induction news generalizing w φ with
  | nil => exact safe_continues_ret ((hx.edited fun V hV => ⟨V, hV, .nil V⟩).continues (.refl _))
  | cons part rest ih =>
    refine Safe.bind ((safe_insertPartition (.inl hx) hφ).mono (fun x v hv => ?_) fun _ he => he)
    cases x with
    | false => exact safe_continues_ret ⟨hv.later, by simp, hv.inTransaction⟩
    | true =>
      refine (ih (hv.drafting rfl) ?_).mono (fun x u hu => ?_) fun _ he => he
      · rintro hc _ ⟨V₁, p, stats, hV₁, -, -, -, rfl⟩
        exact hφ hc V₁ hV₁
      · refine ⟨hv.later.trans hu.later, fun hn => (hu.drafting hn).edited ?_, hu.inTransaction⟩
        rintro V ⟨_, ⟨V₁, p, stats, hV₁, hp, hmax, hst, rfl⟩, hins⟩
        exact ⟨V₁, hV₁, .cons hp hmax hst hins⟩

theorem safe_markPartitionDeleted {key : String}
    (hx : InTransaction policy others i q h ds c (.edits (cStr t) id base next φ) w)
    (hφ : Calm policy others h.locked (cStr t) → Live (cStr t) φ) :
    Safe (view pg policy others i q) (fun x v => Continues policy others i q h ds c
      (.edits (cStr t) id base next fun V => ∃ V₁, φ V₁ ∧ V = V₁.markDeleted n (cStr key)) w
      (x = true) v) exc (PgClient.markPartitionDeleted c t key n) w := by
  refine safe_edit_by_id (fun k => .markDeleted n k (cStr key))
    false (fun _ res => res.commandOk) (fun x => x = true) (fun _ => next)
    (fun _ V => ∃ V₁, φ V₁ ∧ V = V₁.markDeleted n (cStr key))
    hx hφ (fun _ => rfl) (by simp) (fun _ => by simp [PGresult.commandOk]) ?_
  intro db now r p' _ hnext hd hr
  obtain ⟨hw, hs⟩ := Db.run_markDeleted hr
  exact ⟨hw, hnext, db.slice id, hd, hs⟩

/-- The loop over the deleted keys. -/
theorem safe_markPartitionsDeleted (keys : List String) {φ : Slice → Prop}
    (hx : Drafting policy others i q h ds c (.edits (cStr t) id base next φ) w)
    (hφ : Calm policy others h.locked (cStr t) → Live (cStr t) φ) :
    Safe (view pg policy others i q) (fun x v => Continues policy others i q h ds c
      (.edits (cStr t) id base next fun V => ∃ V₁, φ V₁ ∧ V = V₁.markAll n keys) w
      (x = none) v) exc (PartitionRegistry.markPartitionsDeleted t c n keys) w := by
  induction keys generalizing w φ with
  | nil => exact safe_continues_ret ((hx.edited fun V hV => ⟨V, hV, rfl⟩).continues (.refl _))
  | cons key keys ih =>
    refine Safe.bind
      ((safe_markPartitionDeleted (.inl hx) hφ).mono (fun x v hv => ?_) fun _ he => he)
    cases x with
    | false => exact safe_continues_ret ⟨hv.later, by simp, hv.inTransaction⟩
    | true =>
      refine (ih (hv.drafting rfl) ?_).mono (fun x u hu => ?_) fun _ he => he
      · rintro hc _ ⟨V₁, hV₁, rfl⟩
        exact hφ hc V₁ hV₁
      · refine ⟨hv.later.trans hu.later, fun hn => (hu.drafting hn).edited ?_, hu.inTransaction⟩
        rintro V ⟨_, ⟨V₁, hV₁, rfl⟩, rfl⟩
        exact ⟨V₁, hV₁, rfl⟩

theorem safe_updateTableSnapshot
    (hx : InTransaction policy others i q h ds c (.edits (cStr t) id base next φ) w)
    (hφ : Calm policy others h.locked (cStr t) → Live (cStr t) φ) :
    Safe (view pg policy others i q) (fun x v => Continues policy others i q h ds c
      (.edits (cStr t) id base next fun V => ∃ V₁ r, φ V₁ ∧ V₁.table = some r ∧
        V = { V₁ with table := some { r with currentSnapshotId := n } }) w
      (x = true) v) exc (PgClient.updateTableSnapshot c t n) w := by
  refine safe_edit_answer PGresult.commandOk (fun x => x = true) (fun _ => next)
    (fun _ V => ∃ V₁ r, φ V₁ ∧ V₁.table = some r ∧
      V = { V₁ with table := some { r with currentSnapshotId := n } }) hx rfl
    (by simp [PGresult.commandOk]) fun hc db now r p' hn hnext hd hr => ?_
  obtain ⟨hw, hs⟩ := Db.run_updateCurrent hn hr
  obtain ⟨row, hrow, hname⟩ := hφ hc _ hd
  refine ⟨hw, hnext, db.slice id, row, hd, hrow, hs.trans ?_⟩
  simp [Slice.mapTable, hrow, hname]

end statements

section commit
variable {parent : ℕ} {operation : String} {news : List PartitionRow} {dels : List String}

/-- `COMMIT` makes the commit `x` take effect between the moments `v` and `v'`. -/
structure CommitEffect (pg : Postgres) (policy : Policy) (t : String) (parent : ℕ)
    (operation : String) (news : List PartitionRow) (dels : List String) (n : ℕ)
    (v v' : Moment) : Prop where
  table : ∃ id r, v.now.db.find (cStr t) = some (id, r) ∧
    (policy.Steady → r.currentSnapshotId = parent) ∧
    (policy.Clean → r.currentSnapshotId < n) ∧
    Slice.CommittedAs pg id parent operation news dels n (v.now.db.slice id) (v'.now.db.slice id) ∧
    ∀ k, k ≠ id → v'.now.db.slice k = v.now.db.slice k
  next : n < v'.now.db.snapshots.next
  max : n < maxBigint

/-- What a commit called at `w` answers. -/
abbrev CommitAnswer (pg : Postgres) (policy : Policy) (others : Bool) (i : ℕ) (q : Request) (t : String)
    (parent : ℕ) (operation : String) (news : List PartitionRow) (dels : List String)
    (w : Moment) (x : PartitionRegistry.CommitResult) : Moment → Prop :=
  Transacted policy others i q (fun v v' => Calm policy others [t] (cStr t) →
    CommitEffect pg policy t parent operation news dels x.snapshotId v v') w x.success

/-- A commit called at `w` that is acknowledged has drawn its number since. -/
def Numbered (policy : Policy) (others : Bool) (t : String) (parent : ℕ) (w : Moment)
    (x : PartitionRegistry.CommitResult) : Prop :=
  x.success = true → Calm policy others [t] (cStr t) →
    w.now.db.snapshots.next ≤ x.snapshotId ∧ x.snapshotId < maxBigint ∧ parent < maxBigint

theorem durable_commitAnswer {ts : List String} (x : PartitionRegistry.CommitResult) :
    Durable policy others ts fun u =>
      CommitAnswer pg policy others i q t parent operation news dels w x u ∧
        Numbered policy others t parent w x :=
  (durable_transacted _ _).and (durable_const _)

theorem safe_rollback_commit {D : Draft (cStr t)} {errorMsg : String}
    (hl : Later policy others [] w v)
    (hx : InTransaction policy others i q { exclusive := [t] } [] c D v) :
    Safe (view pg policy others i q)
      (fun x u => Connected policy i q { exclusive := [t] } [] c False u ∧
        CommitAnswer pg policy others i q t parent operation news dels w x u ∧
        Numbered policy others t parent w x) exc (PartitionRegistry.rollback c errorMsg) v := by
  refine safe_rollback hx fun _ u hc hl' => ?_
  exact safe_connected_ret durable_commitAnswer hc ⟨.failed rfl (hl.trans hl'.forget), nofun⟩

/-- A commit is an allowed change of its table. -/
theorem Slice.CommittedAs.tableChange {v w : Slice} {steady : Prop}
    (h : CommittedAs pg id parent operation news dels n v w)
    (hpar : steady → ∀ r, v.table = some r → r.currentSnapshotId = parent)
    (hlt : ∀ r, v.table = some r → r.currentSnapshotId < n) (hnext : n < next)
    (hmax : n < maxBigint) : TableChange steady next v w := by
  obtain ⟨r, x, hr, ⟨now, y, hins, rfl⟩, rfl⟩ := h
  exact .committed hr (hlt r hr) hnext hmax (fun hs => (hpar hs r hr).symm)
    (hins.grows.trans (markAll_grows dels y))

theorem Slice.CommittedAs.schemaVersion {v w : Slice} {r r' : TableRec}
    (h : CommittedAs pg id parent operation news dels n v w) (hr : v.table = some r)
    (hr' : w.table = some r') : r'.schemaVersion = r.schemaVersion := by
  obtain ⟨r₀, x, hr₀, -, rfl⟩ := h
  cases hr'
  rw [hr₀] at hr
  cases hr
  rfl

/-- From `COMMIT` on. -/
theorem safe_commitDraft (hl : Later policy others [] w v) (hn : policy.Clean → NulFree t)
    (hq : ¬ q.Detaches t) (hnum : Calm policy others [t] (cStr t) →
      w.now.db.snapshots.next ≤ n ∧ n < maxBigint ∧ parent < maxBigint)
    (hpar : Calm policy others [t] (cStr t) → policy.Steady →
      ∀ r, base.table = some r → r.currentSnapshotId = parent)
    (hlt : policy.Clean → ∀ r, base.table = some r → r.currentSnapshotId < n)
    (hx : Drafting policy others i q { exclusive := [t] } [] c
      (.edits (cStr t) id base (n + 1) (base.CommittedAs pg id parent operation news dels n)) v) :
    Safe (view pg policy others i q)
      (fun x u => Connected policy i q { exclusive := [t] } [] c False u ∧
        CommitAnswer pg policy others i q t parent operation news dels w x u ∧
        Numbered policy others t parent w x) exc
      ((exec c .commit).bind fun _ => (PartitionRegistry.invalidateTableCache t).bind fun _ =>
        .ret { success := true, snapshotId := n }) v := by
  have hcalm : policy.Clean → Calm policy others [t] (cStr t) := .of_clean hn (by simp)
  have hend : ∀ (ds : List String) (u : Moment), Connected policy i q { exclusive := [t] } ds c False u →
      ds ⊆ [t] → (∀ u', u.Before u' → (others = false → u.now.db.SameRows u'.now.db ∧
        u'.now.mvcc = u.now.mvcc) → CommitAnswer pg policy others i q t parent operation news dels w
          { success := true, snapshotId := n } u') →
      Safe (view pg policy others i q)
        (fun x u => Connected policy i q { exclusive := [t] } [] c False u ∧
          CommitAnswer pg policy others i q t parent operation news dels w x u ∧
          Numbered policy others t parent w x) exc
        ((PartitionRegistry.invalidateTableCache t).bind fun _ =>
          .ret { success := true, snapshotId := n }) u := by
    intro ds u hc hds ha
    refine safe_cacheInvalidate hc.own fun u' r ho hu hs hsess => ?_
    have hnil : ds.filter (· ≠ t) = [] := by
      refine List.filter_eq_nil_iff.mpr fun x hx => ?_
      simpa using hds hx
    rw [hnil] at ho
    have hclosed : (u'.now.backend.session c).Closed := by
      rw [hsess c hc.own.holder]
      exact hc.closed
    exact safe_connected_ret durable_commitAnswer ⟨ho, hclosed, False.elim⟩
      ⟨ha u' hu hs, fun _ => hnum⟩
  refine safe_commit hx (fun hclean u p ho _ hk hD => ?_) (fun r u hc hlu hex => ?_)
    fun r u u' hlu hc hex => ?_
  · have he := hD (hcalm hclean)
    refine ⟨_, id, he.committable hk ?_ (fun V hV => ?_) ?_ (fun _ V r r' hV hr hr' => ?_)
      fun _ V r hV hr => ?_⟩
    · rw [cStr_of_nulFree (hn hclean)]
      exact (ho.holds.writer t).mpr (by simp)
    · exact hV.tableChange (hpar (hcalm hclean)) (hlt hclean) (Nat.lt_of_lt_of_le (by omega) he.next)
        (hnum (hcalm hclean)).2.1
    · rw [cStr_of_nulFree (hn hclean)]
      exact fun hd => absurd hd hq
    · exact hV.schemaVersion hr hr'
    · obtain ⟨r₀, x, hr₀, -, rfl⟩ := hV
      rw [hr] at hr₀
      cases hr₀
      exact ⟨_, rfl, rfl⟩
  · refine hend [] u hc (by simp) fun u' hu hs => .dropped rfl ((hl.before.trans hlu.before).trans hu)
      (fun hf => ?_) hex
    have hstill := (hl.still hf).trans (hlu.still hf)
    exact ⟨hstill.rows.trans (hs hf).1, (hs hf).2.trans hstill.mvcc⟩
  · refine hend [t] u' (hc.connected [t] (by simp) fun _ x hx _ => hx) (by simp) fun u'' hu hs => ?_
    refine .done rfl ⟨u, u', hl.before.trans hlu.before, hc.acted, hu, fun hf => ?_, ?_⟩ hex
    · have hstill := (hl.still hf).trans (hlu.still hf)
      exact ⟨hstill, (hs hf).1, (hs hf).2.trans (hc.mvcc.trans hstill.mvcc)⟩
    · intro hcl
      obtain ⟨p, hd, hk, hD, hdb⟩ := hc.draft
      have he : Edits _ _ _ _ _ _ _ := hD hcl
      obtain ⟨r, hr⟩ := he.found
      obtain ⟨hrow, -⟩ := Db.row_of_find hr
      have hbase : base.table = some r := he.base ▸ hrow
      refine ⟨⟨id, r, hr, fun hs => hpar hcl hs r hbase, fun hclean => hlt hclean r hbase, ?_,
        fun k hk => ?_⟩, ?_, (hnum hcl).2.1⟩
      · rw [he.base, hdb]
        exact he.edited
      · rw [hdb]
        exact he.within.slice_of_ne hk
      · rw [hdb]
        exact Nat.lt_of_succ_le he.next

theorem safe_commitSnapshot_numbered (ho : Own policy i q {} [] w)
    (hn : policy.Clean → NulFree t) (hq : ¬ q.Detaches t) :
    Safe (view pg policy others i q)
      (fun x u => Own policy i q {} [] u ∧
        CommitAnswer pg policy others i q t parent operation news dels w x u ∧
        Numbered policy others t parent w x)
      (fun u => Own policy i q {} [] u ∧ Later policy others [] w u)
      (PartitionRegistry.commitSnapshot t parent operation news dels) w := by
  refine safe_withExclusive (fun _ => []) ho (.inl rfl) durable_commitAnswer
    (durable_later w) (by simp) fun v _ hv hl => ?_
  refine safe_withConnection (fun _ => []) hv rfl durable_commitAnswer
    (durable_later w).lift (fun u hu => hl.trans hu.forget) fun c v' hc hl' => ?_
  have hw : Later policy others [] w v' := hl.trans hl'.forget
  refine Safe.bind ((safe_getCurrentSnapshot (hc.at policy.Steady)
    fun hp c o ho => hp q c _ o ho).mono (fun x u hu => ?_) fun _ he => he)
  obtain ⟨hc, hr₀⟩ := hu
  split
  · exact safe_connected_ret durable_commitAnswer (hc.mono False.elim)
      ⟨.failed rfl (hw.trans hr₀.1.forget), nofun⟩
  rename_i hval
  have hpar : parent = x := by simpa [MVCCManager.validateParentSnapshot] using hval
  refine safe_begin (cStr t) hc fun _ u' hx hl' => ?_
  have hwu : Later policy others [] w u' := hw.trans (hr₀.1.forget.trans hl'.forget)
  rcases hx.open with ⟨id, hfound, hx⟩ | ⟨hcalm, hf, hx⟩
  · have hbase : ∀ hc : Calm policy others [t] (cStr t), ∃ r, u'.now.db.find (cStr t) = some (id, r) ∧
        (u'.now.db.slice id).table = some r ∧ r.named (cStr t) = true := by
      intro hc
      obtain ⟨r, hf⟩ := hfound hc
      exact ⟨r, hf, Db.row_of_find hf⟩
    have hb : Calm policy others [t] (cStr t) → Live (cStr t) (Eq (u'.now.db.slice id)) := by
      rintro hc _ rfl
      obtain ⟨r, -, hr⟩ := hbase hc
      exact ⟨r, hr⟩
    have hwf := fun hclean => (hx.own.inv.consistent hclean).wellFormed id
    generalize u'.now.db.slice id = base at hx hb hbase hwf
    refine Safe.bind ((safe_insertSnapshot hx hb).mono (fun n u₁ h₁ => ?_) fun _ he => he)
    have hl₁ := hwu.trans h₁.later.forget
    split
    · exact safe_rollback_commit hl₁ h₁.inTransaction
    rename_i hn0
    have hd₁ := h₁.drafting hn0
    refine Safe.bind ((safe_insertPartitions news hd₁ ?_).mono (fun r u₂ h₂ => ?_) fun _ he => he)
    · rintro hc _ ⟨-, -, -, now, rfl⟩
      exact hb hc base rfl
    have hl₂ := hl₁.trans h₂.later.forget
    cases r with
    | some part => exact safe_rollback_commit hl₂ h₂.inTransaction
    | none =>
    refine Safe.bind ((safe_markPartitionsDeleted dels (h₂.drafting rfl) ?_).mono
      (fun r u₃ h₃ => ?_) fun _ he => he)
    · rintro hc V ⟨_, ⟨-, -, -, now, rfl⟩, hins⟩
      obtain ⟨r, hr⟩ := hb hc base rfl
      exact ⟨r, hins.grows.table.trans hr.1, hr.2⟩
    have hl₃ := hl₂.trans h₃.later.forget
    cases r with
    | some key => exact safe_rollback_commit hl₃ h₃.inTransaction
    | none =>
    refine Safe.bind ((safe_updateTableSnapshot (.inl (h₃.drafting rfl)) ?_).mono
      (fun r u₄ h₄ => ?_) fun _ he => he)
    · rintro hc _ ⟨V, ⟨_, ⟨-, -, -, now, rfl⟩, hins⟩, rfl⟩
      obtain ⟨r, hr⟩ := hb hc base rfl
      exact ⟨r, ((Slice.markAll_grows dels V).table.trans hins.grows.table).trans hr.1, hr.2⟩
    have hl₄ := hl₃.trans h₄.later.forget
    cases r with
    | false => exact safe_rollback_commit hl₄ h₄.inTransaction
    | true =>
    refine safe_commitDraft hl₄ hn hq ?_ ?_ ?_ ((h₄.drafting rfl).edited ?_)
    · exact fun hc => ⟨hwu.nextLe.snapshots.trans (hd₁.fact (fun V hV => hV.1) hc),
        hd₁.fact (fun V hV => hV.2.1) hc, hd₁.fact (fun V hV => hV.2.2.1) hc⟩
    · intro hc hs r hr
      obtain ⟨r', hf, hr', -⟩ := hbase hc
      rw [hr] at hr'
      cases hr'
      have hcur : u'.now.db.current (cStr t) = r.currentSnapshotId := by simp [Db.current, hf]
      rcases hr₀.2 hc with hx | ⟨-, hx⟩
      · rw [hpar, hx, ← about_current _ _ _ (hl'.sameTable hc)]
        exact hcur.symm
      · exact absurd hs hx
    · intro hclean r hr
      exact ((hwf hclean).current r hr).1.trans_le
        (hd₁.fact (fun V hV => hV.1) (.of_clean hn (by simp [Held.locked]) hclean))
    · rintro _ ⟨_, r, ⟨V, ⟨_, ⟨-, -, -, now, rfl⟩, hins⟩, rfl⟩, hr, rfl⟩
      refine ⟨r, _, ?_, ⟨now, V, hins, rfl⟩, rfl⟩
      rw [(Slice.markAll_grows dels V).table, hins.grows.table] at hr
      exact hr
  · refine Safe.bind ((safe_insertSnapshot_absent hcalm hx).mono (fun n u₁ h₁ => ?_) fun _ he => he)
    obtain ⟨rfl, hl₁, hx₁⟩ := h₁
    rw [if_pos rfl]
    exact safe_rollback_commit (hwu.trans hl₁.forget) hx₁

theorem safe_commitSnapshot (ho : Own policy i q {} [] w) (hn : policy.Clean → NulFree t)
    (hq : ¬ q.Detaches t) :
    Safe (view pg policy others i q)
      (fun x u => Own policy i q {} [] u ∧
        CommitAnswer pg policy others i q t parent operation news dels w x u)
      (fun u => Own policy i q {} [] u ∧ Later policy others [] w u)
      (PartitionRegistry.commitSnapshot t parent operation news dels) w :=
  (safe_commitSnapshot_numbered ho hn hq).mono (fun _ _ hx => ⟨hx.1, hx.2.1⟩) fun _ he => he

end commit
end IceLog
