import Mathlib.Data.List.Perm.Basic
import IceLog.Db.Contents
import IceLog.Properties.Storage
import IceLog.Server.Alone
import IceLog.Server.Numbers

/-! What a commit makes of the listing of its table. -/
namespace IceLog

open Interleaved Serial

variable {pg : Postgres} {c : ServerConfig} {i k p n N : ℕ} {t op : String} {r : TableRec}
  {news : List PartitionRow} {dels : List String} {base : Slice} {db db' : Db}

/-- What a listing should show of a partition of the commit `n`. -/
def PartitionRow.infoAt (n : ℕ) (part : PartitionRow) : PartitionInfo :=
  { part.toInfo with snapshotId := n }

/-- The listing at `n` is the one at `p` without the deleted keys and with the new partitions. -/
def CommitListed (t : String) (p n : ℕ) (news : List PartitionRow) (dels : List String)
    (db db' : Db) : Prop :=
  ∃ before after added, db.queryPartitions (cStr t) p = some before ∧
    db'.queryPartitions (cStr t) n = some after ∧
    added.map PartitionRow.toInfo = news.map (PartitionRow.infoAt n) ∧
    after.Perm (before.filter (fun row => row.partitionKey ∉ dels) ++ added)

/-- The database keeps the strings of the new partition, and its key is not among the deleted ones
as the database reads them. -/
structure PartitionRow.Kept (dels : List String) (part : PartitionRow) : Prop where
  key : NulFree part.partitionKey
  path : NulFree part.dataFilePath
  format : NulFree part.fileFormat
  free : part.partitionKey ∉ dels.map cStr

/-- The stored partition is visible at `p` and not to be deleted. -/
def PartitionRec.Remains (p : ℕ) (dels : List String) (x : PartitionRec) : Prop :=
  x.visibleAt p = true ∧ x.partitionKey ∉ dels

/-- The stored partition is live and no deleted key, as the database reads it, is its own. -/
def PartitionRec.Spared (dels : List String) (x : PartitionRec) : Prop :=
  x.isDeleted = false ∧ x.partitionKey ∉ dels.map cStr

instance (x : PartitionRec) : Decidable (x.Remains p dels) := inferInstanceAs (Decidable (_ ∧ _))

instance (x : PartitionRec) : Decidable (x.Spared dels) := inferInstanceAs (Decidable (_ ∧ _))

/-! The listings as lists of the rows of a slice. -/

theorem Db.select_eq_listed (a : PartitionRec → Bool) (hN : db.partitions.next ≤ N) :
    (db.partitions.select fun id x =>
      if x.tableId == k && a x then some (x.toRow id) else none) =
    (db.slice k).listed N (Slice.rowsWhere fun x => a x = true) := by
  rw [Rows.select_eq_range hN]
  refine List.filterMap_congr fun id _ => ?_
  simp only [Db.slice, Rows.only, PartitionRec.of, Slice.rowsWhere]
  cases db.partitions.row id with
  | none => rfl
  | some x => by_cases hx : x.tableId = k <;> simp [hx, Option.filter_some, Slice.rowsWhere]

theorem Db.partitionsAt_eq_listed (hN : db.partitions.next ≤ N) : db.partitionsAt k n =
    (db.slice k).listed N (Slice.rowsWhere fun x => x.visibleAt n = true) :=
  Db.select_eq_listed (fun x => x.visibleAt n) hN

theorem Slice.filter_listed {a b : PartitionRec → Prop} [DecidablePred a] [DecidablePred b]
    {f : PartitionRow → Bool} (hf : ∀ id x, (f (x.toRow id) = true ∧ a x) ↔ b x) :
    (base.listed N (Slice.rowsWhere a)).filter f = base.listed N (Slice.rowsWhere b) := by
  rw [Slice.listed, ← List.filterMap_eq_filter, List.filterMap_filterMap]
  refine List.filterMap_congr fun id _ => ?_
  cases base.partitions id with
  | none => rfl
  | some x =>
    have := hf id x
    by_cases ha : a x
    · by_cases hb : b x <;> simp_all [Slice.rowsWhere, Option.guard]
    · by_cases hb : b x <;> simp_all [Slice.rowsWhere]

/-- Up to `n`, what is visible at `n` is what is live. -/
theorem PartitionRec.Below.visibleAt {x : PartitionRec} (h : x.Below (n + 1)) :
    x.visibleAt n = true ↔ x.isDeleted = false := by
  have hany : (x.deletedSnapshotId.any fun d => decide (n < d)) = false := by
    cases hd : x.deletedSnapshotId with
    | none => rfl
    | some d => simpa using Nat.le_of_lt_succ (h.deleted d hd)
  simp [PartitionRec.visibleAt, hany, Nat.le_of_lt_succ h.stored]

theorem Slice.Inserted.rows_below {v w : Slice} (h : Slice.Inserted pg k n news v w)
    (hv : ∀ id x, v.partitions id = some x → x.Below (n + 1)) :
    ∀ id x, w.partitions id = some x → x.Below (n + 1) := by
  induction h with
  | nil => exact hv
  | @cons part rest v w p stats _ _ _ _ ih =>
    refine ih fun id x hx => ?_
    by_cases hid : id = p
    · subst hid
      simp only [Slice.insertPartition, Function.update_self, Option.some.injEq] at hx
      subst hx
      exact ⟨Nat.lt_succ_self n, by rintro _ ⟨⟩⟩
    · exact hv id x (by simpa [Slice.insertPartition, hid] using hx)

/-! Which listings are as they should be. -/

/-- Old and new partitions can be compared apart. -/
theorem listed_iff {a : PartitionRec → Prop} [DecidablePred a] {stored : List PartitionRow}
    (hb : ∀ id x, base.partitions id = some x → id < N ∧ x.snapshotId ≠ n)
    (hs : ∀ row ∈ stored, row.snapshotId = n) :
    (∃ added, added.map PartitionRow.toInfo = news.map (PartitionRow.infoAt n) ∧
      (base.listed N (Slice.rowsWhere a) ++ stored).Perm
        (base.listed N (Slice.rowsWhere fun x => x.Remains p dels) ++ added)) ↔
      (stored.map PartitionRow.toInfo).Perm (news.map (PartitionRow.infoAt n)) ∧
        ∀ id x, base.partitions id = some x → (a x ↔ x.Remains p dels) := by
  have hold : ∀ {a : PartitionRec → Prop} [DecidablePred a],
      ∀ row ∈ base.listed N (Slice.rowsWhere a), (row.snapshotId == n) = false := by
    intro a _ row hrow
    obtain ⟨id, x, -, hx, hrow⟩ := Slice.mem_listed.mp hrow
    simp only [Slice.rowsWhere, Option.ite_none_right_eq_some, Option.some.injEq] at hrow
    simpa [← hrow.2, PartitionRec.toRow] using (hb id x hx).2
  have hstored : ∀ row ∈ stored, (row.snapshotId == n) = true := by simpa using hs
  have hsplit : ∀ {added : List PartitionRow},
      added.map PartitionRow.toInfo = news.map (PartitionRow.infoAt n) →
      ((base.listed N (Slice.rowsWhere a) ++ stored).Perm
        (base.listed N (Slice.rowsWhere fun x => x.Remains p dels) ++ added) ↔
        (∀ id x, base.partitions id = some x → (a x ↔ x.Remains p dels)) ∧ stored.Perm added) := by
    intro added hadded
    have hn : ∀ row ∈ added, (row.snapshotId == n) = true := by
      intro row hrow
      have := List.mem_map_of_mem (f := PartitionRow.toInfo) hrow
      rw [hadded] at this
      obtain ⟨part, -, hpart⟩ := List.mem_map.mp this
      exact beq_iff_eq.mpr (congrArg PartitionInfo.snapshotId hpart).symm
    rw [perm_append_iff hold hold hstored hn, Slice.listed_perm_iff]
    refine and_congr_left fun _ => ⟨fun h id x hx => h id x (hb id x hx).1 hx, fun h id x _ => h id x⟩
  constructor
  · rintro ⟨added, hadded, hperm⟩
    obtain ⟨hrows, hperm⟩ := (hsplit hadded).mp hperm
    exact ⟨hadded ▸ hperm.map _, hrows⟩
  · rintro ⟨hperm, hrows⟩
    have hcomp := congrFun (congrFun (List.eq_map_comp_perm PartitionRow.toInfo)
      (news.map (PartitionRow.infoAt n))) stored
    obtain ⟨added, hadded, hperm⟩ := hcomp.mpr hperm.symm
    exact ⟨added, hadded.symm, (hsplit hadded.symm).mpr ⟨hrows, hperm.symm⟩⟩

theorem forall₂_mem {α β : Type} {R : α → β → Prop} {xs : List α} {ys : List β}
    (h : List.Forall₂ R xs ys) :
    (∀ a ∈ xs, ∃ b ∈ ys, R a b) ∧ ∀ b ∈ ys, ∃ a ∈ xs, R a b := by
  induction h with
  | nil => simp
  | cons hab _ ih =>
    refine ⟨fun a ha => ?_, fun b hb => ?_⟩
    · rcases List.mem_cons.mp ha with rfl | ha
      · exact ⟨_, by simp, hab⟩
      · obtain ⟨b, hb, hr⟩ := ih.1 a ha
        exact ⟨b, by simp [hb], hr⟩
    · rcases List.mem_cons.mp hb with rfl | hb
      · exact ⟨_, by simp, hab⟩
      · obtain ⟨a, ha, hr⟩ := ih.2 b hb
        exact ⟨a, by simp [ha], hr⟩

/-- The rows of those new partitions that no deleted key hits. -/
def sparedRows (dels : List String) (added : List (ℕ × PartitionRec)) : List PartitionRow :=
  added.filterMap fun e => Slice.rowsWhere (fun x => x.Spared dels) e.1 e.2

/-- The new partitions that are visible are the new partitions, if all of them are kept. -/
theorem stored_perm_iff {added : List (ℕ × PartitionRec)}
    (h : List.Forall₂ (fun part e => ∃ stats,
      e.2 = (PgClient.partitionParams part).toRec k n stats) news added) :
    ((sparedRows dels added).map PartitionRow.toInfo).Perm (news.map (PartitionRow.infoAt n)) ↔
      ∀ part ∈ news, part.Kept dels := by
  constructor
  · intro hperm
    have hlen := hperm.length_eq
    simp only [List.length_map] at hlen
    have hall := List.filterMap_length_eq_length.mp (hlen.trans h.length_eq)
    have hspared : ∀ e ∈ added, e.2.Spared dels := by
      intro e he
      obtain ⟨row, hrow⟩ := Option.isSome_iff_exists.mp (hall e he)
      exact (Option.ite_none_right_eq_some.mp hrow).1
    intro part hm
    have hmem : part.infoAt n ∈ _ := hperm.mem_iff.mpr (List.mem_map_of_mem hm)
    obtain ⟨row, hrow, hinfo⟩ := List.mem_map.mp hmem
    obtain ⟨e, he, hsel⟩ := List.mem_filterMap.mp hrow
    cases (Option.ite_none_right_eq_some.mp hsel).2
    obtain ⟨part', -, stats, he'⟩ := (forall₂_mem h).2 e he
    rw [he'] at hinfo
    have hread : ∀ {a b : String}, cStr a = b → NulFree b := fun h => h ▸ nulFree_cStr _
    have hkey : NulFree part.partitionKey :=
      hread (a := part'.partitionKey) (congrArg PartitionInfo.partitionKey hinfo)
    refine ⟨hkey, hread (a := part'.dataFilePath) (congrArg PartitionInfo.dataFilePath hinfo),
      hread (a := part'.fileFormat) (congrArg PartitionInfo.fileFormat hinfo), ?_⟩
    obtain ⟨e₁, he₁, stats₁, heq⟩ := (forall₂_mem h).1 part hm
    have := (hspared e₁ he₁).2
    rw [heq] at this
    exact cStr_of_nulFree hkey ▸ this
  · intro hkept
    refine List.Perm.of_eq ?_
    induction h with
    | nil => rfl
    | @cons part e news added he _ ih =>
      obtain ⟨stats, he⟩ := he
      have hpart := hkept part (by simp)
      have hspared : e.2.Spared dels := by
        rw [he]
        exact ⟨rfl, by simpa [PgClient.partitionParams, PartitionRow.toRec,
          cStr_of_nulFree hpart.key] using hpart.free⟩
      have hrow : (e.2.toRow e.1).toInfo = part.infoAt n := by
        rw [he]
        simp [PartitionRec.toRow, PartitionRow.toInfo, PartitionRow.infoAt, PartitionRow.toRec,
          PgClient.partitionParams, cStr_of_nulFree hpart.key, cStr_of_nulFree hpart.path,
          cStr_of_nulFree hpart.format]
      have hcons : sparedRows dels (e :: added) = e.2.toRow e.1 :: sparedRows dels added :=
        List.filterMap_cons_some (if_pos hspared)
      rw [hcons, List.map_cons, List.map_cons, hrow, ih fun part hm => hkept part (by simp [hm])]

/-! The commit. -/

/-- The listing after a commit that takes effect. -/
theorem Slice.CommittedAs.listed {v w : Slice} (h : v.CommittedAs pg k p op news dels n w)
    (hv : ∀ id x, v.partitions id = some x → x.Below n)
    (hN : ∀ id x, w.partitions id = some x → id < N) :
    ∃ added, List.Forall₂ (fun part e => ∃ stats,
        e.2 = (PgClient.partitionParams part).toRec k n stats) news added ∧
      (w.listed N (Slice.rowsWhere fun x => x.visibleAt n = true)).Perm
        (v.listed N (Slice.rowsWhere fun x => x.Spared dels) ++ sparedRows dels added) := by
  obtain ⟨r, _, -, ⟨now, z, hins, rfl⟩, rfl⟩ := h
  have hbelow := hins.rows_below fun id x hx => (hv id x hx).mono (Nat.le_succ n)
  have hz : ∀ id x, z.partitions id = some x → id < N := fun id x hx =>
    hN id _ ((Slice.markAll_partitions id).trans (congrArg _ hx))
  obtain ⟨added, hadded, hperm⟩ := hins.listed hz
  refine ⟨added, hadded, ?_⟩
  have hmarked : (z.markAll n dels).listed N (Slice.rowsWhere fun x => x.visibleAt n = true) =
      z.listed N (Slice.rowsWhere fun x => x.Spared dels) := by
    refine List.filterMap_congr fun id _ => ?_
    rw [Slice.markAll_partitions]
    cases hx : z.partitions id with
    | none => rfl
    | some x =>
      have hvis := (hbelow id x hx).visibleAt
      simp only [Option.map_some, Option.bind_some, Slice.rowsWhere]
      split
      · rename_i hm
        have : ¬ x.Spared dels := fun hs => hs.2 hm.2
        simp [PartitionRec.visibleAt, PartitionRec.markDeleted, this]
      · rename_i hm
        refine if_congr (hvis.trans ⟨fun hd => ⟨hd, fun hk => hm ⟨hd, hk⟩⟩, And.left⟩) rfl rfl
  show ((z.markAll n dels).listed N _).Perm _
  rw [hmarked]
  exact hperm _ _

theorem Db.queryPartitions_listed (hf : db.find t = some (k, r)) (hn : n < maxBigint)
    (hN : db.partitions.next ≤ N) : db.queryPartitions t n =
      some ((db.slice k).listed N (Slice.rowsWhere fun x => x.visibleAt n = true)) := by
  simp [Db.queryPartitions, hf, Nat.not_le_of_lt hn, Db.partitionsAt_eq_listed hN]

/-- Two states of the table of the name, of which the later one lists `stored` besides old
partitions. -/
theorem commitListed_iff {a : PartitionRec → Prop} [DecidablePred a]
    (stored : List PartitionRow) {r' : TableRec} (hf : db.find (cStr t) = some (k, r))
    (hf' : db'.find (cStr t) = some (k, r'))
    (hp : p < maxBigint) (hn : n < maxBigint) (hN : db.partitions.next ≤ N)
    (hN' : db'.partitions.next ≤ N) (hold : db.Below n) (hs : ∀ row ∈ stored, row.snapshotId = n)
    (hafter : ((db'.slice k).listed N (Slice.rowsWhere fun x => x.visibleAt n = true)).Perm
      ((db.slice k).listed N (Slice.rowsWhere a) ++ stored)) :
    CommitListed t p n news dels db db' ↔
      (stored.map PartitionRow.toInfo).Perm (news.map (PartitionRow.infoAt n)) ∧
        ∀ id x, (db.slice k).partitions id = some x → (a x ↔ x.Remains p dels) := by
  have hb : ∀ id x, (db.slice k).partitions id = some x → id < N ∧ x.snapshotId ≠ n := by
    intro id x hx
    have hrow := (Db.slice_partitions.mp hx).1
    exact ⟨(Rows.born hrow).2.trans_le hN, (hold id x hrow).stored.ne⟩
  have hfilter : ((db.slice k).listed N (Slice.rowsWhere fun x => x.visibleAt p = true)).filter
      (fun row => row.partitionKey ∉ dels) =
      (db.slice k).listed N (Slice.rowsWhere fun x => x.Remains p dels) :=
    Slice.filter_listed fun id x => by
      rw [decide_eq_true_eq]
      exact and_comm
  rw [← listed_iff hb hs]
  constructor
  · rintro ⟨before, after, added, hbefore, hafter', hadded, hperm⟩
    rw [Db.queryPartitions_listed hf hp hN] at hbefore
    rw [Db.queryPartitions_listed hf' hn hN'] at hafter'
    cases hbefore
    cases hafter'
    exact ⟨added, hadded, hafter.symm.trans (hfilter ▸ hperm)⟩
  · rintro ⟨added, hadded, hperm⟩
    exact ⟨_, _, added, Db.queryPartitions_listed hf hp hN, Db.queryPartitions_listed hf' hn hN',
      hadded, hfilter ▸ hafter.trans hperm⟩

/-- After a commit that is acknowledged, whatever statements fail, the listing of the table is as it
should be if and only if `COMMIT` was carried out, the database kept the strings of the new
partitions, and no deleted key hit one of them or an old partition that was to remain; or `COMMIT`
was not carried out, and there was nothing to change. -/
theorem commit_listed_iff (h : Reachable pg .any c) (hi : c.thread i = none)
    (hf : c.state.db.find (cStr t) = some (k, r)) {tr : List (Act × Outcome)}
    {x : PartitionRegistry.CommitResult} {w' : Moment}
    (hx : Solo (server pg .any) i (.commit t p op news dels)
      (PartitionRegistry.commitSnapshot t p op news dels) c.world tr (some x) w')
    (hok : x.success = true) :
    CommitListed t p x.snapshotId news dels c.state.db w'.now.db ↔
      if carriedOut tr then (∀ part ∈ news, part.Kept dels) ∧
        ∀ id y, (c.state.db.slice k).partitions id = some y → (y.Spared dels ↔ y.Remains p dels)
      else news = [] ∧
        ∀ id y, (c.state.db.slice k).partitions id = some y →
          (y.isDeleted = false ↔ y.Remains p dels) := by
  have ho := own_fresh (q := .commit t p op news dels) h.inv (h.good.fresh i hi)
  obtain ⟨ho', hans, hnum⟩ := post_settled hx commitsOnce_commitSnapshot ho fun policy hc ho =>
    safe_commitSnapshot_numbered ho (fun h => absurd h hc) id
  obtain ⟨hn, hmax, hpar⟩ := hnum hok (.inl rfl)
  have hold : c.state.db.Below x.snapshotId := h.drawn.rows.mono hn
  let N := max c.state.db.partitions.next w'.now.db.partitions.next
  have hN : c.state.db.partitions.next ≤ N := Nat.le_max_left _ _
  have hN' : w'.now.db.partitions.next ≤ N := Nat.le_max_right _ _
  cases hans with
  | failed hno => simp [hok] at hno
  | dropped _ _ hsame hcommit =>
    obtain ⟨_, a, ha, hno⟩ := hcommit
    have hcarried : carriedOut tr = false := by
      rw [← hno]
      exact (beq_iff_eq.mp ha).symm
    have hrows := (hsame rfl).1
    have hf' : w'.now.db.find (cStr t) = some (k, r) := (hrows.find _).trans hf
    rw [hcarried, if_neg Bool.false_ne_true, commitListed_iff []
      (a := fun y => y.isDeleted = false) hf hf' hpar hmax hN hN' hold (by simp) ?_]
    · refine and_congr_left fun _ => ?_
      rw [List.map_nil, List.nil_perm, List.map_eq_nil_iff]
    · rw [hrows.slice k, List.append_nil]
      refine List.Perm.of_eq (Slice.listed_congr fun id y _ hy => ?_)
      have hy := (hold id y (Db.slice_partitions.mp hy).1).mono (Nat.le_succ _)
      exact if_congr hy.visibleAt rfl rfl
  | done _ he hcommit =>
    obtain ⟨_, a, ha, hyes⟩ := hcommit
    have hcarried : carriedOut tr = true := by
      rw [← hyes]
      exact (beq_iff_eq.mp ha).symm
    obtain ⟨v, v', -, -, -, hstill, he⟩ := he
    obtain ⟨hstill, hrows, -⟩ := hstill rfl
    obtain ⟨k', r', hf₀, -, -, hcom, -⟩ := (he (.inl rfl)).table
    rw [hstill.rows.find, hf] at hf₀
    cases hf₀
    rw [hstill.rows.slice k, ← hrows.slice k] at hcom
    obtain ⟨added, hadded, hperm⟩ := hcom.listed (N := N)
      (fun id y hy => hold id y (Db.slice_partitions.mp hy).1)
      fun id y hy => (Rows.born (Db.slice_partitions.mp hy).1).2.trans_le hN'
    have hf' : ∃ r', w'.now.db.find (cStr t) = some (k, r') := by
      obtain ⟨r₀, z, hr₀, -, hw⟩ := hcom
      obtain ⟨hrow, hname⟩ := Db.row_of_find hf
      cases hrow.symm.trans hr₀
      exact ⟨_, (Db.find_eq_some_iff ho'.unique).mpr ⟨congrArg Slice.table hw, hname⟩⟩
    obtain ⟨r', hf'⟩ := hf'
    rw [hcarried, if_pos rfl, commitListed_iff _ hf hf' hpar hmax hN hN' hold ?_ hperm,
      stored_perm_iff hadded]
    intro row hrow
    obtain ⟨e, he, hsel⟩ := List.mem_filterMap.mp hrow
    cases (Option.ite_none_right_eq_some.mp hsel).2
    obtain ⟨part, -, stats, he⟩ := (forall₂_mem hadded).2 e he
    rw [he]
    rfl

/-! Commits after a first one that has stored the file `f` under the key `a`. -/

/-- A commit of the file `g` under the given key that deletes the key `a`. -/
abbrev overwrite (key : String) : Request :=
  .commit "t" 1 "overwrite" [(samplePartition key "g").toRow] ["a"]

/-- Its code. -/
abbrev overwriteCode (key : String) : Code PartitionRegistry.CommitResult :=
  PartitionRegistry.commitSnapshot "t" 1 "overwrite" [(samplePartition key "g").toRow] ["a"]

/-- The table is created and the first file is stored. -/
def firstCommit : List (Move Request Outcome) :=
  serve 0 (.createTable "t" "\x7b\x7d" "" []) 5 ++
    serve 1 (.commit "t" 0 "append" [(samplePartition "a" "f").toRow] []) 13

/-- The file under another key takes the place of the first one. -/
theorem commit_listed_after_replacement : ∃ (c : ServerConfig) (w' : Moment),
    (c.state.db.queryPartitions "t" 1).map (List.map PartitionRow.dataFilePath) = some ["f"] ∧
      CommitListed "t" 1 2 [(samplePartition "b" "g").toRow] ["a"] c.state.db w'.now.db := by
  let run (c : ServerConfig) := (server .plain .any).alone 2 (overwrite "b") (overwriteCode "b")
    c.world (List.replicate 15 .ok)
  let spared (db : Db) (k : ℕ) : Bool := (List.range db.partitions.next).all fun id =>
    ((db.slice k).partitions id).all fun y => decide (y.Spared ["a"] ↔ y.Remains 1 ["a"])
  let carried (c : ServerConfig) : Bool := carriedOut ((server .plain .any).trace 2 (overwrite "b")
    (overwriteCode "b") c.world (List.replicate 15 .ok))
  let good (c : ServerConfig) : Bool := (c.thread 2).isNone &&
    decide ((c.state.db.queryPartitions "t" 1).map (List.map PartitionRow.dataFilePath) =
      some ["f"]) && (c.state.db.find "t").any (fun f => spared c.state.db f.1) && carried c &&
    (run c).any fun r => decide (r.1 = some ⟨true, 2, ""⟩)
  obtain ⟨c, h, hp⟩ := @reachable_of_check .plain .any firstCommit good (by decide +kernel)
  simp only [good, spared, carried, run, Bool.and_eq_true, Option.isNone_iff_eq_none,
    Option.any_eq_true, decide_eq_true_eq] at hp
  obtain ⟨⟨⟨⟨hi, hq⟩, ⟨k, r⟩, hf, hspared⟩, hcarried⟩, ⟨x, w'⟩, hx, hok⟩ := hp
  dsimp only at hok hspared
  subst hok
  have hf : c.state.db.find (cStr "t") = some (k, r) := by
    rwa [show cStr "t" = "t" from by decide]
  refine ⟨c, w', hq, (commit_listed_iff h hi hf (System.solo_of_alone hx) rfl).mpr ?_⟩
  rw [hcarried, if_pos rfl]
  refine ⟨?_, fun id y hy => ?_⟩
  · simp only [List.mem_singleton, forall_eq]
    exact ⟨by decide, by decide, by decide, by decide⟩
  · have hid := (Rows.born (Db.slice_partitions.mp hy).1).2
    have := List.all_eq_true.mp hspared id (List.mem_range.mpr hid)
    simpa [hy] using this

/-- The new file under the key of the old one is tombstoned together with it. -/
theorem commit_listed_not_after_overwrite : ¬ ∀ (pg : Postgres) (c : ServerConfig) (i k p : ℕ)
    (t op : String) (r : TableRec) (news : List PartitionRow) (dels : List String)
    (tr : List (Act × Outcome)) (x : PartitionRegistry.CommitResult) (w' : Moment),
    Reachable pg .any c → c.thread i = none → c.state.db.find (cStr t) = some (k, r) →
    r.currentSnapshotId = p → Solo (server pg .any) i (.commit t p op news dels)
      (PartitionRegistry.commitSnapshot t p op news dels) c.world tr (some x) w' →
    x.success = true → carriedOut tr = true →
    CommitListed t p x.snapshotId news dels c.state.db w'.now.db := by
  intro hall
  let trace (c : ServerConfig) := (server .plain .any).trace 2 (overwrite "a") (overwriteCode "a")
    c.world (List.replicate 15 .ok)
  let lost (r : Option PartitionRegistry.CommitResult × Moment) : Bool :=
    decide (r.1 = some ⟨true, 2, ""⟩ ∧ r.2.now.db.queryPartitions "t" 2 = some [])
  let run (c : ServerConfig) := (server .plain .any).alone 2 (overwrite "a") (overwriteCode "a")
    c.world (List.replicate 15 .ok)
  let bad (c : ServerConfig) : Bool := (c.thread 2).isNone &&
    (c.state.db.find "t").any (fun f => decide (f.2.currentSnapshotId = 1)) &&
    carriedOut (trace c) && (run c).any lost
  obtain ⟨c, h, hp⟩ := @reachable_of_check .plain .any firstCommit bad (by decide +kernel)
  simp only [bad, lost, run, trace, Bool.and_eq_true, Option.isNone_iff_eq_none,
    Option.any_eq_true, decide_eq_true_eq] at hp
  obtain ⟨⟨⟨hi, ⟨k, r⟩, hf, hr⟩, hcarried⟩, ⟨x, w'⟩, hx, hok, hq⟩ := hp
  dsimp only at hok hr hq
  subst hok
  have ht : cStr "t" = "t" := by decide
  obtain ⟨before, after, added, -, hafter, hadded, hperm⟩ :=
    hall .plain c 2 k 1 "t" "overwrite" r _ _ _ _ w' h hi (ht.symm ▸ hf) hr
      (System.solo_of_alone hx) rfl hcarried
  rw [ht, hq] at hafter
  cases hafter
  have hnil := List.append_eq_nil_iff.mp (List.nil_perm.mp hperm)
  rw [hnil.2] at hadded
  cases hadded

end IceLog
