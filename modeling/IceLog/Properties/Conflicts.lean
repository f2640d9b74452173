import IceLog.Properties.Contents
import IceLog.Server.CommitEvents
import IceLog.Server.Scopes

/-! The check of a commit for conflicts, when the statements that it issues may fail. -/
namespace IceLog

open Interleaved Serial

variable {pg : Postgres} {policy : Policy} {c : ServerConfig} {i p : ℕ} {q : Request} {t op : String}
  {news : List PartitionRow} {dels : List String} {w w' : Moment} {tr : List (Act × Outcome)}
  {conn : Conn} {db db' : Db}

/-- A snapshot is stored that was not. -/
def Db.StoresSnapshot (db db' : Db) : Prop :=
  ∃ n x, db'.snapshots.row n = some x ∧ db.snapshots.row n = none

/-- A snapshot is stored only if `p` is the current one in the row of the table. -/
def FailsClosed (t : String) (p : ℕ) (db db' : Db) : Prop :=
  db.StoresSnapshot db' → ∃ k r, db.find (cStr t) = some (k, r) ∧ p = r.currentSnapshotId

/-- How the `SELECT` of `get_current_snapshot` is answered, if it is sent. -/
def currentRead (tr : List (Act × Outcome)) : Option Outcome :=
  tr.findSome? fun
    | (.execParams _ (.selectCurrent _), o) => some o
    | _ => none

theorem Db.SameRows.not_storesSnapshot (h : db.SameRows db') : ¬ db.StoresSnapshot db' := by
  rintro ⟨n, x, hx, hn⟩
  rw [h.snapshots, hn] at hx
  cases hx

/-! What is compared with the parent. -/

/-- A commit that succeeds has compared its parent with the current snapshot, or with 0 if that
could not be read. -/
theorem solo_commitSnapshot {x : PartitionRegistry.CommitResult} (ho : Own policy i q {} [] w)
    (hx : Solo (server pg policy) i q (PartitionRegistry.commitSnapshot t p op news dels) w tr
      (some x) w') (hok : x.success = true) :
    (currentRead tr = some .ok ∧ p = w.now.db.current (cStr t)) ∨
      (currentRead tr ≠ some .ok ∧ p = 0) := by
  obtain ⟨v, v', tr₁, o, o', hv, hl, rfl, hx, -⟩ := solo_withExclusive ho hx
  rcases solo_withConnection hv rfl hx with ⟨hnone, -⟩ | hx
  · cases hnone
  obtain ⟨conn, u, u', tr₂, o₂, o₂', hu, hl', -, rfl, hx, -⟩ := hx
  rcases Solo.bind_cases hx with ⟨n, z, tr₃, tr₄, rfl, hselect, hrest⟩ | ⟨hnone, -⟩
  swap
  · cases hnone
  obtain ⟨a, rfl, -, hn⟩ := solo_read yields_current hu rfl hselect
  have hread : currentRead ((.lockExclusive t, o) :: (((.acquire, o₂) ::
      (([(.execParams conn (.selectCurrent (cStr t)), .answer a)] ++ tr₄) ++
        [(.release conn, o₂')])) ++ [(.unlockExclusive t, o')])) = some (.answer a) := rfl
  have hp : p = n := by
    by_cases hn : MVCCManager.validateParentSnapshot p n = true
    · simpa [MVCCManager.validateParentSnapshot] using hn
    · rw [Bool.not_eq_true] at hn
      rw [hn] at hrest
      cases hrest
      cases hok
  have hsame : u.now.db.current (cStr t) = w.now.db.current (cStr t) :=
    about_current _ _ _ (((hl.trans hl').still rfl).rows.sameTable _)
  rw [hread, hp]
  by_cases ha : a = .ok
  · subst ha
    exact .inl ⟨rfl, (Option.some.inj hn).trans hsame⟩
  · rw [if_neg ha] at hn
    refine .inr ⟨fun h => ha ?_, Option.some.inj hn⟩
    cases h
    rfl

/-! `COMMIT` is sent by those who succeed. -/

theorem carriedOut_commits (h : carriedOut tr = true) : ∃ e ∈ tr, e.1.Commits := by
  obtain ⟨⟨a, o⟩, he, hc⟩ := List.any_eq_true.mp h
  refine ⟨_, he, ?_⟩
  split at hc
  · rename_i conn ans heq
    cases heq
    exact ⟨conn, rfl⟩
  · cases hc

theorem leads_commitSnapshot : (PartitionRegistry.commitSnapshot t p op news dels).Leads Act.Commits
    fun x => x.success = true := closing_commitSnapshot.leads

/-! What is stored. -/

/-- A commit stores its snapshot. -/
theorem CommitEffect.stored {n : ℕ} (h : CommitEffect pg policy t p op news dels n w w') :
    ∃ x, w'.now.db.snapshots.row n = some x := by
  obtain ⟨k, r, -, -, -, ⟨_, z, -, ⟨now, y, hins, rfl⟩, hw⟩, -⟩ := h.table
  have hz : (w'.now.db.slice k).snapshots n = y.snapshots n := by
    rw [hw]
    exact congrFun (Slice.markAll_grows dels y).snapshots n
  rw [hins.grows.snapshots] at hz
  exact ⟨_, (Db.slice_snapshots.mp (hz.trans (Function.update_self ..))).1⟩

/-- Whatever statements of a commit fail, the check fails closed if and only if the current snapshot
could be read, or is 0, or `COMMIT` is not carried out. -/
theorem commit_failsClosed_iff (h : Reachable pg .any c) (hi : c.thread i = none)
    {x : Option PartitionRegistry.CommitResult}
    (hx : Solo (server pg .any) i (.commit t p op news dels)
      (PartitionRegistry.commitSnapshot t p op news dels) c.world tr x w') :
    FailsClosed t p c.state.db w'.now.db ↔
      currentRead tr = some .ok ∨ c.state.db.current (cStr t) = 0 ∨ carriedOut tr = false := by
  have ho := own_fresh (q := .commit t p op news dels) h.inv (h.good.fresh i hi)
  have hpost := post_settled hx commitsOnce_commitSnapshot ho fun policy hc ho =>
    safe_commitSnapshot_numbered ho (fun h => absurd h hc) id
  cases hcarried : carriedOut tr with
  | false =>
    refine iff_of_true (fun hs => absurd hs (Db.SameRows.not_storesSnapshot ?_)) (.inr (.inr rfl))
    rw [hcarried] at hpost
    cases x with
    | none => exact (hpost.2.still rfl).rows
    | some x =>
      obtain ⟨-, hans, -⟩ := hpost
      cases hans with
      | failed _ hl => exact (hl.still rfl).rows
      | dropped _ _ hsame _ => exact (hsame rfl).1
      | done _ _ hcommit =>
        obtain ⟨_, a, ha, hyes⟩ := hcommit
        rw [show a.carriedOut = false from beq_iff_eq.mp ha] at hyes
        cases hyes
  | true =>
    obtain ⟨y, rfl, hok⟩ := hx.leads leads_commitSnapshot (carriedOut_commits hcarried)
    rw [hcarried] at hpost
    obtain ⟨-, hans, hnum⟩ := hpost
    obtain ⟨k, r, hf, hstores⟩ : ∃ k r, c.state.db.find (cStr t) = some (k, r) ∧
        c.state.db.StoresSnapshot w'.now.db := by
      cases hans with
      | failed hno => simp [hok] at hno
      | dropped _ _ _ hcommit =>
        obtain ⟨_, a, ha, hno⟩ := hcommit
        rw [show a.carriedOut = true from beq_iff_eq.mp ha] at hno
        cases hno
      | done _ he _ =>
        obtain ⟨v, v', -, -, -, hstill, he⟩ := he
        obtain ⟨hstill, hrows, -⟩ := hstill rfl
        have he := he (.inl rfl)
        obtain ⟨k, r, hf, -⟩ := he.table
        obtain ⟨z, hz⟩ := he.stored
        have hnext : c.state.db.snapshots.next ≤ y.snapshotId := (hnum hok (.inl rfl)).1
        refine ⟨k, r, (hstill.rows.find _).symm.trans hf, y.snapshotId, z, ?_, ?_⟩
        · rw [hrows.snapshots]
          exact hz
        · exact c.state.db.snapshots.drawn _ (by omega)
    have hcurrent : c.state.db.current (cStr t) = r.currentSnapshotId := by rw [Db.current, hf]; rfl
    have hread := solo_commitSnapshot ho hx hok
    rw [hcurrent] at hread ⊢
    constructor
    · intro hclosed
      obtain ⟨k', r', hf', hp⟩ := hclosed hstores
      cases hf.symm.trans hf'
      rcases hread with ⟨hread, -⟩ | ⟨-, h0⟩
      · exact .inl hread
      · exact .inr (.inl (hp ▸ h0))
    · rintro hcond -
      refine ⟨k, r, hf, ?_⟩
      rcases hread with ⟨-, hp⟩ | ⟨hread, h0⟩
      · exact hp
      · rcases hcond with hok | hzero | hno
        · exact absurd hok hread
        · rw [h0, hzero]
        · cases hno

/-! Commits that change no partition, after a first commit. -/

/-- A commit with the given parent. -/
abbrev emptyCommit (p : ℕ) : Code PartitionRegistry.CommitResult :=
  PartitionRegistry.commitSnapshot "t" p "append" [] []

/-- All statements succeed but the `SELECT`, which is answered by `a`. -/
def selectAnswers (a : Answer) : List Outcome := [.ok, .ok, .answer a] ++ List.replicate 8 .ok

/-- The current snapshot is read, and is the parent. -/
theorem commit_failsClosed_after_read : ∃ (c : ServerConfig) (w' : Moment),
    FailsClosed "t" 1 c.state.db w'.now.db ∧ w'.now.db.current "t" = 2 := by
  let run (c : ServerConfig) := (server .plain .any).alone 2 (.commit "t" 1 "append" [] [])
    (emptyCommit 1) c.world (selectAnswers .ok)
  let read (c : ServerConfig) : Bool := decide (currentRead ((server .plain .any).trace 2
    (.commit "t" 1 "append" [] []) (emptyCommit 1) c.world (selectAnswers .ok)) = some .ok)
  let good (c : ServerConfig) : Bool := (c.thread 2).isNone && read c &&
    (run c).any fun r => decide (r.2.now.db.current "t" = 2)
  obtain ⟨c, h, hp⟩ := @reachable_of_check .plain .any firstCommit good (by decide +kernel)
  simp only [good, read, run, Bool.and_eq_true, Option.isNone_iff_eq_none, Option.any_eq_true,
    decide_eq_true_eq] at hp
  obtain ⟨⟨hi, hread⟩, ⟨x, w'⟩, hx, hcurrent⟩ := hp
  exact ⟨c, w', (commit_failsClosed_iff h hi (System.solo_of_alone hx)).mpr (.inl hread), hcurrent⟩

/-- The `SELECT` fails, and a commit over no snapshot at all is stored over the first one. -/
theorem commit_not_failsClosed : ¬ ∀ (pg : Postgres) (c : ServerConfig) (i p : ℕ) (t op : String)
    (news : List PartitionRow) (dels : List String) (tr : List (Act × Outcome))
    (x : Option PartitionRegistry.CommitResult) (w' : Moment), Reachable pg .any c →
    c.thread i = none → Solo (server pg .any) i (.commit t p op news dels)
      (PartitionRegistry.commitSnapshot t p op news dels) c.world tr x w' →
    FailsClosed t p c.state.db w'.now.db := by
  intro hall
  let run (c : ServerConfig) := (server .plain .any).alone 2 (.commit "t" 0 "append" [] [])
    (emptyCommit 0) c.world (selectAnswers (.fail false))
  let stored (s : Server) (n : ℕ) : Bool := (s.db.snapshots.row n).isSome
  let bad (c : ServerConfig) : Bool := (c.thread 2).isNone && !stored c.state 2 &&
    (c.state.db.find "t").any (fun f => decide (f.2.currentSnapshotId = 1)) &&
    (run c).any fun r => stored r.2.now 2
  obtain ⟨c, h, hp⟩ := @reachable_of_check .plain .any firstCommit bad (by decide +kernel)
  simp only [bad, stored, run, Bool.and_eq_true, Bool.not_eq_true', Option.isNone_iff_eq_none,
    Option.any_eq_true, decide_eq_true_eq, Option.isSome_iff_exists,
    Option.isSome_eq_false_iff] at hp
  obtain ⟨⟨⟨hi, hnone⟩, ⟨k, r⟩, hf, hr⟩, ⟨x, w'⟩, hx, z, hz⟩ := hp
  obtain ⟨k', r', hf', hp⟩ := hall .plain c 2 0 "t" "append" [] [] _ x w' h hi
    (System.solo_of_alone hx) ⟨2, z, hz, hnone⟩
  rw [show cStr "t" = "t" from by decide, hf] at hf'
  cases hf'
  dsimp only at hr
  omega

end IceLog
