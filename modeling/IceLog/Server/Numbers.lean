import IceLog.Server.TransactionSteps

/-! The snapshot numbers in stored partitions have been drawn, whatever the names are. -/
namespace IceLog

open Interleaved Serial

variable {pg : Postgres} {policy : Policy} {b b' : Backend} {conn : Conn} {sql : Sql} {k : Command}
  {ans : Answer} {now n : ℕ} {db : Db} {p : Changes} {α β : Type}

/-- Both snapshots of the partition are below `n`. -/
structure PartitionRec.Below (n : ℕ) (r : PartitionRec) : Prop where
  stored : r.snapshotId < n
  deleted : ∀ d, r.deletedSnapshotId = some d → d < n

/-- The partitions that are written have numbers below `n`. -/
def Changes.Below (n : ℕ) (p : Changes) : Prop :=
  ∀ id r, p.partitions id = some (some r) → r.Below n

def Db.Below (n : ℕ) (db : Db) : Prop := ∀ id r, db.partitions.row id = some r → r.Below n

structure Backend.Drawn (b : Backend) : Prop where
  rows : b.db.Below b.db.snapshots.next
  drafts : ∀ conn t p, b.session conn = .inTransaction t p → p.Below b.db.snapshots.next

theorem PartitionRec.Below.mono {m : ℕ} {r : PartitionRec} (h : r.Below n) (hm : n ≤ m) :
    r.Below m :=
  ⟨h.stored.trans_le hm, fun d hd => (h.deleted d hd).trans_le hm⟩

theorem Changes.Below.mono {m : ℕ} (h : p.Below n) (hm : n ≤ m) : p.Below m :=
  fun id r hr => (h id r hr).mono hm

theorem Db.Below.mono {m : ℕ} (h : db.Below n) (hm : n ≤ m) : db.Below m :=
  fun id r hr => (h id r hr).mono hm

theorem Db.Below.apply (h : db.Below n) (hp : p.Below n) : (db.apply p).Below n := by
  intro id r hr
  rcases Rows.apply_row_eq_some hr with hw | ⟨-, hr⟩
  · exact hp id r hw
  · exact h id r hr

theorem Changes.below_of_none (h : p.partitions = Patch.none) : p.Below n := by
  intro id r hr
  simp [h] at hr

theorem Changes.Below.andThen {q : Changes} (hp : p.Below n) (hq : q.Below n) :
    (p.andThen q).Below n := by
  intro id r hr
  simp only [Changes.andThen, Patch.andThen, Option.or_eq_some_iff] at hr
  rcases hr with hr | ⟨-, hr⟩
  · exact hq id r hr
  · exact hp id r hr

theorem Sql.run_below {res : PGresult sql.Row} (hdb : db.Below db.snapshots.next)
    (hm : ∀ n, sql.tombstone = some n → n < db.snapshots.next)
    (h : sql.run pg now db = some (res, p)) : p.Below db.snapshots.next := by
  cases sql with
  | insertPartition tableId snapshotId part =>
    simp only [Sql.run, Option.bind_eq_bind, Option.bind_eq_some_iff] at h
    obtain ⟨stats, -, h⟩ := h
    split at h
    · cases h
    · rename_i hc
      cases h
      intro id r hr
      simp only [Bool.or_eq_true, not_or] at hc
      obtain ⟨-, hr⟩ := Patch.write_eq_some.mp hr
      cases hr
      obtain ⟨x, hx⟩ := Option.ne_none_iff_exists'.mp (by simpa using hc.2)
      exact ⟨(Rows.born hx).2, by rintro _ ⟨⟩⟩
  | markDeleted d tableId key =>
    simp only [Sql.run] at h
    split at h
    · cases h
    · cases h
      intro id r hr
      dsimp only at hr
      obtain ⟨r₀, hr₀, -, hw⟩ := Rows.updateWhere_eq_some.mp hr
      cases hw
      refine ⟨(hdb id r₀ hr₀).stored, fun d' hd' => ?_⟩
      cases hd'
      exact hm d rfl
  | deletePartitions tableId =>
    cases h
    intro id r hr
    dsimp only at hr
    obtain ⟨_, -, -, hr⟩ := Rows.deleteWhere_eq_some.mp hr
    cases hr
  | insertTable name schema spec properties =>
    simp only [Sql.run, Option.bind_eq_bind, Option.bind_eq_some_iff] at h
    obtain ⟨schema', -, props', -, h⟩ := h
    split at h
    · cases h
    · split at h <;> cases h <;> exact Changes.below_of_none rfl
  | updateSchema =>
    simp only [Sql.run, Option.bind_eq_bind, Option.bind_eq_some_iff] at h
    obtain ⟨x, -, h⟩ := h
    cases h
    exact Changes.below_of_none rfl
  | insertHistory | selectTables =>
    simp only [Sql.run, Option.bind_eq_bind, Option.bind_eq_some_iff] at h
    obtain ⟨x, -, h⟩ := h
    split at h <;> cases h
    exact Changes.below_of_none rfl
  | renameTable | deleteSnapshots | deleteTable | selectPartitions | selectPartitionsPaged
  | insertSnapshot | selectSnapshot | updateCurrent | insertTransaction | updateStatus =>
    simp only [Sql.run] at h
    split at h <;> cases h
    exact Changes.below_of_none rfl
  | selectTableId | selectTable | deleteHistory | softDelete | selectSnapshots
  | selectCurrent | selectHistoryAt | selectHistory =>
    simp only [Sql.run] at h
    cases h
    exact Changes.below_of_none rfl

namespace Backend

theorem Drawn.next (conn : Conn) (hb : b.Drawn) (hn : b.db.NextLe b'.db)
    (hr : b'.db.Below b'.db.snapshots.next)
    (hne : ∀ d, d ≠ conn → b'.session d = b.session d)
    (hc : ∀ t p, b'.session conn = .inTransaction t p → p.Below b'.db.snapshots.next) :
    b'.Drawn := by
  refine ⟨hr, fun d t p hd => ?_⟩
  by_cases hdc : d = conn
  · subst hdc
    exact hc t p hd
  · exact (hb.drafts d t p (hne d hdc ▸ hd)).mono hn.snapshots

theorem Drawn.quiet {σ : Session} (hb : b.Drawn) (hq : Quiet conn σ b b')
    (hc : ∀ t p, σ = .inTransaction t p → b.session conn = .inTransaction t p ∨ p = {}) :
    b'.Drawn := by
  refine hb.next conn hq.nextLe ?_ (fun d hd => hq.session_of_ne hd) fun t p hs => ?_
  · intro id r hr
    rw [hq.sameRows.partitions] at hr
    exact (hb.rows id r hr).mono hq.nextLe.snapshots
  · rw [hq.session_self] at hs
    rcases hc t p hs with hs | rfl
    · exact (hb.drafts conn t p hs).mono hq.nextLe.snapshots
    · exact Changes.below_of_none rfl

theorem Executed.drawn {r : PGresult sql.Row} (hb : b.Drawn)
    (hm : ∀ n, sql.tombstone = some n → n < b.db.snapshots.next)
    (h : Executed pg b conn sql ans r b') : b'.Drawn := by
  have hn := h.nextLe
  have hdraw : ∀ {n}, b.db.Below n → (sql.draw b.db).Below n := by
    intro n hd id r hr
    rw [(Db.sameRows_draw sql b.db).partitions] at hr
    exact hd id r hr
  cases h with
  | failed hf hq _ => exact hb.quiet hq fun t p hs => absurd hs (hf.not_inTransaction t p)
  | @committed _ _ p σ _ hr _ ha =>
    have hp := (Sql.run_below hb.rows hm hr).mono hn.snapshots
    refine hb.next conn hn ?_ (fun d hd => setSession_of_ne _ _ hd) fun t p hs => ?_
    · exact (hdraw (hb.rows.mono hn.snapshots)).apply hp
    · rw [setSession_self] at hs
      rcases ha with ⟨-, -, rfl⟩ | ⟨-, -, rfl⟩ <;> cases hs
  | @added u p p' _ _ hs hr _ =>
    have hd := hb.drafts conn u p hs
    have hp' := (Sql.run_below (hb.rows.apply hd) hm hr).mono hn.snapshots
    refine hb.next conn hn ?_ (fun d hd => setSession_of_ne _ _ hd) fun t p hs => ?_
    · exact hdraw (hb.rows.mono hn.snapshots)
    · rw [setSession_self] at hs
      cases hs
      exact (hd.mono hn.snapshots).andThen hp'

theorem Controlled.drawn {r : Bool} (hb : b.Drawn) (h : Controlled b conn k ans r b') :
    b'.Drawn := by
  cases h with
  | moved hq _ hσ => exact hb.quiet hq hσ
  | committed _ hs ha =>
    refine hb.next conn (Db.nextLe_apply _ _) ?_ (fun d hd => setSession_of_ne _ _ hd)
      fun t p hs => ?_
    · exact hb.rows.apply (hb.drafts conn _ _ hs)
    · rw [setSession_self] at hs
      rcases ha with ⟨-, -, rfl⟩ | ⟨-, -, rfl⟩ <;> cases hs

/-- A number that is answered has been drawn. -/
theorem Executed.number {tableId parent : ℕ} {operation : String} {added deleted : ℤ}
    {r : PGresult (Sql.insertSnapshot tableId parent operation added deleted).Row}
    (h : Executed pg b conn (.insertSnapshot tableId parent operation added deleted) ans r b')
    (hn : r.first = some n) : n < b'.db.snapshots.next := by
  have hrun : ∀ {db : Db} {now : ℕ} {res : PGresult ℕ} {p : Changes}, res.first = some n →
      Sql.run pg now (.insertSnapshot tableId parent operation added deleted) db = some (res, p) →
      n = db.snapshots.next := by
    intro db now res p hn hr
    obtain ⟨rfl, -⟩ := Db.run_insertSnapshot hr
    exact (Option.some.inj hn).symm
  cases h with
  | failed => cases hn
  | committed _ hr _ ha =>
    rcases ha with ⟨-, rfl, -⟩ | ⟨-, rfl, -⟩
    · rw [hrun hn hr]
      exact Nat.lt_succ_self _
    · cases hn
  | added _ _ hr _ =>
    rw [hrun hn hr]
    exact Nat.lt_succ_self _

end Backend

/-! A commit tombstones with the number it has drawn. -/

/-- The snapshot number that an action has drawn. -/
def Act.number : (a : Act) → a.Result → Option ℕ
  | .execParams _ (.insertSnapshot ..), r => r.first
  | _, _ => none

/-- Tombstones have numbers of which `K` holds, or that the program has drawn before. -/
def MarksDrawn : Code α → (ℕ → Prop) → Prop
  | .act a k, K => (∀ conn sql n, a = .execParams conn sql → sql.tombstone = some n → K n) ∧
      ∀ r, MarksDrawn (k r) fun n => K n ∨ a.number r = some n
  | _, _ => True

/-- Not a tombstone. -/
def Act.noMark (a : Act) : Prop := ∀ conn sql, a = .execParams conn sql → sql.tombstone = none

namespace MarksDrawn

variable {K K' : ℕ → Prop} {code : Code α}

theorem mono (h : MarksDrawn code K) (hK : ∀ n, K n → K' n) : MarksDrawn code K' := by
  induction code generalizing K K' with
  | ret x | throw => trivial
  | act a k ih =>
    refine ⟨fun conn sql n ha hn => hK n (h.1 conn sql n ha hn), fun r => ih r (h.2 r) ?_⟩
    exact fun n => Or.imp_left (hK n)

theorem of_acts (h : Acts (fun a => ∀ conn sql n, a = .execParams conn sql →
    sql.tombstone = some n → K n) code) : MarksDrawn code K := by
  induction code generalizing K with
  | ret x | throw => trivial
  | act a k ih =>
    refine ⟨h.1, fun r => ih r ((h.2 r).mono ?_)⟩
    exact fun a _ ha conn sql n he hn => .inl (ha conn sql n he hn)

theorem bind {f : α → Code β} (h : MarksDrawn code K)
    (hf : ∀ x K', (∀ n, K n → K' n) → MarksDrawn (f x) K') : MarksDrawn (code.bind f) K := by
  induction code generalizing K with
  | ret x => exact hf x K fun _ => id
  | throw => trivial
  | act a k ih =>
    refine ⟨h.1, fun r => ih r (h.2 r) fun x K' hK => hf x K' fun n hn => hK n (.inl hn)⟩

theorem of_noMark (h : Acts Act.noMark code) : MarksDrawn code K :=
  of_acts (h.mono fun a _ ha conn sql n he hn => by simp [ha conn sql he] at hn)

theorem guarded {a : Act} {k : a.Result → Code Unit} (h : MarksDrawn code K)
    (hl : ∀ K, MarksDrawn (.act a k) K) : MarksDrawn (code.guarded (.act a k)) K := by
  induction code generalizing K with
  | ret x | throw => exact bind (hl K) fun _ _ _ => trivial
  | act b l ih => exact ⟨h.1, fun r => ih r (h.2 r)⟩

theorem withExclusive {t : String} (h : ∀ K, MarksDrawn code K) :
    MarksDrawn (IceLog.withExclusive t code) K := by
  refine bind (of_noMark (Acts.atomically nofun)) fun _ K' _ => ?_
  exact guarded (h K') fun _ => of_noMark (Acts.atomically nofun)

theorem withConnection {body : Conn → Code α} (h : ∀ c K, MarksDrawn (body c) K) :
    MarksDrawn (IceLog.withConnection body) K := by
  refine bind (of_noMark (Acts.atomically nofun)) fun r K' _ => ?_
  cases r with
  | none => trivial
  | some c => exact guarded (h c K') fun _ => of_noMark (Acts.atomically nofun)

end MarksDrawn

theorem mayEdit_noMark : MayEdit Act.noMark where
  statement conn sql _ hm := by
    rintro _ _ ⟨⟩
    exact hm
  command conn k := nofun

/-- The number that `insert_snapshot` returns is 0 or has been drawn. -/
theorem MarksDrawn.insertSnapshot {K : ℕ → Prop} {t operation : String} {parent : ℕ}
    {added deleted : ℤ} {f : ℕ → Code α}
    (hf : ∀ n K', (n ≠ 0 → K' n) → MarksDrawn (f n) K') :
    MarksDrawn ((PgClient.insertSnapshot conn t parent operation added deleted).bind f) K := by
  show MarksDrawn (((PgClient.getTableId conn t).bind _).bind f) K
  rw [Prog.bind_assoc]
  refine .bind (.of_noMark (Acts.getTableId mayEdit_noMark.select)) fun r K' _ => ?_
  cases r with
  | none => exact hf 0 K' (absurd rfl)
  | some id =>
    refine ⟨by rintro _ _ n ⟨⟩ ⟨⟩, fun r => hf _ _ fun hn => .inr ?_⟩
    show r.first = some (r.first.getD 0)
    cases hr : r.first with
    | none => simp [hr] at hn
    | some m => rfl

theorem marksDrawn_commitSnapshot {t op : String} {parent : ℕ} {news : List PartitionRow}
    {dels : List String} {K : ℕ → Prop} :
    MarksDrawn (PartitionRegistry.commitSnapshot t parent op news dels) K := by
  have he : MayChange Act.noMark := mayEdit_noMark.statement
  refine .withExclusive fun K => .withConnection fun conn K => ?_
  refine .bind (.of_noMark (Acts.getCurrentSnapshot he.select)) fun current K _ => ?_
  split
  · trivial
  refine .bind (.of_noMark (Acts.atomically nofun)) fun _ K _ => ?_
  refine .insertSnapshot fun n K hn => ?_
  split
  · exact .bind (.of_noMark (Acts.atomically nofun)) fun _ _ _ => trivial
  rename_i hn0
  refine .bind (.of_noMark (Acts.insertPartitions he n news)) fun r K' hK => ?_
  cases r with
  | some part => exact .bind (.of_noMark (Acts.atomically nofun)) fun _ _ _ => trivial
  | none =>
  refine .bind (.of_acts (Acts.markPartitionsDeleted ?_ ?_ dels)) fun r K'' _ => ?_
  · rintro conn sql hs hm _ _ m ⟨⟩ hm'
    simp [hm] at hm'
  · rintro conn sql hm _ _ m ⟨⟩ hm'
    rw [hm] at hm'
    cases hm'
    exact hK n (hn hn0)
  cases r with
  | some key => exact .bind (.of_noMark (Acts.atomically nofun)) fun _ _ _ => trivial
  | none =>
  refine .bind (.of_noMark (Acts.statement _ (he conn _ rfl rfl))) fun moved K _ => ?_
  split
  · exact .bind (.of_noMark (Acts.atomically nofun)) fun _ _ _ => trivial
  · exact .bind (.of_noMark (Acts.atomically nofun)) fun _ _ _ =>
      .bind (.of_noMark (Acts.atomically nofun)) fun _ _ _ => trivial

theorem marksDrawn_code (q : Request) {K : ℕ → Prop} : MarksDrawn q.code K := by
  have hacts : (∀ sql, q.MayRun sql → sql.tombstone = none) → MarksDrawn q.code K := by
    refine fun hq => .of_noMark ((code_acts q).mono fun a _ ha => ?_)
    rintro conn sql rfl
    exact hq sql ha
  have hselect : ∀ sql : Sql, sql.selects = true → sql.tombstone = none := by
    intro sql hs
    cases sql <;> first | rfl | cases hs
  cases q with
  | commit | commitSnapshot => exact .bind marksDrawn_commitSnapshot fun _ _ _ => trivial
  | createTable | alterTable | dropTable => exact hacts fun sql hs => hs.2
  | beginTransaction =>
    refine hacts fun sql hs => ?_
    obtain ⟨_, _, _, rfl⟩ := hs
    rfl
  | commitTransaction | abortTransaction =>
    refine hacts fun sql hs => ?_
    cases hs
    rfl
  | _ => exact hacts fun sql hs => hselect sql hs

/-! The numbers in a reachable state. -/

variable {c : ServerConfig}

theorem perform_drawn {i : ℕ} {o : Outcome} {a : Act} {r : a.Result} {s s' : Server}
    (hb : s.backend.Drawn)
    (hm : ∀ conn sql n, a = .execParams conn sql → sql.tombstone = some n →
      n < s.db.snapshots.next)
    (h : Server.perform pg o i a s = some (r, s')) :
    s'.backend.Drawn ∧ ∀ n, a.number r = some n → n < s'.db.snapshots.next := by
  cases perform_queried h with
  | exec hx => exact ⟨(Backend.exec_cases hx).drawn hb, by rintro _ ⟨⟩⟩
  | @execParams conn sql _ r _ hx =>
    refine ⟨hx.drawn hb fun n hn => hm conn sql n rfl hn, fun n hn => ?_⟩
    cases sql with
    | insertSnapshot => exact hx.number hn
    | _ => cases hn
  | silent hexec hsql hdb hsess =>
    refine ⟨⟨?_, fun conn t p hs => ?_⟩, fun n hn => ?_⟩
    · rw [show s'.backend.db = s.backend.db from hdb]
      exact hb.rows
    · rw [show s'.backend.db = s.backend.db from hdb]
      exact hb.drafts conn t p (hsess conn t p hs)
    · cases a with
      | execParams conn sql => exact absurd rfl (hsql conn sql)
      | _ => cases hn

theorem drawn_started {s : Server} (hs : Started db s) (hdb : db.Below db.snapshots.next) :
    s.backend.Drawn := by
  refine ⟨?_, fun conn t p h => ?_⟩
  · rw [show s.backend.db = db from hs.db]
    exact hdb
  · cases (hs.session conn).symm.trans h

theorem Reachable.marksDrawn (h : Reachable pg policy c) : c.state.backend.Drawn ∧
    ∀ i t, c.thread i = some t → MarksDrawn t.code (· < c.state.db.snapshots.next) := by
  induction h with
  | start hs => exact ⟨drawn_started hs nofun, nofun⟩
  | restart _ hs ih => exact ⟨drawn_started hs ih.1.rows, nofun⟩
  | @step c c' e h hs ih =>
    obtain ⟨hd, hm⟩ := ih
    have hn := (h.promise hs).nextLe.snapshots
    cases hs with
    | @call i q hi _ =>
      refine ⟨hd, fun j t ht => ?_⟩
      by_cases hij : j = i
      · subst hij
        rw [Config.put_thread_self] at ht
        cases ht
        exact marksDrawn_code q
      · rw [Config.put_thread_of_ne _ _ _ _ hij] at ht
        exact hm j t ht
    | @act i q a k r s hi hx =>
      obtain ⟨o, -, hx⟩ := hx
      have hmark := hm i _ hi
      obtain ⟨hd', hnumber⟩ := perform_drawn hd hmark.1 hx
      refine ⟨hd', fun j t ht => ?_⟩
      by_cases hij : j = i
      · subst hij
        rw [Config.put_thread_self] at ht
        cases ht
        exact (hmark.2 r).mono fun n hK => hK.elim (fun hK => hK.trans_le hn) (hnumber n)
      · rw [Config.put_thread_of_ne _ _ _ _ hij] at ht
        exact (hm j t ht).mono fun n hK => hK.trans_le hn
    | drift hdr =>
      obtain ⟨_, _, -, -, rfl⟩ := hdr
      exact ⟨⟨hd.rows, hd.drafts⟩, hm⟩

theorem Reachable.drawn (h : Reachable pg policy c) : c.state.backend.Drawn := h.marksDrawn.1

end IceLog
