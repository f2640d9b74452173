import IceLog.Properties.Specification
import IceLog.Properties.TableListing

/-! What the requests that change no table answer where nothing fails and no other request is
served: a function of the stored rows and of the transaction table, whatever is cached. -/
namespace IceLog

open Interleaved Serial

variable {pg : Postgres} {policy : Policy} {c c' : ServerConfig} {i n : ℕ} {q : Request}
  {t : String} {w w' : Moment} {tr : List (Act × Outcome)} {db : Db} {m : MVCCManager}
  {x : Option Reply} {y : Reply} {a : Act} {o : Outcome} {s s' : Server} {V V' : Catalog}

namespace Db

/-- The snapshot that is read for `n`. The counter stands in for 0, and as long as it is 0 itself,
the current snapshot of the table. -/
def readPoint (db : Db) (m : MVCCManager) (t : String) (n : ℕ) : ℕ :=
  if n ≠ 0 then n
  else if m.latestCommittedSnapshot ≠ 0 then m.latestCommittedSnapshot
  else db.current (cStr t)

/-- The partitions that are read for `n`. -/
def readPartitions (db : Db) (m : MVCCManager) (t : String) (n : ℕ) : Option (List PartitionRow) :=
  db.queryPartitions (cStr t) (db.readPoint m t n)

/-- The live tables of one page. The offset is the token as PostgreSQL reads it. -/
def tablesPage (pg : Postgres) (db : Db) (pageSize : ℤ) (pageToken : String) :
    List (ℕ × TableRec) :=
  (pg.bigint (tableOffset pageToken)).elim [] fun offset =>
    if offset < 0 then [] else (db.liveTables.drop offset.toNat).take (tableLimit pageSize)

end Db

namespace Request

/-- The answer to a request that changes no table. -/
def response (pg : Postgres) (db : Db) (m : MVCCManager) (now : ℕ) : Request → Option Reply
  | getTableMetadata t n => some (metadataReply t (db.readPoint m t n)
      ((db.readPartitions m t n).getD []) (db.tableRow (cStr t)))
  | getPartitions t n pageSize pageToken => some (listing t pageSize ((db.readPartitions m t n).map
      (if pageSize > 0 then page (pageLimit pageSize) (MetadataServer.lastId pageToken) else id)))
  | partitions t n => some (.rows (db.readPartitions m t n))
  | partitionsPaged t n pageSize last =>
    some (.rows ((db.readPartitions m t n).map (page (pageLimit pageSize) last)))
  | getPartitionStats t | stats t => some (.partitionStats (statsOf (db.readPartitions m t 0)))
  | getSnapshot t n => some (snapshotReply (Db.ofTable (Db.snapshotAt n) none (cStr t) db))
  | listSnapshots t limit =>
    some (snapshotsReply (Db.ofTable (Db.snapshotsOf (snapshotLimit limit)) [] (cStr t) db))
  | listTables pageSize pageToken =>
    some (.tables ((db.tablesPage pg pageSize pageToken).map summary))
  | alterTable _ (.newPartitionSpec _) =>
    some (.operation ⟨true, "partition spec update not yet implemented"⟩)
  | alterTable _ .notSet => some (.operation ⟨false, "No alteration specified"⟩)
  | beginTransaction .. =>
    let ((txnId, readSnapshot), _) := m.beginTransaction now
    some (.transaction txnId readSnapshot)
  | commitTransaction txnId => some (.operation
      (if (m.commitTransaction 0 now txnId).1 then { success := true }
      else ⟨false, "Transaction " ++ toString txnId ++ " not found or expired"⟩))
  | abortTransaction _ => some (.operation { success := true })
  | _ => none

/-- What the request makes of the transaction table. -/
def turns (m : MVCCManager) (now : ℕ) : Request → MVCCManager
  | beginTransaction .. => (m.beginTransaction now).2
  | commitTransaction txnId => (m.commitTransaction 0 now txnId).2
  | abortTransaction txnId => m.abortTransaction txnId
  | _ => m

/-- The request as a read of a table. -/
def tableRead : Request → Option (String × TableRead)
  | getTableMetadata t n => some (t, .getTableMetadata n)
  | getPartitions t n pageSize pageToken => some (t, .getPartitions n pageSize pageToken)
  | partitions t n => some (t, .partitions n)
  | partitionsPaged t n pageSize last => some (t, .partitionsPaged n pageSize last)
  | getPartitionStats t | stats t => some (t, .getPartitionStats)
  | getSnapshot t n => some (t, .getSnapshot n)
  | listSnapshots t limit => some (t, .listSnapshots limit)
  | _ => none

variable {r : TableRead}

theorem tableRead_code (h : q.tableRead = some (t, r)) :
    r.code t = q.code.bind fun x => .ret (.reply x) := by
  cases q with
  | partitions _ n =>
    cases h
    show _ = ((PartitionRegistry.getPartitions t n).bind fun r => .ret (Reply.rows r)).bind _
    rw [Prog.bind_assoc]
    rfl
  | partitionsPaged _ n pageSize last =>
    cases h
    show _ = ((PartitionRegistry.getPartitionsPaged t n pageSize last).bind fun r =>
      .ret (Reply.rows r)).bind _
    rw [Prog.bind_assoc]
    rfl
  | getTableMetadata | getPartitions | getPartitionStats | stats | getSnapshot | listSnapshots =>
    cases h
    rfl
  | _ => cases h

theorem tableRead_named (h : q.tableRead = some (t, r)) : t ∈ q.tableNames := by
  cases q with
  | getTableMetadata | getPartitions | getPartitionStats | stats | getSnapshot | listSnapshots
  | partitions | partitionsPaged =>
    cases h
    exact List.mem_singleton_self _
  | _ => cases h

/-- The same answer, without the cache. -/
theorem tableRead_answer {now : ℕ} (h : q.tableRead = some (t, r))
    (hy : q.response pg s.db s.mvcc now = some y) : r.answer t s = .reply y := by
  have hlisted : ∀ n, s.listedFor t n id = s.db.readPartitions s.mvcc t n := fun n => Option.map_id'
  cases q with
  | getTableMetadata =>
    cases h
    cases hy
    rw [TableRead.answer, hlisted]
    rfl
  | partitions | getPartitionStats | stats =>
    cases h
    cases hy
    rw [TableRead.answer, hlisted]
  | getPartitions | getSnapshot | listSnapshots | partitionsPaged =>
    cases h
    cases hy
    rfl
  | _ => cases h

end Request

/-! The table reads. -/

theorem Completes.reads {r : TableRead} (h : Quiet pg c) (hs : Completes pg .flawless c i q x c')
    (hq : q.tableRead = some (t, r)) (hy : q.response pg c.state.db c.state.mvcc n = some y) :
    x = some y := by
  obtain ⟨tr, hx⟩ := hs.solo
  obtain ⟨v', hx, -⟩ := hx.rebase (v := c.world) rfl
  have hread := hx.map ReadResult.reply
  rw [← Request.tableRead_code hq] at hread
  have ht := Policy.flawless_clean q hs.admitted t (Request.tableRead_named hq)
  have heq := h.read_eq ht hs.idle r hread
  rw [Request.tableRead_answer hq hy] at heq
  obtain ⟨z, rfl, hz⟩ := Option.map_eq_some_iff.mp heq
  cases hz
  rfl

/-! The list of tables. -/

theorem Sql.Yields.effect {sql : Sql} {β : Type} {g : PGresult sql.Row → β} {f : Db → β} {now : ℕ}
    {res : PGresult sql.Row} {db' : Db} (hy : sql.Yields pg g f)
    (h : sql.effect pg now db = (res, db')) : g res = f db := by
  rcases Sql.effect_cases h with ⟨hrun, rfl, -⟩ | ⟨p, hrun, -⟩
  · exact hy.violated db now hrun
  · exact hy.ok db now res p hrun

theorem yields_tables (pageSize : ℤ) (pageToken : String) :
    (Sql.selectTables (tableLimit pageSize) (tableOffset pageToken)).Yields pg
      (fun res => res.all.getD [])
      fun db => (db.tablesPage pg pageSize pageToken).map fun p => p.2.toRow p.1 where
  ok db now res p hrun := by
    obtain ⟨offset, hoffset, hrun⟩ := Option.bind_eq_some_iff.mp hrun
    rw [Db.tablesPage, hoffset, Option.elim_some]
    split at hrun
    · cases hrun
    · rename_i hpos
      cases hrun
      rw [if_neg hpos, PGresult.all, Option.getD_some, Db.select_tables, ← List.map_drop,
        ← List.map_take]
  violated db now hrun := by
    rw [Db.tablesPage]
    cases hoffset : pg.bigint (tableOffset pageToken) with
    | none => rfl
    | some offset =>
      simp only [Sql.run, hoffset, Option.bind_eq_bind, Option.bind_some] at hrun
      split at hrun
      · rename_i hneg
        simp [hneg, PGresult.all]
      · cases hrun

theorem solo_listTables (hu : policy.Unfailing) {pageSize : ℤ} {pageToken : String}
    (hpool : w.now.Pooled)
    (hx : Solo (server pg policy) i q (MetadataServer.listTables pageSize pageToken) w tr x w') :
    x = some (.tables ((w.now.db.tablesPage pg pageSize pageToken).map summary)) := by
  obtain ⟨rows, rfl, hread⟩ := solo_bind_ret
    (g := fun rows : List TableRow =>
      Reply.tables (rows.map fun t => (t.tableName, t.currentSnapshotId)))
    (fun _ => rfl) hx
  obtain ⟨res, rfl, hsent⟩ := solo_autocommit hu
    (.selectTables (tableLimit pageSize) (tableOffset pageToken)) (fun res => res.all.getD [])
    (fun _ => rfl) hpool hread
  obtain ⟨now, heffect⟩ := hsent.effect
  rw [(yields_tables pageSize pageToken).effect heffect, Option.map_some, List.map_map]
  rfl

/-! The transactions. -/

theorem MVCCManager.commitTransaction_failures (m : MVCCManager) (failures now txnId : ℕ) :
    m.commitTransaction failures now txnId = m.commitTransaction 0 now txnId := by
  rw [commitTransaction, commitTransaction]
  simp only [casLoop_eq]

/-- The three steps of `begin_transaction`, in a row. -/
theorem solo_mvccBegin {x : Option (ℕ × ℕ)}
    (hx : Solo (server pg policy) i q MetadataServer.mvccBegin w tr x w') :
    x = some (w.now.mvcc.beginTransaction w.now.steadyClock).1 ∧
      w'.now = { w.now with mvcc := (w.now.mvcc.beginTransaction w.now.steadyClock).2 } := by
  cases hx with
  | act _ hdraw hx =>
    cases hdraw
    cases hx with
    | act _ hload hx =>
      cases hload
      cases hx with
      | act _ hregister hx =>
        cases hregister
        cases hx
        exact ⟨rfl, rfl⟩

/-- A statement about a transaction, the answer to which is not looked at. -/
theorem solo_unheeded (hu : policy.Unfailing) (sql : Sql) (hpool : w.now.Pooled)
    (hx : Solo (server pg policy) i q
      (withConnection fun conn => (execParams conn sql).bind fun _ => .ret y) w tr x w') :
    x = some y ∧ w'.now.mvcc = w.now.mvcc := by
  obtain ⟨_, rfl, hsent⟩ := solo_autocommit hu sql (fun _ => y) (fun _ => rfl) hpool hx
  exact ⟨rfl, hsent.mvcc⟩

theorem solo_beginTransaction (hu : policy.Unfailing) {clientId : String}
    {isolation : IsolationLevel} (hpool : w.now.Pooled)
    (hx : Solo (server pg policy) i q (MetadataServer.beginTransaction clientId isolation) w tr x
      w') :
    x = (Request.beginTransaction clientId isolation).response pg w.now.db w.now.mvcc
        w.now.steadyClock ∧
      w'.now.mvcc = (w.now.mvcc.beginTransaction w.now.steadyClock).2 := by
  rcases Solo.bind_cases hx with ⟨e, v, tr₁, tr₂, -, hbegin, hrest⟩ | ⟨-, hbegin⟩
  · obtain ⟨he, hv⟩ := solo_mvccBegin hbegin
    cases he
    have hpool' : v.now.Pooled := by
      rw [hv]
      exact hpool
    obtain ⟨rfl, hmvcc⟩ := solo_unheeded hu _ hpool' hrest
    refine ⟨rfl, ?_⟩
    rw [hmvcc, hv]
  · cases (solo_mvccBegin hbegin).1

theorem solo_commitTransaction (hu : policy.Unfailing) {txnId : ℕ} (hpool : w.now.Pooled)
    (hx : Solo (server pg policy) i q (MetadataServer.commitTransaction txnId) w tr x w') :
    x = (Request.commitTransaction txnId).response pg w.now.db w.now.mvcc w.now.steadyClock ∧
      w'.now.mvcc = (w.now.mvcc.commitTransaction 0 w.now.steadyClock txnId).2 := by
  cases hx with
  | @act _ _ o r s _ _ _ _ _ hcommit hrest =>
    have hcommit : Server.perform pg o i (.commitTransaction txnId) w.now = some (r, s) := hcommit
    obtain ⟨hr, hs⟩ : r = (w.now.mvcc.commitTransaction 0 w.now.steadyClock txnId).1 ∧
        s = { w.now with mvcc := (w.now.mvcc.commitTransaction 0 w.now.steadyClock txnId).2 } := by
      cases Server.perform_cases hcommit with
      | @commitTransaction _ failures =>
        rw [MVCCManager.commitTransaction_failures]
        exact ⟨rfl, rfl⟩
    have hpool' : (w.next (.act i q (.commitTransaction txnId) r) s).now.Pooled := by
      rw [World.next_now, hs]
      exact hpool
    rw [Request.response, ← hr]
    cases r with
    | true =>
      have hrest : Solo (server pg policy) i q ((withConnection fun conn =>
        PgClient.updateTransactionStatus conn txnId "committed").bind fun _ =>
          .ret (Reply.operation { success := true })) _ _ x w' := hrest
      rcases Solo.bind_cases hrest with ⟨b, v, tr₁, tr₂, -, hupdate, hret⟩ | ⟨-, hupdate⟩
      · obtain ⟨res, -, hsent⟩ := solo_autocommit hu (.updateStatus (cStr "committed") txnId)
          PGresult.commandOk (fun _ => rfl) hpool' hupdate
        cases hret
        refine ⟨rfl, hsent.mvcc.trans ?_⟩
        rw [World.next_now, hs]
      · obtain ⟨res, hres, -⟩ := solo_autocommit hu (.updateStatus (cStr "committed") txnId)
          PGresult.commandOk (fun _ => rfl) hpool' hupdate
        cases hres
    | false =>
      cases hrest
      refine ⟨rfl, ?_⟩
      rw [World.next_now, hs]

theorem solo_abortTransaction (hu : policy.Unfailing) {txnId : ℕ} (hpool : w.now.Pooled)
    (hx : Solo (server pg policy) i q (MetadataServer.abortTransaction txnId) w tr x w') :
    x = some (.operation { success := true }) ∧
      w'.now.mvcc = w.now.mvcc.abortTransaction txnId := by
  cases hx with
  | act _ habort hrest =>
    cases habort
    have hpool' : (w.next (.act i q (.abortTransaction txnId) ())
      { w.now with mvcc := w.now.mvcc.abortTransaction txnId }).now.Pooled := hpool
    exact solo_unheeded hu (.updateStatus (cStr "aborted") txnId) hpool' hrest

/-! All of them. -/

theorem Request.Does.changes {steady : Prop} (h : q.Does pg steady n V V') : q.Changes := by
  cases h with
  | created | renamed | absent => exact .inr rfl
  | altered => exact .inl .alter
  | dropped => exact .inl .drop
  | committed hcall => exact .inl (.commit hcall)

theorem Request.responds (hq : ¬ q.Changes) (pg : Postgres) (db : Db) (m : MVCCManager) (now : ℕ) :
    ∃ y, q.response pg db m now = some y := by
  cases q with
  | createTable => exact absurd (.inr rfl) hq
  | dropTable => exact absurd (.inl .drop) hq
  | commitSnapshot | commit => exact absurd (.inl (.commit rfl)) hq
  | alterTable t alteration =>
    cases alteration with
    | rename => exact absurd (.inr rfl) hq
    | newSchemaJson => exact absurd (.inl .alter) hq
    | _ => exact ⟨_, rfl⟩
  | _ => exact ⟨_, rfl⟩

/-- The rows of the tables stay. -/
theorem Completes.catalog_eq (h : Quiet pg c) (hs : Completes pg .flawless c i q x c')
    (hq : ¬ q.Changes) : c'.state.db.catalog = c.state.db.catalog := by
  obtain ⟨L, hL, rfl | ⟨p, rfl, -, rfl⟩⟩ := hs.serial h
  · exact hL.serial.eq
  · exact absurd hL.serial.does.changes hq

/-- Whether the request is about a transaction. -/
def Request.transacts : Request → Bool
  | beginTransaction .. | commitTransaction _ | abortTransaction _ => true
  | _ => false

/-- The others leave the transaction table alone. -/
theorem Completes.mvcc_eq (hs : Completes pg .flawless c i q x c') (hq : q.transacts = false) :
    c'.state.mvcc = c.state.mvcc := by
  obtain ⟨tr, hx⟩ := hs.solo
  refine hx.keeps (K := fun s s' : Server => s'.mvcc = s.mvcc) (code_acts q) (fun _ => rfl)
    (fun h h' => h'.trans h) fun a o s r s' ha hp => ?_
  have hcounted : Counted s.mvcc (.act i q a r) s'.mvcc := perform_counted hp
  generalize s'.mvcc = m at hcounted
  cases hcounted with
  | kept => rfl
  | drawn he | registered he =>
    cases he
    obtain ⟨_, _, rfl⟩ := ha
    cases hq
  | committed he | aborted he =>
    cases he
    obtain rfl : q = _ := ha
    cases hq

theorem Completes.responds (h : Quiet pg c) (hs : Completes pg .flawless c i q x c')
    (hy : q.response pg c.state.db c.state.mvcc c.state.steadyClock = some y) :
    x = some y ∧ c'.state.mvcc = q.turns c.state.mvcc c.state.steadyClock := by
  have hu := h.unfailing
  obtain ⟨tr, hx⟩ := hs.solo
  cases q with
  | listTables pageSize pageToken =>
    cases hy
    exact ⟨solo_listTables (w := c.world.next _ c.state) hu h.pooled hx, hs.mvcc_eq rfl⟩
  | alterTable t alteration =>
    cases alteration with
    | newPartitionSpec | notSet =>
      cases hy
      exact ⟨solo_invalidation hx, hs.mvcc_eq rfl⟩
    | _ => cases hy
  | beginTransaction clientId isolation =>
    cases hy
    exact solo_beginTransaction (w := c.world.next _ c.state) hu h.pooled hx
  | commitTransaction txnId =>
    cases hy
    exact solo_commitTransaction (w := c.world.next _ c.state) hu h.pooled hx
  | abortTransaction txnId =>
    cases hy
    exact solo_abortTransaction (w := c.world.next _ c.state) hu h.pooled hx
  | getTableMetadata | getPartitions | partitions | partitionsPaged | getPartitionStats | stats
  | getSnapshot | listSnapshots => exact ⟨hs.reads h rfl hy, hs.mvcc_eq rfl⟩
  | _ => cases hy

end IceLog
