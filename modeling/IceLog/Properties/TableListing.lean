import IceLog.Server.TransactionSteps

/-! The listing of the tables, and what a client collects that follows its tokens. -/
namespace IceLog

open Interleaved Serial

variable {pg : Postgres} {policy : Policy} {others : Bool} {c c' : ServerConfig} {i : ℕ}
  {q : Request} {k : ℤ} {token : String} {w u v : Moment} {x : Reply} {db : Db}

/-- How many tables a page may have. -/
def tableLimit (pageSize : ℤ) : ℕ := if pageSize > 0 then pageSize.toNat else 100

/-- What is sent as the offset of a page. -/
def tableOffset (pageToken : String) : String := if pageToken = "" then "0" else cStr pageToken

/-- What a reply has as `next_page_token`: a list of tables never has one. -/
def Reply.nextPageToken : Reply → String
  | .partitionList _ _ next => next
  | _ => ""

/-- The live tables by increasing id. -/
def Db.liveTables (db : Db) : List (ℕ × TableRec) :=
  db.tables.select fun id r => if r.isDeleted then none else some (id, r)

/-- The ids and the names of the live tables. -/
def Db.liveNames (db : Db) : List (ℕ × String) :=
  db.liveTables.map fun p => (p.1, p.2.tableName)

def summary (p : ℕ × TableRec) : String × ℕ := (p.2.tableName, p.2.currentSnapshotId)

/-- From `c` on, a client asks for the tables after `token` by following the tokens of the replies;
in `c'` it has received them all. A page is given with the thread that has served it. -/
inductive TableListing (pg : Postgres) (policy : Policy) (k : ℤ) : ServerConfig →
    (token : String) → List (ℕ × List (String × ℕ)) → ServerConfig → Prop
  | last {c c' : ServerConfig} {i : ℕ} {token : String} {tables : List (String × ℕ)} :
      c.thread i = none → Run (server pg policy) c c' →
      c'.Returned i (.listTables k token) (.tables tables) →
      (Reply.tables tables).nextPageToken = "" →
      TableListing pg policy k c token [(i, tables)] c'
  | more {c c₁ c' : ServerConfig} {i : ℕ} {token : String} {tables : List (String × ℕ)}
      {pages : List (ℕ × List (String × ℕ))} :
      c.thread i = none → Run (server pg policy) c c₁ →
      c₁.Returned i (.listTables k token) (.tables tables) →
      (Reply.tables tables).nextPageToken ≠ "" →
      TableListing pg policy k c₁ (Reply.tables tables).nextPageToken pages c' →
      TableListing pg policy k c token ((i, tables) :: pages) c'

/-- The database has answered the `SELECT` of the thread with rows. -/
def Selected (i : ℕ) (w : Moment) : Prop := ∃ s q conn limit offset rows,
  (s, .act i q (.execParams conn (.selectTables limit offset)) (.tuples rows)) ∈ w.past

/-- No table is created, renamed or dropped from `c` to `c'`. -/
def SameTables (c c' : ServerConfig) : Prop :=
  ∀ u, c.world.Before u → u.Before c'.world → u.now.db.liveNames = c'.state.db.liveNames

/-! One request. -/

/-- What a listing called at `u` has read, and the event by which it has. -/
def TablesRead (pg : Postgres) (k : ℤ) (token : String) (i : ℕ) (q : Request) (u : Moment)
    (rows : List TableRow) (w : Moment) : Prop :=
  ∃ v conn r s, u.Before v ∧ (v.next (.act i q (.execParams conn
      (.selectTables (tableLimit k) (tableOffset token))) r) s).Before w ∧
    Answered pg False (.selectTables (tableLimit k) (tableOffset token)) v.now.db r ∧
    rows = r.all.getD []

theorem safe_listTables (ho : Own policy i q {} [] w) :
    Safe (view pg policy others i q)
      (fun x u => Own policy i q {} [] u ∧ ∃ rows, x = .tables (rows.map fun t =>
        (t.tableName, t.currentSnapshotId)) ∧ TablesRead pg k token i q w rows u)
      (Own policy i q {} []) (MetadataServer.listTables k token) w := by
  have hP : ∀ rows, Durable policy others [] (TablesRead pg k token i q w rows) :=
    fun rows _ _ hl ⟨v, conn, r, s, hv, hb, hr⟩ => ⟨v, conn, r, s, hv, hb.trans hl.before, hr⟩
  refine safe_reply (E := fun _ => True) (P := TablesRead pg k token i q w)
    (fun x => Durable.exists fun rows => (durable_const _).and (hP rows)) ?_
    fun rows u hu => ⟨rows, rfl, hu⟩
  refine safe_withConnection (fun _ => []) ho rfl hP durable_true (fun _ _ => trivial)
    fun conn v hc hl => safe_sent (hc.at False) rfl False.elim fun v' r s hl' hc' _ ha => ?_
  exact safe_connected_ret hP hc'
    ⟨v', conn, r, s, hl.before.trans hl'.before, .refl, ha, rfl⟩

/-- What a listing has read in addition to what is said of every request. -/
def listingSpec (pg : Postgres) :
    Contract.Spec Reply Act Act.Result Request Server where
  post i q u x w := ∀ k token, q = .listTables k token → ∃ rows, x = .tables (rows.map fun t =>
    (t.tableName, t.currentSnapshotId)) ∧ TablesRead pg k token i q u rows w
  exc _ _ _ _ := True

theorem listing_verified : (contract pg policy).Verified (listingSpec pg) := by
  intro i q w hi hf ha
  cases q with
  | listTables k token =>
    refine (safe_listTables (own_called hi hf)).mono (fun x u hx k' token' he => ?_)
      fun _ _ => trivial
    cases he
    exact hx.2
  | _ =>
    refine (verified i _ w hi hf ha).mono (fun x u _ k' token' he => ?_) fun _ _ => trivial
    cases he

/-- The actions of a listing that has returned. -/
theorem listTables_leaves {tr : List (Σ a : Act, a.Result)}
    (h : (MetadataServer.listTables k token).Leaves tr (.ret x)) : ∃ conn r u,
      tr = [⟨.acquire, some conn⟩,
        ⟨.execParams conn (.selectTables (tableLimit k) (tableOffset token)), r⟩,
        ⟨.release conn, u⟩] := by
  cases h with
  | @cons _ _ conn _ _ h =>
  cases conn with
  | none => cases h
  | some conn =>
  cases h with
  | @cons _ _ r _ _ h =>
  cases h with
  | @cons _ _ u _ _ h =>
    cases h
    exact ⟨conn, r, u, rfl⟩

theorem selected_iff {conn : Conn} {limit : ℕ} {offset : String}
    {r : PGresult TableRow} {u : Unit}
    (h : actionsOf i w = [⟨.acquire, some conn⟩, ⟨.execParams conn (.selectTables limit offset), r⟩,
      ⟨.release conn, u⟩]) : Selected i w ↔ ∃ rows, r = .tuples rows := by
  have hmem : ∀ {a : Act} {r' : a.Result}, (∃ s q, (s, Event.act i q a r') ∈ w.past) ↔
      (⟨a, r'⟩ : Σ a : Act, a.Result) ∈ [⟨.acquire, some conn⟩,
        ⟨.execParams conn (.selectTables limit offset), r⟩, ⟨.release conn, u⟩] :=
    fun {a r'} => h ▸ mem_actionsOf.symm
  constructor
  · rintro ⟨s, q, conn', limit', offset', rows, hm⟩
    have := hmem.mp ⟨s, q, hm⟩
    simp only [List.mem_cons, Sigma.mk.injEq, reduceCtorEq, false_and, List.not_mem_nil, or_false,
      false_or] at this
    obtain ⟨ha, hr⟩ := this
    cases ha
    exact ⟨rows, (eq_of_heq hr).symm⟩
  · rintro ⟨rows, rfl⟩
    obtain ⟨s, q, hm⟩ := hmem.mpr (List.mem_cons_of_mem _ (List.mem_cons_self ..))
    exact ⟨s, q, conn, limit, offset, rows, hm⟩

theorem Db.select_tables (db : Db) : (db.tables.select fun id r =>
    if r.isDeleted then none else some (r.toRow id)) =
      db.liveTables.map fun p => p.2.toRow p.1 := by
  rw [Db.liveTables, ← List.filterMap_eq_map, Rows.select_filterMap]
  refine Rows.select_congr fun id => ?_
  cases db.tables.row id with
  | none => rfl
  | some r => cases h : r.isDeleted <;> simp [h]

/-- A reply lists the tables at some moment between the call and the return, or nothing if the
database has not answered. -/
theorem Reachable.tables_listed {tables : List (String × ℕ)} (h : Reachable pg policy c)
    (hr : Run (server pg policy) c c') (hi : c.thread i = none)
    (hx : c'.Returned i (.listTables k token) (.tables tables)) :
    (¬ Selected i c'.world ∧ tables = []) ∨ (Selected i c'.world ∧
      ∃ (v : Moment) (offset : ℤ), c.world.Before v ∧ v.Before c'.world ∧
        pg.bigint (tableOffset token) = some offset ∧
        tables = ((v.now.db.liveTables.drop offset.toNat).take (tableLimit k)).map summary) := by
  obtain ⟨u, hcu, -, -, -, hpost⟩ :=
    Contract.returned_post listing_verified (h.good_of listing_verified) hr hi hx
  obtain ⟨rows, he, v, conn, r, s, huv, hb, ha, rfl⟩ := hpost k token rfl
  obtain rfl := Reply.tables.inj he
  obtain ⟨conn', r', y, hacts⟩ := listTables_leaves ((h.run hr).traced.leaves i _ hx)
  have hm := mem_actionsOf.mpr ⟨_, _, hb.mem_past⟩
  rw [hacts] at hm
  simp only [List.mem_cons, Sigma.mk.injEq, reduceCtorEq, false_and, List.not_mem_nil, or_false,
    false_or, Act.execParams.injEq, and_true] at hm
  obtain ⟨rfl, hr'⟩ := hm
  obtain rfl := eq_of_heq hr'
  rw [selected_iff hacts]
  cases ha with
  | error => exact .inl ⟨by rintro ⟨rows, ⟨⟩⟩, rfl⟩
  | rows hrun =>
    obtain ⟨offset, hoffset, hrun⟩ := Option.bind_eq_some_iff.mp hrun
    split at hrun
    · cases hrun
    · cases hrun
      refine .inr ⟨⟨_, rfl⟩, v, offset, hcu.trans huv, (World.before_next _ _ _).trans hb, hoffset, ?_⟩
      rw [PGresult.all, Option.getD_some, Db.select_tables, ← List.map_drop, ← List.map_take,
        List.map_map]
      rfl

/-- A client that follows the tokens receives every live table once, by increasing id, if and only
if all fit one page and the database answers. -/
theorem listing_complete_iff {pages : List (ℕ × List (String × ℕ))}
    (hzero : pg.bigint "0" = some 0) (h : Reachable pg policy c)
    (hp : TableListing pg policy k c "" pages c') (hsame : SameTables c c') :
    (pages.flatMap Prod.snd).map Prod.fst = c'.state.db.liveNames.map Prod.snd ↔
      c'.state.db.liveNames = [] ∨ (c'.state.db.liveNames.length ≤ tableLimit k ∧
        ∀ p ∈ pages, Selected p.1 c'.world) := by
  cases hp with
  | more _ _ _ hne => exact absurd rfl hne
  | @last _ _ i _ tables hi hr hx =>
    rw [List.flatMap_singleton, List.forall_mem_singleton]
    rcases h.tables_listed hr hi hx with ⟨hno, rfl⟩ | ⟨hyes, v, offset, hcv, hv, hoffset, rfl⟩
    · rw [List.map_nil, eq_comm, List.map_eq_nil_iff]
      exact ⟨.inl, fun hall => hall.elim id fun hall => absurd hall.2 hno⟩
    · obtain rfl : offset = 0 := Option.some.inj (hoffset.symm.trans hzero)
      have hnames : ((v.now.db.liveTables.take (tableLimit k)).map summary).map Prod.fst =
          (c'.state.db.liveNames.map Prod.snd).take (tableLimit k) := by
        rw [← hsame v hcv hv, Db.liveNames, List.map_map, List.map_map, List.map_take]
        rfl
      rw [Int.toNat_zero, List.drop_zero, hnames, List.take_eq_self_iff, List.length_map]
      constructor
      · exact fun hle => .inr ⟨hle, hyes⟩
      · rintro (hnil | ⟨hle, -⟩)
        · simp [hnil]
        · exact hle

/-! Computed listings. -/

/-- JSON as it is written, and `BIGINT` as `stoll` reads it. -/
def Postgres.decimal : Postgres := ⟨some, stoll⟩

/-- Two tables. -/
def twoTables : List (Move Request Outcome) :=
  serve 0 (.createTable "a" "\x7b\x7d" "" []) 5 ++ serve 1 (.createTable "b" "\x7b\x7d" "" []) 5

/-- The tables are the same at every moment after `c`. -/
def sameTables (c c' : ServerConfig) : Bool :=
  c'.world.moments.all fun m => decide (m.past.length < c.world.past.length) ||
    decide (m.now.db.liveNames = c'.state.db.liveNames)

theorem sameTables_of_check (h : sameTables c c' = true) : SameTables c c' := by
  intro u hcu hu
  have := List.all_eq_true.mp h u hu.mem_moments
  simpa [Nat.not_lt.mpr hcu.length_le] using this

/-- The listing of two tables with the given page size, served by a third thread. -/
theorem exists_listing {k : ℤ} {tables : List (String × ℕ)} {p : ServerConfig → Bool}
    (hcheck : (((server .decimal .flawless).moves (.initial freshServer) twoTables).map fun c =>
      (c.thread 2).isNone && ((server .decimal .flawless).moves c (serve 2 (.listTables k "") 3)).any
        fun c' => decide (c'.reply 2 = some (.listTables k "", .tables tables)) &&
          sameTables c c' && p c') = some true) :
    ∃ c c', Reachable .decimal .flawless c ∧ SameTables c c' ∧
      TableListing .decimal .flawless k c "" [(2, tables)] c' ∧ p c' = true ∧
      (tables ≠ [] → Selected 2 c'.world) := by
  obtain ⟨c, h, hp⟩ := reachable_of_check hcheck
  simp only [Bool.and_eq_true, Option.isNone_iff_eq_none] at hp
  obtain ⟨hi, hp⟩ := hp
  obtain ⟨c', hms, hp⟩ := (Option.any_eq_true ..).mp hp
  simp only [Bool.and_eq_true, decide_eq_true_eq] at hp
  obtain ⟨⟨hx, hsame⟩, hp⟩ := hp
  have hr := System.run_of_moves hms
  have hx := Config.returned_iff.mpr hx
  exact ⟨c, c', h, sameTables_of_check hsame, .last hi hr hx rfl, hp,
    fun hne => (h.tables_listed hr hi hx).elim (fun hno => absurd hno.2 hne) And.left⟩

/-- With the default page size, both tables are received. -/
theorem listing_complete_of_two : ∃ (c c' : ServerConfig) (pages : List (ℕ × List (String × ℕ))),
    TableListing .decimal .flawless 0 c "" pages c' ∧ c'.state.db.liveNames = [(1, "a"), (2, "b")] ∧
      (pages.flatMap Prod.snd).map Prod.fst = c'.state.db.liveNames.map Prod.snd := by
  obtain ⟨c, c', h, hsame, hp, hc', hyes⟩ := @exists_listing 0 [("a", 0), ("b", 0)]
    (fun c' => decide (c'.state.db.liveNames = [(1, "a"), (2, "b")])) (by decide +kernel)
  have hc' := of_decide_eq_true hc'
  refine ⟨c, c', _, hp, hc', (listing_complete_iff (by decide) h hp hsame).mpr (.inr ⟨?_, ?_⟩)⟩
  · rw [hc']
    decide
  · rw [List.forall_mem_singleton]
    exact hyes (by simp)

/-- With a page size of 1, only the first of two tables is received. -/
theorem listing_not_complete : ¬ ∀ (pg : Postgres) (policy : Policy) (c c' : ServerConfig) (k : ℤ)
    (pages : List (ℕ × List (String × ℕ))), pg.bigint "0" = some 0 → policy.Flawless →
    Reachable pg policy c → TableListing pg policy k c "" pages c' → SameTables c c' →
    (pages.flatMap Prod.snd).map Prod.fst = c'.state.db.liveNames.map Prod.snd := by
  intro hall
  obtain ⟨c, c', h, hsame, hp, hc', -⟩ := @exists_listing 1 [("a", 0)]
    (fun c' => decide (c'.state.db.liveNames = [(1, "a"), (2, "b")])) (by decide +kernel)
  have he := hall .decimal .flawless c c' 1 _ (by decide) Policy.flawless_flawless h hp hsame
  rw [of_decide_eq_true hc'] at he
  exact absurd he (by decide)

end IceLog
