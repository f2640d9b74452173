import IceLog.Server.Handlers
import IceLog.Server.Scopes

/-! What the functions that read return to a thread that runs alone, whatever statements fail: a
value read off the state in which they begin. -/
namespace IceLog

open Interleaved Serial

/-! The kinds of statements of readers. -/

def Sql.readsTable : Sql → Bool
  | selectTable _ => true
  | _ => false

def Sql.readsCurrent : Sql → Bool
  | selectCurrent _ => true
  | _ => false

def Sql.queries : Sql → Bool
  | selectTableId _ | selectPartitions .. | selectPartitionsPaged .. => true
  | _ => false

/-- The statements of a query are no others. -/
theorem queries_only {tr : List (Act × Outcome)} (h : OfKind Sql.queries tr) :
    refused tr = false ∧ fails Sql.readsCurrent tr = false ∧ loses Sql.readsCurrent tr = false := by
  have hne : ∀ sql, Sql.queries sql = true → sql.readsCurrent = false := by
    rintro (_ | _) <;> simp [Sql.queries, Sql.readsCurrent]
  refine ⟨h.refused, h.someStatement fun sql _ hs => ?_, h.someStatement fun sql _ hs => ?_⟩
  · rw [hne sql hs, Bool.false_and]
  · rw [hne sql hs, Bool.false_and]

namespace Server

variable (s : Server) (t : String) (n : ℕ)

/-- The snapshot at which a read at `n` is evaluated; `failed` if the current one of the table cannot
be read. -/
def snapshotFor (failed : Bool) : ℕ :=
  if n ≠ 0 then n
  else if s.mvcc.latestCommittedSnapshot ≠ 0 then s.mvcc.latestCommittedSnapshot
  else if failed then 0
  else s.db.current (cStr t)

/-- The cached partitions at `n`. -/
def cached : Option (List PartitionRow) := (s.cache.get (PartitionRegistry.makeCacheKey t n)).1

/-- The partitions at `n`, as they are cached or as the database has them. -/
def partitionsFor : Option (List PartitionRow) :=
  (s.cached t n).or (s.db.queryPartitions (cStr t) n)

/-- Nothing has changed, but for entries of the cache that have gone or are what the database
answers. -/
structure Serves (s s' : Server) : Prop where
  rows : s.db.SameRows s'.db
  mvcc : s'.mvcc = s.mvcc
  caches : ∀ t n rows, (PartitionRegistry.makeCacheKey t n, rows) ∈ s'.cache.entries →
    (PartitionRegistry.makeCacheKey t n, rows) ∈ s.cache.entries ∨
      s.db.queryPartitions (cStr t) n = some rows

variable {s t n} {s' : Server} {failed : Bool}

theorem Still.snapshotFor (h : s.Still s') : s'.snapshotFor t n failed = s.snapshotFor t n failed := by
  simp only [Server.snapshotFor, h.mvcc, about_current _ _ _ (h.rows.sameTable _)]

theorem Still.cached (h : s.Still s') : s'.cached t n = s.cached t n := by
  rw [Server.cached, Server.cached, h.cache]

theorem Still.queryPartitions (h : s.Still s') (name : String) :
    s'.db.queryPartitions name n = s.db.queryPartitions name n :=
  (h.rows.sameTable name).queryPartitions n

theorem Still.partitionsFor (h : s.Still s') : s'.partitionsFor t n = s.partitionsFor t n := by
  rw [Server.partitionsFor, Server.partitionsFor, h.cached, h.queryPartitions]

theorem Still.serves (h : s.Still s') : s.Serves s' where
  rows := h.rows
  mvcc := h.mvcc
  caches _ _ _ hm := by
    rw [h.cache] at hm
    exact .inl hm

theorem Serves.trans {s'' : Server} (h : s.Serves s') (h' : s'.Serves s'') : s.Serves s'' where
  rows := h.rows.trans h'.rows
  mvcc := h'.mvcc.trans h.mvcc
  caches t n rows hm := by
    rcases h'.caches t n rows hm with hm | hq
    · exact h.caches t n rows hm
    · exact .inr ((h.rows.sameTable (cStr t)).queryPartitions n ▸ hq)

/-- A look into the cache. -/
theorem serves_get (s : Server) (key : String) :
    s.Serves { s with cache := (s.cache.get key).2 } where
  rows := .refl _
  mvcc := rfl
  caches _ _ _ hm := .inl ((Cache.mem_get _ _ _).mp hm)

/-- What the database answers is put into the cache. -/
theorem serves_put {rows : List PartitionRow} {cache : Cache String (List PartitionRow)}
    (hq : s.db.queryPartitions (cStr t) n = some rows)
    (hp : s.cache.put (PartitionRegistry.makeCacheKey t n) rows = some cache) :
    s.Serves { s with cache := cache } where
  rows := .refl _
  mvcc := rfl
  caches t' n' rows' hm := by
    rcases Cache.mem_put hp hm with he | ⟨hm, -⟩
    · obtain ⟨hk, rfl⟩ := Prod.mk.inj he
      obtain ⟨rfl, rfl⟩ := PartitionRegistry.makeCacheKey_inj hk
      exact .inr hq
    · exact .inl hm

end Server

variable {pg : Postgres} {policy : Policy} {i : ℕ} {q : Request} {α : Type} {h : Held}
  {w w' v : Moment} {tr tr' : List (Act × Outcome)} {x : Option α} {t : String} {conn : Conn} {n : ℕ}

/-- The same statements with the same outcomes, and the same connections fail. -/
structure SameFaults (tr tr' : List (Act × Outcome)) : Prop where
  refused : refused tr = refused tr'
  statements : ∀ P, someStatement P tr = someStatement P tr'

theorem SameFaults.fails (h : SameFaults tr tr') (p : Sql → Bool) : fails p tr = fails p tr' :=
  h.statements _

theorem SameFaults.loses (h : SameFaults tr tr') (p : Sql → Bool) : loses p tr = loses p tr' :=
  h.statements _

theorem SameFaults.trans {tr'' : List (Act × Outcome)} (h : SameFaults tr tr')
    (h' : SameFaults tr' tr'') : SameFaults tr tr'' :=
  ⟨h.refused.trans h'.refused, fun P => (h.statements P).trans (h'.statements P)⟩

/-- Two actions around a run that are no statements and no failed attempt to connect. -/
theorem sameFaults_around {a b : Act} {o o' : Outcome} (ha : ∀ c sql, a ≠ .execParams c sql)
    (hb : ∀ c sql, b ≠ .execParams c sql) (ho : a = .acquire → ∀ c, o ≠ .refused c)
    (hb' : b ≠ .acquire) : SameFaults ((a, o) :: (tr ++ [(b, o')])) tr where
  refused := by
    rw [refused_cons ho, refused_append, refused_cons fun h => absurd h hb', refused_nil,
      Bool.or_false]
  statements P := by
    rw [someStatement_cons ha, someStatement_append, someStatement_cons hb]
    exact Bool.or_false _

/-! The scopes. -/

theorem solo_shared {body : Code α} (ho : Own policy i q {} [] w)
    (hx : Solo (server pg policy) i q (withShared t body) w tr x w') :
    ∃ v v' tr', Own policy i q { shared := [t] } [] v ∧ w.now.Still v.now ∧
      Solo (server pg policy) i q body v tr' x v' ∧ v'.now.Still w'.now ∧ SameFaults tr tr' := by
  obtain ⟨v, v', tr', o, o', hv, hl, rfl, hbody, rfl⟩ := solo_withShared ho hx
  exact ⟨v, v', tr', hv, hl.still rfl, hbody, ⟨.refl _, rfl, rfl⟩,
    sameFaults_around nofun nofun nofun nofun⟩

theorem solo_connection {body : Conn → Code α} (ho : Own policy i q h [] w) (hn : h.conn = none)
    (hx : Solo (server pg policy) i q (withConnection body) w tr x w') :
    (refused tr = true ∧ x = none ∧ w.now.Still w'.now ∧ ∀ P, someStatement P tr = false) ∨
      ∃ conn v v' tr', Connected policy i q h [] conn True v ∧ w.now.Still v.now ∧
        Solo (server pg policy) i q (body conn) v tr' x v' ∧ v'.now.Still w'.now ∧
        SameFaults tr tr' := by
  rcases solo_withConnection ho hn hx with ⟨rfl, hs, c, rfl⟩ | hscope
  · exact .inl ⟨rfl, rfl, hs, fun _ => rfl⟩
  · obtain ⟨conn, v, v', tr', o, o', hv, hl, ho, rfl, hbody, rfl⟩ := hscope
    exact .inr ⟨conn, v, v', tr', hv, hl.still rfl, hbody, ⟨.refl _, rfl, rfl⟩,
      sameFaults_around nofun nofun (fun _ => ho) nofun⟩

/-! The functions of the registry. -/

theorem solo_loadSnapshot {k : ℕ → Code α} (ho : Own policy i q h [] w)
    (hx : Solo (server pg policy) i q ((atomically .loadSnapshot).bind k) w tr x w') :
    ∃ v tr', Own policy i q h [] v ∧ w.now.Still v.now ∧ SameFaults tr tr' ∧
      Solo (server pg policy) i q (k w.now.mvcc.latestCommittedSnapshot) v tr' x w' := by
  obtain ⟨o, r, s, tr', rfl, hp, hprom, hrest⟩ := solo_act hx ho.inv trivial
  cases hp
  refine ⟨_, tr', ho.memory w.now.cache w.now.mvcc hprom, .refl _, ⟨?_, fun P => ?_⟩, hrest⟩
  · exact refused_cons nofun
  · exact someStatement_cons nofun

/-- The snapshot of a read, unless no connection can be made for it. -/
theorem solo_readSnapshot {x : Option ℕ} (ho : Own policy i q { shared := [t] } [] w)
    (hn : policy.Clean → NulFree t)
    (hx : Solo (server pg policy) i q (PartitionRegistry.readSnapshot t n) w tr x w') :
    w.now.Still w'.now ∧ fails Sql.queries tr = false ∧
      (fails Sql.readsCurrent tr = true → n = 0 ∧ w.now.mvcc.latestCommittedSnapshot = 0) ∧
      ((refused tr = true ∧ x = none) ∨
        (refused tr = false ∧ x = some (w.now.snapshotFor t n (fails Sql.readsCurrent tr)) ∧
          Own policy i q { shared := [t] } [] w')) := by
  have hown : ∀ m, x = some m → Own policy i q { shared := [t] } [] w' := by
    rintro m rfl
    exact (hx.post (safe_readSnapshot ho hn)).1
  unfold PartitionRegistry.readSnapshot at hx
  by_cases h0 : n = 0
  · rw [if_pos h0] at hx
    obtain ⟨v, tr', hv, hs, hf, hx⟩ := solo_loadSnapshot ho hx
    dsimp only at hx
    rw [hf.refused, hf.fails, hf.fails]
    by_cases hl : w.now.mvcc.latestCommittedSnapshot = 0
    · rw [if_pos hl] at hx
      rcases solo_connection hv rfl hx with ⟨hr, hnone, hs', hfail⟩ | hx
      · exact ⟨hs.trans hs', hfail _, fun _ => ⟨h0, hl⟩, .inl ⟨hr, hnone⟩⟩
      · obtain ⟨conn, u, u', tr'', hu, hs', hx, hs'', hf'⟩ := hx
        obtain ⟨a, rfl, hl', hm⟩ := solo_read yields_current hu rfl hx
        rw [hf'.refused, hf'.fails, hf'.fails]
        have hcur : u.now.db.current (cStr t) = w.now.db.current (cStr t) :=
          about_current _ _ _ ((hs.trans hs').rows.sameTable _)
        refine ⟨hs.trans (hs'.trans ((hl'.later.still rfl).trans hs'')), rfl, fun _ => ⟨h0, hl⟩,
          .inr ⟨rfl, hm.trans (congrArg some ?_), hown _ hm⟩⟩
        rw [hcur]
        by_cases ha : a = .ok
        · simp [Server.snapshotFor, h0, hl, fails, someStatement, ha]
        · simp [Server.snapshotFor, h0, hl, fails, someStatement, Sql.readsCurrent, ha, PGresult.first]
    · rw [if_neg hl] at hx
      cases hx
      exact ⟨hs, rfl, by rintro ⟨⟩, .inr ⟨rfl, by simp [Server.snapshotFor, h0, hl], hown _ rfl⟩⟩
  · rw [if_neg h0] at hx
    change Solo _ _ _ (if n = 0 then _ else _) _ _ _ _ at hx
    rw [if_neg h0] at hx
    cases hx
    exact ⟨.refl _, rfl, by rintro ⟨⟩, .inr ⟨rfl, by simp [Server.snapshotFor, h0], hown _ rfl⟩⟩

/-! The statements of the client. -/

theorem solo_queryPartitions {x : Option (Option (List PartitionRow))}
    (hc : Connected policy i q h [] conn True w)
    (hx : Solo (server pg policy) i q (PgClient.queryPartitions conn t n) w tr x w') :
    w.now.Still w'.now ∧ Connected policy i q h [] conn False w' ∧ OfKind Sql.queries tr ∧
      x = some (if fails Sql.queries tr then none else w.now.db.queryPartitions (cStr t) n) := by
  obtain ⟨hl, hk, rfl⟩ := @solo_byId _ _ _ _ _ _ _ _ _ _ _ Sql.queries _ _ none _ _
    (yields_partitions n) (fun _ => rfl) (aboutSlice_listed _ n) hc (fun _ => rfl) rfl
    (fun _ => rfl) hx
  have hsafe : Safe (view pg policy false i q) _ (fun _ => True)
      (PgClient.queryPartitions conn t n) w :=
    safe_queryPartitions (hc.at False) False.elim False.elim
  have hpost := hx.post hsafe
  refine ⟨hl.still rfl, hpost.1, hk, ?_⟩
  rw [ofTable_listed, Option.map_id_fun', id_eq]

theorem solo_queryPartitionsPaged {pageSize last : ℤ} {x : Option (Option (List PartitionRow))}
    (hc : Connected policy i q h [] conn True w)
    (hx : Solo (server pg policy) i q (PgClient.queryPartitionsPaged conn t n pageSize last) w tr x
      w') :
    w.now.Still w'.now ∧ OfKind Sql.queries tr ∧
      x = some (if fails Sql.queries tr then none
        else (w.now.db.queryPartitions (cStr t) n).map (page (pageLimit pageSize) last)) := by
  obtain ⟨hl, hk, rfl⟩ := @solo_byId _ _ _ _ _ _ _ _ _ _ _ Sql.queries _ _ none _ _
    (fun id => yields_page n id (pageLimit pageSize) last) (fun _ => rfl) (aboutSlice_listed _ n) hc
    (fun _ => rfl) rfl (fun _ => rfl) hx
  refine ⟨hl.still rfl, hk, ?_⟩
  rw [ofTable_listed]

/-! The listings. -/

/-- What follows a miss: the database is asked, and its answer is put into the cache. -/
theorem solo_miss {x : Option (Option (List PartitionRow))}
    (ho : Own policy i q { shared := [t] } [] w) (hn : policy.Clean → NulFree t)
    (hx : Solo (server pg policy) i q (withConnection fun conn => do
      match ← PgClient.queryPartitions conn t n with
      | none => return none
      | some result =>
        atomically (.cachePut (PartitionRegistry.makeCacheKey t n) result)
        return some result) w tr x w') :
    w.now.Serves w'.now ∧ fails Sql.readsCurrent tr = false ∧
      ((refused tr = true ∧ x = none ∧ fails Sql.queries tr = false) ∨
        (refused tr = false ∧ x = some (if fails Sql.queries tr then none
          else w.now.db.queryPartitions (cStr t) n))) := by
  rcases solo_connection ho rfl hx with ⟨hr, rfl, hs, hfail⟩ | hscope
  · exact ⟨hs.serves, hfail _, .inl ⟨hr, rfl, hfail _⟩⟩
  obtain ⟨conn, v, v', tr', hv, hs, hbody, hs', hf⟩ := hscope
  rw [hf.refused, hf.fails, hf.fails, ← hs.queryPartitions]
  have hserves : ∀ {s}, v.now.Serves s → s.Still w'.now → w.now.Serves w'.now :=
    fun h h' => hs.serves.trans (h.trans h'.serves)
  rcases Solo.bind_cases hbody with ⟨res, u, tr₁, tr₂, rfl, hquery, hrest⟩ | ⟨-, hquery⟩
  · obtain ⟨hs₁, hu, hk, hres⟩ := solo_queryPartitions hv hquery
    obtain ⟨hr₁, hc₁, -⟩ := queries_only hk
    have hres := Option.some.inj hres
    rw [refused_append, fails_append, fails_append, hr₁, hc₁, Bool.false_or, Bool.false_or]
    cases res with
    | none =>
      cases hrest
      refine ⟨hserves hs₁.serves hs', rfl, .inr ⟨rfl, ?_⟩⟩
      rw [fails_nil, Bool.or_false, ← hres]
    | some rows =>
      have hrows : v.now.db.queryPartitions (cStr t) n = some rows := by
        split at hres
        · cases hres
        · exact hres.symm
      have hput : u.now.db.queryPartitions (cStr t) n = some rows :=
        (hs₁.queryPartitions _).trans hrows
      have hneed : Needs policy i q (.cachePut (PartitionRegistry.makeCacheKey t n) rows) u := by
        refine ⟨t, n, rfl, (hu.own.holds.reader t).mpr (List.mem_singleton.mpr rfl), fun hc => ?_⟩
        rwa [← cStr_of_nulFree (hn hc)]
      obtain ⟨o, r, s, tr₃, rfl, hp, -, hret⟩ := solo_act hrest hu.own.inv hneed
      cases hret
      obtain ⟨cache, hstored, he⟩ := Option.map_eq_some_iff.mp hp
      cases he
      refine ⟨hserves (hs₁.serves.trans (Server.serves_put hput hstored)) hs', rfl,
        .inr ⟨rfl, ?_⟩⟩
      rw [fails_cons (a := .cachePut _ _) nofun, fails_nil, Bool.or_false, ← hres]
  · obtain ⟨-, -, -, hres⟩ := solo_queryPartitions hv hquery
    cases hres

/-- What a listing at `n` answers, unless a connection that it needs cannot be made: `f` of the
snapshot at which it is evaluated and of `failed`, whether the database could not be asked. -/
structure ListsAs (f : ℕ → Bool → α) (t : String) (n : ℕ) (tr : List (Act × Outcome))
    (failed : Bool) (s s' : Server) (x : Option α) : Prop where
  serves : s.Serves s'
  latest : fails Sql.readsCurrent tr = true → n = 0 ∧ s.mvcc.latestCommittedSnapshot = 0
  answer : (refused tr = true ∧ x = none ∧ failed = false) ∨ (refused tr = false ∧
    x = some (f (s.snapshotFor t n (fails Sql.readsCurrent tr)) failed))

/-- The scope of the lock, and what is done once the snapshot is known. -/
theorem solo_listing {f : ℕ → Bool → α} {body : ℕ → Code α} (ho : Own policy i q {} [] w)
    (hn : policy.Clean → NulFree t)
    (hx : Solo (server pg policy) i q
      (withShared t ((PartitionRegistry.readSnapshot t n).bind body)) w tr x w')
    (hb : ∀ v m u tr₂, w.now.Still v.now → Own policy i q { shared := [t] } [] v →
      Solo (server pg policy) i q (body m) v tr₂ x u →
      v.now.Serves u.now ∧ fails Sql.readsCurrent tr₂ = false ∧
        ((refused tr₂ = true ∧ x = none ∧ fails Sql.queries tr₂ = false) ∨
          (refused tr₂ = false ∧ x = some (f m (fails Sql.queries tr₂))))) :
    ListsAs f t n tr (fails Sql.queries tr) w.now w'.now x := by
  obtain ⟨v, v', tr', hv, hs, hbody, hs', hf⟩ := solo_shared ho hx
  have hserves : ∀ {s}, v.now.Serves s → s.Still w'.now → w.now.Serves w'.now :=
    fun h h' => hs.serves.trans (h.trans h'.serves)
  rcases Solo.bind_cases hbody with ⟨m, u, tr₁, tr₂, rfl, hread, hrest⟩ | ⟨rfl, hread⟩
  · obtain ⟨hs₁, hq₁, hl, ⟨-, hm⟩ | ⟨hr₁, hm, hu⟩⟩ := solo_readSnapshot hv hn hread
    · cases hm
    have hm := Option.some.inj hm
    obtain ⟨hs₂, hc₂, hans⟩ := hb u m v' tr₂ (hs.trans hs₁) hu hrest
    refine ⟨hserves (hs₁.serves.trans hs₂) hs', ?_, ?_⟩
    · rw [hf.fails, fails_append, hc₂, Bool.or_false, ← hs.mvcc]
      exact hl
    · rw [hf.refused, hf.fails, hf.fails, refused_append, fails_append, fails_append, hr₁, hq₁, hc₂,
        Bool.false_or, Bool.false_or, Bool.or_false, ← hs.snapshotFor, ← hm]
      exact hans
  · obtain ⟨hs₁, hq₁, hl, ⟨hr₁, -⟩ | ⟨-, hm, -⟩⟩ := solo_readSnapshot hv hn hread
    · refine ⟨hserves hs₁.serves hs', ?_, .inl ⟨hf.refused.trans hr₁, rfl, (hf.fails _).trans hq₁⟩⟩
      rw [hf.fails, ← hs.mvcc]
      exact hl
    · cases hm

theorem solo_getPartitions {x : Option (Option (List PartitionRow))}
    (ho : Own policy i q {} [] w) (hn : policy.Clean → NulFree t)
    (hx : Solo (server pg policy) i q (PartitionRegistry.getPartitions t n) w tr x w') :
    ListsAs (fun m failed => if failed then none else w.now.partitionsFor t m) t n tr
      (fails Sql.queries tr) w.now w'.now x := by
  refine solo_listing ho hn hx fun v m v' tr₂ hs hu hrest => ?_
  obtain ⟨o, r, s, tr₃, rfl, hp, hprom, hrest⟩ :=
    solo_act hrest hu.inv ⟨t, m, rfl, (hu.holds.reader t).mpr (List.mem_singleton.mpr rfl)⟩
  have he : ((v.now.cache.get (PartitionRegistry.makeCacheKey t m)).1, { v.now with
      cache := (v.now.cache.get (PartitionRegistry.makeCacheKey t m)).2 }) = (r, s) :=
    Option.some.inj hp
  obtain ⟨rfl, rfl⟩ := Prod.mk.inj he
  have hu' := hu.memory _ v.now.mvcc hprom
  have hget := Server.serves_get v.now (PartitionRegistry.makeCacheKey t m)
  have hcached : (v.now.cache.get (PartitionRegistry.makeCacheKey t m)).1 = w.now.cached t m :=
    hs.cached
  rw [refused_cons (a := .cacheGet _) nofun, fails_cons (a := .cacheGet _) nofun,
    fails_cons (a := .cacheGet _) nofun]
  rw [hcached] at hrest hu'
  cases hhit : w.now.cached t m with
  | some rows =>
    rw [hhit] at hrest
    cases hrest
    refine ⟨hget, rfl, .inr ⟨rfl, ?_⟩⟩
    rw [fails_nil, if_neg Bool.false_ne_true, Server.partitionsFor, hhit, Option.some_or]
  | none =>
    rw [hhit] at hrest hu'
    obtain ⟨hs₂, hc₂, hans⟩ := solo_miss hu' hn hrest
    rw [Server.partitionsFor, hhit, Option.none_or, ← hs.queryPartitions]
    exact ⟨hget.trans hs₂, hc₂, hans⟩

theorem solo_getPartitionsPaged {pageSize last : ℤ} {x : Option (Option (List PartitionRow))}
    (ho : Own policy i q {} [] w) (hn : policy.Clean → NulFree t)
    (hx : Solo (server pg policy) i q (PartitionRegistry.getPartitionsPaged t n pageSize last) w tr x
      w') :
    ListsAs (fun m failed => if failed then none
      else (w.now.db.queryPartitions (cStr t) m).map (page (pageLimit pageSize) last)) t n tr
      (fails Sql.queries tr) w.now w'.now x := by
  refine solo_listing ho hn hx fun v m v' tr₂ hs hu hrest => ?_
  rcases solo_connection hu rfl hrest with ⟨hr, rfl, hs', hfail⟩ | hscope
  · exact ⟨hs'.serves, hfail _, .inl ⟨hr, rfl, hfail _⟩⟩
  · obtain ⟨conn, u, u', tr', hu, hs₁, hbody, hs₂, hf⟩ := hscope
    obtain ⟨hs₃, hk, hres⟩ := solo_queryPartitionsPaged hu hbody
    obtain ⟨hr, hc, -⟩ := queries_only hk
    rw [hf.refused, hf.fails, hf.fails, ← hs.queryPartitions, ← hs₁.queryPartitions]
    exact ⟨(hs₁.trans (hs₃.trans hs₂)).serves, hc, .inr ⟨hr, hres⟩⟩

/-- The query of the statistics at `n`, on a connection that is in order. -/
theorem solo_statsAt {x : Option PartitionRegistry.PartitionStats}
    {k : Option (List PartitionRow) → Code PartitionRegistry.PartitionStats}
    (hc : Connected policy i q h [] conn True w) (hk : ∀ parts, k parts = .ret (statsOf parts))
    (hx : Solo (server pg policy) i q ((PgClient.queryPartitions conn t n).bind k) w tr x w') :
    w.now.Still w'.now ∧ OfKind Sql.queries tr ∧
      x = some (statsOf (if fails Sql.queries tr then none
        else w.now.db.queryPartitions (cStr t) n)) := by
  rcases Solo.bind_cases hx with ⟨res, v, tr₁, tr₂, rfl, hquery, hrest⟩ | ⟨-, hquery⟩
  · obtain ⟨hs, -, hkind, hres⟩ := solo_queryPartitions hc hquery
    rw [hk] at hrest
    cases hrest
    rw [List.append_nil]
    exact ⟨hs, hkind, congrArg (Option.map statsOf) hres⟩
  · obtain ⟨-, -, -, hres⟩ := solo_queryPartitions hc hquery
    cases hres

/-- The statistics are read on one connection: if it is lost with the current snapshot, the database
cannot be asked. -/
theorem solo_getStats {x : Option PartitionRegistry.PartitionStats} (ho : Own policy i q {} [] w)
    (hx : Solo (server pg policy) i q (PartitionRegistry.getStats t) w tr x w') :
    ListsAs (fun m failed => statsOf (if failed then none
      else w.now.db.queryPartitions (cStr t) m)) t 0 tr
      (fails Sql.queries tr || loses Sql.readsCurrent tr) w.now w'.now x := by
  obtain ⟨v, v', tr', hv, hs, hbody, hs', hf⟩ := solo_shared ho hx
  obtain ⟨u, tr₁, hu, hs₁, hf₁, hbody⟩ := solo_loadSnapshot hv hbody
  have hf := hf.trans hf₁
  rw [hf.fails, hf.loses]
  rcases solo_connection hu rfl hbody with ⟨hr, rfl, hs₂, hnone⟩ | hscope
  · refine ⟨(hs.trans (hs₁.trans (hs₂.trans hs'))).serves, fun h => ?_,
      .inl ⟨hf.refused.trans hr, rfl, ?_⟩⟩
    · rw [hf.fails, fails, hnone] at h
      cases h
    · rw [fails, loses, hnone, hnone]
      rfl
  obtain ⟨conn, z, z', tr₂, hz, hs₂, hbody, hs₃, hf₂⟩ := hscope
  have hf := hf.trans hf₂
  rw [hf₂.fails, hf₂.loses]
  have hstill := hs.trans (hs₁.trans hs₂)
  suffices H : z.now.Still z'.now ∧ refused tr₂ = false ∧
      (fails Sql.readsCurrent tr₂ = true → v.now.mvcc.latestCommittedSnapshot = 0) ∧
      x = some (statsOf (if fails Sql.queries tr₂ || loses Sql.readsCurrent tr₂ then none
        else z.now.db.queryPartitions (cStr t)
          (z.now.snapshotFor t 0 (fails Sql.readsCurrent tr₂)))) by
    obtain ⟨hs₄, hr, hl, hres⟩ := H
    refine ⟨(hstill.trans (hs₄.trans (hs₃.trans hs'))).serves, fun h => ⟨rfl, ?_⟩,
      .inr ⟨hf.refused.trans hr, ?_⟩⟩
    · rw [hf.fails] at h
      rw [← hs.mvcc]
      exact hl h
    · rw [hres, hf.fails, hstill.queryPartitions, hstill.snapshotFor]
  have hlatest : z.now.mvcc.latestCommittedSnapshot = v.now.mvcc.latestCommittedSnapshot := by
    rw [hs₂.mvcc, hs₁.mvcc]
  by_cases hl : v.now.mvcc.latestCommittedSnapshot = 0
  · simp only [hl, if_true] at hbody
    rcases Solo.bind_cases hbody with ⟨n, y, tr₃, tr₄, rfl, hcurrent, hrest⟩ | ⟨-, hcurrent⟩
    swap
    · obtain ⟨a, -, -, hn⟩ := solo_read yields_current hz rfl hcurrent
      cases hn
    obtain ⟨a, rfl, hleft, hn⟩ := solo_read yields_current hz rfl hcurrent
    have hn := Option.some.inj hn
    have hs₄ := hleft.later.still rfl
    have hquery : fails Sql.queries
        [(.execParams conn (.selectCurrent (cStr t)), .answer a)] = false := rfl
    have hlost : loses Sql.readsCurrent
        [(.execParams conn (.selectCurrent (cStr t)), .answer a)] = a.drops := Bool.or_false _
    rw [refused_append, fails_append, fails_append, loses_append, hquery, hlost]
    have hsnap : n = z.now.snapshotFor t 0
        (fails Sql.readsCurrent [(.execParams conn (.selectCurrent (cStr t)), .answer a)]) := by
      by_cases ha : a = .ok
      · simp [Server.snapshotFor, hlatest, hl, hn, fails, someStatement, ha]
      · simp [Server.snapshotFor, hlatest, hl, hn, fails, someStatement, ha, Sql.readsCurrent,
          PGresult.first]
    cases hd : a.drops with
    | false =>
      have hy : Connected policy i q { shared := [t] } [] conn True y :=
        ⟨hleft.connected.own, hleft.connected.closed, fun _ => hleft.idle (hz.idle trivial) hd⟩
      obtain ⟨hs₅, hkind, hres⟩ := solo_statsAt hy (by rintro (_ | _) <;> rfl) hrest
      obtain ⟨hr, hc, hlose⟩ := queries_only hkind
      refine ⟨hs₄.trans hs₅, hr, fun _ => hl, ?_⟩
      rw [hres, hs₄.queryPartitions, hc, hlose, hsnap, Bool.false_or, Bool.or_false, Bool.or_false,
        Bool.or_false]
    | true =>
      rcases Solo.bind_cases hrest with ⟨res, y', tr₅, tr₆, rfl, hquery, hret⟩ | ⟨-, hquery⟩
      · obtain ⟨hl', ⟨o, rfl⟩, hres⟩ := solo_byId_lost hleft.connected (hleft.broken (.inl hd)) hquery
        cases hres
        cases hret
        refine ⟨hs₄.trans (hl'.still rfl), rfl, fun _ => hl, ?_⟩
        rw [Bool.true_or, Bool.or_true, if_pos rfl]
        rfl
      · obtain ⟨-, -, hres⟩ := solo_byId_lost hleft.connected (hleft.broken (.inl hd)) hquery
        cases hres
  · simp only [hl, if_false] at hbody
    obtain ⟨hs₄, hkind, hres⟩ := solo_statsAt hz (by rintro (_ | _) <;> rfl) hbody
    obtain ⟨hr, hc, hlose⟩ := queries_only hkind
    refine ⟨hs₄, hr, fun h => ?_, ?_⟩
    · rw [hc] at h
      cases h
    · rw [hres, hlose, Bool.or_false, Server.snapshotFor, hlatest]
      simp [hl]

end IceLog
