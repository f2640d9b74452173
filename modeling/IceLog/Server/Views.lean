import IceLog.Concurrency.Denotation
import IceLog.Server.SoleStatements

/-! A connection on which nothing fails and that nobody disturbs: its statements see the database,
in a transaction with the changes that they have made since `BEGIN`. -/
namespace IceLog

open Interleaved Serial

variable {pg : Postgres} {policy : Policy} {now i : ℕ} {q : Request} {α β : Type} {w w' : Moment}
  {tr : List (Act × Outcome)} {t : String} {conn : Conn} {s s' : Server} {db db' : Db} {sql : Sql}
  {a : Act} {o : Outcome} {k : Command}

/-- What the statements of a connection see: the database outside a transaction, and that of an
open one. What comes after a transaction is left out. -/
inductive View where
  | idle (db : Db)
  | within (db : Db)
  | aborted
  | ended

/-- What a thread sees that has a connection: on this, and of the cache. -/
abbrev Sight : Type := View × Cache String (List PartitionRow)

def Sql.inView (pg : Postgres) (now : ℕ) (sql : Sql) : View → Option (PGresult sql.Row × View)
  | .idle db => some ((sql.effect pg now db).1, .idle (sql.effect pg now db).2)
  | .within db =>
    match sql.run pg now db with
    | none => some (.error, .aborted)
    | some (res, p) => some (res, .within ((sql.draw db).apply p))
  | .aborted => some (.error, .aborted)
  | .ended => none

def Command.inView : Command → View → Option (Bool × View)
  | .begin, .idle db => some (true, .within db)
  | .begin, .within db => some (true, .within db)
  | .begin, .aborted => some (false, .aborted)
  | .commit, .within _ | .commit, .aborted => some (true, .ended)
  | .rollback, .within _ | .rollback, .aborted => some (true, .ended)
  | _, _ => none

def Act.inView (pg : Postgres) (conn : Conn) (now : ℕ) :
    (a : Act) → Sight → Option (a.Result × Sight)
  | .exec d k, (v, cache) =>
    if d = conn then (k.inView v).map fun e => (e.1, e.2, cache) else none
  | .execParams d sql, (v, cache) =>
    if d = conn then (sql.inView pg now v).map fun e => (e.1, e.2, cache) else none
  | .cacheInvalidate keyPrefix, (v, cache) =>
    let (cache, removed) := cache.invalidateIf fun key => keyPrefix.toList.isPrefixOf key.toList
    some (removed, v, cache)
  | _, _ => none

/-- What a function that is given a connection makes of what it sees. -/
abbrev inView (pg : Postgres) (conn : Conn) (now : ℕ) (p : Code α) (v : Sight) :
    Option (α × Sight) :=
  p.denote (Act.inView pg conn now) v

def Server.Shows (conn : Conn) (now : ℕ) (s : Server) : View → Prop
  | .idle db => s.backend.session conn = .idle ∧ s.backend.clock = now ∧ s.db = db
  | .within db => ∃ p, s.backend.session conn = .inTransaction now p ∧ p.Drawn s.db ∧ s.db.apply p = db
  | .aborted => s.backend.session conn = .aborted
  | .ended => True

/-- What the thread sees that has the connection. Those in the pool are in order. -/
structure Server.Sees (conn : Conn) (now : ℕ) (s : Server) (v : Sight) : Prop where
  shows : s.Shows conn now v.1
  cache : s.cache = v.2
  pooled : ∀ d ∈ s.availableConnections, d ≠ conn → s.backend.session d = .idle

theorem Sql.inView_idle {res : PGresult sql.Row} (h : sql.effect pg now db = (res, db')) :
    sql.inView pg now (.idle db) = some (res, .idle db') := by
  rw [inView, h]

theorem Sql.inView_none (h : sql.run pg now db = none) :
    sql.inView pg now (.within db) = some (.error, .aborted) := by
  simp only [inView, h]

theorem Sql.inView_some {res : PGresult sql.Row} {p : Changes} (h : sql.run pg now db = some (res, p)) :
    sql.inView pg now (.within db) = some (res, .within ((sql.draw db).apply p)) := by
  simp only [inView, h]

theorem Server.Shows.execParams {v v' : View} {r r' : PGresult sql.Row} {b : Backend}
    (hx : s.backend.execParams conn pg sql .ok = some (r, b)) (hs : s.Shows conn now v)
    (hv : sql.inView pg now v = some (r', v')) : r' = r ∧ { s with backend := b }.Shows conn now v' := by
  cases v with
  | idle db =>
    obtain ⟨hσ, rfl, rfl⟩ := hs
    cases hv
    simp only [Backend.execParams, hσ] at hx
    rw [Sql.effect]
    split at hx
    · rename_i hrun
      cases hx
      rw [show sql.run pg s.backend.clock s.db = none from hrun]
      exact ⟨rfl, hσ, rfl, rfl⟩
    · rename_i hrun
      split at hx
      · cases hx
      · cases hx
        rw [show sql.run pg s.backend.clock s.db = _ from hrun]
        exact ⟨rfl, hσ, rfl, rfl⟩
  | within db =>
    obtain ⟨p, hσ, hd, rfl⟩ := hs
    simp only [Backend.execParams, hσ] at hx
    split at hx
    · rename_i hrun
      cases hx
      cases (Sql.inView_none hrun).symm.trans hv
      exact ⟨rfl, Backend.setSession_self ..⟩
    · rename_i hrun
      split at hx
      · cases hx
      · cases hx
        cases (Sql.inView_some hrun).symm.trans hv
        refine ⟨rfl, _, Backend.setSession_self .., ?_, ?_⟩
        · have hdraw := Sql.run_drawn hrun
          rw [← Db.draw_apply sql hd] at hdraw
          have hnext : ((sql.draw s.db).apply p).NextLe (sql.draw s.db) :=
            ⟨le_rfl, le_rfl, le_rfl, le_rfl, le_rfl⟩
          exact (hd.mono (Db.nextLe_draw sql s.db)).andThen (hdraw.mono hnext)
        · rw [← Db.draw_apply sql hd, Db.apply_apply]
          rfl
  | aborted =>
    have hσ : s.backend.session conn = .aborted := hs
    simp only [Backend.execParams, hσ] at hx
    cases hx
    cases hv
    exact ⟨rfl, hσ⟩
  | ended => cases hv

theorem Server.Shows.exec {v v' : View} {r r' : Bool} {b : Backend}
    (hx : s.backend.exec conn k .ok = (r, b)) (hs : s.Shows conn now v)
    (hv : k.inView v = some (r', v')) : r' = r ∧ { s with backend := b }.Shows conn now v' := by
  cases v with
  | idle db =>
    obtain ⟨hσ, rfl, rfl⟩ := hs
    cases k <;> cases hv
    simp only [Backend.exec, hσ] at hx
    cases hx
    exact ⟨rfl, _, Backend.setSession_self .., Changes.drawn_none _, Db.apply_none _⟩
  | within db =>
    obtain ⟨p, hσ, hd, rfl⟩ := hs
    cases k <;> cases hv <;> simp only [Backend.exec, hσ] at hx <;> cases hx
    · exact ⟨rfl, p, hσ, hd, rfl⟩
    · exact ⟨rfl, trivial⟩
    · exact ⟨rfl, trivial⟩
  | aborted =>
    have hσ : s.backend.session conn = .aborted := hs
    cases k <;> cases hv <;> simp only [Backend.exec, hσ] at hx <;> cases hx
    · exact ⟨rfl, hσ⟩
    · exact ⟨rfl, trivial⟩
    · exact ⟨rfl, trivial⟩
  | ended => cases k <;> cases hv

theorem adequate_inView (hu : policy.Unfailing) :
    Adequate (server pg policy) i q (Act.inView pg conn now) (Server.Sees conn now) := by
  intro a o r r' s s' v v' hv ho hx hs
  have ho : Policy.flawless.allows q a o = true := hu ▸ ho
  obtain ⟨v, cache⟩ := v
  obtain ⟨hshows, hcache, hpooled⟩ := hs
  cases a with
  | exec d k =>
    obtain rfl := (flawless_outcome ho).1 d k rfl
    simp only [Act.inView] at hv
    split at hv
    · rename_i hd
      subst hd
      obtain ⟨⟨r₀, v₀⟩, hk, he⟩ := Option.map_eq_some_iff.mp hv
      cases he
      cases hx
      obtain ⟨rfl, hshows⟩ := hshows.exec rfl hk
      refine ⟨rfl, hshows, hcache, fun c hc hne => ?_⟩
      exact ((Backend.exec_cases rfl).session_of_ne hne).trans (hpooled c hc hne)
    · cases hv
  | execParams d sql =>
    obtain rfl := (flawless_outcome ho).2 d sql rfl
    simp only [Act.inView] at hv
    split at hv
    · rename_i hd
      subst hd
      obtain ⟨⟨r₀, v₀⟩, hk, he⟩ := Option.map_eq_some_iff.mp hv
      cases he
      obtain ⟨⟨r₁, b⟩, hexec, he⟩ := Option.map_eq_some_iff.mp hx
      cases he
      obtain ⟨rfl, hshows⟩ := hshows.execParams hexec hk
      refine ⟨rfl, hshows, hcache, fun c hc hne => ?_⟩
      exact ((Backend.execParams_cases hexec).session_of_ne hne).trans (hpooled c hc hne)
    · cases hv
  | cacheInvalidate keyPrefix =>
    obtain rfl := hcache
    cases hv
    cases hx
    exact ⟨rfl, hshows, rfl, hpooled⟩
  | _ => cases hv

/-- What is done with a connection. -/
theorem solo_inView (hu : policy.Unfailing) {body : Conn → Code α} {x : Option α}
    (hpool : w.now.Pooled) (hx : Solo (server pg policy) i q (withConnection body) w tr x w') :
    ∃ conn, ∀ y v, inView pg conn w.now.backend.clock (body conn) (.idle w.now.db, w.now.cache) =
      some (y, v) → x = some y ∧ ∃ s : Server, w'.now = s.release conn ∧ s.Sees conn w.now.backend.clock v := by
  have hidle : ∀ {conn rest}, w.now.availableConnections = conn :: rest →
      w.now.backend.session conn = .idle := by
    intro conn rest h
    exact hpool conn (h ▸ List.mem_cons_self ..)
  rcases Solo.withConnection_cases hx with ⟨-, o, s, hacq⟩ | ⟨conn, v, v', o, tr', hacq, hrun, hw'⟩
  · cases hacq with
    | refused hp _ hb => cases (hidle hp).symm.trans hb
  · refine ⟨conn, fun y u hy => ?_⟩
    generalize hs : v.now = s at hacq
    cases hacq with
    | valid hp =>
      have hsees : v.now.Sees conn w.now.backend.clock (.idle w.now.db, w.now.cache) := by
        rw [hs]
        refine ⟨⟨hidle hp, rfl, rfl⟩, rfl, fun d hd _ => hpool d ?_⟩
        rw [hp]
        exact List.mem_cons_of_mem _ hd
      obtain ⟨rfl, hsees'⟩ := hrun.denote (adequate_inView hu) hsees hy
      exact ⟨rfl, v'.now, hw', hsees'⟩
    | reset hp _ hb | replaced hp _ hb => cases (hidle hp).symm.trans hb

/-- An operation that has its table for itself. -/
theorem solo_exclusively (hu : policy.Unfailing) {body : Conn → Code α} {x : Option α}
    (hpool : w.now.Pooled)
    (hx : Solo (server pg policy) i q (withExclusive t (withConnection body)) w tr x w') {y : α}
    (hy : ∀ conn, ∃ v, inView pg conn w.now.backend.clock (body conn) (.idle w.now.db, w.now.cache) =
      some (y, v)) : x = some y := by
  obtain ⟨v, v', tr', m, m', hbody, hv, -⟩ := Solo.withExclusive_cases hx
  have hpool : v.now.Pooled := by
    rw [hv]
    exact hpool
  obtain ⟨conn, hconn⟩ := solo_inView hu hpool hbody
  obtain ⟨u, hz⟩ := hy conn
  rw [hv] at hconn
  exact (hconn y u hz).1

/-- An operation that only reads. -/
theorem solo_sharedly (hu : policy.Unfailing) {body : Conn → Code α} {x : Option α}
    (hpool : w.now.Pooled)
    (hx : Solo (server pg policy) i q (withShared t (withConnection body)) w tr x w') {y : α}
    (hy : ∀ conn, inView pg conn w.now.backend.clock (body conn) (.idle w.now.db, w.now.cache) =
      some (y, .idle w.now.db, w.now.cache)) :
    x = some y ∧ w'.now.Pooled ∧ w'.now.db = w.now.db := by
  cases hx with
  | @act _ _ o r s tr' _ _ _ _ hlock hrest =>
    obtain ⟨m, -, hm⟩ := Option.map_eq_some_iff.mp hlock
    cases hm
    obtain ⟨v', tr', o', r', s', -, hbody, hunlock, rfl⟩ := Solo.guarded_cases hrest
    cases hunlock
    have hpool' : (w.next (.act i q (.lockShared t) ()) (w.now.setLock t m)).now.Pooled := hpool
    obtain ⟨conn, hconn⟩ := solo_inView hu hpool' hbody
    obtain ⟨rfl, s, hs, ⟨hσ, -, hdb⟩, -, hpooled⟩ := hconn y _ (hy conn)
    refine ⟨rfl, fun d hd => ?_, ?_⟩
    · rw [World.next_now, hs] at hd ⊢
      have hd : d ∈ s.availableConnections ++ [conn] := hd
      show s.backend.session d = .idle
      by_cases hne : d = conn
      · exact hne ▸ hσ
      · rcases List.mem_append.mp hd with hd | hd
        · exact hpooled d hd hne
        · exact absurd (List.mem_singleton.mp hd) hne
    · rw [World.next_now, hs]
      exact hdb

/-! The functions of the client. -/

section view
variable {v v' : View} {cache : Cache String (List PartitionRow)}

theorem inView_bind {p : Code α} {f : α → Code β} {y : α} {u u' : Sight}
    (h : inView pg conn now p u = some (y, u')) :
    inView pg conn now (p.bind f) u = inView pg conn now (f y) u' :=
  Prog.denote_bind_some h

theorem inView_statement {res : PGresult sql.Row} (h : sql.inView pg now v = some (res, v'))
    (f : PGresult sql.Row → Code α) : inView pg conn now ((execParams conn sql).bind f) (v, cache) =
      inView pg conn now (f res) (v', cache) := by
  refine inView_bind ((Prog.denote_perform _).trans ?_)
  rw [Act.inView, if_pos rfl, h]
  rfl

theorem inView_command {r : Bool} (h : k.inView v = some (r, v')) (f : Bool → Code α) :
    inView pg conn now ((exec conn k).bind f) (v, cache) = inView pg conn now (f r) (v', cache) := by
  refine inView_bind ((Prog.denote_perform _).trans ?_)
  rw [Act.inView, if_pos rfl, h]
  rfl

theorem inView_tableId : inView pg conn now (PgClient.getTableId conn t) (.within db, cache) =
    some ((db.find (cStr t)).map Prod.fst, .within db, cache) := by
  have hrun : (Sql.selectTableId (cStr t)).inView pg now (.within db) =
      some (.tuples ((db.named (cStr t)).map Prod.fst), .within db) := by
    rw [Sql.inView_some (p := {}) rfl, Db.apply_none]
    rfl
  refine (inView_statement hrun _).trans ?_
  show some (((db.named (cStr t)).map Prod.fst).head?, _) = _
  rw [List.head?_map]
  rfl

end view
end IceLog
