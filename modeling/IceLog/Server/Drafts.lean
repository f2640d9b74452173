import IceLog.Db.PgClient
import IceLog.Server.Thread

/-! A thread inside a transaction: what it has changed so far is a draft that no other thread
sees, until `COMMIT` makes it take effect or anything else drops it. -/
namespace IceLog

open Interleaved Serial

/-- What is known about the uncommitted changes to the table of the name `n`. It may depend on the
committed rows as far as nobody else can change them. -/
structure Draft (n : String) where
  holds : Db → Changes → Prop
  stable : ∀ {db db' : Db} {p : Changes}, Db.SameTable n db db' → p.Frame db db' → db.NextLe db' →
    p.Drawn db → holds db p → holds db' p

/-- Nothing has been changed yet. -/
def Draft.opened (n : String) : Draft n := ⟨fun _ p => p = {}, fun _ _ _ _ h => h⟩

variable {pg : Postgres} {policy : Policy} {others : Bool} {i : ℕ} {q : Request}
  {h : Held} {ds : List String} {w w' v : Moment} {n : String} {c : Conn} {α : Type}

/-- The transaction of `c` is open, and its draft is `D`. -/
structure Drafting (policy : Policy) (others : Bool) (i : ℕ) (q : Request) (h : Held)
    (ds : List String) (c : Conn) {n : String} (D : Draft n) (w : Moment) : Prop where
  own : Own policy i q { h with conn := some c } ds w
  draft : ∃ u p, w.now.backend.session c = .inTransaction u p ∧
    (Calm policy others h.locked n → D.holds w.now.db p)

/-- The transaction of `c` has failed. -/
structure Doomed (policy : Policy) (i : ℕ) (q : Request) (h : Held) (ds : List String) (c : Conn)
    (w : Moment) : Prop where
  own : Own policy i q { h with conn := some c } ds w
  dead : w.now.backend.session c = .aborted ∨ w.now.backend.session c = .broken

/-- Between `BEGIN` and the closing statement. -/
def InTransaction (policy : Policy) (others : Bool) (i : ℕ) (q : Request) (h : Held)
    (ds : List String) (c : Conn) {n : String} (D : Draft n) (w : Moment) : Prop :=
  Drafting policy others i q h ds c D w ∨ Doomed policy i q h ds c w

section stability
variable {D : Draft n}

theorem Own.drawn (ho : Own policy i q h ds w) {u : ℕ} {p : Changes}
    (hs : w.now.backend.session c = .inTransaction u p) : p.Drawn w.now.db :=
  ho.inv.sound.backend.drawn c u p hs

theorem Own.keepsNames (ho : Own policy i q h ds w) {u : ℕ} {p : Changes}
    (hs : w.now.backend.session c = .inTransaction u p) : p.KeepsNames w.now.db :=
  ho.inv.sound.backend.names c u p hs

theorem Own.unique (ho : Own policy i q h ds w) : w.now.db.UniqueNames :=
  ho.inv.sound.backend.unique

theorem Drafting.keep (hx : Drafting policy others i q h ds c D w)
    (ho : Own policy i q { h with conn := some c } ds w')
    (hl : Later policy others h.locked w w') (hk : Server.Keeps i w.now w'.now) :
    Drafting policy others i q h ds c D w' := by
  obtain ⟨u, p, hs, hD⟩ := hx.draft
  have hc := hx.own.holder
  exact ⟨ho, u, p, (hk.session c hc).trans hs, fun hcalm =>
    D.stable (hl.sameTable hcalm) (hk.frame c u p hc hs) hl.nextLe (hx.own.drawn hs) (hD hcalm)⟩

theorem Doomed.keep (hx : Doomed policy i q h ds c w)
    (ho : Own policy i q { h with conn := some c } ds w') (hk : Server.Keeps i w.now w'.now) :
    Doomed policy i q h ds c w' := by
  have hs := hk.session c hx.own.holder
  exact ⟨ho, by rw [hs]; exact hx.dead⟩

theorem InTransaction.own (hx : InTransaction policy others i q h ds c D w) :
    Own policy i q { h with conn := some c } ds w :=
  hx.elim Drafting.own Doomed.own

theorem InTransaction.keep (hx : InTransaction policy others i q h ds c D w)
    (ho : Own policy i q { h with conn := some c } ds w')
    (hl : Later policy others h.locked w w') (hk : Server.Keeps i w.now w'.now) :
    InTransaction policy others i q h ds c D w' :=
  hx.imp (fun hx => hx.keep ho hl hk) fun hx => hx.keep ho hk

theorem InTransaction.rely (hx : InTransaction policy others i q h ds c D w)
    (hr : (view pg policy others i q).rely w w') :
    InTransaction policy others i q h ds c D w' ∧ Later policy others h.locked w w' := by
  obtain ⟨ho, hl, hk⟩ := hx.own.rely hr
  exact ⟨hx.keep ho hl hk, hl⟩

theorem Drafting.rely (hx : Drafting policy others i q h ds c D w)
    (hr : (view pg policy others i q).rely w w') :
    Drafting policy others i q h ds c D w' ∧ Later policy others h.locked w w' := by
  obtain ⟨ho, hl, hk⟩ := hx.own.rely hr
  exact ⟨hx.keep ho hl hk, hl⟩

/-- A draft may be weakened. -/
theorem InTransaction.mono {D' : Draft n} (hx : InTransaction policy others i q h ds c D w)
    (hD : ∀ db p, D.holds db p → D'.holds db p) :
    InTransaction policy others i q h ds c D' w := by
  refine hx.imp_left fun hx => ?_
  obtain ⟨u, p, hs, hd⟩ := hx.draft
  exact ⟨hx.own, u, p, hs, fun hc => hD _ _ (hd hc)⟩

theorem InTransaction.not_idle (hx : InTransaction policy others i q h ds c D w) :
    w.now.backend.session c ≠ .idle := by
  rcases hx with hx | hx
  · obtain ⟨u, p, hs, -⟩ := hx.draft
    simp [hs]
  · rcases hx.dead with hs | hs <;> simp [hs]

end stability

section statements
variable {post : α → Moment → Prop} {exc : Moment → Prop} {D : Draft n} {a : Act} {r : a.Result}
  {b' : Backend}

theorem Connected.owe {sure : Prop} {ds' : List String} (hc : Connected policy i q h ds c sure w)
    (hds : ds ⊆ ds') : Connected policy i q h ds' c sure w :=
  ⟨⟨hc.own.inv, hc.own.holds, fun hclean q' t ht =>
    (hc.own.debts hclean q' t ht).imp_right fun ht => hds ht⟩, hc.closed, hc.idle⟩

/-- A step of this thread's connection that changes no row. -/
theorem Own.backend (ho : Own policy i q h ds v)
    (hp : Promise policy v (.act i q a r) { v.now with backend := b' })
    (hrows : v.now.db.SameRows b'.db) :
    Own policy i q h ds (v.next (.act i q a r) { v.now with backend := b' }) :=
  ho.next ⟨ho.holds.writer, ho.holds.reader, ho.holds.holder, ho.holds.nodup⟩ hp hrows

theorem Later.backend {ts : List String}
    (hp : Promise policy v (.act i q a r) { v.now with backend := b' })
    (hrows : v.now.db.SameRows b'.db) :
    Later policy others ts v (v.next (.act i q a r) { v.now with backend := b' }) :=
  .next hp ⟨hrows, rfl, rfl⟩

theorem safe_begin {k : Bool → Code α} {sure : Prop} (n : String)
    (hc : Connected policy i q h ds c sure w)
    (H : ∀ r v, InTransaction policy others i q h ds c (.opened n) v →
      Later policy others h.locked w v → Safe (view pg policy others i q) post exc (k r) v) :
    Safe (view pg policy others i q) post exc ((exec c .begin).bind k) w := by
  show Safe (view pg policy others i q) post exc (.act (.exec c .begin) k) w
  refine safe_act hc.own fun v hv hl hk => ⟨⟨hv.holder, nofun⟩, fun r s hs hp => ?_⟩
  have hclosed : (v.now.backend.session c).Closed := hk.session c hc.own.holder ▸ hc.closed
  obtain ⟨o, -, hs⟩ := performed_of_exec hs
  cases hs with
  | exec _ hx =>
    cases Backend.exec_cases hx with
    | moved hq _ _ hb _ =>
      refine H _ _ ?_ (hl.trans (.backend hp hq.sameRows))
      have ho := hv.backend hp hq.sameRows
      rcases hb rfl hclosed with ⟨rfl, -⟩ | ⟨u, rfl⟩
      · exact .inr ⟨ho, .inr hq.session_self⟩
      · exact .inl ⟨ho, u, {}, hq.session_self, fun _ => rfl⟩
    | committed hk => cases hk

theorem InTransaction.needs {sql : Sql} (hx : InTransaction policy others i q h ds c D w)
    (hs : sql.autocommits = false) : StatementNeeds policy i q c w.now sql := by
  have := hx.not_idle
  cases sql <;> first | exact this | trivial

/-- A statement in a transaction: it fails and the transaction with it, or it adds to the
draft. -/
theorem safe_statement {sql : Sql} {k : PGresult sql.Row → Code α}
    (D' : PGresult sql.Row → Draft n) (hx : InTransaction policy others i q h ds c D w)
    (hs : sql.autocommits = false)
    (hrun : Calm policy others h.locked n → ∀ db p now r p', db.UniqueNames → p.Drawn db →
      p.KeepsNames db → D.holds db p → sql.run pg now (db.apply p) = some (r, p') →
        (D' r).holds (sql.draw db) (p.andThen p'))
    (H : ∀ r v, Later policy others h.locked w v →
      (r = .error ∧ Doomed policy i q h ds c v) ∨ ((∃ now db p, sql.run pg now db = some (r, p)) ∧
        Drafting policy others i q h ds c (D' r) v) →
      Safe (view pg policy others i q) post exc (k r) v) :
    Safe (view pg policy others i q) post exc (.act (.execParams c sql) k) w := by
  refine safe_act hx.own fun v hv hl hk => ?_
  have hx := hx.keep hv hl hk
  refine ⟨⟨hv.holder, hx.needs hs⟩, fun r s he hp => ?_⟩
  obtain ⟨o, -, he⟩ := performed_of_exec he
  cases he with
  | execParams _ hb =>
    cases Backend.execParams_cases hb with
    | @failed σ _ hf hq _ =>
      refine H _ _ (hl.trans (.backend hp hq.sameRows)) (.inl ⟨rfl, hv.backend hp hq.sameRows, ?_⟩)
      have hdead := hf.dead hx.not_idle
      rwa [← hq.session_self] at hdead
    | committed hidle => exact absurd hidle hx.not_idle
    | @added u p p' _ _ hin hr _ =>
      have hrows := Db.sameRows_draw sql v.now.db
      refine H _ _ (hl.trans (.backend hp hrows)) (.inr ⟨⟨u, _, p', hr⟩, hv.backend hp hrows, u,
        p.andThen p', Backend.setSession_self _ _ _, fun hcalm => ?_⟩)
      rcases hx with hx | hx
      · obtain ⟨u', p'', hin', hD⟩ := hx.draft
        rw [hin] at hin'
        cases hin'
        exact hrun hcalm _ _ _ _ _ hv.unique (hv.drawn hin) (hv.keepsNames hin) (hD hcalm) hr
      · rcases hx.dead with hd | hd <;> rw [hin] at hd <;> cases hd

/-- `ROLLBACK`. -/
theorem safe_rollback {k : Bool → Code α} (hx : InTransaction policy others i q h ds c D w)
    (H : ∀ r v, Connected policy i q h ds c False v → Later policy others h.locked w v →
      Safe (view pg policy others i q) post exc (k r) v) :
    Safe (view pg policy others i q) post exc ((exec c .rollback).bind k) w := by
  show Safe (view pg policy others i q) post exc (.act (.exec c .rollback) k) w
  refine safe_act hx.own fun v hv hl hk => ⟨⟨hv.holder, nofun⟩, fun r s hs hp => ?_⟩
  obtain ⟨o, -, hs⟩ := performed_of_exec hs
  cases hs with
  | exec _ hx =>
    cases Backend.exec_cases hx with
    | moved hq hσ _ _ _ =>
      refine H _ _ ⟨hv.backend hp hq.sameRows, ?_, False.elim⟩ (hl.trans (.backend hp hq.sameRows))
      rw [World.next_now, hq.session_self]
      exact hσ (by simp)
    | committed hk => cases hk

/-- Whether `COMMIT` is carried out, even if the answer does not arrive. -/
def Answer.carriedOut : Answer → Bool
  | .ok | .unheard => true
  | .fail _ | .lost _ => false

/-- What `COMMIT` makes of a draft. -/
structure Committed (policy : Policy) (others : Bool) (i : ℕ) (q : Request) (h : Held)
    (ds : List String) (c : Conn) {n : String} (D : Draft n) (v v' : Moment) : Prop where
  own : Own policy i q { h with conn := some c } ds v
  acted : Acted i v v'
  draft : ∃ p, p.Drawn v.now.db ∧ p.KeepsNames v.now.db ∧
    (Calm policy others h.locked n → D.holds v.now.db p) ∧ v'.now.db = v.now.db.apply p
  mvcc : v'.now.mvcc = v.now.mvcc
  cache : v'.now.cache = v.now.cache
  connected : ∀ ds' : List String, (∀ t ∈ ds, t ∈ ds') →
    (policy.Clean → ∀ t ∈ h.exclusive, v.now.db.Changed t v'.now.db → t ∈ ds') →
      Connected policy i q h ds' c False v'

/-- By an action of thread `i` since `w`, `E` happened; if no other thread runs, nothing else did. -/
def Effected (others : Bool) (i : ℕ) (E : Moment → Moment → Prop) (w u : Moment) : Prop :=
  ∃ v v', w.Before v ∧ Acted i v v' ∧ v'.Before u ∧
    (others = false → w.now.Still v.now ∧ v'.now.db.SameRows u.now.db ∧
      u.now.mvcc = w.now.mvcc) ∧ E v v'

theorem durable_effected {ts : List String} (E : Moment → Moment → Prop) :
    Durable policy others ts (Effected others i E w) := by
  rintro u u' hl ⟨v, v', hv, hv', hu, hs, he⟩
  refine ⟨v, v', hv, hv', hu.trans hl.before, fun hf => ?_, he⟩
  obtain ⟨h₁, h₂, h₃⟩ := hs hf
  exact ⟨h₁, h₂.trans (hl.still hf).rows, (hl.still hf).mvcc.trans h₃⟩

/-- What a transaction of a request called at `w` has come to: it failed without a trace, it was
acknowledged although `COMMIT` was not carried out, or `E` says what it did. -/
inductive Transacted (policy : Policy) (others : Bool) (i : ℕ) (q : Request)
    (E : Moment → Moment → Prop) (w : Moment) (ok : Bool) : Moment → Prop
  | failed {u : Moment} : ok = false → Later policy others [] w u →
      Transacted policy others i q E w ok u
  | dropped {u : Moment} : ok = true → w.Before u →
      (others = false → w.now.db.SameRows u.now.db ∧ u.now.mvcc = w.now.mvcc) →
      (∃ c a, policy.allows q (.exec c .commit) (.answer a) = true ∧ a.carriedOut = false) →
      Transacted policy others i q E w ok u
  | done {u : Moment} : ok = true → Effected others i E w u →
      (∃ c a, policy.allows q (.exec c .commit) (.answer a) = true ∧ a.carriedOut = true) →
      Transacted policy others i q E w ok u

theorem durable_transacted {ts : List String} (E : Moment → Moment → Prop) (ok : Bool) :
    Durable policy others ts (Transacted policy others i q E w ok) := by
  intro u u' hl hx
  cases hx with
  | failed hx hw => exact .failed hx (hw.trans hl.forget)
  | dropped hx hw hs hc =>
    refine .dropped hx (hw.trans hl.before) (fun hf => ?_) hc
    exact ⟨(hs hf).1.trans (hl.still hf).rows, (hl.still hf).mvcc.trans (hs hf).2⟩
  | done hx he hc => exact .done hx (durable_effected E u u' hl he) hc

/-- `COMMIT`: it is not carried out and the draft is dropped, or the draft takes effect. -/
theorem safe_commit {k : Bool → Code α} (hx : Drafting policy others i q h ds c D w)
    (hcan : policy.Clean → ∀ v p, Own policy i q { h with conn := some c } ds v →
      p.Drawn v.now.db → p.KeepsNames v.now.db →
      (Calm policy others h.locked n → D.holds v.now.db p) →
      ∃ t id, Committable policy i q v.now p t id)
    (Hno : ∀ r v, Connected policy i q h ds c False v → Later policy others h.locked w v →
      (∃ c a, policy.allows q (.exec c .commit) (.answer a) = true ∧ a.carriedOut = false) →
      Safe (view pg policy others i q) post exc (k r) v)
    (Hyes : ∀ r v v', Later policy others h.locked w v →
      Committed policy others i q h ds c D v v' →
      (∃ c a, policy.allows q (.exec c .commit) (.answer a) = true ∧ a.carriedOut = true) →
      Safe (view pg policy others i q) post exc (k r) v') :
    Safe (view pg policy others i q) post exc ((exec c .commit).bind k) w := by
  show Safe (view pg policy others i q) post exc (.act (.exec c .commit) k) w
  refine safe_act hx.own fun v hv hl hk => ?_
  have hx := hx.keep hv hl hk
  obtain ⟨u, p, hsess, hD⟩ := hx.draft
  refine ⟨⟨hv.holder, fun _ hclean u' p' hs => ?_⟩, fun r s hs hp => ?_⟩
  · rw [hsess] at hs
    cases hs
    exact hcan hclean v p hv (hv.drawn hsess) (hv.keepsNames hsess) hD
  obtain ⟨o, ho, hs⟩ := performed_of_exec hs
  cases hs with
  | @exec _ _ a _ _ hans hx =>
    subst hans
    cases Backend.exec_cases hx with
    | moved hq hσ _ _ hno =>
      refine Hno _ _ ⟨hv.backend hp hq.sameRows, ?_, False.elim⟩
        (hl.trans (.backend hp hq.sameRows)) ⟨c, a, ho, ?_⟩
      · rw [World.next_now, hq.session_self]
        exact hσ (by simp)
      · obtain ⟨-, drawn, rfl | rfl⟩ := hno rfl u p hsess <;> rfl
    | @committed u' p' r σ _ hin ha =>
      rw [hsess] at hin
      cases hin
      refine Hyes _ v _ hl ⟨hv, acted_next _,
        ⟨p, hv.drawn hsess, hv.keepsNames hsess, hD, rfl⟩, rfl, rfl, fun ds' hds hch => ?_⟩
        ⟨c, a, ho, ?_⟩
      · refine ⟨⟨hp.inv, ⟨hv.holds.writer, hv.holds.reader, hv.holds.holder, hv.holds.nodup⟩,
          fun hclean q' t ht => ?_⟩, ?_, False.elim⟩
        · rcases owes_next.mp ht with ⟨a', r', he, hch'⟩ | ⟨ht, -⟩
          · cases he
            refine ⟨rfl, ?_⟩
            rcases hp.debts hclean i q t ht with ht | ⟨ht, -⟩
            · exact hds t (hv.debts hclean q t ht).2
            · exact hch hclean t ((hv.holds.writer t).mp ht) hch'
          · exact (hv.debts hclean q' t ht).imp_right (hds t)
        · rw [World.next_now]
          rcases ha with ⟨-, -, rfl⟩ | ⟨-, -, rfl⟩ <;> simp [Session.Closed]
      · rcases ha with ⟨rfl, -, -⟩ | ⟨rfl, -, -⟩ <;> rfl

theorem safe_transacted_ret {x : α} {ok : α → Bool} {ds' : α → List String}
    {E : α → Moment → Moment → Prop} (hc : Connected policy i q h (ds' x) c False v)
    (hx : Transacted policy others i q (E x) w (ok x) v) :
    Safe (view pg policy others i q)
      (fun y u => Connected policy i q h (ds' y) c False u ∧
        Transacted policy others i q (E y) w (ok y) u) exc (.ret x) v := by
  intro u hu
  obtain ⟨hc', hl⟩ := hc.rely hu
  exact ⟨hc', durable_transacted _ _ _ _ hl hx⟩

/-- `ROLLBACK` and the error. -/
theorem safe_rollback_ret {x : α} {ok : α → Bool} {ds' : α → List String}
    {E : α → Moment → Moment → Prop} (hl : Later policy others [] w v)
    (hx : InTransaction policy others i q h [] c D v) (hok : ok x = false) (hds : ds' x = []) :
    Safe (view pg policy others i q)
      (fun y u => Connected policy i q h (ds' y) c False u ∧
        Transacted policy others i q (E y) w (ok y) u) exc
      ((exec c .rollback).bind fun _ => .ret x) v :=
  safe_rollback hx fun _ _ hc hl' =>
    safe_transacted_ret (hds ▸ hc) (.failed hok (hl.trans hl'.forget))

/-- `COMMIT` and the acknowledgement. -/
theorem safe_commit_ret {x : α} {ok : α → Bool} {ds' : α → List String}
    {E : α → Moment → Moment → Prop} (hl : Later policy others [] w v)
    (hx : Drafting policy others i q h [] c D v) (hok : ok x = true)
    (hcan : policy.Clean → ∀ v p, Own policy i q { h with conn := some c } [] v →
      p.Drawn v.now.db → p.KeepsNames v.now.db →
      (Calm policy others h.locked n → D.holds v.now.db p) →
      ∃ t id, Committable policy i q v.now p t id)
    (hE : ∀ v v', Committed policy others i q h [] c D v v' → E x v v' ∧
      (policy.Clean → ∀ t ∈ h.exclusive, v.now.db.Changed t v'.now.db → t ∈ ds' x)) :
    Safe (view pg policy others i q)
      (fun y u => Connected policy i q h (ds' y) c False u ∧
        Transacted policy others i q (E y) w (ok y) u) exc
      ((exec c .commit).bind fun _ => .ret x) v := by
  refine safe_commit hx hcan (fun _ u hc hlu hex => ?_) fun _ u u' hlu hc hex => ?_
  · refine safe_transacted_ret (hc.owe (by simp))
      (.dropped hok (hl.before.trans hlu.before) (fun hf => ?_) hex)
    have hstill := (hl.still hf).trans (hlu.still hf)
    exact ⟨hstill.rows, hstill.mvcc⟩
  · obtain ⟨he, hds⟩ := hE u u' hc
    refine safe_transacted_ret (hc.connected _ (by simp) hds) (.done hok ⟨u, u',
      hl.before.trans hlu.before, hc.acted, .refl, fun hf => ?_, he⟩ hex)
    have hstill := (hl.still hf).trans (hlu.still hf)
    exact ⟨hstill, .refl _, hc.mvcc.trans hstill.mvcc⟩

/-- A statement that commits by itself: it fails, or it takes effect, perhaps unheard. -/
theorem safe_autocommit {sql : Sql} {k : PGresult sql.Row → Code α} {sure : Prop}
    (hc : Connected policy i q h [] c sure w)
    (hn : ∀ v, Own policy i q { h with conn := some c } [] v →
      (v.now.backend.session c).Closed → StatementNeeds policy i q c v.now sql)
    (Hno : ∀ v, Connected policy i q h [] c False v → Later policy others h.locked w v →
      Safe (view pg policy others i q) post exc (k .error) v)
    (Hyes : ∀ v v' r r' p now, Later policy others h.locked w v →
      Own policy i q { h with conn := some c } [] v →
      sql.run pg now v.now.db = some (r, p) → r' = r ∨ r' = .error →
      Acted i v v' → v'.now.db = (sql.draw v.now.db).apply p → v'.now.mvcc = v.now.mvcc →
      (∀ ds' : List String, (policy.Clean → ∀ t ∈ h.exclusive, v.now.db.Changed t v'.now.db →
        t ∈ ds') → Connected policy i q h ds' c False v') →
      Safe (view pg policy others i q) post exc (k r') v') :
    Safe (view pg policy others i q) post exc ((execParams c sql).bind k) w := by
  show Safe (view pg policy others i q) post exc (.act (.execParams c sql) k) w
  refine safe_act hc.own fun v hv hl hk => ?_
  have hclosed : (v.now.backend.session c).Closed := hk.session c hc.own.holder ▸ hc.closed
  refine ⟨⟨hv.holder, hn v hv hclosed⟩, fun r' s hs hp => ?_⟩
  obtain ⟨o, -, hs⟩ := performed_of_exec hs
  cases hs with
  | execParams _ hb =>
    cases Backend.execParams_cases hb with
    | failed hf hq _ =>
      refine Hno _ ⟨hv.backend hp hq.sameRows, ?_, False.elim⟩ (hl.trans (.backend hp hq.sameRows))
      rw [World.next_now, hq.session_self]
      exact hclosed.fails hf
    | added _ hin _ _ => simp [hin, Session.Closed] at hclosed
    | @committed r _ p σ _ hr _ ha =>
      refine Hyes v _ r r' p _ hl hv hr (ha.imp (fun h => h.2.1) fun h => h.2.1)
        (acted_next _) rfl rfl fun ds' hds => ⟨⟨hp.inv, ⟨hv.holds.writer,
          hv.holds.reader, hv.holds.holder, hv.holds.nodup⟩, fun hclean q' t ht => ?_⟩, ?_,
          False.elim⟩
      · rcases owes_next.mp ht with ⟨a', r'', he, hch⟩ | ⟨ht', -⟩
        · cases he
          refine ⟨rfl, ?_⟩
          rcases hp.debts hclean i q t ht with ht | ⟨ht, -⟩
          · exact absurd (hv.debts hclean q t ht).2 (by simp)
          · exact hds hclean t ((hv.holds.writer t).mp ht) hch
        · exact absurd (hv.debts hclean q' t ht').2 (by simp)
      · rw [World.next_now]
        rcases ha with ⟨-, -, rfl⟩ | ⟨-, -, rfl⟩ <;> simp [Session.Closed]

end statements
end IceLog
