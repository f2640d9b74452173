import IceLog.Server.Drafts

/-! Drafts that change one table, and the statements of a transaction that extend them. -/
namespace IceLog

open Interleaved Serial

namespace Db

variable {db db' : Db} {id : ℕ} {p : Changes}

theorem Within.frame (h : db.Within id p) (hf : p.Frame db db') : db'.Within id p :=
  ⟨h.tables.congr hf.tables, h.history.congr hf.history, h.snapshots.congr hf.snapshots,
    h.partitions.congr hf.partitions, h.transactions⟩

theorem Within.draw (h : db.Within id p) (q : Sql) : (q.draw db).Within id p :=
  h.frame (.of_sameRows (sameRows_draw q db))

/-- What a draft makes of a table depends on that table only. -/
theorem apply_slice_congr (h : db'.slice id = db.slice id) (hp : p.Drawn db)
    (hn : db.NextLe db') : (db'.apply p).slice id = (db.apply p).slice id := by
  have ht : ∀ t : Rows TableRec, t.row id = t.only (fun k _ => k == id) id :=
    fun t => (only_key t).symm
  simp only [Slice.ext_iff, slice, apply_tables, apply_history, apply_snapshots,
    apply_partitions] at h ⊢
  refine ⟨?_, ?_, ?_, ?_⟩
  · rw [ht, ht]
    refine Rows.only_apply_congr ?_ (hp.tables id) hn.tables
    rw [← ht, ← ht]
    exact h.1
  · funext k
    exact Rows.only_apply_congr (congrFun h.2.1 k) (hp.history k) hn.history
  · funext k
    exact Rows.only_apply_congr (congrFun h.2.2.1 k) (hp.snapshots k) hn.snapshots
  · funext k
    exact Rows.only_apply_congr (congrFun h.2.2.2 k) (hp.partitions k) hn.partitions

end Db

variable {pg : Postgres} {policy : Policy} {others : Bool} {i : ℕ} {q : Request}
  {h : Held} {ds : List String} {w w' v : Moment} {n t : String} {c : Conn} {α : Type}
  {id next next' : ℕ} {base : Slice} {φ ψ : Slice → Prop}

/-- The changes `p` are to the live table `id` of the name `n`, which is `base`, and make it a
table that satisfies `φ`. -/
structure Edits (n : String) (id : ℕ) (base : Slice) (next : ℕ) (φ : Slice → Prop) (db : Db)
    (p : Changes) : Prop where
  found : ∃ r, db.find n = some (id, r)
  base : db.slice id = base
  next : next ≤ db.snapshots.next
  within : db.Within id p
  edited : φ ((db.apply p).slice id)

def Draft.edits (n : String) (id : ℕ) (base : Slice) (next : ℕ) (φ : Slice → Prop) : Draft n where
  holds := Edits n id base next φ
  stable := by
    intro db db' p hsame hf hn hd he
    obtain ⟨r, hr⟩ := he.found
    have hslice := hsame.slice id r hr
    exact ⟨⟨r, hsame.find.trans hr⟩, hslice.trans he.base, he.next.trans hn.snapshots,
      he.within.frame hf, Db.apply_slice_congr hslice hd hn ▸ he.edited⟩

/-- Nothing has been changed, and there is no live table of the name. -/
def Draft.absent (n : String) : Draft n where
  holds db p := p = {} ∧ db.find n = none
  stable hsame _ _ _ he := ⟨he.1, hsame.find.trans he.2⟩

/-- Any draft. -/
def Draft.any (n : String) : Draft n := ⟨fun _ _ => True, fun _ _ _ _ _ => trivial⟩

section edits
variable {db : Db} {p p' : Changes}

theorem Edits.row (he : Edits n id base next φ db p) :
    ∃ r, db.tables.row id = some r ∧ r.named n = true ∧ r.tableName = n ∧ base.table = some r := by
  obtain ⟨r, hr⟩ := he.found
  obtain ⟨hrow, hname⟩ := Db.row_of_find hr
  refine ⟨r, hrow, hname, ?_, he.base ▸ hrow⟩
  simp only [TableRec.named, Bool.and_eq_true, beq_iff_eq] at hname
  exact hname.1

/-- In the view of the transaction, too, only this table has the name. -/
theorem Edits.nameOf (he : Edits n id base next φ db p) (hu : db.UniqueNames)
    (hk : p.KeepsNames db) : (db.apply p).NameOf id n := by
  obtain ⟨r, hrow, -, rfl, -⟩ := he.row
  exact hk.nameOf (hu id r hrow)

theorem Edits.step {sql : Sql} (he : Edits n id base next φ db p) (hd : p.Drawn db)
    (hw : (db.apply p).Within id p') (hn : next' ≤ (sql.draw db).snapshots.next)
    (hψ : ψ (((sql.draw (db.apply p)).apply p').slice id)) :
    Edits n id base next' ψ (sql.draw db) (p.andThen p') where
  found := by
    obtain ⟨r, hr⟩ := he.found
    exact ⟨r, ((Db.sameRows_draw sql db).find n).trans hr⟩
  base := (Db.slice_draw sql db id).trans he.base
  next := hn
  within := (he.within.andThen hw).draw sql
  edited := by
    rw [← Db.apply_apply, Db.draw_apply sql hd]
    exact hψ

/-- A draft may be committed under the lock of its table, if what it makes of it is a change that
the invariant allows. -/
theorem Edits.committable {s : Server} (he : Edits n id base next φ s.db p)
    (hk : p.KeepsNames s.db) (hl : (s.tableLocks n).writer = some i)
    (hchange : ∀ V, φ V → TableChange policy.Steady s.db.snapshots.next base V)
    (hdet : q.Detaches n → ∀ V r, φ V → V.table = some r → r.isDeleted = true)
    (halters : ¬ q.Alters n → ∀ V r r', φ V → base.table = some r → V.table = some r' →
      r'.schemaVersion = r.schemaVersion)
    (hkept : ¬ q.Detaches n → ∀ V r, φ V → base.table = some r →
      ∃ r', V.table = some r' ∧ r'.isDeleted = r.isDeleted) :
    Committable policy i q s p n id where
  lock := hl
  found := he.found
  within := he.within
  names r hr := by
    obtain ⟨r₀, hrow, -, hname, -⟩ := he.row
    rcases Rows.apply_row_eq_some hr with h' | ⟨-, h'⟩
    · obtain ⟨r₁, hr₁, hn⟩ := hk id r h'
      rw [hrow] at hr₁
      cases hr₁
      exact hn.symm.trans hname
    · rw [hrow] at h'
      cases h'
      exact hname
  change := he.base ▸ hchange _ he.edited
  detached hd r hr := hdet hd _ r he.edited hr
  alters r r' hr hr' hne := by
    by_contra hq
    exact hne (halters hq _ r r' he.edited (he.base ▸ hr) hr')
  kept hq := by
    obtain ⟨r, -, hnamed, -, hbase⟩ := he.row
    obtain ⟨r', hr', hd⟩ := hkept hq _ r he.edited hbase
    refine ⟨r', hr', hd.trans ?_⟩
    simp only [TableRec.named, Bool.and_eq_true, Bool.not_eq_true'] at hnamed
    exact hnamed.2

end edits

section statements
variable {post : α → Moment → Prop} {exc : Moment → Prop}

/-- A statement of the transaction that changes the table of the draft. -/
theorem safe_edit {sql : Sql} {k : PGresult sql.Row → Code α}
    (next' : PGresult sql.Row → ℕ) (ψ : PGresult sql.Row → Slice → Prop)
    (hx : InTransaction policy others i q h ds c (.edits n id base next φ) w)
    (hs : sql.autocommits = false)
    (hrun : Calm policy others h.locked n → ∀ db now r p', db.NameOf id n →
      next ≤ db.snapshots.next → φ (db.slice id) → sql.run pg now db = some (r, p') →
      db.Within id p' ∧ next' r ≤ (sql.draw db).snapshots.next ∧
        ψ r (((sql.draw db).apply p').slice id))
    (H : ∀ r v, Later policy others h.locked w v →
      (r = .error ∧ Doomed policy i q h ds c v) ∨ ((∃ now db p, sql.run pg now db = some (r, p)) ∧
        Drafting policy others i q h ds c (.edits n id base (next' r) (ψ r)) v) →
      Safe (view pg policy others i q) post exc (k r) v) :
    Safe (view pg policy others i q) post exc (.act (.execParams c sql) k) w := by
  refine safe_statement (fun r => .edits n id base (next' r) (ψ r)) hx hs ?_ H
  intro hcalm db p now r p' hu hd hk he hr
  obtain ⟨hw, hn, hψ⟩ := hrun hcalm _ _ _ _ (he.nameOf hu hk) he.next he.edited hr
  refine he.step hd hw (hn.trans ?_) hψ
  rw [← Db.draw_apply sql hd]
  exact Nat.le_refl _

/-- After a part of a transaction that began at `w`: the draft is `D` if all went well. -/
structure Continues (policy : Policy) (others : Bool) (i : ℕ) (q : Request) (h : Held)
    (ds : List String) (c : Conn) {n : String} (D : Draft n) (w : Moment) (ok : Prop)
    (v : Moment) : Prop where
  later : Later policy others h.locked w v
  drafting : ok → Drafting policy others i q h ds c D v
  inTransaction : InTransaction policy others i q h ds c (.any n) v

theorem Continues.rely {D : Draft n} {ok : Prop}
    (hc : Continues policy others i q h ds c D w ok v)
    (hr : (view pg policy others i q).rely v w') :
    Continues policy others i q h ds c D w ok w' :=
  ⟨hc.later.trans (hc.inTransaction.rely hr).2, fun hok => ((hc.drafting hok).rely hr).1,
    (hc.inTransaction.rely hr).1⟩

theorem Continues.trans {D : Draft n} {ok : Prop} {u : Moment}
    (hc : Continues policy others i q h ds c D v ok u) (hl : Later policy others h.locked w v) :
    Continues policy others i q h ds c D w ok u :=
  ⟨hl.trans hc.later, hc.drafting, hc.inTransaction⟩

theorem Drafting.continues {D : Draft n} {ok : Prop}
    (hx : Drafting policy others i q h ds c D v) (hl : Later policy others h.locked w v) :
    Continues policy others i q h ds c D w ok v :=
  ⟨hl, fun _ => hx, InTransaction.mono (.inl hx) fun _ _ _ => trivial⟩

theorem Doomed.continues {D : Draft n} {ok : Prop} (hx : Doomed policy i q h ds c v)
    (hok : ¬ ok) (hl : Later policy others h.locked w v) :
    Continues policy others i q h ds c D w ok v :=
  ⟨hl, fun h => absurd h hok, .inr hx⟩

theorem safe_continues_ret {x : α} {D : α → Draft n} {ok : α → Prop}
    (hc : Continues policy others i q h ds c (D x) w (ok x) v) :
    Safe (view pg policy others i q)
      (fun y u => Continues policy others i q h ds c (D y) w (ok y) u) exc (.ret x) v :=
  fun _ hu => hc.rely hu

/-- A statement of which the client keeps `g` of the result. -/
theorem safe_edit_answer {sql : Sql} (g : PGresult sql.Row → α) (ok : α → Prop)
    (next' : α → ℕ) (ψ : α → Slice → Prop)
    (hx : InTransaction policy others i q h ds c (.edits n id base next φ) w)
    (hs : sql.autocommits = false) (herr : ¬ ok (g .error))
    (hrun : Calm policy others h.locked n → ∀ db now r p', db.NameOf id n →
      next ≤ db.snapshots.next → φ (db.slice id) → sql.run pg now db = some (r, p') →
      db.Within id p' ∧ next' (g r) ≤ (sql.draw db).snapshots.next ∧
        ψ (g r) (((sql.draw db).apply p').slice id)) :
    Safe (view pg policy others i q) (fun x v => Continues policy others i q h ds c
      (.edits n id base (next' x) (ψ x)) w (ok x) v) exc
      ((execParams c sql).bind fun res => .ret (g res)) w := by
  refine safe_edit (next' ∘ g) (ψ ∘ g) hx hs hrun fun r v hl hv => safe_continues_ret ?_
  rcases hv with ⟨rfl, hv⟩ | ⟨-, hv⟩
  · exact hv.continues herr hl
  · exact hv.continues hl

theorem find_of_nameOf {db : Db} {r : TableRec} (hn : db.NameOf id n)
    (hr : db.tables.row id = some r) (hr' : r.named n = true) : db.find n = some (id, r) := by
  cases hf : db.find n with
  | none => simp [Db.find_eq_none_iff.mp hf id r hr] at hr'
  | some f =>
    obtain ⟨hrow, hname⟩ := @Db.row_of_find db f.1 n f.2 hf
    simp only [TableRec.named, Bool.and_eq_true, beq_iff_eq] at hname
    obtain ⟨k, r'⟩ := f
    obtain rfl : k = id := hn k r' hrow hname.1
    rw [hr, Option.some.injEq] at hrow
    rw [hrow]

/-- The live table is still live under its name. -/
def Live (n : String) (φ : Slice → Prop) : Prop :=
  ∀ V, φ V → ∃ r, V.table = some r ∧ r.named n = true

theorem safe_editTableId
    (hx : InTransaction policy others i q h ds c (.edits (cStr t) id base next φ) w)
    (hφ : Calm policy others h.locked (cStr t) → Live (cStr t) φ) :
    Safe (view pg policy others i q) (fun x v => Later policy others h.locked w v ∧
      ((x = none ∧ Doomed policy i q h ds c v) ∨
        ((Calm policy others h.locked (cStr t) → x = some id) ∧
          Drafting policy others i q h ds c (.edits (cStr t) id base next φ) v))) exc
      (PgClient.getTableId c t) w := by
  refine safe_edit (fun _ => next) (fun r V => φ V ∧ PGresult.first r = some id) hx rfl ?_ ?_
  · intro hcalm db now r p' hn hnext hd hr
    cases hr
    obtain ⟨row, hrow, hname⟩ := hφ hcalm _ hd
    refine ⟨Db.within_none, hnext, ?_, ?_⟩
    · rw [Db.apply_none]
      exact hd
    · show ((db.named (cStr t)).map Prod.fst).head? = _
      have := find_of_nameOf hn hrow hname
      simp only [Db.find] at this
      simp [this]
  · intro r v hl hv u hu
    rcases hv with ⟨rfl, hv⟩ | ⟨-, hv⟩
    · obtain ⟨hv', hl'⟩ := InTransaction.rely (D := .any (cStr t)) (.inr hv) hu
      obtain ⟨ho, -, hk⟩ := hv.own.rely hu
      exact ⟨hl.trans hl', .inl ⟨rfl, hv.keep ho hk⟩⟩
    · obtain ⟨hv', hl'⟩ := hv.rely hu
      obtain ⟨τ, p, hsess, hD⟩ := hv'.draft
      refine ⟨hl.trans hl', .inr ⟨fun hc => (hD hc).edited.2, hv'.own, τ, p, hsess, fun hc => ?_⟩⟩
      have he := hD hc
      exact ⟨he.found, he.base, he.next, he.within, he.edited.1⟩

/-- The statements that first look up the id of the table. -/
theorem safe_edit_by_id (sql : ℕ → Sql) (fail : α) (g : ∀ id, PGresult (sql id).Row → α)
    (ok : α → Prop) (next' : α → ℕ) (ψ : α → Slice → Prop)
    (hx : InTransaction policy others i q h ds c (.edits (cStr t) id base next φ) w)
    (hφ : Calm policy others h.locked (cStr t) → Live (cStr t) φ)
    (hs : ∀ k, (sql k).autocommits = false) (hfail : ¬ ok fail)
    (herr : ∀ k, ¬ ok (g k .error))
    (hrun : ∀ db now r p', db.NameOf id (cStr t) → next ≤ db.snapshots.next → φ (db.slice id) →
      (sql id).run pg now db = some (r, p') → db.Within id p' ∧
        next' (g id r) ≤ ((sql id).draw db).snapshots.next ∧
        ψ (g id r) ((((sql id).draw db).apply p').slice id)) :
    Safe (view pg policy others i q) (fun x v => Continues policy others i q h ds c
      (.edits (cStr t) id base (next' x) (ψ x)) w (ok x) v) exc
      ((PgClient.getTableId c t).bind fun
        | none => .ret fail
        | some k => (execParams c (sql k)).bind fun res => .ret (g k res)) w := by
  refine Safe.bind ((safe_editTableId hx hφ).mono (fun x v hv => ?_) fun _ he => he)
  obtain ⟨hl, ⟨rfl, hv⟩ | ⟨hid, hv⟩⟩ := hv
  · exact safe_continues_ret (hv.continues hfail hl)
  · cases x with
    | none =>
      have hnot : ¬ Calm policy others h.locked (cStr t) := fun hc => by cases hid hc
      refine safe_continues_ret ⟨hl, fun h => absurd h hfail, .mono (.inl hv) fun _ _ _ => trivial⟩
    | some k =>
      refine (safe_edit_answer (g k) ok next' ψ (.inl hv) (hs k) (herr k) fun hc => ?_).mono
        (fun x u hu => hu.trans hl) fun _ he => he
      obtain rfl : k = id := Option.some.inj (hid hc)
      exact hrun

theorem Drafting.mono {D D' : Draft n} (hx : Drafting policy others i q h ds c D w)
    (hD : Calm policy others h.locked n → ∀ db p, D.holds db p → D'.holds db p) :
    Drafting policy others i q h ds c D' w := by
  obtain ⟨τ, p, hs, hd⟩ := hx.draft
  exact ⟨hx.own, τ, p, hs, fun hc => hD hc _ _ (hd hc)⟩

/-- What is known about the table may be weakened. -/
theorem Drafting.edited (hx : Drafting policy others i q h ds c (.edits n id base next φ) w)
    (hφ : ∀ V, φ V → ψ V) : Drafting policy others i q h ds c (.edits n id base next ψ) w :=
  hx.mono fun _ _ _ he => ⟨he.found, he.base, he.next, he.within, hφ _ he.edited⟩

theorem Drafting.fact {p : Prop}
    (hx : Drafting policy others i q h ds c (.edits n id base next φ) w) (hφ : ∀ V, φ V → p)
    (hc : Calm policy others h.locked n) : p := by
  obtain ⟨τ, p, -, hd⟩ := hx.draft
  exact hφ _ (hd hc).edited

/-- After `BEGIN` the table of the name is in hand, or there is none. -/
theorem InTransaction.open (hx : InTransaction policy others i q h ds c (.opened n) w) :
    (∃ id, (Calm policy others h.locked n → ∃ r, w.now.db.find n = some (id, r)) ∧
      InTransaction policy others i q h ds c (.edits n id (w.now.db.slice id)
        w.now.db.snapshots.next (Eq (w.now.db.slice id))) w) ∨
      (Calm policy others h.locked n ∧ w.now.db.find n = none ∧
        InTransaction policy others i q h ds c (.absent n) w) := by
  by_cases hcalm : Calm policy others h.locked n
  · cases hf : w.now.db.find n with
    | none =>
      refine .inr ⟨hcalm, rfl, hx.imp_left fun hx => ?_⟩
      obtain ⟨τ, p, hs, hp⟩ := hx.draft
      exact ⟨hx.own, τ, p, hs, fun hc => ⟨hp hc, hf⟩⟩
    | some f =>
      refine .inl ⟨f.1, fun _ => ⟨f.2, rfl⟩, hx.imp_left fun hx => ?_⟩
      obtain ⟨τ, p, hs, hp⟩ := hx.draft
      refine ⟨hx.own, τ, p, hs, fun hc => ?_⟩
      obtain rfl : p = {} := hp hc
      exact ⟨⟨f.2, hf⟩, rfl, Nat.le_refl _, Db.within_none, by rw [Db.apply_none]⟩
  · refine .inl ⟨0, fun hc => absurd hc hcalm, hx.imp_left fun hx => ?_⟩
    obtain ⟨τ, p, hs, -⟩ := hx.draft
    exact ⟨hx.own, τ, p, hs, fun hc => absurd hc hcalm⟩

/-- A statement that answers `y` while no table has the name. -/
theorem safe_absentStatement {sql : Sql} {n : String} (f : PGresult sql.Row → α) (y : α)
    (hcalm : Calm policy others h.locked n)
    (hx : InTransaction policy others i q h ds c (.absent n) w) (hs : sql.autocommits = false)
    (herror : f .error = y)
    (hrun : ∀ db now r p, db.find n = none → sql.run pg now db = some (r, p) → f r = y) :
    Safe (view pg policy others i q) (fun x v => x = y ∧ Later policy others h.locked w v ∧
      InTransaction policy others i q h ds c (.any n) v) exc
      (.act (.execParams c sql) fun r => .ret (f r)) w := by
  let D (r : PGresult sql.Row) : Draft n := ⟨fun _ _ => f r = y, fun _ _ _ _ h => h⟩
  refine safe_statement D hx hs (fun _ db p now r p' _ _ _ hp hr => ?_) fun r v hl hv u hu => ?_
  · obtain ⟨rfl, hf⟩ := hp
    rw [Db.apply_none] at hr
    exact hrun db now r p' hf hr
  · rcases hv with ⟨rfl, hv⟩ | ⟨-, hv⟩
    · obtain ⟨hv', hl'⟩ := InTransaction.rely (D := .any n) (.inr hv) hu
      exact ⟨herror, hl.trans hl', hv'⟩
    · obtain ⟨hv', hl'⟩ := hv.rely hu
      obtain ⟨τ, p, hs, hD⟩ := hv'.draft
      exact ⟨hD hcalm, hl.trans hl', .mono (.inl hv') fun _ _ _ => trivial⟩

theorem safe_absentTableId (hcalm : Calm policy others h.locked (cStr t))
    (hx : InTransaction policy others i q h ds c (.absent (cStr t)) w) :
    Safe (view pg policy others i q) (fun x v => x = none ∧
      Later policy others h.locked w v ∧
      InTransaction policy others i q h ds c (.any (cStr t)) v) exc
      (PgClient.getTableId c t) w := by
  refine safe_absentStatement PGresult.first none hcalm hx rfl rfl fun db now r p hf hr => ?_
  cases hr
  show ((db.named (cStr t)).map Prod.fst).head? = none
  rw [Db.named_eq_nil_iff.mpr hf]
  rfl

end statements
end IceLog
