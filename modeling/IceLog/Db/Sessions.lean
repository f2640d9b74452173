import IceLog.Db.Isolation

/-! What one statement on one connection can do to the backend, and that it keeps the open
transactions apart. -/
namespace IceLog

open Serial

/-- The invariant of the database server. -/
structure Backend.Sound (b : Backend) : Prop where
  opened : ∀ c, ¬ (b.session c).Closed → c < b.opened
  drawn : ∀ c t p, b.session c = .inTransaction t p → p.Drawn b.db
  names : ∀ c t p, b.session c = .inTransaction t p → p.KeepsNames b.db
  apart : ∀ c d t u p q, c ≠ d → b.session c = .inTransaction t p →
    b.session d = .inTransaction u q → p.Apart q
  unique : b.db.UniqueNames

/-- What a statement that fails makes of its session. -/
inductive Session.Fails : Session → Session → Prop
  | broken (σ : Session) : Fails σ .broken
  | idle : Fails .idle .idle
  | aborted : Fails .aborted .aborted
  | abort (t : ℕ) (p : Changes) : Fails (.inTransaction t p) .aborted

theorem Session.Closed.fails {σ σ' : Session} (h : σ.Closed) (hf : σ.Fails σ') : σ'.Closed := by
  cases hf <;> trivial

theorem Session.Fails.not_inTransaction {σ σ' : Session} (h : σ.Fails σ') (t : ℕ) (p : Changes) :
    σ' ≠ .inTransaction t p := by
  cases h <;> simp

theorem Session.Fails.dead {σ σ' : Session} (h : σ.Fails σ') (hi : σ ≠ .idle) :
    σ' = .aborted ∨ σ' = .broken := by
  cases h with
  | broken => exact .inr rfl
  | idle => exact absurd rfl hi
  | aborted | abort => exact .inl rfl

namespace Backend

variable {pg : Postgres} {b b' : Backend} {c : Conn} {k : Command} {q : Sql} {a : Answer}

@[simp] theorem setSession_self (b : Backend) (c : Conn) (σ : Session) :
    (b.setSession c σ).session c = σ := by
  simp [setSession]

theorem setSession_of_ne (b : Backend) {c d : Conn} (σ : Session) (h : d ≠ c) :
    (b.setSession c σ).session d = b.session d := by
  simp [setSession, h]

@[simp] theorem setSession_db (b : Backend) (c : Conn) (σ : Session) :
    (b.setSession c σ).db = b.db := rfl

@[simp] theorem setSession_opened (b : Backend) (c : Conn) (σ : Session) :
    (b.setSession c σ).opened = b.opened := rfl

@[simp] theorem setSession_eq (b : Backend) (c : Conn) :
    b.setSession c (b.session c) = b := by
  simp [setSession]

theorem burn_db (b : Backend) (drawn : Bool) (q : Sql) :
    b.burn drawn q = { b with db := if drawn then q.draw b.db else b.db } := by
  cases drawn <;> rfl

/-- `b'` is `b` with another session of `c`, and sequences that may have gone on. -/
def Quiet (c : Conn) (σ : Session) (b b' : Backend) : Prop :=
  ∃ db, b.db.SameRows db ∧ b.db.NextLe db ∧ db.transactions.row = b.db.transactions.row ∧
    b' = { b with db := db }.setSession c σ

theorem quiet_setSession (b : Backend) (c : Conn) (σ : Session) :
    Quiet c σ b (b.setSession c σ) :=
  ⟨b.db, .refl _, .refl _, rfl, rfl⟩

theorem quiet_self (b : Backend) (c : Conn) : Quiet c (b.session c) b b :=
  ⟨b.db, .refl _, .refl _, rfl, by simp⟩

theorem quiet_burn (b : Backend) (c : Conn) (drawn : Bool) (q : Sql) (σ : Session) :
    Quiet c σ b ((b.burn drawn q).setSession c σ) := by
  rw [burn_db]
  cases drawn
  · exact quiet_setSession b c σ
  · exact ⟨_, Db.sameRows_draw q _, Db.nextLe_draw q _, by cases q <;> rfl, rfl⟩

theorem quiet_burn_self (b : Backend) (c : Conn) (drawn : Bool) (q : Sql) :
    Quiet c (b.session c) b (b.burn drawn q) := by
  have h := quiet_burn b c drawn q (b.session c)
  have hs : (b.burn drawn q).session c = b.session c := by rw [burn_db]
  rwa [← hs, setSession_eq, hs] at h

/-- A statement fails, commits by itself, or adds to the open transaction. -/
inductive Executed (pg : Postgres) (b : Backend) (c : Conn) (q : Sql) (a : Answer) :
    PGresult q.Row → Backend → Prop
  | failed {σ : Session} {b' : Backend} : (b.session c).Fails σ → Quiet c σ b b' →
      (a = .ok → b.session c = .idle → q.run pg b.clock b.db = none ∧ σ = .idle) →
      Executed pg b c q a .error b'
  | committed {r r' : PGresult q.Row} {p : Changes} {σ : Session} : b.session c = .idle →
      q.run pg b.clock b.db = some (r, p) → b.waits c p = false →
      a = .ok ∧ r' = r ∧ σ = .idle ∨ a = .unheard ∧ r' = .error ∧ σ = .broken →
      Executed pg b c q a r' ({ b with db := (q.draw b.db).apply p }.setSession c σ)
  | added {t : ℕ} {p p' : Changes} {r : PGresult q.Row} : a = .ok →
      b.session c = .inTransaction t p → q.run pg t (b.db.apply p) = some (r, p') →
      b.waits c p' = false →
      Executed pg b c q a r
        ({ b with db := q.draw b.db }.setSession c (.inTransaction t (p.andThen p')))

theorem execParams_cases {r : PGresult q.Row} (h : b.execParams c pg q a = some (r, b')) :
    Executed pg b c q a r b' := by
  cases hs : b.session c with
  | broken =>
    simp only [execParams, hs] at h
    cases h
    exact .failed (.broken _) (hs ▸ quiet_self b c) (by simp [hs])
  | aborted =>
    cases a <;> simp only [execParams, hs] at h <;> cases h
    all_goals first
      | exact .failed (.broken _) (quiet_setSession b c _) (by simp [hs])
      | exact .failed (hs ▸ .aborted) (hs ▸ quiet_self b c) (by simp [hs])
  | idle =>
    cases a with
    | lost drawn =>
      simp only [execParams, hs] at h
      cases h
      exact .failed (.broken _) (quiet_burn b c _ q _) (by simp)
    | fail drawn =>
      simp only [execParams, hs] at h
      cases h
      exact .failed (hs ▸ .idle) (hs ▸ quiet_burn_self b c drawn q) (by simp)
    | ok =>
      simp only [execParams, hs] at h
      split at h
      · rename_i hr
        cases h
        exact .failed (hs ▸ .idle) (hs ▸ quiet_burn_self b c true q) fun _ _ => ⟨hr, rfl⟩
      · rename_i r p hr
        split at h
        · cases h
        · rename_i hw
          cases h
          have := Executed.committed (a := .ok) hs hr (by simpa using hw) (.inl ⟨rfl, rfl, rfl⟩)
          rwa [show Session.idle = ({ b with db := (q.draw b.db).apply p } : Backend).session c
            from hs.symm, setSession_eq] at this
    | unheard =>
      simp only [execParams, hs] at h
      split at h
      · cases h
        exact .failed (.broken _) (quiet_burn b c _ q _) (by simp)
      · rename_i hr
        split at h
        · cases h
        · rename_i hw
          cases h
          exact .committed hs hr (by simpa using hw) (.inr ⟨rfl, rfl, rfl⟩)
  | inTransaction t p =>
    cases a with
    | lost drawn =>
      simp only [execParams, hs] at h
      cases h
      exact .failed (.broken _) (quiet_burn b c _ q _) (by simp)
    | unheard =>
      simp only [execParams, hs] at h
      cases h
      exact .failed (.broken _) (quiet_burn b c _ q _) (by simp)
    | fail drawn =>
      simp only [execParams, hs] at h
      cases h
      exact .failed (hs ▸ .abort _ _) (quiet_burn b c _ q _) (by simp)
    | ok =>
      simp only [execParams, hs] at h
      split at h
      · cases h
        exact .failed (hs ▸ .abort _ _) (quiet_burn b c _ q _) (by simp [hs])
      · rename_i hr
        split at h
        · cases h
        · rename_i hw
          cases h
          exact .added rfl hs hr (by simpa using hw)

/-- `COMMIT` of an open transaction takes effect, or the command only moves the session. -/
inductive Controlled (b : Backend) (c : Conn) (k : Command) (a : Answer) : Bool → Backend → Prop
  | moved {r : Bool} {σ : Session} {b' : Backend} : Quiet c σ b b' → (k ≠ .begin → σ.Closed) →
      (∀ t p, σ = .inTransaction t p → b.session c = .inTransaction t p ∨ p = {}) →
      (k = .begin → (b.session c).Closed → (σ = .broken ∧ r = false) ∨
        ∃ t, σ = .inTransaction t {}) →
      (k = .commit → ∀ t p, b.session c = .inTransaction t p →
        r = false ∧ ∃ drawn, a = .fail drawn ∨ a = .lost drawn) →
      Controlled b c k a r b'
  | committed {t : ℕ} {p : Changes} {r : Bool} {σ : Session} : k = .commit →
      b.session c = .inTransaction t p →
      a = .ok ∧ r = true ∧ σ = .idle ∨ a = .unheard ∧ r = false ∧ σ = .broken →
      Controlled b c k a r ({ b with db := b.db.apply p }.setSession c σ)

theorem exec_cases {r : Bool} (h : b.exec c k a = (r, b')) :
    Controlled b c k a r b' := by
  cases hs : b.session c with
  | broken =>
    have hq := hs ▸ quiet_self b c
    simp only [exec, hs] at h
    cases h
    exact .moved hq (by simp [Session.Closed]) (by simp) (by simp) (by simp [hs])
  | idle =>
    have hq := hs ▸ quiet_self b c
    cases a <;> cases k <;> simp only [exec, hs] at h <;> cases h
    all_goals first
      | exact .moved hq (by simp [Session.Closed]) (by simp) (by simp) (by simp [hs])
      | exact .moved (quiet_setSession b c _) (by simp [Session.Closed]) (by simp) (by simp)
          (by simp [hs])
  | aborted =>
    have hq := hs ▸ quiet_self b c
    cases a <;> cases k <;> simp only [exec, hs] at h <;> cases h
    all_goals first
      | exact .moved hq (by simp) (by simp) (by simp [hs, Session.Closed]) (by simp [hs])
      | exact .moved (quiet_setSession b c _) (by simp [Session.Closed]) (by simp)
          (by simp [hs, Session.Closed]) (by simp [hs])
  | inTransaction t p =>
    have hq := hs ▸ quiet_self b c
    cases a <;> cases k <;> simp only [exec, hs] at h <;> cases h
    all_goals first
      | exact .committed rfl hs (.inl ⟨rfl, rfl, rfl⟩)
      | exact .committed rfl hs (.inr ⟨rfl, rfl, rfl⟩)
      | exact .moved hq (by simp) (by simp [hs]) (by simp [hs, Session.Closed]) (by simp)
      | exact .moved (quiet_setSession b c _) (by simp [Session.Closed]) (by simp)
          (by simp [hs, Session.Closed]) (by simp)

section soundness
variable {σ : Session} {p : Changes} {r : PGresult q.Row} {ok : Bool}

theorem Quiet.session_self (h : Quiet c σ b b') : b'.session c = σ := by
  obtain ⟨db, -, -, -, rfl⟩ := h
  simp

theorem Quiet.session_of_ne (h : Quiet c σ b b') {d : Conn} (hd : d ≠ c) :
    b'.session d = b.session d := by
  obtain ⟨db, -, -, -, rfl⟩ := h
  rw [setSession_of_ne _ _ hd]

theorem Quiet.sameRows (h : Quiet c σ b b') : b.db.SameRows b'.db := by
  obtain ⟨db, hs, -, -, rfl⟩ := h
  exact hs

theorem Quiet.nextLe (h : Quiet c σ b b') : b.db.NextLe b'.db := by
  obtain ⟨db, -, hn, -, rfl⟩ := h
  exact hn

theorem Quiet.transactions (h : Quiet c σ b b') :
    b'.db.transactions.row = b.db.transactions.row := by
  obtain ⟨db, -, -, ht, rfl⟩ := h
  exact ht

theorem Quiet.opened (h : Quiet c σ b b') : b'.opened = b.opened := by
  obtain ⟨db, -, -, -, rfl⟩ := h
  rfl

theorem Quiet.clock (h : Quiet c σ b b') : b'.clock = b.clock := by
  obtain ⟨db, -, -, -, rfl⟩ := h
  rfl

/-- The invariant if `c` is now in a session that changes no row others have changed. -/
theorem Sound.of_sessions (hb : b.Sound) (hc : c < b.opened)
    (hne : ∀ d, d ≠ c → b'.session d = b.session d) (ho : b'.opened = b.opened)
    (hn : b.db.NextLe b'.db) (hu : b'.db.UniqueNames)
    (hf : ∀ d t p, d ≠ c → b.session d = .inTransaction t p → p.Frame b.db b'.db)
    (hself : ∀ t p, b'.session c = .inTransaction t p → p.Drawn b'.db ∧ p.KeepsNames b'.db ∧
      ∀ d u q, d ≠ c → b.session d = .inTransaction u q → p.Apart q) : b'.Sound where
  opened d hd := by
    rw [ho]
    by_cases hdc : d = c
    · exact hdc ▸ hc
    · exact hb.opened d (hne d hdc ▸ hd)
  drawn d t p hd := by
    by_cases hdc : d = c
    · subst hdc
      exact (hself t p hd).1
    · exact (hb.drawn d t p (hne d hdc ▸ hd)).mono hn
  names d t p hd := by
    by_cases hdc : d = c
    · subst hdc
      exact (hself t p hd).2.1
    · have hd' := hne d hdc ▸ hd
      exact (hb.names d t p hd').frame (hf d t p hdc hd')
  apart d e t u p q hde hd he := by
    by_cases hdc : d = c
    · subst hdc
      exact (hself t p hd).2.2 e u q hde.symm (hne e hde.symm ▸ he)
    · by_cases hec : e = c
      · subst hec
        exact ((hself u q he).2.2 d t p hdc (hne d hdc ▸ hd)).symm
      · exact hb.apart d e t u p q hde (hne d hdc ▸ hd) (hne e hec ▸ he)
  unique := hu

theorem Sound.quiet (hb : b.Sound) (hc : c < b.opened) (hq : Quiet c σ b b')
    (hσ : ∀ t p, σ = .inTransaction t p → b.session c = .inTransaction t p ∨ p = {}) :
    b'.Sound := by
  have hs := hq.sameRows
  refine hb.of_sessions hc (fun d hd => hq.session_of_ne hd) hq.opened hq.nextLe
    (hs.unique hb.unique) (fun d t p _ _ => .of_sameRows hs) fun t p hp => ?_
  rcases hσ t p (hq.session_self ▸ hp) with h | rfl
  · exact ⟨(hb.drawn c t p h).mono hq.nextLe, (hb.names c t p h).frame (.of_sameRows hs),
      fun d u q hd he => hb.apart c d t u p q hd.symm h he⟩
  · exact ⟨Changes.drawn_none _, fun id r' h => by simp at h,
      fun d u q _ _ => Changes.none_apart q⟩

theorem waits_false (hb : b.Sound) (hw : b.waits c p = false) {d : Conn} {u : ℕ} {q : Changes}
    (hd : d ≠ c) (hq : b.session d = .inTransaction u q) : p.Apart q := by
  have hlt := hb.opened d (by simp [hq, Session.Closed])
  simp only [waits, List.any_eq_false, List.mem_range] at hw
  have := hw d hlt
  simp only [hq, bne_iff_ne, ne_eq, hd, not_false_eq_true, true_and, Bool.and_eq_true,
    Bool.not_eq_true', Bool.not_eq_false] at this
  exact Changes.apart_sound this (hb.drawn d u q hq)

theorem Executed.session_of_ne (h : Executed pg b c q a r b') {d : Conn} (hd : d ≠ c) :
    b'.session d = b.session d := by
  cases h with
  | failed _ hq _ => exact hq.session_of_ne hd
  | committed | added => exact Backend.setSession_of_ne _ _ hd

theorem Controlled.session_of_ne (h : Controlled b c k a ok b') {d : Conn} (hd : d ≠ c) :
    b'.session d = b.session d := by
  cases h with
  | moved hq _ _ _ _ => exact hq.session_of_ne hd
  | committed => exact Backend.setSession_of_ne _ _ hd

theorem Executed.opened (h : Executed pg b c q a r b') : b'.opened = b.opened := by
  cases h with
  | failed _ hq _ => exact hq.opened
  | committed | added => rfl

theorem Controlled.opened (h : Controlled b c k a ok b') : b'.opened = b.opened := by
  cases h with
  | moved hq _ _ _ _ => exact hq.opened
  | committed => rfl

theorem Executed.nextLe (h : Executed pg b c q a r b') : b.db.NextLe b'.db := by
  cases h with
  | failed _ hq _ => exact hq.nextLe
  | committed => exact (Db.nextLe_draw q _).trans (Db.nextLe_apply _ _)
  | added => exact Db.nextLe_draw q _

theorem Controlled.nextLe (h : Controlled b c k a ok b') : b.db.NextLe b'.db := by
  cases h with
  | moved hq _ _ _ _ => exact hq.nextLe
  | committed => exact Db.nextLe_apply _ _

/-- Statements keep the rows that other open transactions have changed. -/
theorem Executed.frame (hb : b.Sound) (h : Executed pg b c q a r b') {d : Conn} {u : ℕ}
    {p : Changes} (hd : d ≠ c) (hp : b.session d = .inTransaction u p) :
    p.Frame b.db b'.db := by
  cases h with
  | failed hf hq _ => exact .of_sameRows hq.sameRows
  | committed _ hr hw _ =>
    exact (Changes.Frame.of_sameRows (Db.sameRows_draw q b.db)).trans
      (.of_apart (waits_false hb hw hd hp).symm)
  | added => exact .of_sameRows (Db.sameRows_draw q b.db)

theorem Controlled.frame (hb : b.Sound) (h : Controlled b c k a ok b') {d : Conn} {u : ℕ}
    {p : Changes} (hd : d ≠ c) (hp : b.session d = .inTransaction u p) :
    p.Frame b.db b'.db := by
  cases h with
  | moved hq _ _ _ _ => exact .of_sameRows hq.sameRows
  | committed _ hs _ => exact .of_apart (hb.apart _ _ _ _ _ _ hd hp hs)

/-- A statement is one step of the invariant. -/
theorem Executed.sound (hb : b.Sound) (hc : c < b.opened)
    (hn : q.namesTables = true → (b.session c).Closed) (h : Executed pg b c q a r b') :
    b'.Sound := by
  have hframe : ∀ (d : Conn) (t : ℕ) (p : Changes), d ≠ c → b.session d = .inTransaction t p →
      p.Frame b.db b'.db := fun d t p hd hp => h.frame hb hd hp
  cases h with
  | failed hf hq _ => exact hb.quiet hc hq fun t p hσ => absurd hσ (hf.not_inTransaction t p)
  | committed hs hr hw ha =>
    refine hb.of_sessions hc (fun d hd => setSession_of_ne _ _ hd) rfl
      ((Db.nextLe_draw q _).trans (Db.nextLe_apply _ _)) (Sql.run_unique hb.unique hr) hframe ?_
    intro t p hp
    rcases ha with ⟨-, -, rfl⟩ | ⟨-, -, rfl⟩ <;> simp at hp
  | @added t p p' _ _ hs hr hw =>
    have hnext := Db.nextLe_draw q b.db
    have hsame := Db.sameRows_draw q b.db
    refine hb.of_sessions hc (fun d hd => setSession_of_ne _ _ hd) rfl hnext
      (hsame.unique hb.unique) hframe ?_
    intro t' p₁ hp₁
    simp only [setSession_self, Session.inTransaction.injEq] at hp₁
    obtain ⟨rfl, rfl⟩ := hp₁
    have hq : q.namesTables = false := by
      by_contra hq
      have := hn (by simpa using hq)
      simp [hs, Session.Closed] at this
    refine ⟨((hb.drawn c t p hs).mono hnext).andThen ?_,
      ((hb.names c t p hs).andThen (Sql.run_keepsNames hq hr)).frame (.of_sameRows hsame), ?_⟩
    · have hd := Sql.run_drawn hr
      rw [← Db.draw_apply q (hb.drawn c t p hs)] at hd
      exact ⟨hd.tables, hd.history, hd.snapshots, hd.partitions, hd.transactions⟩
    · intro d u q' hd hq'
      exact (hb.apart c d t u p q' hd.symm hs hq').andThen (waits_false hb hw hd hq')

theorem Controlled.sound (hb : b.Sound) (hc : c < b.opened) (h : Controlled b c k a ok b') :
    b'.Sound := by
  have hframe : ∀ (d : Conn) (t : ℕ) (p : Changes), d ≠ c → b.session d = .inTransaction t p →
      p.Frame b.db b'.db := fun d t p hd hp => h.frame hb hd hp
  cases h with
  | moved hq _ hσ _ _ => exact hb.quiet hc hq hσ
  | @committed t p _ _ _ hs ha =>
    refine hb.of_sessions hc (fun d hd => setSession_of_ne _ _ hd) rfl (Db.nextLe_apply _ _)
      ((hb.names c t p hs).unique hb.unique) hframe ?_
    intro t' p' hp'
    rcases ha with ⟨-, -, rfl⟩ | ⟨-, -, rfl⟩ <;> simp at hp'

end soundness
end Backend
end IceLog
