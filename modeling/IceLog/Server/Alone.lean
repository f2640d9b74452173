import IceLog.Concurrency.Solo
import IceLog.Server.Actions
import IceLog.Server.Runs

/-! A change of a table that runs alone, with or without its `COMMIT` being carried out. -/
namespace IceLog

open Interleaved

variable {pg : Postgres} {policy policy' : Policy} {i : ℕ} {q : Request} {α : Type} {p : Code α}
  {w w' : Moment} {tr : List (Act × Outcome)} {x : Option α} {φ : Act → Prop}

/-- Whether a `COMMIT` of the run is carried out. -/
def carriedOut (tr : List (Act × Outcome)) : Bool :=
  tr.any fun
    | (.exec _ .commit, .answer a) => a.carriedOut
    | _ => false

/-- Any request and any outcome, but each `COMMIT` is carried out, or none is. -/
def Policy.settling (carried : Bool) : Policy where
  admits := Policy.any.admits
  allows _
    | .exec _ .commit, .answer a => a.carriedOut == carried
    | _, _ => true

theorem Policy.settling_not_clean (carried : Bool) : ¬ (Policy.settling carried).Clean :=
  Policy.any_not_clean

theorem Inv.settling (h : Inv policy w) (hc : ¬ policy'.Clean) : Inv policy' w :=
  ⟨h.sound, h.fresh, fun h' => absurd h' hc, fun h' => absurd h' hc, fun h' => absurd h' hc,
    fun h' => absurd h' hc⟩

theorem Own.settling {h : Held} (ho : Own policy i q h [] w) (hc : ¬ policy'.Clean) :
    Own policy' i q h [] w :=
  ⟨ho.inv.settling hc, ho.holds, fun h' => absurd h' hc⟩

theorem carriedOut_of_noCommit (h : ∀ e ∈ tr, e.1.noCommit) : carriedOut tr = false := by
  rw [carriedOut, List.any_eq_false]
  rintro ⟨a, o⟩ he
  have hn := h _ he
  split
  · rename_i conn ans heq
    cases heq
    exact absurd rfl (hn conn)
  · exact Bool.false_ne_true

/-- All `COMMIT`s of a function that commits once have the same outcome. -/
theorem carriedOut_eq (h : Solo (server pg policy) i q p w tr x w') (hp : CommitsOnce φ p) :
    ∀ conn a, (.exec conn .commit, .answer a) ∈ tr → a.carriedOut = carriedOut tr := by
  induction h with
  | ret | throw => nofun
  | @act b k o r s tr x w w' _ _ hrest ih =>
    intro conn a hm
    by_cases hb : b.noCommit
    · rcases List.mem_cons.mp hm with he | hm
      · cases he
        exact absurd rfl (hb conn)
      · rw [ih (hp.2 r) conn a hm, carriedOut, carriedOut, List.any_cons]
        split
        · rename_i heq
          cases heq
          exact absurd rfl (hb _)
        · rfl
    · have hnone := hrest.acts (hp.1.2 hb r)
      rcases List.mem_cons.mp hm with he | hm
      · cases he
        have := carriedOut_of_noCommit fun e he => (hnone e he).2
        rw [carriedOut] at this
        simp [carriedOut, this]
      · exact absurd rfl ((hnone _ hm).2 conn)

theorem settle (h : Solo (server pg .any) i q p w tr x w') (hp : CommitsOnce φ p) :
    Solo (server pg (.settling (carriedOut tr))) i q p w tr x w' := by
  refine h.restrict fun e he => ?_
  obtain ⟨a, o⟩ := e
  simp only [Policy.settling]
  split
  · simpa using carriedOut_eq h hp _ _ he
  · rfl

/-- A function that commits once, and runs alone, meets its postcondition where its `COMMIT` has the
one outcome that it had. -/
theorem post_settled {post : Policy → α → Moment → Prop} {exc : Policy → Moment → Prop}
    (h : Solo (server pg .any) i q p w tr x w') (hp : CommitsOnce φ p)
    (ho : Own .any i q {} [] w) (hs : ∀ policy, ¬ policy.Clean → Own policy i q {} [] w →
      Safe (view pg policy false i q) (post policy) (exc policy) p w) :
    x.elim (exc (.settling (carriedOut tr)) w') fun x => post (.settling (carriedOut tr)) x w' := by
  have hc := Policy.settling_not_clean (carriedOut tr)
  exact (settle h hp).post (hs _ hc (ho.settling hc))

/-! The functions that commit once. -/

section once
variable {t : String}

theorem mayEdit_any : MayEdit fun _ => True := ⟨fun _ _ _ _ => trivial, fun _ _ => trivial⟩

theorem commitsOnce_body {body : Conn → Code α} (h : ∀ conn, CommitsOnce (fun _ => True) (body conn)) :
    CommitsOnce (fun _ => True) (withExclusive t (withConnection body)) :=
  .withExclusive (.withConnection ⟨trivial, fun _ => trivial⟩ h) trivial trivial

theorem commitsOnce_commitSnapshot {parent : ℕ} {op : String} {news : List PartitionRow}
    {dels : List String} :
    CommitsOnce (fun _ => True) (PartitionRegistry.commitSnapshot t parent op news dels) := by
  obtain ⟨body, hbody, hb⟩ := Acts.commitSnapshot_body (t := t) mayEdit_any
    (fun _ _ _ _ => trivial) trivial parent op news dels
  exact hbody ▸ commitsOnce_body hb

theorem commitsOnce_alterTableSchema {schema summary : String} :
    CommitsOnce (fun _ => True) (CatalogManager.alterTableSchema t schema summary) := by
  obtain ⟨body, hbody, hb⟩ := Acts.alterTableSchema_body (t := t) mayEdit_any schema summary
  exact hbody ▸ commitsOnce_body hb

theorem commitsOnce_dropTable {purge : Bool} :
    CommitsOnce (fun _ => True) (CatalogManager.dropTable t purge) := by
  obtain ⟨body, hbody, hb⟩ := Acts.dropTable_body (t := t) mayEdit_any purge
  exact hbody ▸ commitsOnce_body hb

end once

/-! What follows a `COMMIT`. -/

/-- `COMMIT`, on any connection. -/
def Act.Commits (a : Act) : Prop := ∃ conn, a = .exec conn .commit

/-- The actions that end a request: entries of the cache are dropped, and what is held is given back. -/
def Act.Closes : Act → Prop
  | .cacheInvalidate _ | .release _ | .unlockExclusive _ => True
  | _ => False

/-- A function that closes after a `COMMIT` and ends in `P`. -/
abbrev Closing {α : Type} (P : α → Prop) (p : Code α) : Prop := p.LeadsBy Act.Commits Act.Closes P

theorem closing_noCommit {α : Type} {p : Code α} {P : α → Prop}
    (h : Acts (fun a => True ∧ a.noCommit) p) : Closing P p :=
  .of_not (h.mono fun _ _ ha ⟨conn, hc⟩ => ha.2 conn hc)

theorem closing_bind {α β : Type} {p : Code α} {f : α → Code β} {P : β → Prop}
    (h : Acts (fun a => True ∧ a.noCommit) p) (hf : ∀ x, Closing P (f x)) : Closing P (p.bind f) :=
  .bind (h.mono fun _ _ ha ⟨conn, hc⟩ => ha.2 conn hc) hf

/-- Under an exclusive lock, on a connection. -/
theorem closing_body {t : String} {P : α → Prop} {body : Conn → Code α}
    (h : ∀ conn, Closing P (body conn)) : Closing P (withExclusive t (withConnection body)) := by
  refine closing_bind (Acts.atomically ⟨trivial, nofun⟩) fun _ => .guarded ?_ nofun trivial
  refine closing_bind (Acts.atomically ⟨trivial, nofun⟩) fun conn => ?_
  cases conn with
  | none => trivial
  | some conn => exact (h conn).guarded nofun trivial

end IceLog
