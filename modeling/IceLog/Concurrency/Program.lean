import Mathlib.Logic.Function.Basic
import Mathlib.Data.Nat.Notation
import Mathlib.Order.Basic

/-! Sequential programs over a set of atomic actions. A program is a tree: it returns,
throws, or performs one action and goes on with the response it gets. -/
namespace Interleaved

variable {A : Type} {R : A → Type} {α β γ : Type}

inductive Prog (A : Type) (R : A → Type) (α : Type) : Type where
  | ret (x : α)
  | throw
  | act (a : A) (k : R a → Prog A R α)

namespace Prog

/-- Perform one action and return its response. -/
def perform (a : A) : Prog A R (R a) := .act a .ret

def bind : Prog A R α → (α → Prog A R β) → Prog A R β
  | .ret x, f => f x
  | .throw, _ => .throw
  | .act a k, f => .act a fun r => (k r).bind f

instance : Monad (Prog A R) where
  pure := .ret
  bind := bind

/-- Run `leave` when `p` stops, whether it returned or threw: the destructor of a guard. -/
def guarded (p : Prog A R α) (leave : Prog A R Unit) : Prog A R α :=
  match p with
  | .ret x => leave.bind fun _ => .ret x
  | .throw => leave.bind fun _ => .throw
  | .act a k => .act a fun r => guarded (k r) leave

/-- The value of a program that has returned. -/
def result : Prog A R α → Option α
  | .ret x => some x
  | _ => none

/-- What is left of `p` after some actions. -/
inductive Reaches (p : Prog A R α) : Prog A R α → Prop
  | refl : Reaches p p
  | act {a : A} {k : R a → Prog A R α} (r : R a) : Reaches p (.act a k) → Reaches p (k r)

/-- `φ` holds of every action of `p` with what follows it. -/
def All (φ : (a : A) → (R a → Prog A R α) → Prop) : Prog A R α → Prop
  | .act a k => φ a k ∧ ∀ r, All φ (k r)
  | _ => True

theorem all_of_forall {φ : A → Prop} (h : ∀ a, φ a) (p : Prog A R α) : p.All fun a _ => φ a := by
  induction p with
  | ret | throw => trivial
  | act a k ih => exact ⟨h a, ih⟩

theorem All.reaches {φ : (a : A) → (R a → Prog A R α) → Prop} {p p' : Prog A R α}
    (h : p.All φ) (hr : p.Reaches p') : p'.All φ := by
  induction hr with
  | refl => exact h
  | act r _ ih => exact ih.2 r

theorem All.mono {φ ψ : (a : A) → (R a → Prog A R α) → Prop} {p : Prog A R α} (h : p.All φ)
    (hi : ∀ a k, φ a k → ψ a k) : p.All ψ := by
  induction p with
  | ret x | throw => trivial
  | act a k ih => exact ⟨hi a k h.1, fun r => ih r (h.2 r)⟩

theorem All.bind {φ : A → Prop} {p : Prog A R α} {f : α → Prog A R β} (h : p.All fun a _ => φ a)
    (hf : ∀ x, (f x).All fun a _ => φ a) : (p.bind f).All fun a _ => φ a := by
  induction p with
  | ret x => exact hf x
  | throw => trivial
  | act a k ih => exact ⟨h.1, fun r => ih r (h.2 r)⟩

theorem All.guarded {φ : A → Prop} {p : Prog A R α} {leave : Prog A R Unit}
    (h : p.All fun a _ => φ a) (hl : leave.All fun a _ => φ a) :
    (p.guarded leave).All fun a _ => φ a := by
  induction p with
  | ret x | throw => exact All.bind hl fun _ => trivial
  | act a k ih => exact ⟨h.1, fun r => ih r (h.2 r)⟩

/-- A program that has returned or thrown. -/
def Finished : Prog A R α → Prop
  | .act _ _ => False
  | _ => True

@[simp] theorem pure_eq (x : α) : (pure x : Prog A R α) = .ret x := rfl

@[simp] theorem bind_eq (p : Prog A R α) (f : α → Prog A R β) : p >>= f = p.bind f := rfl

@[simp] theorem ret_bind (x : α) (f : α → Prog A R β) : (ret x : Prog A R α).bind f = f x := rfl

@[simp] theorem throw_bind (f : α → Prog A R β) : (throw : Prog A R α).bind f = .throw := rfl

@[simp] theorem act_bind (a : A) (k : R a → Prog A R α) (f : α → Prog A R β) :
    (act a k).bind f = .act a fun r => (k r).bind f := rfl

@[simp] theorem bind_assoc (p : Prog A R α) (f : α → Prog A R β) (g : β → Prog A R γ) :
    (p.bind f).bind g = p.bind fun x => (f x).bind g := by
  induction p with
  | ret x => rfl
  | throw => rfl
  | act a k ih => simp [ih]

@[simp] theorem bind_ret (p : Prog A R α) : p.bind ret = p := by
  induction p with
  | ret x => rfl
  | throw => rfl
  | act a k ih => simp [ih]

theorem result_eq_some {p : Prog A R α} {x : α} (h : p.result = some x) : p = .ret x := by
  cases p <;> simp_all [result]

theorem finished_act {a : A} {k : R a → Prog A R α} : ¬ (act a k).Finished := id

end Prog
end Interleaved
