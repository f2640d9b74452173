import IceLog.Server.State

/-! The lock manager: a mutex for each name of a table that has ever been locked, and the map that
finds it, which has a mutex of its own. -/
namespace IceLog

/-- The mutexes are found by their addresses; each is owned by one entry of the map. -/
structure LockManager where
  registryMutex : Option ℕ := none
  tableLocks : String → Option ℕ := fun _ => none
  /-- The mutex at an address. -/
  mutex : ℕ → SharedMutex := fun _ => {}
  /-- The number of mutexes that were made. -/
  made : ℕ := 0
  made_of_mem : ∀ {t m}, tableLocks t = some m → m < made := by simp
  unique : ∀ {t u m}, tableLocks t = some m → tableLocks u = some m → t = u := by simp

namespace LockManager

variable (l : LockManager)

/-- `table_locks_.emplace`, with the address of the mutex. -/
def emplace (t : String) : ℕ × LockManager :=
  match h : l.tableLocks t with
  | some m => (m, l)
  | none => (l.made, { l with
      tableLocks := Function.update l.tableLocks t (some l.made)
      mutex := Function.update l.mutex l.made {}
      made := l.made + 1
      made_of_mem := by
        intro u m hu
        by_cases hut : u = t
        · subst hut
          rw [Function.update_self] at hu
          cases hu
          exact Nat.lt_succ_self _
        · rw [Function.update_of_ne hut] at hu
          exact Nat.lt_succ_of_lt (l.made_of_mem hu)
      unique := by
        intro u v m hu hv
        by_cases hut : u = t <;> by_cases hvt : v = t
        · exact hut.trans hvt.symm
        · rw [hut, Function.update_self] at hu
          rw [Function.update_of_ne hvt] at hv
          cases hu
          exact absurd (l.made_of_mem hv) (Nat.lt_irrefl _)
        · rw [hvt, Function.update_self] at hv
          rw [Function.update_of_ne hut] at hu
          cases hv
          exact absurd (l.made_of_mem hu) (Nat.lt_irrefl _)
        · rw [Function.update_of_ne hut] at hu
          rw [Function.update_of_ne hvt] at hv
          exact l.unique hu hv })

def setMutex (m : ℕ) (x : SharedMutex) : LockManager :=
  { l with mutex := Function.update l.mutex m x }

def setRegistry (owner : Option ℕ) : LockManager := { l with registryMutex := owner }

/-- The mutex of a name; one that was never made is as if new. -/
def lockOf (t : String) : SharedMutex := (l.tableLocks t).elim {} l.mutex

variable {l : LockManager} {t u : String} {m : ℕ}

@[simp] theorem setMutex_tableLocks (m : ℕ) (x : SharedMutex) :
    (l.setMutex m x).tableLocks = l.tableLocks := rfl

@[simp] theorem setMutex_registryMutex (m : ℕ) (x : SharedMutex) :
    (l.setMutex m x).registryMutex = l.registryMutex := rfl

@[simp] theorem setRegistry_tableLocks (o : Option ℕ) :
    (l.setRegistry o).tableLocks = l.tableLocks := rfl

@[simp] theorem setRegistry_registryMutex (o : Option ℕ) :
    (l.setRegistry o).registryMutex = o := rfl

@[simp] theorem setRegistry_lockOf (o : Option ℕ) : (l.setRegistry o).lockOf = l.lockOf := rfl

theorem lockOf_of_eq_none (h : l.tableLocks t = none) : l.lockOf t = {} := by
  simp [lockOf, h]

theorem lockOf_of_eq_some (h : l.tableLocks t = some m) : l.lockOf t = l.mutex m := by
  simp [lockOf, h]

/-- Another state of a mutex is another state of the one name that it belongs to. -/
theorem lockOf_setMutex (h : l.tableLocks t = some m) (x : SharedMutex) :
    (l.setMutex m x).lockOf = Function.update l.lockOf t x := by
  funext u
  by_cases hut : u = t
  · subst hut
    rw [Function.update_self, lockOf_of_eq_some (l := l.setMutex m x) h]
    exact Function.update_self ..
  · rw [Function.update_of_ne hut]
    cases hu : l.tableLocks u with
    | none => rw [lockOf_of_eq_none hu, lockOf_of_eq_none (l := l.setMutex m x) hu]
    | some m' =>
      rw [lockOf_of_eq_some hu, lockOf_of_eq_some (l := l.setMutex m x) hu]
      refine Function.update_of_ne ?_ ..
      rintro rfl
      exact hut (l.unique hu h)

theorem emplace_of_eq_some (h : l.tableLocks t = some m) : l.emplace t = (m, l) := by
  unfold emplace
  split
  · rename_i m' h'
    obtain rfl := Option.some.inj (h.symm.trans h')
    rfl
  · rename_i h'
    cases h.symm.trans h'

@[simp] theorem emplace_registryMutex (l : LockManager) (t : String) :
    (l.emplace t).2.registryMutex = l.registryMutex := by
  unfold emplace
  split <;> rfl

/-- The new entry, if there was none. -/
theorem emplace_tableLocks (l : LockManager) (t : String) :
    (l.emplace t).2.tableLocks = Function.update l.tableLocks t (some (l.emplace t).1) := by
  unfold emplace
  split
  · rename_i m h
    exact (Function.update_eq_self_iff.mpr h.symm).symm
  · rfl

@[simp] theorem emplace_self (l : LockManager) (t : String) :
    (l.emplace t).2.tableLocks t = some (l.emplace t).1 := by
  rw [emplace_tableLocks, Function.update_self]

/-- An entry stays. -/
theorem emplace_mono (h : l.tableLocks u = some m) : (l.emplace t).2.tableLocks u = some m := by
  by_cases hut : u = t
  · subst hut
    rw [emplace_of_eq_some h]
    exact h
  · rw [emplace_tableLocks, Function.update_of_ne hut]
    exact h

/-- A mutex that has just been made is free, as is one that is not made yet. -/
@[simp] theorem emplace_lockOf (l : LockManager) (t : String) : (l.emplace t).2.lockOf = l.lockOf := by
  funext u
  cases h : l.tableLocks t with
  | some m => rw [emplace_of_eq_some h]
  | none =>
    by_cases hut : u = t
    · subst hut
      rw [lockOf_of_eq_none h, lockOf_of_eq_some (emplace_self l u)]
      unfold emplace
      split
      · rename_i m h'
        cases h.symm.trans h'
      · exact Function.update_self ..
    · cases hu : l.tableLocks u with
      | none =>
        rw [lockOf_of_eq_none hu, lockOf_of_eq_none]
        rw [emplace_tableLocks, Function.update_of_ne hut, hu]
      | some m =>
        rw [lockOf_of_eq_some hu, lockOf_of_eq_some (emplace_mono hu)]
        unfold emplace
        split
        · rfl
        · refine Function.update_of_ne ?_ ..
          exact Nat.ne_of_lt (l.made_of_mem hu)

end LockManager
end IceLog
