import Mathlib.Logic.Function.Basic

/- This file states when a kernel grants an advisory lock, and that the granted locks never conflict. -/

namespace AdvisoryLocks

variable {Holder Object : Type*}

/-- A holder has at most one lock, on one object, which is exclusive or shared. -/
abbrev Table (Holder Object : Type*) := Holder → Option (Object × Bool)

/-- Two holders of one object share it. -/
def Compatible (table : Table Holder Object) : Prop :=
  ∀ first second object firstMode secondMode, first ≠ second → table first = some (object, firstMode) →
    table second = some (object, secondMode) → firstMode = false ∧ secondMode = false

/-- A lock is granted when every other holder of the object shares it too. -/
def Grants (table : Table Holder Object) (holder : Holder) (object : Object) (mode : Bool) : Prop :=
  ∀ other otherMode, other ≠ holder → table other = some (object, otherMode) → mode = false ∧ otherMode = false

variable {table : Table Holder Object} {holder other : Holder} {object : Object} {mode otherMode : Bool}

theorem Compatible.grants (compatible : Compatible table) (held : table holder = some (object, mode)) :
    Grants table holder object mode := by
  intro other otherMode distinct taken
  exact compatible holder other object mode otherMode distinct.symm held taken

/-- A holder may take a granted lock, keep its own or give it up. -/
theorem Compatible.update [DecidableEq Holder] (compatible : Compatible table) (value : Option (Object × Bool))
    (granted : ∀ object mode, value = some (object, mode) → Grants table holder object mode) :
    Compatible (Function.update table holder value) := by
  intro first second object firstMode secondMode distinct left right
  rcases eq_or_ne first holder with rfl | otherFirst
  · rw [Function.update_self] at left
    rw [Function.update_of_ne distinct.symm] at right
    exact granted object firstMode left second secondMode distinct.symm right
  · rw [Function.update_of_ne otherFirst] at left
    rcases eq_or_ne second holder with rfl | otherSecond
    · rw [Function.update_self] at right
      exact (granted object secondMode right first firstMode otherFirst left).symm
    · rw [Function.update_of_ne otherSecond] at right
      exact compatible first second object firstMode secondMode distinct left right

/-- The holder of an exclusive lock is the only one. -/
theorem Compatible.exclusive_alone (compatible : Compatible table) (held : table holder = some (object, true))
    (taken : table other = some (object, otherMode)) : holder = other := by
  by_contra distinct
  exact Bool.noConfusion (compatible holder other object true otherMode distinct held taken).1

end AdvisoryLocks
