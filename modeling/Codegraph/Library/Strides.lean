import Mathlib.Data.List.Basic

/- This file runs loops that go forward over the places of a list and gather what they find there. -/

namespace Strides

/-- One pass of a loop: what it finds, and the later place where the loop goes on. -/
structure Stride (β : Type*) (place : Nat) where
  next : Nat
  further : place < next
  found : List β := []

/-- A pass that finds nothing and goes on at the next place. -/
def Stride.one {β : Type*} (place : Nat) : Stride β place where
  next := place + 1
  further := Nat.lt_succ_self place

variable {β : Type*} {length : Nat} {stride : ∀ place, place < length → Option (Stride β place)} {place : Nat}

variable (length) (stride) in
/-- All that a loop finds, and the place where it stops. -/
def strides (place : Nat) : List β × Nat :=
  if inside : place < length then
    match stride place inside with
    | some taken => (taken.found ++ (strides taken.next).1, (strides taken.next).2)
    | none => ([], place)
  else ([], place)
termination_by length - place
decreasing_by all_goals exact Nat.sub_lt_sub_left inside taken.further

theorem le_strides (place : Nat) : place ≤ (strides length stride place).2 := by
  fun_induction strides length stride place with
  | case1 place inside taken goes ih => exact Nat.le_trans (Nat.le_of_lt taken.further) ih
  | case2 => exact Nat.le_refl _
  | case3 => exact Nat.le_refl _

/-- What a loop finds is found by one of its passes, at a place that has what every pass keeps. -/
theorem mem_strides_of (Kept : Nat → Prop) {item : β} (first : Kept place)
    (keeps : ∀ here inside taken, Kept here → stride here inside = some taken → Kept taken.next)
    (member : item ∈ (strides length stride place).1) :
    ∃ here inside taken, Kept here ∧ stride here inside = some taken ∧ item ∈ taken.found := by
  fun_induction strides length stride place with
  | case1 place inside taken goes ih =>
    rcases List.mem_append.mp member with here | later
    · exact ⟨place, inside, taken, first, goes, here⟩
    · exact ih (keeps place inside taken first goes) later
  | case2 => cases member
  | case3 => cases member

theorem mem_strides {item : β} (member : item ∈ (strides length stride place).1) :
    ∃ here inside taken, place ≤ here ∧ stride here inside = some taken ∧ item ∈ taken.found :=
  mem_strides_of (place ≤ ·) (Nat.le_refl place)
    (fun _ _ taken behind _ => Nat.le_trans behind (Nat.le_of_lt taken.further)) member

/-- A loop that makes a pass goes past its first place. -/
theorem lt_strides (inside : place < length) {taken : Stride β place} (goes : stride place inside = some taken) :
    place < (strides length stride place).2 := by
  rw [strides, dif_pos inside, goes]
  exact Nat.lt_of_lt_of_le taken.further (le_strides _)

end Strides
