import Mathlib.Data.List.Infix
import Mathlib.Order.Lattice

/- This file finds the lists that start with a given list as a range of the lexicographic order. -/

namespace LexRanges

variable {α : Type*} [LinearOrder α] {front text : List α} {last next x : α}

theorem lex_singleton_iff {rest : List α} : List.Lex (· < ·) (x :: rest) [next] ↔ x < next := by
  rw [List.cons_lex_cons_iff]
  exact or_iff_left fun same => List.not_lex_nil same.2

/-- The lists between a list and its successor in the last place are the ones that extend it. -/
theorem between_iff (follows : ∀ value, value < next ↔ value ≤ last) :
    ¬ List.Lex (· < ·) text (front ++ [last]) ∧ List.Lex (· < ·) text (front ++ [next]) ↔
      front ++ [last] <+: text := by
  induction front generalizing text with
  | nil =>
    cases text with
    | nil => exact iff_of_false (fun between => between.1 List.Lex.nil) (by simp)
    | cons x rest =>
      rw [List.nil_append, List.nil_append, lex_singleton_iff, lex_singleton_iff, follows, not_lt,
        and_comm, ← le_antisymm_iff, List.cons_prefix_cons, and_iff_left (List.nil_prefix), eq_comm]
  | cons y front ih =>
    cases text with
    | nil => exact iff_of_false (fun between => between.1 List.Lex.nil) (by simp)
    | cons x rest =>
      rw [List.cons_append, List.cons_append, List.cons_lex_cons_iff, List.cons_lex_cons_iff,
        List.cons_prefix_cons, ← ih]
      rcases lt_trichotomy x y with less | rfl | more
      · exact iff_of_false (fun between => between.1 (.inl less)) (fun same => less.ne same.1.symm)
      · rw [or_iff_right (lt_irrefl x), or_iff_right (lt_irrefl x), and_iff_right rfl, and_iff_right rfl,
          and_iff_right rfl]
      · refine iff_of_false (fun between => ?_) fun same => more.ne same.1
        rcases between.2 with less | ⟨same, -⟩
        · exact lt_asymm less more
        · exact more.ne same.symm

end LexRanges
