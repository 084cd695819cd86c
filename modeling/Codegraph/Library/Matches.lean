import Mathlib.Data.List.Nodup
import Mathlib.Data.List.Infix

/- This file finds a pattern in a list, and it lists the matches that a scan from left to right finds. -/

namespace Matches
open List

variable {α : Type} {pattern text first second body : List α} {mark : α} {offset place start : Nat}

/-- A place with the pattern leaves room for it. -/
theorem fits (given : pattern ≠ []) (stands : pattern <+: text.drop place) : place + pattern.length ≤ text.length := by
  have short := stands.length_le
  have some_ := length_pos_iff.mpr given
  rw [length_drop] at short
  omega

variable [DecidableEq α]

/-- The offset of the first place where the pattern stands. -/
def find (pattern : List α) : List α → Option Nat
  | [] => if pattern = [] then some 0 else none
  | item :: rest => if pattern <+: item :: rest then some 0 else (find pattern rest).map (· + 1)

theorem find_nil : find pattern ([] : List α) = if pattern = [] then some 0 else none := rfl

theorem find_cons {item : α} {rest : List α} :
    find pattern (item :: rest) = if pattern <+: item :: rest then some 0 else (find pattern rest).map (· + 1) := rfl

theorem find_some (found : find pattern text = some offset) : pattern <+: text.drop offset := by
  induction text generalizing offset with
  | nil =>
    rw [find_nil] at found
    split at found
    · rename_i empty
      rw [empty]
      exact nil_prefix
    · cases found
  | cons item rest ih =>
    rw [find_cons] at found
    split at found
    · rename_i here
      cases found
      exact here
    · obtain ⟨later, foundLater, rfl⟩ := Option.map_eq_some_iff.mp found
      exact ih foundLater

/-- No place before the first one fits. -/
theorem find_first (found : find pattern text = some offset) (before : place < offset) :
    ¬ pattern <+: text.drop place := by
  induction text generalizing offset place with
  | nil =>
    rw [find_nil] at found
    split at found <;> cases found
    omega
  | cons item rest ih =>
    rw [find_cons] at found
    split at found
    · cases found
      omega
    · rename_i missing
      obtain ⟨later, foundLater, rfl⟩ := Option.map_eq_some_iff.mp found
      cases place with
      | zero => exact missing
      | succ place => exact ih foundLater (by omega)

/-- What is found lies inside the text. -/
theorem fits_of_find (found : find pattern text = some offset) : offset + pattern.length ≤ text.length := by
  have short := (find_some found).length_le
  rw [length_drop] at short
  by_cases empty : pattern = []
  · subst empty
    cases text with
    | nil =>
      cases found
      simp
    | cons item rest =>
      rw [find_cons, if_pos nil_prefix] at found
      cases found
      simp
  · have some_ := length_pos_iff.mpr empty
    omega

theorem find_none (missing : find pattern text = none) : ¬ pattern <+: text.drop place := by
  induction text generalizing place with
  | nil =>
    rw [find_nil] at missing
    split at missing
    · cases missing
    · rename_i given
      simpa using given
  | cons item rest ih =>
    rw [find_cons] at missing
    split at missing
    · cases missing
    · rename_i absent
      cases place with
      | zero => exact absent
      | succ place => exact ih (Option.map_eq_none_iff.mp missing)

theorem find_of_prefix (starts : pattern <+: text) : find pattern text = some 0 := by
  cases text with
  | nil => rw [find_nil, if_pos (prefix_nil.mp starts)]
  | cons item rest => rw [find_cons, if_pos starts]

/-- The pattern stands nowhere in the text before its first place. -/
theorem find_take (given : pattern ≠ []) (found : find pattern text = some offset) (before : start ≤ offset) :
    ¬ pattern <:+: text.take start := by
  rintro ⟨front, back, shape⟩
  have some_ := length_pos_iff.mpr given
  have size : front.length < start := by
    have sizes := congrArg length shape
    simp only [length_append, length_take] at sizes
    omega
  have whole : text = front ++ (pattern ++ (back ++ text.drop start)) := by
    conv_lhs => rw [← take_append_drop start text, ← shape]
    simp
  have stands : pattern <+: text.drop front.length := by
    conv_rhs => rw [whole, drop_left]
    exact prefix_append _ _
  exact find_first found (by omega) stands

/-- Nothing is found exactly when the pattern stands nowhere. -/
theorem find_eq_none_iff : find pattern text = none ↔ ¬ pattern <:+: text := by
  constructor
  · rintro missing ⟨front, back, rfl⟩
    have nowhere : ¬ pattern <+: (front ++ pattern ++ back).drop front.length := find_none missing
    rw [append_assoc, drop_left] at nowhere
    exact nowhere (prefix_append pattern back)
  · intro absent
    cases found : find pattern text with
    | none => rfl
    | some offset => exact absurd ((find_some found).isInfix.trans (drop_suffix offset text).isInfix) absent

/-- What is found in the front of a text is found first. -/
theorem find_append_left (found : find pattern first = some offset) : find pattern (first ++ second) = some offset := by
  induction first generalizing offset with
  | nil =>
    rw [find_nil] at found
    split at found
    · rename_i empty
      rw [← found, empty]
      exact find_of_prefix nil_prefix
    · cases found
  | cons item rest ih =>
    rw [find_cons] at found
    rw [cons_append, find_cons]
    split at found
    · rename_i here
      have there : pattern <+: item :: (rest ++ second) := here.trans (prefix_append (item :: rest) second)
      rw [if_pos there, found]
    · rename_i other
      obtain ⟨later, foundLater, rfl⟩ := Option.map_eq_some_iff.mp found
      have short := fits_of_find foundLater
      have apart : ¬ pattern <+: item :: (rest ++ second) := by
        intro starts
        refine other (prefix_of_prefix_length_le starts (prefix_append (item :: rest) second) ?_)
        rw [length_cons]
        omega
      rw [if_neg apart, ih foundLater, Option.map_some]

/-- A front without the pattern is skipped when the text behind it begins with an item that stands first in the pattern
and nowhere else in it. -/
theorem find_append_right (sharp : mark ∉ body) (absent : ¬ mark :: body <:+: first) :
    find (mark :: body) (first ++ mark :: second) = (find (mark :: body) (mark :: second)).map (first.length + ·) := by
  induction first with
  | nil => simp
  | cons item rest ih =>
    rw [infix_cons_iff, not_or] at absent
    have apart : ¬ mark :: body <+: item :: (rest ++ mark :: second) := by
      intro starts
      obtain ⟨rfl, below⟩ := cons_prefix_cons.mp starts
      rcases prefix_or_prefix_of_prefix below (prefix_append rest (mark :: second))
        with inside | ⟨later, shape⟩
      · exact absent.1 (cons_prefix_cons.mpr ⟨rfl, inside⟩)
      · subst shape
        have next := (prefix_append_right_inj rest).mp below
        cases later with
        | nil => exact absent.1 (by simp)
        | cons head tail =>
          obtain ⟨rfl, -⟩ := cons_prefix_cons.mp next
          exact sharp (by simp)
    rw [cons_append, find_cons, if_neg apart, ih absent.2, Option.map_map]
    congr 1
    funext offset
    simp only [Function.comp_apply, length_cons]
    omega

/-- A match inside the rest of a text moves its start on. -/
theorem find_drop_fits (given : pattern ≠ []) (found : find pattern (text.drop start) = some offset) :
    start + offset + pattern.length ≤ text.length := by
  have stands := find_some found
  rw [drop_drop] at stands
  exact fits given stands

/-- The matches from a start on, none of which overlaps the one before. -/
def matchesFrom (pattern text : List α) (given : pattern ≠ []) (start : Nat) : List Nat :=
  match _ : find pattern (text.drop start) with
  | none => []
  | some offset => (start + offset) :: matchesFrom pattern text given (start + offset + pattern.length)
termination_by text.length - start
decreasing_by
  have room := find_drop_fits given ‹find pattern (text.drop start) = some offset›
  have some_ := List.length_pos_iff.mpr given
  omega

variable {given : pattern ≠ []}

theorem matchesFrom_none (missing : find pattern (text.drop start) = none) :
    matchesFrom pattern text given start = [] := by
  rw [matchesFrom]
  split
  · rfl
  · rename_i offset found
    rw [missing] at found
    cases found

theorem matchesFrom_some (found : find pattern (text.drop start) = some offset) : matchesFrom pattern text given start =
    (start + offset) :: matchesFrom pattern text given (start + offset + pattern.length) := by
  rw [matchesFrom]
  split
  · rename_i missing
    rw [missing] at found
    cases found
  · rename_i other found'
    rw [found] at found'
    cases found'
    rfl

/-- Every match stands in the text, at the start or after it. -/
theorem of_mem_matchesFrom (member : place ∈ matchesFrom pattern text given start) :
    start ≤ place ∧ pattern <+: text.drop place := by
  induction start using matchesFrom.induct pattern text given with
  | case1 start missing =>
    rw [matchesFrom_none missing] at member
    cases member
  | case2 start offset found ih =>
    rw [matchesFrom_some found] at member
    rcases mem_cons.mp member with rfl | later
    · have stands := find_some found
      rw [drop_drop] at stands
      exact ⟨by omega, stands⟩
    · obtain ⟨behind, stands⟩ := ih later
      exact ⟨by omega, stands⟩

theorem matchesFrom_nodup : (matchesFrom pattern text given start).Nodup := by
  induction start using matchesFrom.induct pattern text given with
  | case1 start missing =>
    rw [matchesFrom_none missing]
    exact nodup_nil
  | case2 start offset found ih =>
    rw [matchesFrom_some found]
    refine nodup_cons.mpr ⟨?_, ih⟩
    intro later
    have behind := (of_mem_matchesFrom later).1
    have some_ := length_pos_iff.mpr given
    omega

end Matches
