import Mathlib.Data.List.Infix

/- This file finds whole parts in a text that joins them with a separator. -/

namespace SeparatedText
open List

variable {α : Type} {separator : α} {part last text : List α} {parts : List (List α)}

/-- The texts before each separator, from the shortest on. -/
def heads [DecidableEq α] (separator : α) : List α → List (List α)
  | [] => []
  | first :: rest => (if first = separator then [[]] else []) ++ (heads separator rest).map (first :: ·)

theorem heads_append [DecidableEq α] (first second : List α) :
    heads separator (first ++ second) = heads separator first ++ (heads separator second).map (first ++ ·) := by
  induction first with
  | nil => simp [heads]
  | cons head tail ih =>
    simp only [cons_append, heads, ih, map_append, map_map, append_assoc]
    rfl

theorem heads_free [DecidableEq α] (free : separator ∉ text) : heads separator text = [] := by
  induction text with
  | nil => rfl
  | cons head tail ih =>
    simp only [mem_cons, not_or] at free
    rw [heads, if_neg (Ne.symm free.1), ih free.2]
    rfl

/-- One more part adds the whole text before it. -/
theorem heads_extend [DecidableEq α] (free : separator ∉ last) :
    heads separator (text ++ separator :: last) = heads separator text ++ [text] := by
  rw [heads_append, heads, if_pos rfl, heads_free free]
  simp

/-- The parts of a text, each behind its separator, and the last one behind it too. -/
def framed (separator : α) : List (List α) → List α → List α
  | [], last => separator :: last
  | part :: rest, last => separator :: (part ++ framed separator rest last)

theorem framed_eq (parts : List (List α)) (last : List α) :
    separator :: [separator].intercalate (parts ++ [last]) = framed separator parts last := by
  induction parts with
  | nil => simp [framed, intercalate]
  | cons part rest ih =>
    cases rest with
    | nil => simp [framed, intercalate]
    | cons next later =>
      rw [framed, ← ih]
      simp [intercalate_cons_cons]

/-- A text that begins with the separator does not begin inside a part. -/
theorem enclosed_skip {body : List α} (free : separator ∉ part) :
    separator :: body <:+: part ++ text ↔ separator :: body <:+: text := by
  induction part with
  | nil => rfl
  | cons head tail ih =>
    simp only [mem_cons, not_or] at free
    rw [cons_append, infix_cons_iff, ih free.2]
    constructor
    · rintro (starts | later)
      · exact (free.1 (cons_prefix_cons.mp starts).1).elim
      · exact later
    · exact .inr

/-- Two parts before their separators are equal as soon as one begins like the other. -/
theorem starts_part {other : List α} (free : separator ∉ part) (otherFree : separator ∉ other) :
    part ++ [separator] <+: other ++ separator :: text ↔ part = other := by
  constructor
  · intro starts
    induction part generalizing other with
    | nil =>
      cases other with
      | nil => rfl
      | cons head tail =>
        have same := (cons_prefix_cons.mp starts).1
        exact (otherFree (same ▸ mem_cons_self)).elim
    | cons head tail ih =>
      simp only [mem_cons, not_or] at free
      cases other with
      | nil => exact (free.1 (cons_prefix_cons.mp starts).1.symm).elim
      | cons otherHead otherTail =>
        simp only [mem_cons, not_or] at otherFree
        obtain ⟨same, rest⟩ := cons_prefix_cons.mp starts
        rw [same, ih free.2 otherFree.2 rest]
  · rintro rfl
    exact ⟨text, by simp⟩

theorem framed_cons (parts : List (List α)) (last : List α) :
    ∃ rest, framed separator parts last = separator :: rest := by
  cases parts with
  | nil => exact ⟨_, rfl⟩
  | cons part rest => exact ⟨_, rfl⟩

/-- A part between two separators is one of the parts before the last. -/
theorem enclosed_iff (free : separator ∉ part) (partsFree : ∀ other ∈ parts, separator ∉ other)
    (lastFree : separator ∉ last) :
    separator :: (part ++ [separator]) <:+: framed separator parts last ↔ part ∈ parts := by
  induction parts with
  | nil =>
    have none : ¬ separator :: (part ++ [separator]) <:+: framed separator [] last := by
      intro enclosed
      rw [framed, infix_cons_iff] at enclosed
      have member : separator ∈ last := by
        rcases enclosed with starts | later
        · exact (cons_prefix_cons.mp starts).2.subset (mem_append_right _ mem_cons_self)
        · exact later.subset mem_cons_self
      exact lastFree member
    simpa using none
  | cons other rest ih =>
    obtain ⟨later, shape⟩ := @framed_cons _ separator rest last
    have otherFree := partsFree other mem_cons_self
    have restFree : ∀ next ∈ rest, separator ∉ next :=
      fun next member => partsFree next (mem_cons_of_mem _ member)
    rw [framed, infix_cons_iff, enclosed_skip otherFree, ih restFree, cons_prefix_cons, shape,
      starts_part free otherFree, mem_cons]
    simp

/-- The parts between separators hold none, and they hold only what the text does. -/
theorem mem_splitOn [DecidableEq α] (member : part ∈ text.splitOn separator) : separator ∉ part ∧ part ⊆ text := by
  induction text generalizing part with
  | nil =>
    rw [splitOn_nil, mem_singleton] at member
    rw [member]
    exact ⟨not_mem_nil, nil_subset _⟩
  | cons head tail ih =>
    rw [splitOn_cons_eq_if_modifyHead] at member
    split at member
    · rcases mem_cons.mp member with rfl | later
      · exact ⟨not_mem_nil, nil_subset _⟩
      · exact ⟨(ih later).1, subset_cons_of_subset _ (ih later).2⟩
    · rename_i other
      cases parts : tail.splitOn separator with
      | nil => exact absurd parts (splitOn_ne_nil _ _)
      | cons first rest =>
        rw [parts, modifyHead_cons] at member
        rcases mem_cons.mp member with rfl | later
        · have here := ih (parts ▸ mem_cons_self)
          refine ⟨fun listed => ?_, cons_subset_cons _ here.2⟩
          rcases mem_cons.mp listed with same | inside
          · exact other (by simp [same])
          · exact here.1 inside
        · have there := ih (parts ▸ mem_cons_of_mem _ later)
          exact ⟨there.1, subset_cons_of_subset _ there.2⟩

end SeparatedText
