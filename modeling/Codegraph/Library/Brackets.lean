import Mathlib.Data.List.Basic
import Mathlib.Data.List.Induction

/- Sequences of brackets that carry labels, and which closing bracket matches an opening one. -/

namespace Brackets
open List

inductive Bracket (α : Type*) where
  | opening (label : α)
  | closing (label : α)
  deriving DecidableEq

/-- The sequences of the bracket language. -/
inductive Balanced {α : Type*} : List (Bracket α) → Prop
  | nil : Balanced []
  | pair {a b : α} {inner rest : List (Bracket α)} (within : Balanced inner) (behind : Balanced rest) :
      Balanced (.opening a :: (inner ++ .closing b :: rest))

section Matching

variable {α : Type*}

/-- The brackets between an opening bracket and the one that matches it are balanced. -/
def Matches (seq : List (Bracket α)) (a b : α) : Prop :=
  ∃ front inner back, seq = front ++ .opening a :: (inner ++ .closing b :: back) ∧ Balanced inner

def openings (seq : List (Bracket α)) : List α := seq.filterMap fun
  | .opening a => some a
  | .closing _ => none

/-- The labels of the brackets that are open, the last one first. A closing bracket without one has no result. -/
def pendingFrom : List α → List (Bracket α) → Option (List α)
  | stack, [] => some stack
  | stack, .opening a :: rest => pendingFrom (a :: stack) rest
  | [], .closing _ :: _ => none
  | _ :: stack, .closing _ :: rest => pendingFrom stack rest

def pending (seq : List (Bracket α)) : Option (List α) := pendingFrom [] seq

variable {seq front inner back : List (Bracket α)} {stack kept : List α} {a b c d : α}

@[simp] theorem openings_nil : openings ([] : List (Bracket α)) = [] := rfl

@[simp] theorem openings_append (first second : List (Bracket α)) :
    openings (first ++ second) = openings first ++ openings second := filterMap_append

@[simp] theorem openings_opening (a : α) (seq : List (Bracket α)) :
    openings (.opening a :: seq) = a :: openings seq := rfl

@[simp] theorem openings_closing (a : α) (seq : List (Bracket α)) : openings (.closing a :: seq) = openings seq := rfl

theorem mem_openings : a ∈ openings seq ↔ .opening a ∈ seq := by
  induction seq with
  | nil => simp
  | cons bracket seq ih => cases bracket <;> simp [ih]

@[simp] theorem pending_nil : pending ([] : List (Bracket α)) = some [] := rfl

theorem pendingFrom_append (stack : List α) (first second : List (Bracket α)) :
    pendingFrom stack (first ++ second) = (pendingFrom stack first).bind fun stack => pendingFrom stack second := by
  induction first generalizing stack with
  | nil => rfl
  | cons bracket first ih =>
    cases bracket with
    | opening a => exact ih (a :: stack)
    | closing b =>
      cases stack with
      | nil => rfl
      | cons a stack => exact ih stack

theorem pending_opening (seq : List (Bracket α)) (a : α) :
    pending (seq ++ [.opening a]) = (pending seq).map (a :: ·) := by
  rw [pending, pendingFrom_append, ← pending]
  cases pending seq <;> rfl

theorem pending_closing_iff {b : α} :
    pending (seq ++ [.closing b]) = some stack ↔ ∃ c, pending seq = some (c :: stack) := by
  rw [pending, pendingFrom_append, ← pending]
  cases pending seq with
  | none => simp
  | some below => cases below <;> simp [pendingFrom]

theorem Balanced.pendingFrom (balanced : Balanced seq) (stack : List α) : pendingFrom stack seq = some stack := by
  induction balanced generalizing stack with
  | nil => rfl
  | pair within behind inside outside =>
    rw [Brackets.pendingFrom, pendingFrom_append, inside, Option.bind_some]
    exact outside stack

theorem Balanced.append (first : Balanced front) (second : Balanced back) : Balanced (front ++ back) := by
  induction first with
  | nil => exact second
  | pair within behind inside outside => simpa using .pair within outside

/-- The bracket that was opened last stands before balanced brackets. -/
theorem pending_split (open' : pending seq = some (a :: stack)) :
    ∃ front inner, seq = front ++ .opening a :: inner ∧ Balanced inner ∧ pending front = some stack := by
  induction size : seq.length using Nat.strongRecOn generalizing seq a stack with
  | ind size ih =>
    rcases eq_nil_or_concat' seq with rfl | ⟨front, bracket, rfl⟩
    · cases open'
    · rw [length_append, length_singleton] at size
      cases bracket with
      | opening c =>
        rw [pending_opening] at open'
        obtain ⟨below, same, joined⟩ := Option.map_eq_some_iff.mp open'
        obtain ⟨rfl, rfl⟩ := cons.inj joined
        exact ⟨front, [], rfl, .nil, same⟩
      | closing b =>
        obtain ⟨c, same⟩ := pending_closing_iff.mp open'
        obtain ⟨outer, inner, rfl, within, rest⟩ := ih _ (by omega) same rfl
        obtain ⟨first, between, rfl, behind, last⟩ := ih outer.length (by simp at size; omega) rest rfl
        exact ⟨first, between ++ (.opening c :: (inner ++ .closing b :: [])), by
          simp, behind.append (.pair within .nil), last⟩

/-- A sequence is balanced exactly when nothing is pending behind it. -/
theorem balanced_iff : Balanced seq ↔ pending seq = some [] := by
  refine ⟨fun balanced => balanced.pendingFrom [], fun closed => ?_⟩
  induction size : seq.length using Nat.strongRecOn generalizing seq with
  | ind size ih =>
    rcases eq_nil_or_concat' seq with rfl | ⟨front, bracket, rfl⟩
    · exact .nil
    · rw [length_append, length_singleton] at size
      cases bracket with
      | opening c =>
        rw [pending_opening] at closed
        obtain ⟨below, -, joined⟩ := Option.map_eq_some_iff.mp closed
        cases joined
      | closing b =>
        obtain ⟨c, same⟩ := pending_closing_iff.mp closed
        obtain ⟨outer, inner, rfl, within, rest⟩ := pending_split same
        have first := ih outer.length (by simp at size; omega) rest rfl
        simpa using first.append (.pair within .nil)

theorem matches_opening : Matches (seq ++ [.opening c]) a b ↔ Matches seq a b := by
  constructor
  · rintro ⟨front, inner, back, same, within⟩
    rcases eq_nil_or_concat' back with rfl | ⟨back, last, rfl⟩
    · have split : seq ++ [.opening c] = (front ++ .opening a :: inner) ++ [.closing b] := by simp [same]
      have last := (append_inj' split rfl).2
      simp at last
    · have split : seq ++ [.opening c] = (front ++ .opening a :: (inner ++ .closing b :: back)) ++ [last] := by
        simp [same]
      exact ⟨front, inner, back, (append_inj' split rfl).1, within⟩
  · rintro ⟨front, inner, back, rfl, within⟩
    exact ⟨front, inner, back ++ [.opening c], by simp, within⟩

/-- A closing bracket matches the one that was opened last, and nothing else changes. -/
theorem matches_closing (open' : pending seq = some (c :: stack)) :
    Matches (seq ++ [.closing d]) a b ↔ Matches seq a b ∨ a = c ∧ b = d := by
  constructor
  · rintro ⟨front, inner, back, same, within⟩
    rcases eq_nil_or_concat' back with rfl | ⟨back, last, rfl⟩
    · have split : seq ++ [.closing d] = (front ++ .opening a :: inner) ++ [.closing b] := by simp [same]
      obtain ⟨rfl, last⟩ := append_inj' split rfl
      have top : pending (front ++ .opening a :: inner) = (pending front).map (a :: ·) := by
        rw [pending, pendingFrom_append, ← pending]
        cases pending front with
        | none => rfl
        | some below => exact within.pendingFrom (a :: below)
      rw [top] at open'
      obtain ⟨below, -, joined⟩ := Option.map_eq_some_iff.mp open'
      exact .inr ⟨(cons.inj joined).1, by simpa using last.symm⟩
    · have split : seq ++ [.closing d] = (front ++ .opening a :: (inner ++ .closing b :: back)) ++ [last] := by
        simp [same]
      exact .inl ⟨front, inner, back, (append_inj' split rfl).1, within⟩
  · rintro (⟨front, inner, back, rfl, within⟩ | ⟨rfl, rfl⟩)
    · exact ⟨front, inner, back ++ [.closing d], by simp, within⟩
    · obtain ⟨front, inner, rfl, within, -⟩ := pending_split open'
      exact ⟨front, inner, [], by simp, within⟩

theorem Matches.opened (matched : Matches seq a b) : a ∈ openings seq := by
  obtain ⟨front, inner, back, rfl, -⟩ := matched
  simp

theorem Matches.closed (matched : Matches seq a b) : .closing b ∈ seq := by
  obtain ⟨front, inner, back, rfl, -⟩ := matched
  simp

/-- What is open was opened, and is not matched if it was opened once. -/
theorem mem_pendingFrom (open' : pendingFrom stack seq = some kept) (member : a ∈ kept) :
    a ∈ stack ∨ a ∈ openings seq := by
  induction seq generalizing stack with
  | nil => exact .inl (Option.some.inj open' ▸ member)
  | cons bracket seq ih =>
    cases bracket with
    | opening c =>
      rcases ih open' with new | later
      · rcases mem_cons.mp new with rfl | old
        · exact .inr mem_cons_self
        · exact .inl old
      · exact .inr (mem_cons_of_mem _ later)
    | closing b =>
      cases stack with
      | nil => cases open'
      | cons c stack =>
        rcases ih open' with old | later
        · exact .inl (mem_cons_of_mem _ old)
        · exact .inr later

/-- A matched bracket is not pending. -/
theorem Matches.not_pending (matched : Matches seq a b) (once : (openings seq).Nodup)
    (open' : pending seq = some stack) : a ∉ stack := by
  obtain ⟨front, inner, back, rfl, within⟩ := matched
  intro member
  rw [pending, pendingFrom_append, ← pending] at open'
  cases before : pending front with
  | none => simp [before] at open'
  | some below =>
    rw [before, Option.bind_some, pendingFrom, pendingFrom_append, within.pendingFrom, Option.bind_some,
      pendingFrom] at open'
    simp only [openings_append, openings_opening, openings_closing] at once
    rcases mem_pendingFrom open' member with under | later
    · rcases mem_pendingFrom before under with none | early
      · cases none
      · exact (nodup_append.mp once).2.2 a early a mem_cons_self rfl
    · have second := (nodup_cons.mp (nodup_append.mp once).2.1).1
      exact second (mem_append_right _ later)

/-- What was opened is open or has its match. -/
theorem pending_or_matches (open' : pending seq = some stack) (member : a ∈ openings seq) :
    a ∈ stack ∨ ∃ b, Matches seq a b := by
  induction seq using reverseRecOn generalizing stack with
  | nil => cases member
  | append_singleton seq bracket ih =>
    cases bracket with
    | opening c =>
      rw [pending_opening] at open'
      obtain ⟨below, same, rfl⟩ := Option.map_eq_some_iff.mp open'
      rcases mem_append.mp (openings_append seq _ ▸ member) with old | new
      · rcases ih same old with still | ⟨b, matched⟩
        · exact .inl (mem_cons_of_mem _ still)
        · exact .inr ⟨b, matches_opening.mpr matched⟩
      · exact .inl (mem_singleton.mp new ▸ mem_cons_self)
    | closing d =>
      obtain ⟨c, same⟩ := pending_closing_iff.mp open'
      rcases ih same (by simpa using member) with still | ⟨b, matched⟩
      · rcases mem_cons.mp still with rfl | under
        · exact .inr ⟨d, (matches_closing same).mpr (.inr ⟨rfl, rfl⟩)⟩
        · exact .inl under
      · exact .inr ⟨b, (matches_closing same).mpr (.inl matched)⟩

/-- Everything opened has its match exactly when the brackets balance. -/
theorem balanced_iff_matched (once : (openings seq).Nodup) (open' : pending seq = some stack) :
    Balanced seq ↔ ∀ a ∈ openings seq, ∃ b, Matches seq a b := by
  rw [balanced_iff, open']
  constructor
  · intro none a member
    obtain rfl := Option.some.inj none
    exact (pending_or_matches open' member).resolve_left not_mem_nil
  · intro matched
    cases stack with
    | nil => rfl
    | cons a stack =>
      have opened : a ∈ openings seq := (mem_pendingFrom open' mem_cons_self).resolve_left not_mem_nil
      obtain ⟨b, matched⟩ := matched a opened
      exact absurd mem_cons_self (matched.not_pending once open')

end Matching

end Brackets
