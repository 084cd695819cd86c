import Codegraph.Library.EditScripts

/- This file holds the bounded edit distance of the fuzzy search. -/

namespace Codegraph.Query
open EditScripts List

/-- The cells of one row follow from the cell to the left, the cell above, and the cell between them. -/
def fillCells (letter : Char) : Nat → Nat → List Char → List Nat → List Nat
  | left, diagonal, target :: targets, above :: rest =>
    let cost := if letter ≠ target then 1 else 0
    let insertion := left + 1
    let deletion := above + 1
    let substitution := diagonal + cost
    let cell := min (min insertion deletion) substitution
    cell :: fillCells letter cell above targets rest
  | _, _, _, _ => []

def nextRow (i : Nat) (letter : Char) (b : List Char) (prev : List Nat) : List Nat :=
  i :: fillCells letter i (prev.headD 0) b prev.tail

def rowMin (row : List Nat) : Nat := row.tail.foldl min (row.headD 0)

/-- The rows are filled one after another until every cell of one row exceeds the bound. -/
def fillRows (maxDist : Nat) (b : List Char) : Nat → List Char → List Nat → Option (List Nat)
  | _, [], prev => some prev
  | i, letter :: rest, prev =>
    let cur := nextRow i letter b prev
    if rowMin cur > maxDist then none else fillRows maxDist b (i + 1) rest cur

def absDiff (al bl : Nat) : Nat := if al < bl then bl - al else al - bl

def boundedEditDistance (a b : String) (maxDist : Nat) : Nat :=
  if a = b then 0
  else
    let a := a.toList
    let b := b.toList
    if absDiff a.length b.length > maxDist then maxDist + 1
    else if a.length = 0 then b.length
    else if b.length = 0 then a.length
    else
      match fillRows maxDist b 1 a (List.range (b.length + 1)) with
      | none => maxDist + 1
      | some prev => prev.getLastD 0

/-- The distances of one text to the longer and longer prefixes of another, past a first prefix. -/
noncomputable def prefixDistances (first : List Char) : List Char → List Char → List Nat
  | _, [] => []
  | front, letter :: back =>
    levenshtein first (front ++ [letter]) :: prefixDistances first (front ++ [letter]) back

/-- A row holds the distances of what was read of the first text to every prefix of the second. -/
noncomputable def distanceRow (first b : List Char) : List Nat := levenshtein first [] :: prefixDistances first [] b

section Rows

variable {first front back b : List Char} {letter : Char} {maxDist : Nat}

theorem fillCells_eq (first front back : List Char) (letter : Char) :
    fillCells letter (levenshtein (first ++ [letter]) front) (levenshtein first front) back
      (prefixDistances first front back) = prefixDistances (first ++ [letter]) front back := by
  induction back generalizing front with
  | nil => rfl
  | cons target back ih =>
    have cell := levenshtein_snoc first front letter target
    have cost : (if letter ≠ target then 1 else 0) = if letter = target then 0 else 1 := by
      by_cases same : letter = target <;> simp [same]
    rw [prefixDistances, fillCells, prefixDistances, cost, ← cell, ih]

theorem nextRow_eq (first b : List Char) (letter : Char) :
    nextRow (first.length + 1) letter b (distanceRow first b) = distanceRow (first ++ [letter]) b := by
  have left : levenshtein (first ++ [letter]) [] = first.length + 1 := by simp [levenshtein_nil_right]
  have cells := fillCells_eq first [] b letter
  rw [left] at cells
  rw [nextRow, distanceRow, distanceRow, left, headD_cons, tail_cons, cells]

/-- The first row counts the characters that the empty text lacks. -/
theorem firstRow_eq (b : List Char) : List.range (b.length + 1) = distanceRow [] b := by
  have counts (front back : List Char) :
      prefixDistances [] front back = (range back.length).map (front.length + 1 + ·) := by
    induction back generalizing front with
    | nil => rfl
    | cons letter back ih =>
      rw [prefixDistances, ih, length_cons, range_succ_eq_map, map_cons, map_map,
        levenshtein_nil_left]
      simp [Function.comp_def, Nat.add_comm, Nat.add_left_comm]
  rw [distanceRow, counts, levenshtein_nil_left, range_succ_eq_map]
  simp [Nat.add_comm]

theorem distanceRow_last (first b : List Char) : (distanceRow first b).getLastD 0 = levenshtein first b := by
  have last (front back : List Char) :
      (levenshtein first front :: prefixDistances first front back).getLastD 0 =
        levenshtein first (front ++ back) := by
    induction back generalizing front with
    | nil => simp [prefixDistances]
    | cons letter back ih =>
      have later := ih (front ++ [letter])
      rw [append_assoc, singleton_append] at later
      simpa [prefixDistances] using later
  exact last [] b

/-- Every prefix of the second text has its cell. -/
theorem mem_distanceRow (first front back : List Char) :
    levenshtein first front ∈ distanceRow first (front ++ back) := by
  have member (seen front : List Char) : levenshtein first (seen ++ front) ∈
      levenshtein first seen :: prefixDistances first seen (front ++ back) := by
    induction front generalizing seen with
    | nil => simp
    | cons letter front ih =>
      have later := ih (seen ++ [letter])
      rw [append_assoc, singleton_append] at later
      exact mem_cons_of_mem _ later
  simpa [distanceRow] using member [] front

theorem rowMin_le {row : List Nat} {cell : Nat} (member : cell ∈ row) : rowMin row ≤ cell := by
  have below (cells : List Nat) (least : Nat) : cells.foldl min least ≤ least ∧
      ∀ cell ∈ cells, cells.foldl min least ≤ cell := by
    induction cells generalizing least with
    | nil => simp
    | cons head rest ih =>
      obtain ⟨start, others⟩ := ih (min least head)
      refine ⟨start.trans (min_le_left _ _), ?_⟩
      intro cell member
      rcases mem_cons.mp member with rfl | later
      · exact start.trans (min_le_right _ _)
      · exact others cell later
  rcases row with _ | ⟨head, rest⟩
  · cases member
  · rcases mem_cons.mp member with rfl | later
    · exact (below rest cell).1
    · exact (below rest head).2 cell later

/-- A row beyond the bound keeps every continuation of the first text beyond it. -/
theorem levenshtein_gt_of_rowMin (more : List Char) (exceeds : rowMin (distanceRow first b) > maxDist) :
    maxDist < levenshtein (first ++ more) b := by
  obtain ⟨front, back, rfl, below⟩ := levenshtein_prefix first more b
  have cell := rowMin_le (mem_distanceRow first front back)
  omega

/-- The rows end at the distance, unless the distance exceeds the bound. -/
theorem fillRows_distanceRow (maxDist : Nat) (b first rest : List Char) :
    match fillRows maxDist b (first.length + 1) rest (distanceRow first b) with
    | none => maxDist < levenshtein (first ++ rest) b
    | some prev => prev = distanceRow (first ++ rest) b := by
  induction rest generalizing first with
  | nil => simp [fillRows]
  | cons letter rest ih =>
    rw [fillRows, nextRow_eq]
    by_cases exceeds : rowMin (distanceRow (first ++ [letter]) b) > maxDist
    · have beyond := levenshtein_gt_of_rowMin rest exceeds
      rw [append_assoc, singleton_append] at beyond
      simpa [exceeds] using beyond
    · have later := ih (first ++ [letter])
      rw [append_assoc, singleton_append, length_append, length_singleton] at later
      simpa [exceeds] using later

end Rows

/-- The bounded distance meets the bound exactly when the Levenshtein distance does, and then they are equal. -/
theorem bounded_distance_exact (a b : String) (maxDist : Nat) :
    (boundedEditDistance a b maxDist ≤ maxDist ↔ levenshtein a.toList b.toList ≤ maxDist) ∧
      (levenshtein a.toList b.toList ≤ maxDist →
        boundedEditDistance a b maxDist = levenshtein a.toList b.toList) := by
  have exact_or_beyond (answer distance : Nat) (settled : answer = distance ∨ maxDist < answer ∧ maxDist < distance) :
      (answer ≤ maxDist ↔ distance ≤ maxDist) ∧ (distance ≤ maxDist → answer = distance) := by
    omega
  apply exact_or_beyond
  have gap := levenshtein_length_gap a.toList b.toList
  unfold boundedEditDistance absDiff
  by_cases same : a = b
  · simp [same, levenshtein_self]
  rw [if_neg same]
  by_cases far : (if a.toList.length < b.toList.length then b.toList.length - a.toList.length
      else a.toList.length - b.toList.length) > maxDist
  · rw [if_pos far]
    split at far <;> omega
  rw [if_neg far]
  by_cases noFirst : a.toList.length = 0
  · rw [if_pos noFirst, length_eq_zero_iff.mp noFirst, levenshtein_nil_left]
    exact .inl rfl
  rw [if_neg noFirst]
  by_cases noSecond : b.toList.length = 0
  · rw [if_pos noSecond, length_eq_zero_iff.mp noSecond, levenshtein_nil_right]
    exact .inl rfl
  rw [if_neg noSecond, firstRow_eq]
  have rows := fillRows_distanceRow maxDist b.toList [] a.toList
  rw [nil_append, length_nil, Nat.zero_add] at rows
  cases filled : fillRows maxDist b.toList 1 a.toList (distanceRow [] b.toList) with
  | none =>
    rw [filled] at rows
    exact .inr ⟨Nat.lt_succ_self _, rows⟩
  | some prev =>
    rw [filled] at rows
    dsimp only at rows ⊢
    rw [rows, distanceRow_last]
    exact .inl rfl

example : boundedEditDistance "kitten" "sitting" 3 = 3 ∧ boundedEditDistance "kitten" "sitting" 1 = 2 := by decide

end Codegraph.Query
