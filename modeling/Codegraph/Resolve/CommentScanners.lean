import Codegraph.Library.Scanning

/- This file scans the comments of each language character by character and keeps the string literals. -/

namespace Codegraph.Resolve.StripComments
open Scanning List

section Loops

/-- A line ends before its line break. -/
def lineStep (_ : Unit) (c : Char) (_ : Option Char) : Advance Unit := if c = '\n' then .stop else .one ()

def lineLength (rest : List Char) : Nat := advance lineStep () rest

def blockStep (_ : Unit) (c : Char) (next : Option Char) : Advance Unit :=
  if c = '*' ∧ next = some '/' then .stop else .one ()

/-- A block comment ends behind its closing mark, or else with the text. -/
def blockLength (rest : List Char) : Nat :=
  let length := advance blockStep () rest
  if length < rest.length then length + 2 else length

/-- An escape hides the next character. Only a multiline literal goes on behind a line break. -/
def literalStep (quote : Char) (multiline : Bool) (_ : Unit) (c : Char) (next : Option Char) : Advance Unit :=
  if c = quote then .stop
  else if c = '\\' ∧ next.isSome then .two ()
  else if !multiline ∧ c = '\n' then .stop
  else .one ()

/-- A literal ends behind its closing quote when it has one. -/
def literalLength (quote : Char) (multiline : Bool) (rest : List Char) : Nat :=
  let length := advance (literalStep quote multiline) () rest
  if rest[length]? = some quote then length + 1 else length

def rawStep (_ : Unit) (c : Char) (_ : Option Char) : Advance Unit := if c = '`' then .stop else .one ()

def rawLength (rest : List Char) : Nat :=
  let length := advance rawStep () rest
  if length < rest.length then length + 1 else length

def tripleLength (quote : Char) : List Char → Nat
  | [] => 0
  | [_] => 1
  | c :: d :: rest =>
    if c = '\\' then tripleLength quote rest + 2
    else if c = quote ∧ d = quote ∧ rest.head? = some quote then 3
    else tripleLength quote (d :: rest) + 1

/-- Block comments that nest end where the outermost one does. -/
def nestedLength : Nat → List Char → Nat
  | 0, _ => 0
  | _ + 1, [] => 0
  | _ + 1, [_] => 1
  | depth + 1, c :: d :: rest =>
    if c = '/' ∧ d = '*' then nestedLength (depth + 2) rest + 2
    else if c = '*' ∧ d = '/' then nestedLength depth rest + 2
    else nestedLength (depth + 1) (d :: rest) + 1

/-- A block between `=begin` and `=end` reaches to the end of the line of its end. -/
def beginLength : List Char → Nat
  | [] => 0
  | c :: rest =>
    let line := rest.dropWhile fun blank => blank = ' ' || blank = '\t'
    if c = '\n' ∧ "=end".toList <+: line then
      1 + (rest.length - line.length) + 4 + lineLength (line.drop 4)
    else beginLength rest + 1

end Loops

section Readers

def pythonReader : Reader Unit := fun _ c rest =>
  if (c = '"' ∨ c = '\'') ∧ [c, c] <+: rest then .blanked (2 + tripleLength c (rest.drop 2)) c rest ()
  else if c = '"' ∨ c = '\'' then .keep (literalLength c false rest) c rest ()
  else if c = '#' then .blanked (lineLength rest) c rest ()
  else .keep 0 c rest ()

/-- The state tells whether only blanks stand before the character on its line. -/
def rubyReader : Reader Bool := fun atLineStart c rest =>
  if atLineStart ∧ c = '=' ∧ "=begin".toList <+: c :: rest then
    let length := 5 + beginLength (rest.drop 5)
    .blanked length c rest (decide ((c :: rest.take length).getLast? = some '\n'))
  else if c = '"' ∨ c = '\'' then .keep (literalLength c false rest) c rest false
  else if c = '#' then .blanked (lineLength rest) c rest false
  else if c = '\n' then .keep 0 c rest true
  else if c = ' ' ∨ c = '\t' then .keep 0 c rest atLineStart
  else .keep 0 c rest false

def cStyleReader (allowSingleQuoteStrings : Bool) : Reader Unit := fun _ c rest =>
  if c = '/' ∧ rest.head? = some '*' then .blanked (1 + blockLength rest.tail) c rest ()
  else if c = '/' ∧ rest.head? = some '/' then .blanked (lineLength rest) c rest ()
  else if c = '"' ∨ allowSingleQuoteStrings ∧ c = '\'' ∨ c = '`' then
    .keep (literalLength c (c = '`') rest) c rest ()
  else .keep 0 c rest ()

def phpReader : Reader Unit := fun _ c rest =>
  if c = '/' ∧ rest.head? = some '*' then .blanked (1 + blockLength rest.tail) c rest ()
  else if c = '/' ∧ rest.head? = some '/' then .blanked (lineLength rest) c rest ()
  else if c = '#' then .blanked (lineLength rest) c rest ()
  else if c = '"' ∨ c = '\'' ∨ c = '`' then .keep (literalLength c false rest) c rest ()
  else .keep 0 c rest ()

def goReader : Reader Unit := fun _ c rest =>
  if c = '/' ∧ rest.head? = some '*' then .blanked (1 + blockLength rest.tail) c rest ()
  else if c = '/' ∧ rest.head? = some '/' then .blanked (lineLength rest) c rest ()
  else if c = '`' then .keep (rawLength rest) c rest ()
  else if c = '"' then .keep (literalLength '"' false rest) c rest ()
  else if c = '\'' then .keep (literalLength '\'' false rest) c rest ()
  else .keep 0 c rest ()

def rustReader : Reader Unit := fun _ c rest =>
  if c = '/' ∧ rest.head? = some '*' then .blanked (1 + nestedLength 1 rest.tail) c rest ()
  else if c = '/' ∧ rest.head? = some '/' then .blanked (lineLength rest) c rest ()
  else if c = '"' then .keep (literalLength '"' true rest) c rest ()
  else if c = '\'' then .keep (literalLength '\'' false rest) c rest ()
  else .keep 0 c rest ()

def stripPython (src : List Char) : List Char := scan pythonReader () src

def stripRuby (src : List Char) : List Char := scan rubyReader true src

def stripCStyleChars (src : List Char) (allowSingleQuoteStrings : Bool) : List Char :=
  scan (cStyleReader allowSingleQuoteStrings) () src

def stripPhp (src : List Char) : List Char := scan phpReader () src

def stripGo (src : List Char) : List Char := scan goReader () src

def stripRust (src : List Char) : List Char := scan rustReader () src

end Readers

section Stability

variable {rest masked : List Char} {quote c d : Char} {multiline : Bool}

theorem masks_head? (masks : Masks rest masked) (found : masked.head? = some d) (solid : d ≠ ' ') :
    rest.head? = some d := by
  rw [head?_eq_getElem?] at found ⊢
  obtain ⟨c, same, related⟩ := masks.get found
  rcases related with rfl | ⟨space, -⟩
  · exact same
  · exact absurd space solid

theorem literalStep_blind (s : Unit) (c : Char) (first second : Option Char) (same : first.isSome = second.isSome) :
    literalStep quote multiline s c first = literalStep quote multiline s c second := by
  simp only [literalStep, same]

theorem literalStep_stop {s : Unit} {next : Option Char} (stops : literalStep quote multiline s c next = .stop) :
    c = quote ∨ c = '\n' := by
  unfold literalStep at stops
  split_ifs at stops with closes escapes breaks
  · exact .inl closes
  · exact .inr breaks.2

theorem getElem?_eq_of_take {count index : Nat} (same : masked.take count = rest.take count) (inside : index < count) :
    masked[index]? = rest[index]? := by
  rw [← getElem?_take_of_lt inside, same, getElem?_take_of_lt inside]

theorem getElem?_none_of_masks {index : Nat} (masks : Masks rest masked) (outside : rest[index]? = none) :
    masked[index]? = none := by
  rw [getElem?_eq_none_iff] at outside ⊢
  rwa [masks.length]

/-- A literal ends at the same place when the text behind it is masked. -/
theorem literalLength_masked (masks : Masks rest masked)
    (same : masked.take (literalLength quote multiline rest) = rest.take (literalLength quote multiline rest)) :
    literalLength quote multiline masked = literalLength quote multiline rest := by
  unfold literalLength at same ⊢
  dsimp only at same ⊢
  generalize stopped : advance (literalStep quote multiline) () rest = stop at same ⊢
  have boundary : masked[stop]? = rest[stop]? := by
    cases found : rest[stop]? with
    | none => exact getElem?_none_of_masks masks found
    | some c =>
      by_cases closes : c = quote
      · rw [found, if_pos (congrArg some closes)] at same
        rw [getElem?_eq_of_take same (Nat.lt_succ_self _), found]
      · obtain ⟨state, stops⟩ := advance_stops (stopped ▸ found)
        obtain rfl := (literalStep_stop stops).resolve_left closes
        exact masks.newline found
  have before : masked.take stop = rest.take stop := by
    split at same
    · simpa [take_take] using congrArg (take stop) same
    · exact same
  have agree : masked.take (stop + 1) = rest.take (stop + 1) := by
    rw [take_add_one, take_add_one, before, boundary]
  rw [advance_agree literalStep_blind masks.length (stopped ▸ agree), stopped, boundary]

theorem rawLength_masked (masks : Masks rest masked)
    (same : masked.take (rawLength rest) = rest.take (rawLength rest)) : rawLength masked = rawLength rest := by
  unfold rawLength at same ⊢
  dsimp only at same ⊢
  generalize stopped : advance rawStep () rest = stop at same ⊢
  have agree : masked.take (stop + 1) = rest.take (stop + 1) := by
    split at same
    · exact same
    · rename_i outside
      rw [take_add_one, take_add_one, same, getElem?_eq_none (by rw [masks.length]; omega),
        getElem?_eq_none (by omega)]
  rw [advance_agree (fun _ _ _ _ _ => rfl) masks.length (stopped ▸ agree), stopped, masks.length]

end Stability

section Languages

variable {c : Char} {rest masked : List Char}

/-- A reader without state follows itself. -/
def Always (_ _ : Unit) (_ : List Char) : Prop := True

/-- A piece of a reader without state is blanked, or it is kept wherever the text behind it is masked. -/
def Settles (read : Char → List Char → Piece Unit) (c : Char) (rest : List Char) : Prop :=
  (∃ length, read c rest = .blanked length c rest ()) ∨
    ∃ length, ∀ masked, Masks rest masked → masked.take length = rest.take length →
      read c masked = .keep length c masked ()

variable {read : Char → List Char → Piece Unit}

theorem Settles.blanked {length : Nat} (blanked : read c rest = .blanked length c rest ()) :
    Settles read c rest := .inl ⟨length, blanked⟩

theorem Settles.kept (length : Nat) (kept : ∀ masked, Masks rest masked → masked.take length = rest.take length →
      read c masked = .keep length c masked ()) : Settles read c rest := .inr ⟨length, kept⟩

theorem Settles.treats {read : Reader Unit} (settles : Settles (read ()) c rest) :
    Keeps read Always () c rest ∨ Blanks read Always (fun _ _ => ()) () c rest := by
  rcases settles with ⟨length, blanked⟩ | ⟨length, kept⟩
  · refine .inr ⟨?_, fun _ _ => trivial⟩
    rw [blanked]
    rfl
  · have self := kept rest (.refl rest) rfl
    refine .inl ⟨?_, fun _ masked _ masks same => ?_⟩
    · rw [self]
      rfl
    · rw [self] at same ⊢
      exact ⟨(), kept masked masks same, trivial⟩

theorem rescans_of_settles {read : Reader Unit} (settles : ∀ c rest, Settles (read ()) c rest)
    (readsBlank : ∀ c rest, c = ' ' ∨ c = '\n' → read () c rest = .keep 0 c rest ()) :
    Rescans read Always fun _ _ => () where
  treats _ c rest := (settles c rest).treats
  readsBlank _ c rest blank := readsBlank c rest blank

/-- A reader of slash comments settles what the reader of everything else does. -/
theorem settles_slash {other : Char → List Char → Piece Unit} {blockLength : List Char → Nat}
    (reads : ∀ c rest, read c rest =
      if c = '/' ∧ rest.head? = some '*' then .blanked (1 + blockLength rest.tail) c rest ()
      else if c = '/' ∧ rest.head? = some '/' then .blanked (lineLength rest) c rest ()
      else other c rest)
    (settles : ∀ c rest, Settles other c rest) (c : Char) (rest : List Char) : Settles read c rest := by
  by_cases block : c = '/' ∧ rest.head? = some '*'
  · exact .blanked ((reads c rest).trans (if_pos block))
  by_cases line : c = '/' ∧ rest.head? = some '/'
  · exact .blanked ((reads c rest).trans ((if_neg block).trans (if_pos line)))
  have skipped {masked : List Char} (masks : Masks rest masked) : read c masked = other c masked := by
    rw [reads, if_neg fun opens => block ⟨opens.1, masks_head? masks opens.2 (by decide)⟩,
      if_neg fun opens => line ⟨opens.1, masks_head? masks opens.2 (by decide)⟩]
  rcases settles c rest with ⟨length, blanked⟩ | ⟨length, kept⟩
  · exact .blanked ((skipped (.refl rest)).trans blanked)
  · exact .kept length fun masked masks same => (skipped masks).trans (kept masked masks same)

theorem cStyle_rescans (allow : Bool) : Rescans (cStyleReader allow) Always fun _ _ => () := by
  refine rescans_of_settles (settles_slash (fun _ _ => rfl) fun c rest => ?_) ?_
  · by_cases literal : c = '"' ∨ allow ∧ c = '\'' ∨ c = '`'
    · refine .kept (literalLength c (c = '`') rest) fun masked masks same => ?_
      rw [if_pos literal, literalLength_masked masks same]
    · exact .kept 0 fun masked _ _ => if_neg literal
  · rintro c rest (rfl | rfl) <;> simp [cStyleReader]

theorem php_rescans : Rescans phpReader Always fun _ _ => () := by
  refine rescans_of_settles (settles_slash (fun _ _ => rfl) fun c rest => ?_) ?_
  · by_cases hash : c = '#'
    · exact .blanked (if_pos hash)
    by_cases literal : c = '"' ∨ c = '\'' ∨ c = '`'
    · refine .kept (literalLength c false rest) fun masked masks same => ?_
      rw [if_neg hash, if_pos literal, literalLength_masked masks same]
    · exact .kept 0 fun masked _ _ => (if_neg hash).trans (if_neg literal)
  · rintro c rest (rfl | rfl) <;> simp [phpReader]

/-- Scanning masked Go again finds the same. -/
theorem go_rescans : Rescans goReader Always fun _ _ => () := by
  refine rescans_of_settles (settles_slash (fun _ _ => rfl) fun c rest => ?_) ?_
  · by_cases raw : c = '`'
    · refine .kept (rawLength rest) fun masked masks same => ?_
      rw [if_pos raw, rawLength_masked masks same]
    by_cases double : c = '"'
    · refine .kept (literalLength '"' false rest) fun masked masks same => ?_
      rw [if_neg raw, if_pos double, literalLength_masked masks same]
    by_cases single : c = '\''
    · refine .kept (literalLength '\'' false rest) fun masked masks same => ?_
      rw [if_neg raw, if_neg double, if_pos single, literalLength_masked masks same]
    · exact .kept 0 fun masked _ _ => (if_neg raw).trans ((if_neg double).trans (if_neg single))
  · rintro c rest (rfl | rfl) <;> simp [goReader]

theorem rust_rescans : Rescans rustReader Always fun _ _ => () := by
  refine rescans_of_settles (settles_slash (fun _ _ => rfl) fun c rest => ?_) ?_
  · by_cases double : c = '"'
    · refine .kept (literalLength '"' true rest) fun masked masks same => ?_
      rw [if_pos double, literalLength_masked masks same]
    by_cases single : c = '\''
    · refine .kept (literalLength '\'' false rest) fun masked masks same => ?_
      rw [if_neg double, if_pos single, literalLength_masked masks same]
    · exact .kept 0 fun masked _ _ => (if_neg double).trans (if_neg single)
  · rintro c rest (rfl | rfl) <;> simp [rustReader]

/-- Scanning a masked text again finds the same comments of Python. -/
theorem python_rescans : Rescans pythonReader Always fun _ _ => () := by
  refine rescans_of_settles (fun c rest => ?_) ?_
  · by_cases triple : (c = '"' ∨ c = '\'') ∧ [c, c] <+: rest
    · exact .blanked (if_pos triple)
    have later {masked : List Char} (masks : Masks rest masked) : ¬ ((c = '"' ∨ c = '\'') ∧ [c, c] <+: masked) := by
      intro ⟨quote, opens⟩
      have solid : ' ' ∉ [c, c] := by rcases quote with rfl | rfl <;> decide
      exact triple ⟨quote, masks.isPrefix solid opens⟩
    by_cases literal : c = '"' ∨ c = '\''
    · refine .kept (literalLength c false rest) fun masked masks same => ?_
      rw [pythonReader, if_neg (later masks), if_pos literal, literalLength_masked masks same]
    by_cases hash : c = '#'
    · exact .blanked ((if_neg triple).trans ((if_neg literal).trans (if_pos hash)))
    · exact .kept 0 fun masked masks _ => (if_neg (later masks)).trans ((if_neg literal).trans (if_neg hash))
  · rintro c rest (rfl | rfl) <;> simp [pythonReader]

end Languages

section Ruby

variable {c : Char} {rest masked text : List Char}

/-- Nothing but a line break can stand here. -/
def AtLineEnd (text : List Char) : Prop := ∀ c ∈ text.head?, c = '\n'

theorem lineLength_ends (text : List Char) : AtLineEnd (text.drop (lineLength text)) := by
  intro c found
  rw [head?_drop] at found
  obtain ⟨state, stops⟩ := advance_stops found
  unfold lineStep at stops
  split at stops
  · assumption
  · cases stops

theorem beginLength_ends (text : List Char) : AtLineEnd (text.drop (beginLength text)) := by
  induction text with
  | nil => simp [AtLineEnd, beginLength]
  | cons c rest ih =>
    rw [beginLength]
    generalize cut : rest.dropWhile (fun blank => blank = ' ' || blank = '\t') = line
    have suffix : rest.drop (rest.length - line.length) = line := by
      rw [← cut]
      exact (suffix_iff_eq_drop.mp (dropWhile_suffix _)).symm
    split
    · rw [Nat.add_assoc, Nat.add_assoc, Nat.add_comm 1, drop_succ_cons, ← drop_drop, suffix,
        ← drop_drop]
      exact lineLength_ends _
    · exact ih

/-- The two scans agree on the start of the line until its end. -/
def SameLine (first second : Bool) (text : List Char) : Prop := second = first ∨ AtLineEnd text

def lineStartAfter (atLineStart : Bool) (c : Char) : Bool := if c = '\n' then true else atLineStart

theorem ruby_blanks {atLineStart next : Bool} {length : Nat}
    (blanked : rubyReader atLineStart c rest = .blanked length c rest next)
    (ends : AtLineEnd (rest.drop length)) : Blanks rubyReader SameLine lineStartAfter atLineStart c rest where
  blanked := by
    rw [blanked]
    rfl
  follows _ _ := by
    rw [blanked]
    exact .inr ends

/-- A kept piece of Ruby code leaves the same state in both scans. -/
theorem ruby_keeps {atLineStart : Bool} (length : Nat) (next : Bool)
    (kept : ∀ state masked, SameLine atLineStart state (c :: rest) → Masks rest masked →
      masked.take length = rest.take length → rubyReader state c masked = .keep length c masked next) :
    Keeps rubyReader SameLine atLineStart c rest := by
  have self := kept atLineStart rest (.inl rfl) (.refl rest) rfl
  refine ⟨?_, fun state masked follows masks same => ?_⟩
  · rw [self]
    rfl
  · rw [self] at same ⊢
    exact ⟨next, kept state masked follows masks same, .inl rfl⟩

/-- Scanning a masked text again finds the same comments of Ruby. -/
theorem ruby_rescans : Rescans rubyReader SameLine lineStartAfter where
  treats := by
    intro atLineStart c rest
    by_cases begins : atLineStart ∧ c = '=' ∧ "=begin".toList <+: c :: rest
    · refine .inr (ruby_blanks (if_pos begins) ?_)
      rw [← drop_drop]
      exact beginLength_ends _
    -- A state that differs belongs to a line break, which begins no block.
    have later {state : Bool} {masked : List Char} (follows : SameLine atLineStart state (c :: rest))
      (masks : Masks rest masked) :
        ¬ (state ∧ c = '=' ∧ "=begin".toList <+: c :: masked) := by
      rintro ⟨start, rfl, opens⟩
      rcases follows with rfl | ends
      · exact begins ⟨start, rfl, Masks.isPrefix (List.Forall₂.cons (.inl rfl) masks) (by decide) opens⟩
      · exact absurd (ends '=' rfl) (by decide)
    by_cases literal : c = '"' ∨ c = '\''
    · refine .inl (ruby_keeps (literalLength c false rest) false fun state masked follows masks same => ?_)
      rw [rubyReader, if_neg (later follows masks), if_pos literal, literalLength_masked masks same]
    by_cases hash : c = '#'
    · exact .inr (ruby_blanks ((if_neg begins).trans ((if_neg literal).trans (if_pos hash))) (lineLength_ends rest))
    by_cases newline : c = '\n'
    · refine .inl (ruby_keeps 0 true fun state masked follows masks _ => ?_)
      rw [rubyReader, if_neg (later follows masks), if_neg literal, if_neg hash, if_pos newline]
    by_cases blank : c = ' ' ∨ c = '\t'
    · refine .inl (ruby_keeps 0 atLineStart fun state masked follows masks _ => ?_)
      have same : state = atLineStart := follows.resolve_right fun ends => newline (ends c rfl)
      rw [rubyReader, if_neg (later follows masks), if_neg literal, if_neg hash, if_neg newline, if_pos blank, same]
    · refine .inl (ruby_keeps 0 false fun state masked follows masks _ => ?_)
      rw [rubyReader, if_neg (later follows masks), if_neg literal, if_neg hash, if_neg newline, if_neg blank]
  readsBlank := by
    rintro atLineStart c rest (rfl | rfl) <;> simp [rubyReader, lineStartAfter]

end Ruby

end Codegraph.Resolve.StripComments
