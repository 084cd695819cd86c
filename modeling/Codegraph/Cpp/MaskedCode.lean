import Codegraph.Cpp.Flattening
import Codegraph.Library.Repainting
import Codegraph.Library.Strides

/- This file reads macros in the code of a C++ source, past its comments, directives and literals. -/

namespace Codegraph.Cpp
open Utf8 Repainting Strides CodeClasses List
open Flattening (isPad isUpper isWord isMacroChar isAsciiSpace)

abbrev Span := Nat × Nat

section Bytes

def isAlphabetic (c : Char) : Bool := isUpper c || ('a' ≤ c && c ≤ 'z')

def isIdentStart (c : Char) : Bool := isAlphabetic c || c = '_'

/-- The bytes from one place up to another. -/
def between (bytes : List Char) (start stop : Nat) : List Char := (bytes.drop start).take (stop - start)

def startsWith (code : List Char) (place : Nat) (mark : String) : Bool := mark.toList.isPrefixOf (code.drop place)

def maskByte (byte : Char) (kind : CodeClass) : Char :=
  if isBreak byte then byte
  else match kind with
    | .code => byte
    | .literal => '\x01'
    | .comment | .directive => ' '

/-- The bytes of a source, its comments and directives as spaces and its literals as bytes of one. -/
def maskedCode (source : List Char) : List Char := List.zipWith maskByte (units source) (cppCodeClasses (units source))

/-- Which bytes of a source are code. -/
def cppCodeMask (source : List Char) : List Bool := (cppCodeClasses (units source)).map (· = .code)

variable (code : List Char)

def skipSpace (place : Nat) : Nat := place + ((code.drop place).takeWhile isAsciiSpace).length

def skipBlanks (place : Nat) : Nat := place + ((code.drop place).takeWhile isPad).length

/-- The end of the identifier at a place. -/
def identEnd (place : Nat) : Option Nat :=
  if isIdentStart (byteAt code place) then some (place + 1 + ((code.drop (place + 1)).takeWhile isWord).length)
    else none

/-- A word stands at a place, and ends there. -/
def wordAt (place : Nat) (word : String) : Bool :=
  startsWith code place word && !isWord (byteAt code (place + word.length))

/-- The end of the arguments whose opening is at the head of the bytes from a place on. -/
def argsEnd (depth : Nat) : List Char → Nat → Nat → Option Nat
  | [], _, _ => none
  | byte :: rest, place, level =>
    if byte = '(' then if level + 1 > depth then none else argsEnd depth rest (place + 1) (level + 1)
    else if byte = ')' then if level - 1 = 0 then some (place + 1) else argsEnd depth rest (place + 1) (level - 1)
    else argsEnd depth rest (place + 1) level

/-- The end of the arguments opening at a place, which nest no deeper than a depth. -/
def balancedArgsEnd (opening depth : Nat) : Option Nat :=
  if byteAt code opening = '(' then argsEnd depth (code.drop opening) opening 0 else none

def macroRunEnd (place : Nat) : Nat := place + 1 + ((code.drop (place + 1)).takeWhile isMacroChar).length

def isUnderscoredMacro (start stop : Nat) : Bool :=
  let token := between code start stop
  token.head?.any isUpper && token.all isMacroChar && token.contains '_'

/-- The end of a template argument list in bytes from a place on. Angles inside of parentheses do not count. -/
def angleArgsEnd : List Char → Nat → Int → Int → Option Nat
  | [], _, _, _ => none
  | byte :: rest, place, angles, parens =>
    if byte = '(' then angleArgsEnd rest (place + 1) angles (parens + 1)
    else if byte = ')' then if parens - 1 < 0 then none else angleArgsEnd rest (place + 1) angles (parens - 1)
    else if byte = ';' ∨ byte = '{' ∨ byte = '}' then none
    else if byte = '<' ∧ parens = 0 then angleArgsEnd rest (place + 1) (angles + 1) parens
    else if byte = '>' ∧ parens = 0 ∧ (place = 0 ∨ byteAt code (place - 1) ≠ '-') then
      if angles - 1 = 0 then some (place + 1) else angleArgsEnd rest (place + 1) (angles - 1) parens
    else angleArgsEnd rest (place + 1) angles parens

def skipAngleArgs (opening : Nat) : Option Nat := angleArgsEnd code ((code.drop opening).take 4000) opening 0 0

end Bytes

section Bounds

variable {code : List Char} {place opening depth : Nat} {stop : Nat}

theorem le_skipSpace (code : List Char) (place : Nat) : place ≤ skipSpace code place := Nat.le_add_right ..

theorem le_skipBlanks (code : List Char) (place : Nat) : place ≤ skipBlanks code place := Nat.le_add_right ..

theorem lt_identEnd (ends : identEnd code place = some stop) : place < stop := by
  rw [identEnd] at ends
  split at ends
  · obtain rfl := Option.some.inj ends
    omega
  · cases ends

theorem identEnd_inside (ends : identEnd code place = some stop) : place < code.length := by
  rw [identEnd] at ends
  split at ends
  · rename_i starts
    refine inside_of_at (c := byteAt code place) (fun none => ?_) rfl
    rw [none] at starts
    exact absurd starts (by decide)
  · cases ends

theorem lt_macroRunEnd (code : List Char) (place : Nat) : place < macroRunEnd code place := by
  rw [macroRunEnd]
  omega

/-- Arguments end behind a closing parenthesis. -/
theorem argsEnd_closing {front rest : List Char} {level stop : Nat}
    (ends : argsEnd depth rest front.length level = some stop) :
    front.length < stop ∧ byteAt (front ++ rest) (stop - 1) = ')' := by
  induction rest generalizing front level with
  | nil => cases ends
  | cons byte rest ih =>
    have step {level : Nat} (later : argsEnd depth rest (front.length + 1) level = some stop) :
        front.length < stop ∧ byteAt (front ++ byte :: rest) (stop - 1) = ')' := by
      have found : (front ++ [byte]).length < stop ∧ byteAt (front ++ [byte] ++ rest) (stop - 1) = ')' :=
        ih (by rwa [List.length_append, List.length_singleton])
      rw [List.length_append, List.length_singleton, List.append_assoc] at found
      exact ⟨by omega, found.2⟩
    rw [argsEnd] at ends
    split at ends
    · split at ends
      · cases ends
      · exact step ends
    · split at ends
      · rename_i closes
        split at ends
        · obtain rfl := Option.some.inj ends
          refine ⟨Nat.lt_succ_self _, ?_⟩
          simp [byteAt, closes]
        · exact step ends
      · exact step ends

theorem inside_opening {opens : Char} (solid : opens ≠ '\x00') (found : byteAt code opening = opens) :
    code = code.take opening ++ code.drop opening ∧ (code.take opening).length = opening := by
  have inside := inside_of_at solid found
  exact ⟨(take_append_drop ..).symm, length_take_of_le (Nat.le_of_lt inside)⟩

theorem balancedArgsEnd_closing (ends : balancedArgsEnd code opening depth = some stop) :
    opening < stop ∧ byteAt code (stop - 1) = ')' := by
  rw [balancedArgsEnd] at ends
  split at ends
  · rename_i opens
    obtain ⟨split, length⟩ := inside_opening (by decide) opens
    rw [← length] at ends
    have found := @argsEnd_closing depth (code.take opening) (code.drop (code.take opening).length) _ _ ends
    rw [length] at found
    rwa [← split] at found
  · cases ends

/-- A run of a macro name holds the characters of one. -/
theorem macroRunEnd_char (upper : isUpper (byteAt code place)) (behind : place < stop)
    (before : stop ≤ macroRunEnd code place) : isMacroChar (byteAt code (stop - 1)) := by
  rcases Nat.lt_or_ge (place + 1) stop with later | first
  · have run : stop - 1 - (place + 1) < ((code.drop (place + 1)).takeWhile isMacroChar).length := by
      rw [macroRunEnd] at before
      omega
    have member := getElem_mem run
    have found : byteAt code (stop - 1) = ((code.drop (place + 1)).takeWhile isMacroChar)[stop - 1 - (place + 1)] := by
      have same := ( takeWhile_prefix isMacroChar (l := code.drop (place + 1))).getElem run
      rw [same, getElem_drop, byteAt]
      have index : place + 1 + (stop - 1 - (place + 1)) = stop - 1 := by omega
      have bound := ( takeWhile_prefix isMacroChar (l := code.drop (place + 1))).length_le
      rw [length_drop] at bound
      rw [getElem?_eq_getElem (by omega), Option.getD_some]
      congr 1
      omega
    rw [found]
    exact (mem_takeWhile_imp member)
  · obtain rfl : stop = place + 1 := Nat.le_antisymm first behind
    rw [Nat.add_sub_cancel, isMacroChar, upper]
    rfl

end Bounds

section Runs

variable (code : List Char)

/-- The end of the macro at a place of a run, behind its arguments where the run holds them. -/
def tokenEnd (stop place : Nat) : Nat :=
  let nameEnd := min (macroRunEnd code place) stop
  let opening := skipSpace code nameEnd
  match balancedArgsEnd code opening 3 with
  | some behind => if opening < stop ∧ behind ≤ stop then behind else nameEnd
  | none => nameEnd

theorem lt_tokenEnd {stop place : Nat} (inside : place < stop) : place < tokenEnd code stop place := by
  have name := lt_macroRunEnd code place
  have space := le_skipSpace code (min (macroRunEnd code place) stop)
  rw [tokenEnd]
  split
  · rename_i behind ends
    have closing := balancedArgsEnd_closing ends
    split <;> omega
  · omega

/-- A span for each macro of a run. What lies between them is left. -/
def pushRunTokens (start stop : Nat) : List Span :=
  (strides stop (fun place inside =>
    some (if isUpper (byteAt code place) then
      { next := tokenEnd code stop place, further := lt_tokenEnd code inside, found :=
        [(place, tokenEnd code stop place)] }
    else .one place)) start).1

variable {code}

/-- A span from a capital to the last character of a macro or its arguments. -/
def IsToken (code : List Char) (span : Span) : Prop :=
  isUpper (byteAt code span.1) ∧ span.1 < span.2 ∧
    (isMacroChar (byteAt code (span.2 - 1)) ∨ byteAt code (span.2 - 1) = ')')

theorem isToken_tokenEnd {stop place : Nat} (upper : isUpper (byteAt code place)) (inside : place < stop) :
    IsToken code (place, tokenEnd code stop place) := by
  refine ⟨upper, lt_tokenEnd code inside, ?_⟩
  have name := lt_macroRunEnd code place
  have plain : isMacroChar (byteAt code (min (macroRunEnd code place) stop - 1)) :=
    macroRunEnd_char upper (by omega) (Nat.min_le_left ..)
  dsimp only
  rw [tokenEnd]
  split
  · rename_i behind ends
    have closing := balancedArgsEnd_closing ends
    split
    · exact .inr closing.2
    · exact .inl plain
  · exact .inl plain

theorem isToken_pushRunTokens {start stop : Nat} {span : Span} (member : span ∈ pushRunTokens code start stop) :
    IsToken code span := by
  obtain ⟨place, inside, taken, -, goes, found⟩ := mem_strides member
  obtain rfl := Option.some.inj goes
  split at found
  · rw [mem_singleton] at found
    exact found ▸ isToken_tokenEnd ‹_› inside
  · cases found

end Runs

section Places

variable {source : List Char} {place : Nat} {span : Span} {spans : List Span} {byte : Char}

/-- A byte of the masked code that is no space or literal is the one of the source. -/
theorem unmasked (found : byteAt (maskedCode source) place = byte)
    (shown : byte ≠ '\x00' ∧ byte ≠ ' ' ∧ byte ≠ '\x01') : (units source)[place]? = some byte := by
  have inside := inside_of_at shown.1 found
  rw [byteAt, getElem?_eq_getElem inside, Option.getD_some] at found
  rw [maskedCode, length_zipWith] at inside
  rw [getElem?_eq_getElem (by omega)]
  simp only [maskedCode, getElem_zipWith, maskByte] at found
  split at found
  · exact congrArg some found
  · split at found
    · exact congrArg some found
    · exact absurd found.symm shown.2.2
    · exact absurd found.symm shown.2.1
    · exact absurd found.symm shown.2.1

theorem isMacroChar_bounds (plain : isMacroChar byte) : 48 ≤ byte.toNat ∧ byte.toNat ≤ 95 := by
  rw [isMacroChar, Bool.or_eq_true, Bool.or_eq_true, isUpper, isAsciiDigit, Bool.and_eq_true, Bool.and_eq_true] at plain
  simp only [decide_eq_true_eq] at plain
  rcases plain with (⟨low, high⟩ | ⟨low, high⟩) | rfl
  · exact ⟨Nat.le_trans (by decide) (show 65 ≤ byte.toNat from low),
      Nat.le_trans (show byte.toNat ≤ 90 from high) (by decide)⟩
  · exact ⟨low, Nat.le_trans (show byte.toNat ≤ 57 from high) (by decide)⟩
  · decide

theorem solid_of_bounds (low : 48 ≤ byte.toNat) : isBreak byte = false := by
  by_contra breaks
  rw [Bool.not_eq_false, isBreak, Bool.or_eq_true, decide_eq_true_eq, decide_eq_true_eq] at breaks
  rcases breaks with rfl | rfl
  · exact absurd low (by decide)
  · exact absurd low (by decide)

theorem isMacroChar_shown (plain : isMacroChar byte) :
    byte.toNat < 128 ∧ byte ≠ '\x00' ∧ byte ≠ ' ' ∧ byte ≠ '\x01' := by
  have bounds := isMacroChar_bounds plain
  refine ⟨by omega, ?_, ?_, ?_⟩ <;> rintro rfl <;> exact absurd bounds.1 (by decide)

/-- The tokens of the masked code are whole characters of the source. -/
theorem IsToken.atChar (token : IsToken (maskedCode source) span) : AtChar source span.1 ∧ AtChar source span.2 := by
  obtain ⟨upper, longer, last⟩ := token
  have capital : isMacroChar (byteAt (maskedCode source) span.1) := by rw [isMacroChar, upper]; rfl
  have first := isMacroChar_shown capital
  refine ⟨(atChar_ascii (unmasked rfl first.2) first.1).1, ?_⟩
  have shown : (byteAt (maskedCode source) (span.2 - 1)).toNat < 128 ∧
    byteAt (maskedCode source) (span.2 - 1) ≠ '\x00' ∧
      byteAt (maskedCode source) (span.2 - 1) ≠ ' ' ∧ byteAt (maskedCode source) (span.2 - 1) ≠ '\x01' := by
    rcases last with plain | closes
    · exact isMacroChar_shown plain
    · rw [closes]
      decide
  have behind := (atChar_ascii (unmasked rfl shown.2) shown.1).2
  rwa [Nat.sub_add_cancel (by omega)] at behind

end Places

end Codegraph.Cpp
