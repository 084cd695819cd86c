import Codegraph.Cpp.CodeClasses
import Codegraph.Library.Utf8Loops
import Mathlib.Data.List.DropRight

/- This file blanks the conditionals inside of a declaration or expression, except for their first branches. -/

namespace Codegraph.Cpp.Flattening
open Scanning Utf8
open CodeClasses (isAsciiDigit)

section Patterns

def isPad (c : Char) : Bool := c = ' ' || c = '\t'

def isUpper (c : Char) : Bool := 'A' ≤ c && c ≤ 'Z'

def isWord (c : Char) : Bool := isUpper c || ('a' ≤ c && c ≤ 'z') || isAsciiDigit c || c = '_'

def isAsciiSpace (c : Char) : Bool := c = ' ' || c = '\t' || c = '\n' || c = '\r' || c = '\x0b' || c = '\x0c'

def trim (text : List Char) : List Char := (text.dropWhile isWhitespace).rdropWhile isWhitespace

/-- The text before a line comment. -/
def withoutLineComment : List Char → List Char
  | [] => []
  | c :: rest => if c = '/' ∧ rest.head? = some '/' then [] else c :: withoutLineComment rest

/-- The text behind the end of a block comment. -/
def behindClosing : List Char → Option (List Char)
  | [] => none
  | c :: rest => if c = '*' ∧ rest.head? = some '/' then some rest.tail else behindClosing rest

theorem behindClosing_shorter {text rest : List Char} (found : behindClosing text = some rest) :
    rest.length < text.length := by
  induction text with
  | nil => cases found
  | cons c text ih =>
    rw [behindClosing] at found
    split at found
    · obtain rfl := Option.some.inj found
      rw [List.length_tail, List.length_cons]
      omega
    · exact Nat.lt_succ_of_lt (ih found)

def hasClosing (text : List Char) : Bool := (behindClosing text).isSome

/-- The text without its closed block comments. -/
def withoutBlockComments (text : List Char) : List Char :=
  match text with
  | [] => []
  | c :: rest =>
    if c = '/' ∧ rest.head? = some '*' then
      match _ : behindClosing rest.tail with
      | some behind => withoutBlockComments behind
      | none => c :: withoutBlockComments rest
    else c :: withoutBlockComments rest
termination_by text.length
decreasing_by
  · have shorter := behindClosing_shorter ‹_›
    rw [List.length_tail] at shorter
    rw [List.length_cons]
    omega
  · exact Nat.lt_succ_self _
  · exact Nat.lt_succ_self _

/-- The text behind the last opening of a block comment. -/
def behindLastOpening : List Char → Option (List Char)
  | [] => none
  | c :: rest =>
    match behindLastOpening rest with
    | some behind => some behind
    | none => if c = '/' ∧ rest.head? = some '*' then some rest.tail else none

def beforeOpening : List Char → List Char
  | [] => []
  | c :: rest => if c = '/' ∧ rest.head? = some '*' then [] else c :: beforeOpening rest

/-- The code of a line, without its comments. -/
def code (line : List Char) : List Char := trim (withoutBlockComments (withoutLineComment line))

/-- The name of the directive on a line. -/
def directiveName (line : List Char) : Option (List Char) :=
  match line.dropWhile isPad with
  | '#' :: rest =>
    let name := (rest.dropWhile isPad).takeWhile isWord
    if name = [] then none else some name
  | _ => none

def isContinued (line : List Char) : Bool := (line.rdropWhile isWhitespace).getLast? = some '\\'

def isLabel (text : List Char) : Bool :=
  text.getLast? = some ':' && text.dropLast.all fun c => isWord c || isAsciiSpace c

def isAccess (text : List Char) : Bool :=
  text.getLast? = some ':' &&
    ["public", "private", "protected"].any fun keyword =>
      keyword.toList.isPrefixOf text && (text.dropLast.drop keyword.toList.length).all isWhitespace

def isMacroChar (c : Char) : Bool := isUpper c || isAsciiDigit c || c = '_'

/-- A macro name, alone or with arguments. -/
def isStatementMacro (text : List Char) : Bool :=
  match text with
  | [] => false
  | c :: rest =>
    isUpper c && match (rest.dropWhile isMacroChar) with
      | [] => true
      | behind => match behind.dropWhile isWhitespace with
        | '(' :: inner => inner.getLast? = some ')'
        | _ => false

def opens (name : List Char) : Bool := "if".toList.isPrefixOf name

def isConditional (name : List Char) : Bool :=
  ["if".toList, "ifdef".toList, "ifndef".toList, "else".toList, "elif".toList, "elifdef".toList, "elifndef".toList,
    "endif".toList].contains name

end Patterns

section Lines

structure State where
  lastCode : List Char := []
  inBlockComment : Bool := false
  region : Nat := 0
  skipFrom : Nat := 0
  inContinuation : Bool := false
  deriving DecidableEq

/-- A directive opens a conditional where the code before it has not ended a statement or declaration. -/
def isMid (last name : List Char) : Bool :=
  opens name && !last.isEmpty &&
    !([some ';', some '{', some '}'].contains last.getLast? || isLabel last || ['*', '/'].isSuffixOf last) &&
    !isAccess last && !isStatementMacro last

variable (state : State)

/-- The state behind a directive, and whether its line is blanked. -/
def readDirective (name line : List Char) : State × Bool :=
  let continues := isContinued line
  let state := { state with inContinuation := continues }
  if state.region = 0 then
    if continues then (state, false)
    else if isMid state.lastCode name then ({ state with region := 1 }, true)
    else (state, false)
  else
    let next :=
      if opens name then { state with region := state.region + 1 }
      else if (name = "else".toList ∨ name = "elif".toList) ∧
        state.skipFrom = 0 then { state with skipFrom := state.region }
      else if name = "endif".toList then
        { state with skipFrom := if state.skipFrom = state.region then 0 else state.skipFrom, region :=
          state.region - 1 }
      else state
    (next, isConditional name)

/-- The state behind a line that is no directive, and whether it is blanked. -/
def readText (text : List Char) : State × Bool :=
  if state.region > 0 ∧ state.skipFrom > 0 then (state, !(trim text).isEmpty)
  else if state.inBlockComment then ({ state with inBlockComment := !hasClosing text }, false)
  else
    let trimmed := code text
    if (behindLastOpening (withoutLineComment text)).any fun behind => !hasClosing behind then
      let before := trim (beforeOpening trimmed)
      ({ state with inBlockComment := true, lastCode := if before.isEmpty then state.lastCode else before }, false)
    else ({ state with lastCode := if trimmed.isEmpty then state.lastCode else trimmed }, false)

def readLine (found : Option (List Char)) (line : List Char) : State × Bool :=
  if state.inContinuation then ({ state with inContinuation := isContinued line }, false)
  else match found with
    | some name => if state.inBlockComment then readText state line else readDirective state name line
    | none => readText state line

/-- Every byte but a carriage return becomes a space. -/
def blankLine (line : List Char) : List Char := (units line).map fun byte => if byte = '\r' then '\r' else ' '

variable (classes : List CodeClass)

/-- The directive on the line at an offset. A raw string's line is none. -/
def directiveOf (offset : Nat) (line : List Char) : Option (List Char) := do
  let name ← directiveName line
  if classes[offset + (line.takeWhile isPad).length]? = some .literal then none else return name

/-- The lines that are written, and whether one of them is blanked. -/
def flattenFrom : Nat → State → List (List Char) → List (List Char) × Bool
  | _, _, [] => ([], false)
  | offset, state, line :: rest =>
    let read := readLine state (directiveOf classes offset line) line
    let later := flattenFrom (offset + (units line).length + 1) read.1 rest
    ((if read.2 then blankLine line else line) :: later.1, read.2 || later.2)

end Lines

def flattenMidStatementConditionals (source : List Char) : List Char :=
  if !source.contains '#' then source
  else
    let written := flattenFrom (cppCodeClasses (units source)) 0 {} (source.splitOn '\n')
    if written.2 then ['\n'].intercalate written.1 else source

end Codegraph.Cpp.Flattening
