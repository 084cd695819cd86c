import Codegraph.Cpp.Flattening
import Codegraph.Library.CExpressions
import Codegraph.Watch.Scope

/- This file decides the expression of an `#if` as far as the source decides it. -/

namespace Codegraph.Macros
open CExpressions (ofBool)
open Watch.Scope (Text)
open Cpp.CodeClasses (isAsciiDigit isAsciiWhitespace)
open Cpp.Flattening (isWord)

/-- A truth that is decided, or that a build flag decides. -/
abbrev Truth := Option Bool

namespace Truth

def and (a b : Truth) : Truth :=
  if a = some false ∨ b = some false then some false else if a = some true ∧ b = some true then some true else none

def or (a b : Truth) : Truth :=
  if a = some true ∨ b = some true then some true else if a = some false ∧ b = some false then some false else none

def not (a : Truth) : Truth := a.map fun value => !value

end Truth

/-- What is known about a name that an `#if` mentions. -/
structure NameState where
  defined : Truth := none
  value : Truth := none
  deriving DecidableEq

/-- A known integer, or a truth without a known number. -/
inductive Value where
  | int (number : BitVec 64)
  | truth (truth : Truth)
  deriving DecidableEq

/-- A decided truth is a 0 or a 1. -/
def logical (truth : Truth) : Value :=
  match truth with
  | some known => .int (if known then 1 else 0)
  | none => .truth none

namespace Value

def truthOf : Value → Truth
  | int number => some (number != 0)
  | truth decided => decided

def intOf : Value → Option (BitVec 64)
  | int number => some number
  | truth _ => none

/-- The integer of a computation, if it has one. -/
def known (number : Option (BitVec 64)) : Value := number.elim (.truth none) .int

end Value

section Tokens

inductive Punct where
  | shl | shr | le | ge | eq | ne | andAnd | orOr | plus | minus | star | slash | percent | lt | gt | amp | caret | bar
  | bang | tilde | question | colon | opening | closing | comma
  deriving DecidableEq

def Punct.spelling : Punct → String
  | shl => "<<"
  | shr => ">>"
  | le => "<="
  | ge => ">="
  | eq => "=="
  | ne => "!="
  | andAnd => "&&"
  | orOr => "||"
  | plus => "+"
  | minus => "-"
  | star => "*"
  | slash => "/"
  | percent => "%"
  | lt => "<"
  | gt => ">"
  | amp => "&"
  | caret => "^"
  | bar => "|"
  | bang => "!"
  | tilde => "~"
  | question => "?"
  | colon => ":"
  | opening => "("
  | closing => ")"
  | comma => ","

/-- The operators in the order in which they are tried. -/
def punctuators : List Punct :=
  [.shl, .shr, .le, .ge, .eq, .ne, .andAnd, .orOr, .plus, .minus, .star, .slash, .percent, .lt, .gt, .amp, .caret, .bar,
    .bang, .tilde, .question, .colon, .opening, .closing, .comma]

inductive Token where
  /-- A number that cannot be read has no value. -/
  | number (value : Option (BitVec 64))
  | word (name : Text)
  | punct (mark : Punct)
  /-- A literal, or a character that no operator uses. -/
  | opaqueText
  deriving DecidableEq

def toDigit (radix : Nat) (c : Char) : Option Nat :=
  let digit :=
    if '0' ≤ c ∧ c ≤ '9' then c.toNat - '0'.toNat
    else if 'a' ≤ c ∧ c ≤ 'z' then c.toNat - 'a'.toNat + 10
    else if 'A' ≤ c ∧ c ≤ 'Z' then c.toNat - 'A'.toNat + 10
    else radix
  if digit < radix then some digit else none

def readDigits (radix : Nat) (digits : Text) : Option Nat :=
  digits.foldl (fun read c => read.bind fun number => (toDigit radix c).map fun digit => number * radix + digit)
    (some 0)

/-- The number that an unsigned text spells, if it is one of 64 bits with a sign. -/
def fromStrRadix (radix : Nat) (body : Text) : Option (BitVec 64) :=
  if body = [] then none
  else (readDigits radix body).bind fun number => if number < 2 ^ 63 then some (BitVec.ofNat 64 number) else none

def isSuffix (c : Char) : Bool := ['u', 'U', 'l', 'L', 'z', 'Z'].contains c

/-- The radix of a literal without separators, and its digits. -/
def radixOf (digits : Text) : Nat × Text :=
  match digits with
  | '0' :: 'x' :: hex => (16, hex)
  | '0' :: 'X' :: hex => (16, hex)
  | '0' :: 'b' :: binary => (2, binary)
  | '0' :: 'B' :: binary => (2, binary)
  | '0' :: c :: octal => (8, c :: octal)
  | digits => (10, digits)

def integerLiteral (text : Text) : Option (BitVec 64) :=
  let digits := (text.rdropWhile isSuffix).filter (· ≠ '\'')
  fromStrRadix (radixOf digits).1 (radixOf digits).2

def isNumberChar (c : Char) : Bool := isWord c || c = '\'' || c = '.'

/-- The text behind a literal, from behind its opening quote. -/
def behindLiteral (quote : Char) : Text → Text
  | [] => []
  | c :: rest =>
    if c = quote then rest else if c = '\\' then behindLiteral quote rest.tail else behindLiteral quote rest
termination_by text => text.length
decreasing_by
  · rw [List.length_tail, List.length_cons]
    omega
  · exact Nat.lt_succ_self _

theorem behindLiteral_le (quote : Char) (text : Text) : (behindLiteral quote text).length ≤ text.length := by
  fun_induction behindLiteral quote text with
  | case1 => exact Nat.le_refl _
  | case2 rest => exact Nat.le_succ _
  | case3 rest _ ih =>
    rw [List.length_tail] at ih
    rw [List.length_cons]
    omega
  | case4 c rest _ _ ih => exact Nat.le_succ_of_le ih

/-- The operator that a text starts with. -/
def punctuator (text : Text) : Option Punct := punctuators.find? fun mark => mark.spelling.toList.isPrefixOf text

def tokens (expression : Text) : List Token :=
  match expression with
  | [] => []
  | c :: rest =>
    if isAsciiWhitespace c then tokens rest
    else if isAsciiDigit c then
      .number (integerLiteral (c :: rest.takeWhile isNumberChar)) :: tokens (rest.dropWhile isNumberChar)
    else if isWord c then .word (c :: rest.takeWhile isWord) :: tokens (rest.dropWhile isWord)
    else if c = '"' ∨ c = '\'' then .opaqueText :: tokens (behindLiteral c rest)
    else match punctuator (c :: rest) with
      | some mark => .punct mark :: tokens (rest.drop (mark.spelling.length - 1))
      | none => .opaqueText :: tokens rest
termination_by expression.length
decreasing_by
  all_goals rw [List.length_cons]
  · exact Nat.lt_succ_self _
  · exact Nat.lt_succ_of_le (List.dropWhile_suffix _).length_le
  · exact Nat.lt_succ_of_le (List.dropWhile_suffix _).length_le
  · exact Nat.lt_succ_of_le (behindLiteral_le _ _)
  · exact Nat.lt_succ_of_le (List.drop_suffix _ _).length_le
  · exact Nat.lt_succ_self _

end Tokens

section Arithmetic

def binaryPrecedence : Punct → Option Nat
  | .orOr => some 1
  | .andAnd => some 2
  | .bar => some 3
  | .caret => some 4
  | .amp => some 5
  | .eq | .ne => some 6
  | .lt | .le | .gt | .ge => some 7
  | .shl | .shr => some 8
  | .plus | .minus => some 9
  | .star | .slash | .percent => some 10
  | _ => none

variable (a b : BitVec 64)

def checkedMul : Option (BitVec 64) := if BitVec.smulOverflow a b then none else some (a * b)

/-- Division by zero and the quotient that no number of 64 bits is have no result. -/
def checkedDiv : Option (BitVec 64) := if b = 0 ∨ BitVec.sdivOverflow a b then none else some (a.sdiv b)

def checkedRem : Option (BitVec 64) := if b = 0 ∨ BitVec.sdivOverflow a b then none else some (a.srem b)

def checkedAdd : Option (BitVec 64) := if BitVec.saddOverflow a b then none else some (a + b)

def checkedSub : Option (BitVec 64) := if BitVec.ssubOverflow a b then none else some (a - b)

def checkedNeg : Option (BitVec 64) := if BitVec.negOverflow a then none else some (-a)

/-- Only the distance is checked. -/
def checkedShl : Option (BitVec 64) := if 0 ≤ b.toInt ∧ b.toInt < 64 then some (a <<< b.toNat) else none

def checkedShr : Option (BitVec 64) := if 0 ≤ b.toInt ∧ b.toInt < 64 then some (a.sshiftRight b.toNat) else none

def arithmetic : Punct → Option (BitVec 64)
  | .star => checkedMul a b
  | .slash => checkedDiv a b
  | .percent => checkedRem a b
  | .plus => checkedAdd a b
  | .minus => checkedSub a b
  | .shl => checkedShl a b
  | .shr => checkedShr a b
  | .lt => some (ofBool (a.slt b))
  | .le => some (ofBool (a.sle b))
  | .gt => some (ofBool (b.slt a))
  | .ge => some (ofBool (b.sle a))
  | .eq => some (ofBool (a == b))
  | .ne => some (ofBool (a != b))
  | .amp => some (a &&& b)
  | .caret => some (a ^^^ b)
  | .bar => some (a ||| b)
  | _ => none

def combine (op : Punct) (left right : Value) : Value :=
  match op with
  | .orOr => logical (.or left.truthOf right.truthOf)
  | .andAnd => logical (.and left.truthOf right.truthOf)
  | op => .known (left.intOf.bind fun a => right.intOf.bind fun b => arithmetic a b op)

def isUnary (op : Punct) : Bool := [.bang, .tilde, .minus, .plus].contains op

def applyUnary (op : Punct) (value : Value) : Value :=
  match op with
  | .bang => logical (.not value.truthOf)
  | .tilde => .known (value.intOf.map (~~~ ·))
  | .minus => .known (value.intOf.bind checkedNeg)
  | _ => .known value.intOf

/-- With an unknown condition a choice is known only where both branches agree. -/
def select (condition yes no : Value) : Value :=
  match condition.truthOf with
  | some true => yes
  | some false => no
  | none => match yes.intOf, no.intOf with
    | some a, some b => if a = b then .int a else .truth none
    | _, _ => .truth none

end Arithmetic

section Parser

/-- Behind one balanced group, whatever it holds. -/
def skipGroup : Nat → List Token → Option (List Token)
  | _, [] => none
  | depth, token :: rest =>
    if token = .punct .opening then skipGroup (depth + 1) rest
    else if token = .punct .closing then
      match depth with
      | 0 => none
      | 1 => some rest
      | depth + 1 => skipGroup depth rest
    else skipGroup depth rest

theorem skipGroup_shorter {depth : Nat} {tokens rest : List Token} (skipped : skipGroup depth tokens = some rest) :
    rest.length < tokens.length := by
  fun_induction skipGroup depth tokens with
  | case1 => cases skipped
  | case2 _ _ ih => exact Nat.lt_succ_of_lt (ih skipped)
  | case3 => cases skipped
  | case4 =>
    obtain rfl := Option.some.inj skipped
    exact Nat.lt_succ_self _
  | case5 _ _ _ _ ih => exact Nat.lt_succ_of_lt (ih skipped)
  | case6 _ _ _ _ _ ih => exact Nat.lt_succ_of_lt (ih skipped)

/-- An operand, and fewer tokens behind it than there were before it. -/
structure Parsed (tokens : List Token) where
  value : Value
  rest : List Token
  shorter : rest.length < tokens.length

/-- An operand with the operators behind it, and the tokens behind these. -/
structure Climbed (tokens : List Token) where
  value : Value
  rest : List Token
  short : rest.length ≤ tokens.length

namespace Parsed

variable {tokens inner : List Token}

def within (parsed : Parsed inner) (inside : inner.length ≤ tokens.length) : Parsed tokens :=
  ⟨parsed.value, parsed.rest, Nat.lt_of_lt_of_le parsed.shorter inside⟩

def map (change : Value → Value) (parsed : Parsed tokens) : Parsed tokens :=
  { parsed with value := change parsed.value }

/-- The operand with the mark that has to follow it. -/
def eat (mark : Punct) (parsed : Parsed tokens) : Option (Parsed tokens) :=
  match parsed with
  | ⟨value, .punct found :: rest, shorter⟩ =>
    if found = mark then some ⟨value, rest, Nat.lt_of_succ_lt shorter⟩ else none
  | _ => none

theorem behind_shorter {token : Token} (parsed : Parsed tokens) (found : parsed.rest = token :: inner) :
    inner.length + 1 < tokens.length := by
  have shorter := parsed.shorter
  rwa [found, List.length_cons] at shorter

end Parsed

variable (name : Text → NameState)

/-- What `defined` tests, with or without parentheses. -/
def definedOperand (tokens : List Token) : Option (Parsed tokens) :=
  match tokens with
  | .punct .opening :: .word word :: .punct .closing :: rest => some ⟨logical (name word).defined, rest, by simp; omega⟩
  | .word word :: rest => some ⟨logical (name word).defined, rest, by simp⟩
  | _ => none

def wordValue (word : Text) : Value :=
  if (name word).defined = some false then .int 0 else .truth (name word).value

/-- Fewer tokens leave room for every function of the parser. -/
theorem room {fewer more level deeper : Nat} (shorter : fewer < more) (small : level < 4) :
    4 * fewer + level < 4 * more + deeper := by omega

mutual

def ternary (tokens : List Token) : Option (Parsed tokens) := do
  let condition ← binary 1 tokens
  match _ : condition.rest with
  | .punct .question :: behind =>
    let yes ← ternary behind
    let yes ← yes.eat .colon
    let no ← ternary yes.rest
    return (no.map (select condition.value yes.value)).within
      (Nat.le_of_lt (Nat.lt_trans yes.shorter (Nat.lt_of_succ_lt (condition.behind_shorter ‹_›))))
  | _ => return condition
termination_by 4 * tokens.length + 3
decreasing_by
  · exact Nat.lt_succ_self _
  · exact room (Nat.lt_of_succ_lt (condition.behind_shorter ‹_›)) (by decide)
  · exact room (Nat.lt_trans yes.shorter (Nat.lt_of_succ_lt (condition.behind_shorter ‹_›))) (by decide)

def binary (minimum : Nat) (tokens : List Token) : Option (Parsed tokens) := do
  let left ← unary tokens
  let climbed ← climb minimum left.value left.rest
  return ⟨climbed.value, climbed.rest, Nat.lt_of_le_of_lt climbed.short left.shorter⟩
termination_by 4 * tokens.length + 2
decreasing_by
  · exact Nat.lt_succ_self _
  · exact room left.shorter (by decide)

/-- The operators of at least a precedence behind an operand. -/
def climb (minimum : Nat) (left : Value) (tokens : List Token) : Option (Climbed tokens) :=
  match tokens with
  | .punct op :: behind =>
    match binaryPrecedence op with
    | some precedence =>
      if precedence ≥ minimum then do
        let right ← binary (precedence + 1) behind
        let climbed ← climb minimum (combine op left right.value) right.rest
        return ⟨climbed.value, climbed.rest,
          Nat.le_succ_of_le (Nat.le_trans climbed.short (Nat.le_of_lt right.shorter))⟩
      else some ⟨left, .punct op :: behind, Nat.le_refl _⟩
    | none => some ⟨left, .punct op :: behind, Nat.le_refl _⟩
  | tokens => some ⟨left, tokens, Nat.le_refl _⟩
termination_by 4 * tokens.length + 2
decreasing_by
  · exact room (Nat.lt_succ_self _) (by decide)
  · exact room (Nat.lt_succ_of_lt right.shorter) (by decide)

def unary (tokens : List Token) : Option (Parsed tokens) :=
  match tokens with
  | .punct op :: rest =>
    if isUnary op then (unary rest).map fun value => (value.map (applyUnary op)).within (Nat.le_succ _)
    else primary (.punct op :: rest)
  | tokens => primary tokens
termination_by 4 * tokens.length + 1
decreasing_by
  · exact room (Nat.lt_succ_self _) (by decide)
  · exact Nat.lt_succ_self _
  · exact Nat.lt_succ_self _

def primary (tokens : List Token) : Option (Parsed tokens) :=
  match tokens with
  | [] => none
  | .number number :: rest => some ⟨.known number, rest, Nat.lt_succ_self _⟩
  | .punct .opening :: rest => do
      let value ← ternary rest
      let value ← value.eat .closing
      return value.within (Nat.le_succ _)
  | .punct _ :: _ => none
  | .word word :: rest =>
    if word = "defined".toList then (definedOperand name rest).map (·.within (Nat.le_succ _))
    else if rest.head? = some (.punct .opening) then
      match _ : skipGroup 0 rest with
      | some behind => some ⟨.truth none, behind, Nat.lt_succ_of_lt (skipGroup_shorter ‹_›)⟩
      | none => none
    else some ⟨wordValue name word, rest, Nat.lt_succ_self _⟩
  | .opaqueText :: rest => some ⟨.truth none, rest, Nat.lt_succ_self _⟩
termination_by 4 * tokens.length + 0
decreasing_by exact room (Nat.lt_succ_self _) (by decide)

end

def evaluate (expression : Text) (name : Text → NameState) : Truth := do
  let parsed ← ternary name (tokens expression)
  if parsed.rest = [] then parsed.value.truthOf else none

example : evaluate "1 + 2 * 3 == 7 && (FLAG || 0x10 >> 2 == 4)".toList (fun _ => {}) = some true := by decide +kernel

end Parser

end Codegraph.Macros
