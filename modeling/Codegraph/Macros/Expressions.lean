import Codegraph.Macros.Conditions
import Mathlib.Data.List.Chain

/- This file reads the expression of an `#if` as C reads it, by its own tokens and grammar. -/

namespace Codegraph.Macros
open Watch.Scope (Text)
open Cpp.CodeClasses (isAsciiDigit isAsciiWhitespace)
open Cpp.Flattening (isWord)
open CExpressions List

section Lexing

inductive CToken where
  | identifier (name : Text)
  | number (text : Text)
  | character (text : Text)
  | punct (mark : Punct)
  /-- A string literal, or a character that no operator uses. -/
  | stray
  /-- A longer token that no expression holds. -/
  | foreign
  deriving DecidableEq

/-- The text behind a preprocessing number, from behind its first character. -/
def behindNumber (last : Char) : Text → Text
  | [] => []
  | c :: rest =>
    if isWord c ∨ c = '.' then behindNumber c rest
    else if (c = '+' ∨ c = '-') ∧ ['e', 'E', 'p', 'P'].contains last then behindNumber c rest
    else if c = '\'' ∧ rest.head?.any isWord then behindNumber c rest
    else c :: rest

theorem behindNumber_le (last : Char) (text : Text) : (behindNumber last text).length ≤ text.length := by
  induction text generalizing last with
  | nil => exact Nat.le_refl _
  | cons c rest ih =>
    rw [behindNumber]
    split_ifs
    · exact Nat.le_succ_of_le (ih c)
    · exact Nat.le_succ_of_le (ih c)
    · exact Nat.le_succ_of_le (ih c)
    · exact Nat.le_refl _

/-- The operators and punctuators of C that are longer than the ones of an expression. -/
def foreignMarks : List String :=
  ["%:%:", "...", "<<=", ">>=", "->", "++", "--", "*=", "/=", "%=", "+=", "-=", "&=", "^=", "|=", "##", "<:", ":>",
    "<%", "%>", "%:"]

/-- The longest operator that a text starts with. -/
def cMark (text : Text) : Option (Option Punct × Nat) :=
  match foreignMarks.find? fun mark => mark.toList.isPrefixOf text with
  | some mark => some (none, mark.length)
  | none => (punctuator text).map fun mark => (some mark, mark.spelling.length)

/-- A number that starts with a digit and has no sign. -/
def isPlainNumber (text : Text) : Bool :=
  text.head?.any isAsciiDigit && text.all fun c => isWord c || c = '.' || c = '\''

def cTokens (text : Text) : List CToken :=
  match text with
  | [] => []
  | c :: rest =>
    if isAsciiWhitespace c then cTokens rest
    else if isAsciiDigit c ∨ c = '.' ∧ rest.head?.any isAsciiDigit then
      let behind := behindNumber c rest
      let number := (c :: rest).take ((c :: rest).length - behind.length)
      (if isPlainNumber number then .number number else .foreign) :: cTokens behind
    else if isWord c then .identifier (c :: rest.takeWhile isWord) :: cTokens (rest.dropWhile isWord)
    else if c = '\'' then
      let behind := behindLiteral c rest
      .character ((c :: rest).take ((c :: rest).length - behind.length)) :: cTokens behind
    else if c = '"' then .stray :: cTokens (behindLiteral c rest)
    else match cMark (c :: rest) with
      | some (some mark, length) => .punct mark :: cTokens (rest.drop (length - 1))
      | some (none, length) => .foreign :: cTokens (rest.drop (length - 1))
      | none => .stray :: cTokens rest
termination_by text.length
decreasing_by
  all_goals rw [List.length_cons]
  · exact Nat.lt_succ_self _
  · exact Nat.lt_succ_of_le (behindNumber_le _ _)
  · exact Nat.lt_succ_of_le (List.dropWhile_suffix _).length_le
  · exact Nat.lt_succ_of_le (behindLiteral_le _ _)
  · exact Nat.lt_succ_of_le (behindLiteral_le _ _)
  · exact Nat.lt_succ_of_le (List.drop_suffix _ _).length_le
  · exact Nat.lt_succ_of_le (List.drop_suffix _ _).length_le
  · exact Nat.lt_succ_self _

end Lexing

section Constants

/-- The radix that the prefix of a constant names, and its digits and suffix. -/
def constantParts (text : Text) : Nat × Text :=
  match text with
  | '0' :: 'x' :: hex | '0' :: 'X' :: hex => (16, hex)
  | '0' :: 'b' :: binary | '0' :: 'B' :: binary => (2, binary)
  | '0' :: octal => (8, '0' :: octal)
  | decimal => (10, decimal)

/-- Digits, with separators between two of them. -/
def areDigits (radix : Nat) : Text → Bool
  | [] => false
  | [c] => (toDigit radix c).isSome
  | c :: d :: rest =>
    (toDigit radix c).isSome && if d = '\'' then areDigits radix rest else areDigits radix (d :: rest)

def digitsValue (radix : Nat) (digits : Text) : Nat :=
  digits.foldl (fun number c => number * radix + (toDigit radix c).getD 0) 0

/-- The suffixes of an integer constant. Those of a size are from C++. -/
def integerSuffixes : List String :=
  ["", "l", "L", "ll", "LL", "z", "Z", "u", "U", "ul", "uL", "Ul", "UL", "ull", "uLL", "Ull", "ULL", "lu", "lU", "Lu",
    "LU",
    "llu", "llU", "LLu", "LLU", "uz", "uZ", "Uz", "UZ", "zu", "zU", "Zu", "ZU"]

/-- The value of an integer constant, and whether its suffix makes it unsigned. -/
def integerConstant (text : Text) : Option (Nat × Bool) :=
  let parts := constantParts text
  let digits := parts.2.takeWhile fun c => (toDigit parts.1 c).isSome || c = '\''
  let suffix := parts.2.dropWhile fun c => (toDigit parts.1 c).isSome || c = '\''
  if areDigits parts.1 digits ∧ integerSuffixes.any (·.toList = suffix) then
    some (digitsValue parts.1 (digits.filter (· ≠ '\'')), suffix.any fun c => c = 'u' || c = 'U')
  else none

/-- The number of a constant. One that does not fit with a sign has none, unless it does not fit at all. -/
def constantNumber (text : Text) : Option Number :=
  (integerConstant text).bind fun (value, unsigned) =>
    if value < 2 ^ 64 then some ⟨BitVec.ofNat 64 value, unsigned || 2 ^ 63 ≤ value⟩ else none

variable {radix : Nat} {digits text : Text} {c : Char}

theorem notSuffix_of_toDigit (small : radix ≤ 16) (digit : (toDigit radix c).isSome) : isSuffix c = false := by
  by_contra suffix
  rw [Bool.not_eq_false, isSuffix, contains_iff_mem] at suffix
  have large (value : Nat) (le : 16 ≤ value)
    (same : toDigit radix c = if value < radix then some value else none) : False := by
    rw [same, if_neg (by omega)] at digit
    cases digit
  simp only [mem_cons, not_mem_nil, or_false] at suffix
  rcases suffix with rfl | rfl | rfl | rfl | rfl | rfl
  · exact large 30 (by decide) rfl
  · exact large 30 (by decide) rfl
  · exact large 21 (by decide) rfl
  · exact large 21 (by decide) rfl
  · exact large 35 (by decide) rfl
  · exact large 35 (by decide) rfl

theorem areDigits_ends (valid : areDigits radix digits) :
    digits.head?.any (fun c => (toDigit radix c).isSome) ∧ digits.getLast?.any fun c => (toDigit radix c).isSome := by
  fun_induction areDigits radix digits with
  | case1 => cases valid
  | case2 c => exact ⟨valid, valid⟩
  | case3 c d rest behind here =>
    obtain ⟨first, later⟩ := Bool.and_eq_true_iff.mp valid
    rw [getLast?_cons_cons]
    refine ⟨first, ?_⟩
    split at later
    · have last := (behind later).2
      cases rest with
      | nil => cases last
      | cons e rest => rwa [getLast?_cons_cons]
    · exact (here later).2

/-- Valid digits are read as their value. -/
theorem readDigits_eq (valid : ∀ c ∈ digits, (toDigit radix c).isSome) :
    readDigits radix digits = some (digitsValue radix digits) := by
  have read (start : Nat) :
      digits.foldl (fun read c => read.bind fun number => (toDigit radix c).map fun digit => number * radix + digit)
        (some start) =
        some (digits.foldl (fun number c => number * radix + (toDigit radix c).getD 0) start) := by
    induction digits generalizing start with
    | nil => rfl
    | cons c digits ih =>
      obtain ⟨digit, found⟩ := Option.isSome_iff_exists.mp (valid c (mem_cons_self ..))
      rw [foldl_cons, foldl_cons, Option.bind_some, found, Option.map_some, Option.getD_some]
      exact ih (fun d member => valid d (mem_cons_of_mem _ member)) _
  exact read 0

theorem fromStrRadix_eq (some_ : digits ≠ []) (valid : ∀ c ∈ digits, (toDigit radix c).isSome) :
    fromStrRadix radix digits =
      if digitsValue radix digits < 2 ^ 63 then some (BitVec.ofNat 64 (digitsValue radix digits)) else none := by
  rw [fromStrRadix, if_neg some_, readDigits_eq valid, Option.bind_some]

/-- The digits of a constant and its suffix. -/
theorem trim_constant {front suffix : Text} (small : radix ≤ 16) (valid : areDigits radix digits)
    (known : ∀ c ∈ suffix, isSuffix c) : (front ++ (digits ++ suffix)).rdropWhile isSuffix = front ++ digits := by
  rw [← append_assoc, rdropWhile, reverse_append,
    dropWhile_append_of_pos fun c member => known c (mem_reverse.mp member)]
  refine rdropWhile_eq_self_iff.mpr fun some_ => ?_
  have last := (areDigits_ends valid).2
  cases digits with
  | nil => cases valid
  | cons c digits =>
    rw [getLast_append_of_right_ne_nil _ _ (cons_ne_nil c digits)]
    rw [getLast?_eq_some_getLast (cons_ne_nil c digits), Option.any_some] at last
    rw [notSuffix_of_toDigit small last]
    exact Bool.false_ne_true

theorem radixOf_octal (octal : ∀ c ∈ digits.head?, (toDigit 8 c).isSome) (some_ : digits ≠ []) :
    radixOf ('0' :: digits) = (8, digits) := by
  cases digits with
  | nil => exact absurd rfl some_
  | cons c digits =>
    have digit := octal c rfl
    have other {d : Char} (bad : toDigit 8 d = none) : c ≠ d := by
      rintro rfl
      rw [bad] at digit
      cases digit
    have x := other (show toDigit 8 'x' = none by decide)
    have X := other (show toDigit 8 'X' = none by decide)
    have b := other (show toDigit 8 'b' = none by decide)
    have B := other (show toDigit 8 'B' = none by decide)
    simp [radixOf]

theorem radixOf_decimal (other : digits.head? ≠ some '0') : radixOf digits = (10, digits) := by
  cases digits with
  | nil => rfl
  | cons c digits =>
    have first : c ≠ '0' := fun same => other (congrArg some same)
    simp [radixOf, first]

/-- A constant of C is read as its value, if that is a number with a sign. -/
theorem integerLiteral_constant {value : Nat} {unsigned : Bool}
    (reads : integerConstant text = some (value, unsigned)) :
    integerLiteral text = if value < 2 ^ 63 then some (BitVec.ofNat 64 value) else none := by
  simp only [integerConstant] at reads
  split at reads
  case isFalse => cases reads
  rename_i valid
  obtain ⟨valid, known⟩ := valid
  cases reads
  generalize parts : constantParts text = split at valid known ⊢
  obtain ⟨radix, body⟩ := split
  simp only at valid known ⊢
  generalize front : body.takeWhile (fun c => (toDigit radix c).isSome || decide (c = '\'')) = digits at valid
  generalize back : body.dropWhile (fun c => (toDigit radix c).isSome || decide (c = '\'')) = suffix at known
  have whole : digits ++ suffix = body := front ▸ back ▸ takeWhile_append_dropWhile
  have suffixes : ∀ c ∈ suffix, isSuffix c := by
    obtain ⟨spelling, member, same⟩ := any_eq_true.mp known
    rw [← of_decide_eq_true same]
    have all : ∀ spelling ∈ integerSuffixes, spelling.toList.all isSuffix := by decide
    exact all_eq_true.mp (all spelling member)
  have inner : ∀ c ∈ digits.filter (· ≠ '\''), (toDigit radix c).isSome := by
    intro c member
    obtain ⟨inside, other⟩ := mem_filter.mp member
    rw [← front] at inside
    have taken := mem_takeWhile_imp inside
    rw [Bool.or_eq_true] at taken
    exact taken.resolve_right fun quote => of_decide_eq_true other (of_decide_eq_true quote)
  have head : ∃ c rest, digits = c :: rest ∧ (toDigit radix c).isSome := by
    have first := (areDigits_ends valid).1
    cases digits with
    | nil => cases first
    | cons c rest => exact ⟨c, rest, rfl, first⟩
  obtain ⟨c, rest, rfl, first⟩ := head
  have solid : c ≠ '\'' := by
    rintro rfl
    have none : toDigit radix '\'' = none := by simp [toDigit]
    rw [none] at first
    cases first
  have kept : (c :: rest).filter (· ≠ '\'') = c :: rest.filter (· ≠ '\'') :=
    filter_cons_of_pos (by simpa using solid)
  rw [← fromStrRadix_eq (kept ▸ cons_ne_nil _ _) inner]
  have trimmed (front : Text) (small : radix ≤ 16) : (front ++ body).rdropWhile isSuffix = front ++ c :: rest :=
    whole ▸ trim_constant small valid suffixes
  unfold constantParts at parts
  split at parts
  case h_1 =>
    cases parts
    rw [integerLiteral, show '0' :: 'x' :: body = ['0', 'x'] ++ body from rfl, trimmed _ (by decide),
      filter_append]
    rfl
  case h_2 =>
    cases parts
    rw [integerLiteral, show '0' :: 'X' :: body = ['0', 'X'] ++ body from rfl, trimmed _ (by decide),
      filter_append]
    rfl
  case h_3 =>
    cases parts
    rw [integerLiteral, show '0' :: 'b' :: body = ['0', 'b'] ++ body from rfl, trimmed _ (by decide),
      filter_append]
    rfl
  case h_4 =>
    cases parts
    rw [integerLiteral, show '0' :: 'B' :: body = ['0', 'B'] ++ body from rfl, trimmed _ (by decide),
      filter_append]
    rfl
  case h_5 octal _ _ _ _ =>
    cases parts
    have zero : c = '0' := (cons.inj whole).1
    subst zero
    have read := trimmed [] (by decide)
    rw [nil_append, nil_append] at read
    rw [integerLiteral, read, kept]
    rw [kept] at inner
    by_cases alone : rest.filter (· ≠ '\'') = []
    · rw [alone]
      rfl
    · rw [radixOf_octal (fun d member => inner d (mem_cons_of_mem _ (mem_of_mem_head? member))) alone]
      rw [fromStrRadix_eq alone fun d member => inner d (mem_cons_of_mem _ member),
        fromStrRadix_eq (cons_ne_nil _ _) inner]
      rfl
  case h_6 notOctal =>
    cases parts
    have read := trimmed [] (by decide)
    rw [nil_append, nil_append] at read
    rw [integerLiteral, read, kept, radixOf_decimal]
    intro same
    have zero := Option.some.inj same
    subst zero
    exact notOctal (rest ++ suffix) whole.symm

end Constants

section Grammar

/-- An operand of an expression. -/
inductive Operand where
  | constant (number : Number)
  | character (text : Text)
  | name (name : Text)
  | defined (name : Text)
  | call (name : Text) (group : List CToken)

/-- The binary operators by their precedence, which grows with the level. -/
def operatorsAt : Nat → List (Punct × BinaryOp)
  | 1 => [(.orOr, .or)]
  | 2 => [(.andAnd, .and)]
  | 3 => [(.bar, .bitOr)]
  | 4 => [(.caret, .bitXor)]
  | 5 => [(.amp, .bitAnd)]
  | 6 => [(.eq, .eq), (.ne, .ne)]
  | 7 => [(.lt, .lt), (.le, .le), (.gt, .gt), (.ge, .ge)]
  | 8 => [(.shl, .shl), (.shr, .shr)]
  | 9 => [(.plus, .add), (.minus, .sub)]
  | 10 => [(.star, .mul), (.slash, .div), (.percent, .rem)]
  | _ => []

def unaryOperators : List (Punct × UnaryOp) := [(.bang, .not), (.tilde, .complement), (.minus, .neg), (.plus, .plus)]

/-- The parentheses of some tokens inside of a group are balanced. -/
def balanced : Nat → List CToken → Bool
  | depth, [] => depth = 0
  | depth, token :: rest =>
    if token = .punct .opening then balanced (depth + 1) rest
    else if token = .punct .closing then depth ≠ 0 && balanced (depth - 1) rest
    else balanced depth rest

/-- No token is foreign to expressions, and no literal stands directly behind a number. -/
def Plain (tokens : List CToken) : Prop :=
  .foreign ∉ tokens ∧ tokens.IsChain fun token next => ∀ text, token = .number text →
    ∀ literal, next ≠ .character literal

/-- What the tokens of an expression say, from the conditional at level 0 over the binary operators to an operand at
level 12. -/
inductive Derives : Nat → List CToken → Expr Operand → Prop
  | conditional {first second third condition yes no} (tested : Derives 1 first condition)
  (chosen : Derives 0 second yes)
      (otherwise : Derives 0 third no) :
      Derives 0 (first ++ .punct .question :: (second ++ .punct .colon :: third)) (.conditional condition yes no)
  | narrower {level tokens expr} (inner : Derives (level + 1) tokens expr) : Derives level tokens expr
  | binary {level mark op first second left right}
      (known : (mark, op) ∈ operatorsAt level) (leftward : Derives level first left)
      (rightward : Derives (level + 1) second right) :
      Derives level (first ++ .punct mark :: second) (.binary op left right)
  | unary {mark op tokens operand} (known : (mark, op) ∈ unaryOperators) (inner : Derives 11 tokens operand) :
      Derives 11 (.punct mark :: tokens) (.unary op operand)
  | parentheses {tokens expr} (inner : Derives 0 tokens expr) :
      Derives 12 (.punct .opening :: (tokens ++ [.punct .closing])) expr
  | constant {text number} (reads : constantNumber text = some number) :
      Derives 12 [.number text] (.leaf (.constant number))
  | character {text} : Derives 12 [.character text] (.leaf (.character text))
  | name {name} (other : name ≠ "defined".toList) : Derives 12 [.identifier name] (.leaf (.name name))
  | defined {name} : Derives 12 [.identifier "defined".toList, .identifier name] (.leaf (.defined name))
  | definedIn {name} :
      Derives 12 [.identifier "defined".toList, .punct .opening, .identifier name, .punct .closing]
        (.leaf (.defined name))
  | call {name group} (other : name ≠ "defined".toList) (plain : Plain group) (closes : balanced 0 group) :
      Derives 12 (.identifier name :: .punct .opening :: (group ++ [.punct .closing])) (.leaf (.call name group))

/-- C reads a text as an expression. -/
def Reads (text : Text) (expr : Expr Operand) : Prop := Derives 0 (cTokens text) expr

end Grammar

section Assignments

/-- What a build makes of the operands: a name without a number is not defined. -/
structure Assignment where
  name : Text → Option Number
  character : Text → BitVec 64
  call : Text → List CToken → Number

def Assignment.number (assignment : Assignment) : Operand → Number
  | .constant number => number
  | .character text => ⟨assignment.character text, false⟩
  | .name name => (assignment.name name).getD ⟨0, false⟩
  | .defined name => ⟨CExpressions.ofBool (assignment.name name).isSome, false⟩
  | .call name group => assignment.call name group

/-- The truth of an expression, where it is defined. -/
def Assignment.truth (assignment : Assignment) (expr : Expr Operand) : Option Bool :=
  (expr.eval assignment.number).map (· != 0)

/-- What is known of the names holds in a build. -/
structure Assignment.Agrees (assignment : Assignment) (states : Text → NameState) : Prop where
  defined : ∀ name truth, (states name).defined = some truth → (assignment.name name).isSome = truth
  value : ∀ name truth, (states name).value = some truth → (((assignment.name name).getD ⟨0, false⟩).bits != 0) = truth

end Assignments

section Lockstep

/-- A token as it is read for a condition. -/
def CToken.read : CToken → Token
  | identifier name => .word name
  | number text => .number (integerLiteral text)
  | punct mark => .punct mark
  | character _ | stray | foreign => .opaqueText

theorem behindNumber_suffix (last : Char) (text : Text) : behindNumber last text <:+ text := by
  induction text generalizing last with
  | nil => exact suffix_rfl
  | cons c rest ih =>
    rw [behindNumber]
    split_ifs
    · exact (ih c).trans (suffix_cons c rest)
    · exact (ih c).trans (suffix_cons c rest)
    · exact (ih c).trans (suffix_cons c rest)
    · exact suffix_rfl

theorem behindNumber_head {last c : Char} {text rest : Text} (stops : behindNumber last text = c :: rest) :
    isWord c = false ∧ c ≠ '.' := by
  induction text generalizing last with
  | nil => cases stops
  | cons d text ih =>
    rw [behindNumber] at stops
    split_ifs at stops with more
    · exact ih stops
    · exact ih stops
    · exact ih stops
    · cases stops
      exact ⟨Bool.eq_false_iff.mpr fun word => more (.inl word), fun dot => more (.inr dot)⟩

/-- A plain number ends where a number ends for a condition, unless a literal follows. -/
theorem number_split {c : Char} {rest behind : Text} (suffix : behind <:+ rest)
    (plain : isPlainNumber ((c :: rest).take ((c :: rest).length - behind.length)))
    (ends : ∀ d ∈ behind.head?, isNumberChar d = false) : rest.dropWhile isNumberChar = behind ∧
      c :: rest.takeWhile isNumberChar = (c :: rest).take ((c :: rest).length - behind.length) ∧ isAsciiDigit c := by
  obtain ⟨front, rfl⟩ := suffix
  have front_eq : (c :: (front ++ behind)).take ((c :: (front ++ behind)).length - behind.length) = c :: front := by
    rw [length_cons, length_append,
      show front.length + behind.length + 1 - behind.length = front.length + 1 by omega,
      take_succ_cons, take_left']
    rfl
  rw [front_eq] at plain ⊢
  rw [isPlainNumber, Bool.and_eq_true, head?_cons, Option.any_some, all_cons, Bool.and_eq_true] at plain
  have inner : ∀ d ∈ front, isNumberChar d = true := by
    intro d member
    have found := all_eq_true.mp plain.2.2 d member
    simpa [isNumberChar, or_assoc, or_comm, or_left_comm] using found
  have stop : behind.takeWhile isNumberChar = [] ∧ behind.dropWhile isNumberChar = behind := by
    cases behind with
    | nil => exact ⟨rfl, rfl⟩
    | cons d behind =>
      have out := ends d rfl
      exact ⟨takeWhile_cons_of_neg (by simp [out]), dropWhile_cons_of_neg (by simp [out])⟩
  refine ⟨?_, ?_, plain.1⟩
  · rw [dropWhile_append_of_pos inner, stop.2]
  · rw [takeWhile_append_of_pos inner, stop.1, append_nil]

theorem Plain.tail {token : CToken} {rest : List CToken} (plain : Plain (token :: rest)) : Plain rest :=
  ⟨fun member => plain.1 (mem_cons_of_mem _ member), plain.2.of_cons⟩

theorem cTokens_quote (tail : Text) : ∃ literal later, cTokens ('\'' :: tail) = .character literal :: later := by
  rw [cTokens, if_neg (by decide), if_neg (by simp [isAsciiDigit]), if_neg (by decide), if_pos rfl]
  exact ⟨_, _, rfl⟩

/-- The tokens of a condition are those of C, where none of these is foreign to expressions. -/
theorem tokens_eq_read {text : Text} (plain : Plain (cTokens text)) : tokens text = (cTokens text).map CToken.read := by
  fun_induction cTokens text with
  | case1 => rw [tokens, map_nil]
  | case2 c rest space ih =>
    rw [tokens, if_pos space, ih plain]
  | case3 c rest space digit behind number ih =>
    have plainNumber : isPlainNumber number := by
      by_contra other
      rw [if_neg other] at plain
      exact plain.1 (mem_cons_self ..)
    rw [if_pos plainNumber] at plain ⊢
    have ends : ∀ d ∈ behind.head?, isNumberChar d = false := by
      intro d first
      obtain ⟨tail, same⟩ : ∃ tail, behind = d :: tail := by
        cases same : behind with
        | nil =>
          rw [same] at first
          cases first
        | cons e tail =>
          rw [same] at first
          cases first
          exact ⟨tail, rfl⟩
      obtain ⟨word, dot⟩ := behindNumber_head same
      have quote : d ≠ '\'' := by
        rintro rfl
        obtain ⟨literal, later, opens⟩ := cTokens_quote tail
        rw [same, opens] at plain
        exact (isChain_cons_cons.mp plain.2).1 number rfl literal rfl
      simp [isNumberChar, word, dot, quote]
    obtain ⟨drops, takes, first⟩ := number_split (behindNumber_suffix c rest) plainNumber ends
    rw [tokens, if_neg space, if_pos first, map_cons, ← ih plain.tail, drops, takes]
    rfl
  | case4 c rest space digit word ih =>
    rw [tokens, if_neg space, if_neg fun first => digit (.inl first), if_pos word, map_cons, ← ih plain.tail]
    rfl
  | case5 rest space digit word behind ih =>
    rw [tokens, if_neg space, if_neg fun first => digit (.inl first), if_neg word, if_pos (.inr rfl), map_cons,
      ← ih plain.tail]
    rfl
  | case6 rest space digit word quote ih =>
    rw [tokens, if_neg space, if_neg fun first => digit (.inl first), if_neg word, if_pos (.inl rfl), map_cons,
      ← ih plain.tail]
    rfl
  | case7 c rest space digit word quote string mark length found ih =>
    have marked : punctuator (c :: rest) = some mark ∧ length = mark.spelling.length := by
      rw [cMark] at found
      split at found
      · cases found
      · obtain ⟨other, same, parts⟩ := Option.map_eq_some_iff.mp found
        cases parts
        exact ⟨same, rfl⟩
    obtain ⟨same, rfl⟩ := marked
    rw [tokens, if_neg space, if_neg fun first => digit (.inl first), if_neg word,
      if_neg fun both => both.elim string quote, same, map_cons, ← ih plain.tail]
    rfl
  | case8 => exact absurd (mem_cons_self ..) plain.1
  | case9 c rest space digit word quote string found ih =>
    have none : punctuator (c :: rest) = none := by
      rw [cMark] at found
      split at found
      · cases found
      · exact Option.map_eq_none_iff.mp found
    rw [tokens, if_neg space, if_neg fun first => digit (.inl first), if_neg word,
      if_neg fun both => both.elim string quote, none, map_cons, ← ih plain.tail]
    rfl

end Lockstep

end Codegraph.Macros
