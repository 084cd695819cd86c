import Codegraph.Cpp.MaskedCode
import Codegraph.Library.RegexEngine

/- This file blanks the attribute macros of class heads and around declarators. -/

namespace Codegraph.Cpp
open Utf8 Repainting Strides CodeClasses RegexEngine List
open Flattening (isPad isUpper isWord isMacroChar isAsciiSpace)

def contains (text : List Char) (inner : String) : Bool := decide (inner.toList <:+: text)

section Shared

variable (code : List Char)

/-- The end of a macro's arguments, or of its name where it has none. -/
def argsStop (depth nameEnd : Nat) : Nat := (balancedArgsEnd code (skipSpace code nameEnd) depth).getD nameEnd

theorem le_argsStop (depth nameEnd : Nat) : nameEnd ≤ argsStop code depth nameEnd := by
  rw [argsStop]
  cases ends : balancedArgsEnd code (skipSpace code nameEnd) depth with
  | none => exact Nat.le_refl _
  | some stop =>
    have space := le_skipSpace code nameEnd
    have closing := (balancedArgsEnd_closing ends).1
    rw [Option.getD_some]
    omega

/-- Template arguments end behind the place where the segment starts. -/
theorem place_lt_args {tilde : Bool} {args : Nat → Nat} (grows : ∀ nameEnd, nameEnd ≤ args nameEnd)
    {place nameEnd : Nat}
    (ends : identEnd code (if tilde && byteAt code (skipSpace code (skipSpace code place + 2)) = '~' then
      skipSpace code (skipSpace code place + 2) + 1 else skipSpace code (skipSpace code place + 2)) = some nameEnd) :
    place < args nameEnd := by
  have before : place ≤ skipSpace code place := le_skipSpace ..
  have behind : skipSpace code place + 2 ≤ skipSpace code (skipSpace code place + 2) := le_skipSpace ..
  have opens := lt_identEnd ends
  have rest := grows nameEnd
  split at opens
  · omega
  · omega

/-- A further segment of a name, which a tilde may open and template arguments end. -/
def segment (tilde : Bool) (args : Nat → Nat) (grows : ∀ nameEnd, nameEnd ≤ args nameEnd) (place : Nat) :
    Option (Stride Nat place) :=
  let colons := skipSpace code place
  let first := skipSpace code (colons + 2)
  let start := if tilde && byteAt code first = '~' then first + 1 else first
  if startsWith code colons "::" then
    match ends : identEnd code start with
    | some nameEnd => some {
        next := args nameEnd
        further := place_lt_args code grows ends
        found := [args nameEnd] }
    | none => none
  else none

/-- The code before a place, without the space at its end. -/
def codeBefore (place : Nat) : List Char := (code.take place).rdropWhile isAsciiSpace

/-- The spans that the passes of a loop over the whole code find. -/
def spansOf (stride : ∀ place, place < code.length → Stride Span place) : List Span :=
  (strides code.length (fun place inside => some (stride place inside)) 0).1

variable {code}

theorem isToken_spansOf {stride : ∀ place, place < code.length → Stride Span place}
    (each : ∀ place inside, ∀ span ∈ (stride place inside).found, IsToken code span) :
    ∀ span ∈ spansOf code stride, IsToken code span := by
  intro span member
  obtain ⟨place, inside, taken, -, goes, found⟩ := mem_strides member
  obtain rfl := Option.some.inj goes
  exact each place inside span found

end Shared

section ClassHeads

variable (code : List Char)

/-- A macro of the run before the name of a class, with its arguments, and the place behind it. -/
def classHeadToken (place : Nat) : Option (Stride Span place) :=
  let nameEnd := macroRunEnd code place
  let stop := argsStop code 2 nameEnd
  if !isUpper (byteAt code place) || nameEnd - place < 2 || !isAsciiSpace (byteAt code stop) then none
  else some {
    next := skipSpace code stop
    further := by
      have name : place < nameEnd := lt_macroRunEnd ..
      have args : nameEnd ≤ stop := le_argsStop ..
      have space := le_skipSpace code stop
      omega
    found := [(place, stop)] }

/-- The macros behind a class keyword and the place of the name. The last macro is the name where nothing else is. -/
def classHeadRun (head : Nat) : Option (List Span × Nat) :=
  if !isAsciiSpace (byteAt code head) then none
  else
    let run := strides code.length (fun place _ => classHeadToken code place) (skipSpace code head)
    match run.1.getLast? with
    | none => none
    | some last =>
      if (identEnd code run.2).isSome && !wordAt code run.2 "final" then some run
      else if run.1.length ≥ 2 then some (run.1.dropLast, last.1)
      else none

def classKeyword (place : Nat) : Option Nat :=
  if wordAt code place "class" then some 5 else if wordAt code place "struct" then some 6 else none

/-- The end of a name behind its further segments. -/
def qualifiedEnd (nameEnd : Nat) : Nat :=
  (strides code.length (fun place _ => segment code false id (fun _ => Nat.le_refl _) place) nameEnd).2

/-- A base clause or a body is behind the name of a class, its template arguments and `final`. -/
def opensDefinition (nameEnd : Nat) : Bool :=
  let next := skipSpace code nameEnd
  match if byteAt code next = '<' then (skipAngleArgs code next).map (skipSpace code) else some next with
  | none => false
  | some next =>
    let next := if wordAt code next "final" then skipSpace code (next + 5) else next
    byteAt code next = '{' || (byteAt code next = ':' && byteAt code (next + 1) ≠ ':')

variable {code}

theorem classKeyword_pos {place keyword : Nat} (found : classKeyword code place = some keyword) : 0 < keyword := by
  rw [classKeyword] at found
  split at found
  · exact Option.some.inj found ▸ by decide
  · split at found
    · exact Option.some.inj found ▸ by decide
    · cases found

/-- The name of a class head lies behind the keyword. -/
theorem le_classHeadRun {head nameStart : Nat} {run : List Span}
    (found : classHeadRun code head = some (run, nameStart)) : head ≤ nameStart := by
  have space := le_skipSpace code head
  rw [classHeadRun] at found
  split at found
  · cases found
  · dsimp only at found
    split at found
    · cases found
    · rename_i last final
      split at found
      · have later : skipSpace code head ≤
          (strides code.length (fun place _ => classHeadToken code place) (skipSpace code head)).2 :=
          le_strides _
        obtain rfl := congrArg Prod.snd (Option.some.inj found)
        exact Nat.le_trans space later
      · split at found
        · obtain ⟨place, inside, taken, behind, goes, member⟩ := mem_strides (mem_of_getLast? final)
          simp only [classHeadToken] at goes
          split at goes
          · cases goes
          · obtain rfl := Option.some.inj goes
            rw [mem_singleton] at member
            obtain rfl := congrArg Prod.snd (Option.some.inj found)
            rw [member]
            exact Nat.le_trans space behind
        · cases found

variable (code)

def exportStride (place : Nat) : Stride Span place :=
  match word : classKeyword code place with
  | none => .one place
  | some keyword =>
    have positive := classKeyword_pos word
    if place > 0 ∧ isWord (byteAt code (place - 1)) then { next := place + keyword, further := by omega }
    else match head : classHeadRun code (place + keyword) with
      | none => { next := place + keyword, further := by omega }
      | some (run, nameStart) => match name : identEnd code nameStart with
        | none => { next := place + keyword, further := by omega }
        | some first => {
            next := qualifiedEnd code first
            further := by
              have behind := le_classHeadRun head
              have named := lt_identEnd name
              have later : first ≤ qualifiedEnd code first := le_strides first
              omega
            found := if opensDefinition code (qualifiedEnd code first) then
              run.flatMap fun span => pushRunTokens code span.1 span.2
              else [] }

end ClassHeads

section Export

variable (engine : Engine) (source : List Char)

def exportGate : String := "\\b(?:class|struct)\\s+[A-Z][A-Z0-9_]"

/-- Macros between a class keyword and the name of a class that is defined are blanked. -/
def blankCppExportMacros : List Char :=
  if !contains source "class" && !contains source "struct" then source
  else if !engine.isMatch exportGate source then source
  else
    let code := maskedCode source
    blankSpans source (spansOf code fun place _ => exportStride code place)

end Export

section Pointers

variable (code : List Char)

def cppOperatorWords : List String :=
  ["and", "and_eq", "bitand", "bitor", "compl", "not", "not_eq", "or", "or_eq", "xor", "xor_eq"]

/-- A macro of the run behind a pointer or reference, and the place behind it. -/
def pointerToken (place : Nat) : Option (Stride Nat place) :=
  let stop := macroRunEnd code place
  let after := skipSpace code stop
  if !isUpper (byteAt code place) || !isUnderscoredMacro code place stop ||
    (after = stop && byteAt code stop ≠ '*') then none
  else some {
    next := after
    further := by
      have name : place < stop := lt_macroRunEnd ..
      have space : stop ≤ after := le_skipSpace ..
      omega
    found := [after] }

/-- A name, a qualification or another pointer is at a place. -/
def followsPointer (place : Nat) : Bool :=
  let byte := byteAt code place
  if byte = '*' then true
  else if byte = ':' then byteAt code (place + 1) = ':'
  else (isIdentStart byte || byte = '~') && !cppOperatorWords.any (wordAt code place)

/-- The run of macros behind a pointer or reference. It gives back its last macro where nothing is declared behind it.
-/
def pointerAnnotationRun (place : Nat) : Option Span :=
  let start := skipSpace code (place + 1)
  let ends := (strides code.length (fun cursor _ => pointerToken code cursor) start).1
  match ends.getLast? with
  | none => none
  | some last =>
    if followsPointer code last then some (start, last) else ends.dropLast.getLast?.map fun stop => (start, stop)

/-- A closing bracket or a number is before a place. -/
def multiplies (place : Nat) : Bool :=
  let windowStart := place - 40
  let stop := windowStart + ((between code windowStart place).rdropWhile isAsciiSpace).length
  if stop = windowStart then false
  else if byteAt code (stop - 1) = ')' ∨ byteAt code (stop - 1) = ']' then true
  else
    let start := stop - ((between code windowStart stop).rtakeWhile fun byte => isWord byte || byte = '.').length
    (List.range' start (stop - start)).any fun digit =>
      isAsciiDigit (byteAt code digit) && (digit = windowStart || !isWord (byteAt code (digit - 1))) &&
        (between code (digit + 1) stop).all fun byte => isWord byte || byte = '.'

variable {code}

/-- A run of pointer annotations ends behind the place where it is looked for. -/
theorem lt_pointerAnnotationRun {place : Nat} {run : Span} (found : pointerAnnotationRun code place = some run) :
    place < run.2 := by
  have space := le_skipSpace code (place + 1)
  have each {stop : Nat} (member : stop ∈
    (strides code.length (fun cursor _ => pointerToken code cursor) (skipSpace code (place + 1))).1) :
      place < stop := by
    obtain ⟨cursor, inside, taken, behind, goes, here⟩ := mem_strides member
    rw [pointerToken] at goes
    split at goes
    · cases goes
    · obtain rfl := Option.some.inj goes
      obtain rfl := mem_singleton.mp here
      have name := lt_macroRunEnd code cursor
      have later := le_skipSpace code (macroRunEnd code cursor)
      omega
  rw [pointerAnnotationRun] at found
  split at found
  · cases found
  · rename_i last final
    split at found
    · obtain rfl := Option.some.inj found
      exact each (mem_of_getLast? final)
    · obtain ⟨stop, before, rfl⟩ := Option.map_eq_some_iff.mp found
      exact each (dropLast_subset _ (mem_of_getLast? before))

variable (code)

def pointerStride (place : Nat) : Stride Span place :=
  let operator := byteAt code place
  if operator = '*' ∨ operator = '&' then
    match found : pointerAnnotationRun code place with
    | none => .one place
    | some run => {
        next := run.2
        further := lt_pointerAnnotationRun found
        found := if (operator = '&' ∧ byteAt code run.2 = '*') ∨ multiplies code place then []
          else pushRunTokens code run.1 run.2 }
  else .one place

def pointerGate : String := "[*&]\\s*[A-Z][A-Z0-9]*_"

/-- Macros between a pointer or reference and the name it declares are blanked. -/
def blankCppPointerAnnotationMacros (engine : Engine) (source : List Char) : List Char :=
  if !engine.isMatch pointerGate source then source
  else
    let code := maskedCode source
    blankSpans source (spansOf code fun place _ => pointerStride code place)

end Pointers

section Trailing

variable (code : List Char)

def cppParenKeywords : List String :=
  ["if", "while", "for", "switch", "catch", "return", "sizeof", "alignof", "alignas", "decltype", "typeid",
    "noexcept", "throw",
    "static_assert", "new", "delete", "case", "requires", "co_await", "co_yield", "co_return", "asm", "__asm__",
    "__attribute__", "__attribute", "__declspec", "_Pragma", "else", "do", "constexpr", "consteval", "explicit",
      "typeof",
    "__typeof__", "__typeof", "_Alignof", "__alignof__", "volatile", "__volatile__"]

def isParenKeyword (word : List Char) : Bool := cppParenKeywords.any fun keyword => keyword.toList = word

/-- Keywords that may stand right before a declared name. -/
def cppTypeKeywords : List String :=
  ["void", "bool", "char", "char8_t", "char16_t", "char32_t", "wchar_t", "short", "int", "long", "float", "double",
    "signed",
    "unsigned", "auto"]

def otherKeywords : List String :=
  ["const", "volatile", "static", "extern", "inline", "virtual", "explicit", "constexpr", "consteval", "constinit",
    "friend",
    "mutable", "thread_local", "register", "typedef", "using", "template", "typename", "class", "struct", "union",
      "enum",
    "namespace", "operator", "goto", "break", "continue", "default", "public", "private", "protected", "this", "true",
    "false", "nullptr", "and", "or", "not", "xor", "bitand", "bitor", "compl", "and_eq", "or_eq", "xor_eq", "not_eq"]

/-- A declared name is none of these. -/
def isCppKeyword (word : List Char) : Bool :=
  cppTypeKeywords.any (fun keyword => keyword.toList = word) || isParenKeyword word ||
    otherKeywords.any fun keyword => keyword.toList = word

/-- The length of the qualifier of a function at a place. -/
def qualifierAt (place : Nat) : Option Nat :=
  match ["const", "volatile", "noexcept", "override", "final"].find? (wordAt code place) with
  | some word => some word.length
  | none => if startsWith code place "&&" then some 2 else if byteAt code place = '&' then some 1 else none

theorem qualifierAt_pos {place length : Nat} (found : qualifierAt code place = some length) : 0 < length := by
  rw [qualifierAt] at found
  split at found
  · rename_i word chosen
    obtain rfl := Option.some.inj found
    have member := mem_of_find?_eq_some chosen
    simp only [mem_cons, not_mem_nil, or_false] at member
    rcases member with rfl | rfl | rfl | rfl | rfl <;> decide
  · split at found
    · exact Option.some.inj found ▸ by decide
    · split at found
      · exact Option.some.inj found ▸ by decide
      · cases found

def trailingQualifier (place : Nat) : Option (Stride Empty place) :=
  let wordStart := skipSpace code place
  match found : qualifierAt code wordStart with
  | some length =>
    if isWord (byteAt code (wordStart + length)) then none
    else some {
      next := wordStart + length
      further := by
        have space : place ≤ wordStart := le_skipSpace ..
        have positive := qualifierAt_pos code found
        omega }
  | none => none

/-- The place behind the qualifiers of a function, where a macro would start. -/
def trailingQualifiersEnd (place : Nat) : Nat :=
  skipSpace code (strides code.length (fun place _ => trailingQualifier code place) place).2

def isLongMacroWord (place : Nat) : Bool :=
  isUpper (byteAt code place) && macroRunEnd code place - place ≥ 3 && !isWord (byteAt code (macroRunEnd code place))

def hasBlankLine : List Char → Bool
  | [] => false
  | byte :: rest =>
    let behind := rest.dropWhile isPad
    (byte = '\n' && (if behind.head? = some '\r' then behind.tail else behind).head? = some '\n') || hasBlankLine rest

/-- A macro of a run with its arguments and the space behind them. -/
def macroToken (isMacro : Nat → Bool) (place : Nat) : Option (Stride Empty place) :=
  let nameEnd := macroRunEnd code place
  if isMacro place then
    some {
      next := skipSpace code (argsStop code 3 nameEnd)
      further := by
        have name : place < nameEnd := lt_macroRunEnd ..
        have args := le_argsStop code 3 nameEnd
        have space := le_skipSpace code (argsStop code 3 nameEnd)
        omega }
  else none

/-- The end of a run of macros. -/
def macroRunStop (isMacro : Nat → Bool) (place : Nat) : Nat :=
  (strides code.length (fun place _ => macroToken code isMacro place) place).2

def trailingMacroRunEnd (place : Nat) : Nat := macroRunStop code (isLongMacroWord code) place

/-- What may end a declarator is at a place. -/
def endsDeclarator (place : Nat) : Bool :=
  let byte := byteAt code place
  if byte = '{' ∨ byte = ';' then true
  else if byte = '=' then byteAt code (place + 1) ≠ '='
  else if byte = ':' then byteAt code (place + 1) ≠ ':'
  else if byte = '-' then byteAt code (place + 1) = '>'
  else ["override", "final", "const", "noexcept"].any (wordAt code place)

/-- The place of the opening of a parenthesis, in the bytes before its closing from the last one on. -/
def openingBefore : List Char → Nat → Int → Option Nat
  | [], _, _ => none
  | byte :: before, place, depth =>
    if byte = ')' then openingBefore before (place - 1) (depth + 1)
    else if byte = '(' then if depth - 1 = 0 then some place else openingBefore before (place - 1) (depth - 1)
    else if byte = ';' ∨ byte = '{' ∨ byte = '}' then none
    else openingBefore before (place - 1) depth

def operatorBefore : String :=
  "(?-u)\\boperator\\s*(?:\\(\\s*\\)|\\[\\s*\\]|[^\\s\\w()\\[\\]]\x7b1,3\x7d|\\s+[A-Za-z_][\\w\\s:<>*&]*)\\s*$"

/-- A parenthesis closes the parameters of a function: its opening follows the name of an operator or function. -/
def closesParameterList (engine : Engine) (close : Nat) : Bool :=
  match openingBefore ((code.take (close + 1)).reverse.take 4001) close 0 with
  | none => false
  | some opening =>
    let before := between code (opening - 200) opening
    if engine.isMatchBytes operatorBefore before then true
    else
      let name := ((before.rdropWhile isAsciiSpace).rtakeWhile isWord).dropWhile isAsciiDigit
      let macroCall := name.head?.any isUpper && name.all isMacroChar
      !name.isEmpty && !isParenKeyword name && !macroCall

def trailingStride (engine : Engine) (close : Nat) : Stride Span close :=
  if byteAt code close ≠ ')' then .one close
  else
    let macroStart := trailingQualifiersEnd code (close + 1)
    let runEnd := trailingMacroRunEnd code macroStart
    if !isLongMacroWord code macroStart || hasBlankLine (between code close macroStart) ||
        !endsDeclarator code runEnd || !closesParameterList code engine close then .one close
    else {
      next := runEnd
      further := by
        have qualifiers : close + 1 ≤
          (strides code.length (fun place _ => trailingQualifier code place) (close + 1)).2 :=
          le_strides _
        have space := le_skipSpace code
          (strides code.length (fun place _ => trailingQualifier code place) (close + 1)).2
        have run : macroStart ≤ runEnd := le_strides macroStart
        have start : macroStart =
          skipSpace code (strides code.length (fun place _ => trailingQualifier code place) (close + 1)).2 := rfl
        omega
      found := pushRunTokens code macroStart runEnd }

def trailingGate : String := "\\)[\\s\\w&]*?\\b[A-Z][A-Z0-9_]\x7b2,\x7d\\b"

/-- Macros behind the parameters of a function are blanked. -/
def blankCppTrailingAttributeMacros (engine : Engine) (source : List Char) : List Char :=
  if !engine.isMatch trailingGate source then source
  else
    let code := maskedCode source
    blankSpans source (spansOf code fun place _ => trailingStride code engine place)

end Trailing

section Declarators

variable (code : List Char)

/-- A whole word at a place is a macro with an underscore. -/
def isUnderscoredWord (place : Nat) : Bool :=
  isUpper (byteAt code place) && isUnderscoredMacro code place (macroRunEnd code place) &&
    !isWord (byteAt code (macroRunEnd code place))

def declaratorMacroRunEnd (place : Nat) : Nat := macroRunStop code (isUnderscoredWord code) place

/-- The identifier that ends at a place is a name that a declaration declares. -/
def followsDeclaredName (last : Nat) : Bool :=
  let start := last - ((code.take last).rtakeWhile isWord).length
  let name := between code start (last + 1)
  if !name.head?.any isIdentStart || !name.any (fun c => 'a' ≤ c && c ≤ 'z') || isCppKeyword name then false
  else
    let front := codeBefore code start
    match front.getLast? with
    | none => false
    | some byte =>
      if byte = '*' ∨ byte = '&' then true
      else if byte = '>' then front.dropLast.getLast? ≠ some '-'
      else if !isWord byte then false
      else
        let before := front.rtakeWhile isWord
        if before = "const".toList ∨ before = "volatile".toList then
          ((front.rdropWhile isWord).rdropWhile isAsciiSpace).getLast?.any fun byte => byte = '*' || byte = '&'
        else if cppTypeKeywords.any (fun keyword => keyword.toList = before) then true
        else before.head?.any isIdentStart && !isCppKeyword before

/-- What may follow a declared name and its attributes is at a place. -/
def endsDeclared (place : Nat) : Bool :=
  let byte := byteAt code place
  byte = ';' || byte = ',' || byte = ')' || (byte = '=' && byteAt code (place + 1) ≠ '=')

def declaratorStride (place : Nat) (inside : place < code.length) : Stride Span place :=
  if !isUpper (byteAt code place) ||
    (place > 0 && (isWord (byteAt code (place - 1)) || byteAt code (place - 1) = '$')) then .one place
  else
    let last := (codeBefore code place).length
    let runEnd := declaratorMacroRunEnd code place
    if word : isUnderscoredWord code place = false ∨ last = place ∨ last = 0 ∨
        (isWord (byteAt code (last - 1)) = false ∧ byteAt code (last - 1) ≠ ']') ∨ endsDeclared code runEnd = false ∨
        (byteAt code (last - 1) ≠ ']' ∧ followsDeclaredName code (last - 1) = false) then
      { next := macroRunEnd code place, further := lt_macroRunEnd code place }
    else {
      next := runEnd
      further := by
        have macro_ : isUnderscoredWord code place = true := by
          by_contra other
          exact word (.inl (Bool.eq_false_iff.mpr other))
        exact lt_strides inside (by rw [macroToken, if_pos macro_])
      found := pushRunTokens code place runEnd }

def declaratorGate : String := "[\\w\\]]\\s+[A-Z][A-Z0-9]*_[A-Z0-9_]*\\s*[(;=,)]"

/-- Macros behind a declared name or its brackets are blanked. -/
def blankCppDeclaratorAttributeMacros (engine : Engine) (source : List Char) : List Char :=
  if !engine.isMatch declaratorGate source then source
  else
    let code := maskedCode source
    blankSpans source (spansOf code fun place inside => declaratorStride code place inside)

end Declarators

section Leading

variable (code : List Char)

/-- The declaration keywords behind which a run of macros opens a declaration. -/
def leadingKeywords : List String :=
  ["static", "inline", "virtual", "explicit", "constexpr", "consteval", "constinit", "friend", "extern", "thread_local",
    "mutable", "typedef", "using", "template", "typename", "class", "struct", "union", "enum", "void", "bool", "char",
    "char8_t", "char16_t", "char32_t", "wchar_t", "short", "int", "long", "float", "double", "signed", "unsigned",
      "auto",
    "decltype", "return"]

/-- The segments of a qualified name, each with whether a tilde opens it, and the place where they end. -/
def segments (first : Bool) (cursor : Nat) : List (List Char × Bool) × Nat :=
  let tilde := !first && byteAt code cursor = '~'
  let nameStart := if tilde then cursor + 1 else cursor
  match _ : identEnd code nameStart with
  | none => ([], cursor)
  | some nameEnd =>
    let colons := skipSpace code nameEnd
    if startsWith code colons "::" then
      let later := segments false (skipSpace code (colons + 2))
      ((between code nameStart nameEnd, tilde) :: later.1, later.2)
    else ([(between code nameStart nameEnd, tilde)], nameEnd)
termination_by code.length - cursor
decreasing_by
  have inside : nameStart < code.length := identEnd_inside ‹_›
  have name : nameStart < nameEnd := lt_identEnd ‹_›
  have opens : cursor ≤ nameStart := by
    show cursor ≤ if _ then _ else _
    split
    · exact Nat.le_succ _
    · exact Nat.le_refl _
  have before : nameEnd ≤ colons := le_skipSpace ..
  have behind : colons + 2 ≤ skipSpace code (colons + 2) := le_skipSpace ..
  show code.length - skipSpace code (colons + 2) < code.length - cursor
  omega

/-- An out-of-line constructor or destructor is at a place. -/
def outOfLineConstructor (place : Nat) : Bool :=
  let parts := segments code true place
  match parts.1.reverse with
  | (last, _) :: (class_, tilde) :: outer =>
    !tilde && outer.all (fun part => !part.2) && last = class_ && byteAt code (skipSpace code parts.2) = '('
  | _ => false

/-- The end of template arguments in bytes from a place on. -/
def templateEnd : List Char → Nat → Nat → Option Nat
  | [], _, _ => none
  | byte :: rest, place, depth =>
    if byte = '<' then if depth + 1 > 3 then none else templateEnd rest (place + 1) (depth + 1)
    else if byte = '>' then if depth - 1 = 0 then some (place + 1) else templateEnd rest (place + 1) (depth - 1)
    else if byte = ';' ∨ byte = '{' ∨ byte = '}' then none
    else templateEnd rest (place + 1) depth

/-- The end of template arguments at a place, which nest at most three levels. -/
def templateArgsEnd (place : Nat) : Option Nat :=
  if byteAt code place = '<' then templateEnd (code.drop place) place 0 else none

/-- The end of the template arguments behind a name, or of the name. -/
def withArgs (nameEnd : Nat) : Nat := (templateArgsEnd code (skipSpace code nameEnd)).getD nameEnd

theorem templateEnd_further {rest : List Char} {place depth stop : Nat}
    (ends : templateEnd rest place depth = some stop) : place < stop := by
  induction rest generalizing place depth with
  | nil => cases ends
  | cons byte rest ih =>
    rw [templateEnd] at ends
    split_ifs at ends
    · exact Nat.lt_trans (Nat.lt_succ_self _) (ih ends)
    · exact Option.some.inj ends ▸ Nat.lt_succ_self _
    · exact Nat.lt_trans (Nat.lt_succ_self _) (ih ends)
    · exact Nat.lt_trans (Nat.lt_succ_self _) (ih ends)

theorem le_withArgs (nameEnd : Nat) : nameEnd ≤ withArgs code nameEnd := by
  have space := le_skipSpace code nameEnd
  rw [withArgs, templateArgsEnd]
  split
  · cases ends : templateEnd (code.drop (skipSpace code nameEnd)) (skipSpace code nameEnd) 0 with
    | none => exact Nat.le_refl _
    | some stop =>
      have further := templateEnd_further ends
      rw [Option.getD_some]
      omega
  · exact Nat.le_refl _

/-- The ends that a type name at a place can have, the longest first. -/
def typeNameEnds (place : Nat) : List Nat :=
  let start := if startsWith code place "::" then skipSpace code (place + 2) else place
  if ["const", "volatile", "operator", "return"].any (wordAt code start) then []
  else match identEnd code start with
    | none => []
    | some nameEnd =>
      let first := withArgs code nameEnd
      (first :: (strides code.length
        (fun place _ => segment code false (withArgs code) (le_withArgs code) place) first).1).reverse

/-- A name that is declared is at a place. -/
def declaredName (place : Nat) : Bool :=
  if wordAt code place "operator" then true
  else
    let cursor := if startsWith code place "::" then skipSpace code (place + 2) else place
    let cursor := if byteAt code cursor = '~' then cursor + 1 else cursor
    match identEnd code cursor with
    | none => false
    | some nameEnd =>
      let stop := (strides code.length (fun place _ => segment code true id (fun _ => Nat.le_refl _) place) nameEnd).2
      ['(', ';', '=', '[', '{'].contains (byteAt code (skipSpace code stop))

def cvWord (place : Nat) : Option Nat := (["const", "volatile"].find? (wordAt code place)).map String.length

theorem cvWord_pos {place length : Nat} (found : cvWord code place = some length) : 0 < length := by
  obtain ⟨word, chosen, rfl⟩ := Option.map_eq_some_iff.mp found
  have member := mem_of_find?_eq_some chosen
  simp only [mem_cons, not_mem_nil, or_false] at member
  rcases member with rfl | rfl <;> decide

/-- A qualifier before a type, with the space behind it. -/
def leadingQualifier (place : Nat) : Option (Stride Empty place) :=
  match found : cvWord code place with
  | some length =>
    if isAsciiSpace (byteAt code (place + length)) then
      some {
        next := skipSpace code (place + length)
        further := by
          have positive := cvWord_pos code found
          have space := le_skipSpace code (place + length)
          omega }
    else none
  | none => none

/-- The places where a name can be behind a type: behind its pointers, or behind the space after it. -/
def separators (afterType : Nat) : List Nat :=
  let stars := skipSpace code afterType
  let run := (code.drop stars).takeWhile fun byte => byte = '*' || byte = '&'
  (if run.isEmpty then [] else [skipSpace code (stars + run.length)]) ++
    if isAsciiSpace (byteAt code afterType) then [skipSpace code afterType] else []

/-- A type and then the name it declares are at a place. -/
def typeThenDeclaredName (place : Nat) : Bool :=
  let start := (strides code.length (fun place _ => leadingQualifier code place) place).2
  (typeNameEnds code start).any fun typeEnd =>
    let qualifier := skipSpace code typeEnd
    let afterTypes := ((cvWord code qualifier).map fun length => qualifier + length).toList ++ [typeEnd]
    afterTypes.any fun afterType => (separators code afterType).any fun nameAt =>
      ((cvWord code nameAt).any fun length =>
        isAsciiSpace (byteAt code (nameAt + length)) && declaredName code (skipSpace code (nameAt + length))) ||
      declaredName code nameAt

/-- What cannot follow a type name is at a place. -/
def opensDeclaration (place : Nat) : Bool :=
  leadingKeywords.any (wordAt code place) || startsWith code place "[[" || outOfLineConstructor code place ||
    typeThenDeclaredName code place

/-- A macro of the run that opens a declaration, and the place behind it. -/
def leadingToken (place : Nat) : Option (Stride Nat place) :=
  let stop := macroRunEnd code place
  if !isUpper (byteAt code place) || !isUnderscoredMacro code place stop || !isAsciiSpace (byteAt code stop) then none
  else some {
    next := skipSpace code stop
    further := by
      have name : place < stop := lt_macroRunEnd ..
      have space := le_skipSpace code stop
      omega
    found := [skipSpace code stop] }

/-- The end of the run of macros at a place that opens a declaration. The run gives back its last macros until it
does. -/
def leadingAttributeRun (start : Nat) : Option Nat :=
  (strides code.length (fun place _ => leadingToken code place) start).1.reverse.find? (opensDeclaration code)

variable {code}

theorem lt_leadingAttributeRun {start stop : Nat} (found : leadingAttributeRun code start = some stop) :
    start < stop := by
  obtain ⟨place, inside, taken, behind, goes, member⟩ :=
    mem_strides (mem_reverse.mp (mem_of_find?_eq_some found))
  rw [leadingToken] at goes
  split at goes
  · cases goes
  · obtain rfl := Option.some.inj goes
    obtain rfl := mem_singleton.mp member
    have name := lt_macroRunEnd code place
    have space := le_skipSpace code (macroRunEnd code place)
    omega

variable (code)

/-- The run of macros that a line or the end of an attribute opens. -/
def leadingRunAt (place : Nat) : Option Span :=
  let lineRun :=
    if place = 0 ∨ byteAt code (place - 1) = '\n' ∨ byteAt code (place - 1) = '\r' then
      (leadingAttributeRun code (skipBlanks code place)).map fun stop => (skipBlanks code place, stop)
    else none
  lineRun.or
    (if startsWith code place "]]" then
      (leadingAttributeRun code (skipBlanks code (place + 2))).map fun stop => (skipBlanks code (place + 2), stop)
    else none)

theorem lt_leadingRunAt {place : Nat} {run : Span} (found : leadingRunAt code place = some run) : place < run.2 := by
  have line := le_skipBlanks code place
  have bracket := le_skipBlanks code (place + 2)
  rcases Option.or_eq_some_iff.mp found with first | ⟨-, second⟩
  · split at first
    · obtain ⟨stop, here, rfl⟩ := Option.map_eq_some_iff.mp first
      exact Nat.lt_of_le_of_lt line (lt_leadingAttributeRun here)
    · cases first
  · split at second
    · obtain ⟨stop, here, rfl⟩ := Option.map_eq_some_iff.mp second
      have later := lt_leadingAttributeRun here
      dsimp only
      omega
    · cases second

def leadingStride (place : Nat) : Stride Span place :=
  match found : leadingRunAt code place with
  | some run => { next := run.2, further := lt_leadingRunAt code found, found := pushRunTokens code run.1 run.2 }
  | none => .one place

def leadingGate : String := "(?m)(?:^|\\]\\])[ \\t]*[A-Z][A-Z0-9]*_[A-Z0-9_]*\\s"

/-- Macros that open a declaration are blanked. -/
def blankCppLeadingAttributeMacros (engine : Engine) (source : List Char) : List Char :=
  if !engine.isMatch leadingGate source then source
  else
    let code := maskedCode source
    blankSpans source (spansOf code fun place _ => leadingStride code place)

end Leading

section Blanking

variable (engine : Engine) (source : List Char)

/-- A pass has only written spaces over a source. -/
def Blanked (source out : List Char) : Prop := Repaints (fun _ c => c = ' ') (units source) (units out)

theorem Blanked.refl (source : List Char) : Blanked source source := Repaints.refl _ _

variable {source} in
theorem blanked_tokens {spans : List Span} (tokens : ∀ span ∈ spans, IsToken (maskedCode source) span) :
    Blanked source (blankSpans source spans) :=
  repaints_blankSpans fun span member => (tokens span member).atChar

theorem blanked_export : Blanked source (blankCppExportMacros engine source) := by
  rw [blankCppExportMacros]
  split
  · exact .refl source
  · split
    · exact .refl source
    · refine blanked_tokens (isToken_spansOf fun place _ span member => ?_)
      rw [exportStride] at member
      split at member
      · cases member
      · dsimp only at member
        split at member
        · cases member
        · split at member
          · cases member
          · split at member
            · cases member
            · dsimp only at member
              split at member
              · obtain ⟨run, -, token⟩ := mem_flatMap.mp member
                exact isToken_pushRunTokens token
              · cases member

theorem blanked_pointer : Blanked source (blankCppPointerAnnotationMacros engine source) := by
  rw [blankCppPointerAnnotationMacros]
  split
  · exact .refl source
  · refine blanked_tokens (isToken_spansOf fun place _ span member => ?_)
    rw [pointerStride] at member
    split at member
    · split at member
      · cases member
      · dsimp only at member
        split at member
        · cases member
        · exact isToken_pushRunTokens member
    · cases member

theorem blanked_trailing : Blanked source (blankCppTrailingAttributeMacros engine source) := by
  rw [blankCppTrailingAttributeMacros]
  split
  · exact .refl source
  · refine blanked_tokens (isToken_spansOf fun place _ span member => ?_)
    rw [trailingStride] at member
    dsimp only at member
    split at member
    · cases member
    · split at member
      · cases member
      · exact isToken_pushRunTokens member

theorem blanked_declarator : Blanked source (blankCppDeclaratorAttributeMacros engine source) := by
  rw [blankCppDeclaratorAttributeMacros]
  split
  · exact .refl source
  · refine blanked_tokens (isToken_spansOf fun place _ span member => ?_)
    rw [declaratorStride] at member
    dsimp only at member
    split at member
    · cases member
    · split at member
      · cases member
      · exact isToken_pushRunTokens member

theorem blanked_leading : Blanked source (blankCppLeadingAttributeMacros engine source) := by
  rw [blankCppLeadingAttributeMacros]
  split
  · exact .refl source
  · refine blanked_tokens (isToken_spansOf fun place _ span member => ?_)
    rw [leadingStride] at member
    split at member
    · exact isToken_pushRunTokens member
    · cases member

end Blanking

end Codegraph.Cpp
