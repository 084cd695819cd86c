import Codegraph.Resolve.RustLexical
import Codegraph.Watch.Scope

/- This file reads a Rust source as the language does, piece by piece, and compares its code with the mask. -/

namespace Codegraph.Resolve.RustLexical
open Utf8 List
open Codegraph.Watch.Scope (Text)

section Grammar

/-- White space, or the mark at the start of a file, that takes more than one byte. -/
def isWideBlank (c : Char) : Bool := [0x85, 0x200E, 0x200F, 0x2028, 0x2029, 0xFEFF].contains c.toNat

def isBlank (c : Char) : Bool := [' ', '\t', '\n', '\x0b', '\x0c', '\r'].contains c || isWideBlank c

def isNameStart (c : Char) : Bool := isIdentStart c && !isWideBlank c

def isNameChar (c : Char) : Bool := isIdentByte c && !isWideBlank c

def isName (name : Text) : Bool := name.head?.any isNameStart && name.all isNameChar

/-- A character that stands for itself. -/
def isMark (c : Char) : Bool := c.toNat < 0x80 && !isIdentByte c && !isBlank c && c ≠ '"' && c ≠ '\''

/-- A block comment from behind its opening to the end of its closing. -/
inductive Nests : Text → Prop
  | closes : Nests ['*', '/']
  | inner {c rest} (opens : ¬['/', '*'] <+: c :: rest) (closes : ¬['*', '/'] <+: c :: rest) (later : Nests rest) :
      Nests (c :: rest)
  | nested {first second} (comment : Nests first) (later : Nests second) : Nests ('/' :: '*' :: (first ++ second))

/-- The body of a string. An escape hides the character behind it. -/
inductive Escapes : Text → Prop
  | nil : Escapes []
  | plain {c rest} (quote : c ≠ '"') (escape : c ≠ '\\') (later : Escapes rest) : Escapes (c :: rest)
  | escape {c rest} (later : Escapes rest) : Escapes ('\\' :: c :: rest)

/-- The body of a character literal: one character, or an escape. -/
inductive CharBody : Text → Prop
  | one {c} (quote : c ≠ '\'') (escape : c ≠ '\\') (line : c ≠ '\n') : CharBody [c]
  | escape {c rest} (line : c ≠ '\n')
      (plain : ∀ d ∈ rest, d ≠ '\'' ∧ d ≠ '\\' ∧ d ≠ '\n') : CharBody ('\\' :: c :: rest)

inductive Piece where
  | blank (c : Char)
  | mark (c : Char)
  | word (name : Text)
  | rawName (name : Text)
  | lifetime (name : Text)
  | number (digits tail : Text)
  | lineComment (body : Text)
  | blockComment (body : Text)
  | quoted (opener body suffix : Text)
  | raw (opener : Text) (hashes : Nat) (body suffix : Text)
  | character (opener body suffix : Text)

/-- The parts of a piece, and whether they are code. The letters and hashes before a literal are left open. -/
def Piece.parts : Piece → List (Text × Option Bool)
  | blank c => [([c], some true)]
  | mark c => [([c], some true)]
  | word name => [(name, some true)]
  | rawName name => [('r' :: '#' :: name, some true)]
  | lifetime name => [('\'' :: name, some true)]
  | number digits tail => [(digits ++ tail, some true)]
  | lineComment body => [('/' :: '/' :: body, some false)]
  | blockComment body => [('/' :: '*' :: body, some false)]
  | quoted opener body suffix => [(opener, none), ('"' :: (body ++ ['"']), some false), (suffix, some true)]
  | raw opener hashes body suffix =>
    [(opener ++ List.replicate hashes '#', none), ('"' :: (body ++ '"' :: List.replicate hashes '#'), some false),
      (suffix, some true)]
  | character opener body suffix => [(opener, none), ('\'' :: (body ++ ['\'']), some false), (suffix, some true)]

def Piece.text (piece : Piece) : Text := piece.parts.flatMap Prod.fst

def source (pieces : List Piece) : Text := pieces.flatMap Piece.text

/-- Whether each byte of a piece is code. -/
def Piece.kinds (piece : Piece) : List (Option Bool) :=
  piece.parts.flatMap fun (part, kind) => List.replicate (units part).length kind

/-- The rest of a raw string's opening from behind its letters. -/
def opensRaw (rest : Text) : Bool := (rest.dropWhile (· = '#')).head? = some '"'

/-- No name goes on here. -/
def NameEnds (rest : Text) : Prop := ∀ c ∈ rest.head?, isNameChar c = false

/-- A suffix is as long as it can be. -/
def SuffixEnds (suffix rest : Text) : Prop :=
  if suffix = [] then ∀ c ∈ rest.head?, isNameStart c = false else isName suffix ∧ NameEnds rest

/-- The language reads this piece before this rest. -/
def Piece.Valid (rest : Text) : Piece → Prop
  | blank c => isBlank c
  | mark c => isMark c ∧ (c = '/' → rest.head? ≠ some '/' ∧ rest.head? ≠ some '*')
  | word name =>
    isName name ∧ NameEnds rest ∧ (name ∈ [['r'], ['b', 'r'], ['c', 'r']] → ¬opensRaw rest) ∧
      (name ∈ [['b'], ['c']] → rest.head? ≠ some '"') ∧ (name = ['b'] → rest.head? ≠ some '\'') ∧
      (name = ['r'] → ¬(rest.head? = some '#' ∧ rest.tail.head?.any isNameStart))
  | rawName name => isName name ∧ NameEnds rest
  | lifetime name => isName name ∧ NameEnds rest ∧ rest.head? ≠ some '\''
  | number digits tail => digits ≠ [] ∧ digits.all Char.isDigit ∧ (tail = [] ∨ isName tail) ∧ NameEnds rest
  | lineComment body => '\n' ∉ body ∧ ∀ c ∈ rest.head?, c = '\n'
  | blockComment body => Nests body
  | quoted opener body suffix => opener ∈ [[], ['b'], ['c']] ∧ Escapes body ∧ SuffixEnds suffix rest
  | raw opener hashes body suffix =>
    opener ∈ [['r'], ['b', 'r'], ['c', 'r']] ∧ ¬ '"' :: List.replicate hashes '#' <:+: body ∧ SuffixEnds suffix rest
  | character opener body suffix => opener ∈ [[], ['b']] ∧ CharBody body ∧ SuffixEnds suffix rest

def Valid : List Piece → Prop
  | [] => True
  | piece :: pieces => piece.Valid (source pieces) ∧ Valid pieces

/-- A file may start with a line for the shell. -/
def Header (header rest : Text) : Prop :=
  header = [] ∨ ∃ line, header = '#' :: '!' :: line ∧ '\n' ∉ line ∧ ∀ c ∈ rest.head?, c = '\n'

end Grammar

section Readings

/-- Behind a name that is no part of a literal, no raw string seems to open. -/
def ClearOf (name rest : Text) : Prop := name ∈ [['r'], ['b', 'r']] → ¬opensRaw rest

def Piece.isWide : Piece → Bool
  | blank c => isWideBlank c
  | _ => false

/-- The mask reads a piece as the language does. A wide blank before it joins it to a name. -/
def Piece.ReadAlike (joined : Bool) (rest : Text) : Piece → Prop
  | rawName name => ClearOf name rest
  | lifetime name => ClearOf name rest
  | number _ tail => joined ∨ ClearOf tail rest
  | quoted _ _ suffix => ClearOf suffix rest
  | raw opener hashes body suffix => (joined ∨ opener = ['c', 'r'] → hashes = 0 ∧ Escapes body) ∧ ClearOf suffix rest
  | character _ _ suffix => ClearOf suffix rest
  | _ => True

/-- All pieces are read as the language does. -/
def ReadAlike : Bool → List Piece → Prop
  | _, [] => True
  | joined, piece :: pieces => piece.ReadAlike joined (source pieces) ∧ ReadAlike piece.isWide pieces

/-- Nothing in a line for the shell opens a literal or a comment before this rest. -/
def Quiet (rest : Text) : Text → Prop
  | [] => True
  | c :: header =>
    c ≠ '"' ∧ (c = '/' → header.head? ≠ some '/' ∧ header.head? ≠ some '*') ∧
      (c = '\'' → opensChar (header ++ rest) = false) ∧ Quiet rest header

/-- The bytes that are known to be code or not are marked so. -/
def Marks (kinds : List (Option Bool)) (mask : List Bool) : Prop :=
  List.Forall₂ (fun kind code => ∀ known, kind = some known → code = known) kinds mask

end Readings

section Steps

variable {text rest front name body suffix opener : Text} {c : Char} {kind : Bool} {mask : List Bool} {hashes : Nat}

/-- The mask of a text of one kind. -/
def flat (kind : Bool) (text : Text) : List Bool := List.replicate (units text).length kind

theorem flat_append (first second : Text) : flat kind (first ++ second) = flat kind first ++ flat kind second := by
  rw [flat, units_append, length_append, replicate_add]
  rfl

theorem flat_single (small : c.toNat < 0x80) : flat kind [c] = [kind] := by
  rw [flat, units_cons, unitsOf_ascii small]
  rfl

theorem marked_append : marked kind (front ++ rest) rest mask = flat kind front ++ mask := by
  rw [marked, covered, units_append, length_append, Nat.add_sub_cancel]
  rfl

theorem rawStringPrefix_r (text : Text) : rawStringPrefix ('r' :: text) =
      if opensRaw text then some ((text.takeWhile (· = '#')).length, text.dropWhile (· = '#')) else none := by
  have same : (if ('r' :: text).head? = some 'b' then ('r' :: text).tail else 'r' :: text) = 'r' :: text :=
    if_neg (by simp)
  simp only [rawStringPrefix, same, opensRaw, decide_eq_true_eq]
  simp

theorem rawStringPrefix_b (text : Text) :
    rawStringPrefix ('b' :: text) = if text.head? = some 'r' then rawStringPrefix text else none := by
  have same : (if ('b' :: text).head? = some 'b' then ('b' :: text).tail else 'b' :: text) = text := if_pos rfl
  by_cases raw : text.head? = some 'r'
  · have again : (if text.head? = some 'b' then text.tail else text) = text := if_neg (by simp [raw])
    simp only [rawStringPrefix, same, again, if_pos raw]
  · simp only [rawStringPrefix, same, if_neg raw]
    exact if_neg fun both => raw both.1

theorem rawStringPrefix_other (noB : c ≠ 'b') (noR : c ≠ 'r') : rawStringPrefix (c :: text) = none := by
  have same : (if (c :: text).head? = some 'b' then (c :: text).tail else c :: text) = c :: text :=
    if_neg fun first => noB (Option.some.inj first)
  simp only [rawStringPrefix, same]
  exact if_neg fun both => noR (Option.some.inj both.1)

/-- What is read behind a name that goes on. -/
def joinedMask (rest : Text) : List Bool :=
  flat true (rest.takeWhile isIdentByte) ++ codeMask (rest.dropWhile isIdentByte)

theorem joinedMask_append (inside : name.all isIdentByte) (rest : Text) :
    joinedMask (name ++ rest) = flat true name ++ joinedMask rest := by
  have all := all_eq_true.mp inside
  rw [joinedMask, takeWhile_append_of_pos all, dropWhile_append_of_pos all, flat_append, append_assoc]
  rfl

theorem codeMask_name (start : isIdentStart c) (inside : name.all isIdentByte)
    (plain : rawStringPrefix (c :: (name ++ rest)) = none) :
    codeMask (c :: (name ++ rest)) = flat true (c :: name) ++ joinedMask rest := by
  have slash : c ≠ '/' := by
    rintro rfl
    cases start
  have all := all_eq_true.mp inside
  have parts : c :: (name ++ rest) = c :: name ++ rest.takeWhile isIdentByte ++ rest.dropWhile isIdentByte := by
    rw [append_assoc, takeWhile_append_dropWhile]
    rfl
  rw [codeMask, if_neg fun both => slash both.1, if_neg fun both => slash both.1, if_pos start]
  split
  · rename_i found
    rw [plain] at found
    cases found
  · rw [dropWhile_append_of_pos all, parts, marked_append, flat_append, append_assoc]
    rfl

theorem codeMask_other (start : isIdentStart c = false)
    (comment : c = '/' → rest.head? ≠ some '/' ∧ rest.head? ≠ some '*')
    (quote : c ≠ '"') (char : c = '\'' → opensChar rest = false) : codeMask (c :: rest) = true :: codeMask rest := by
  rw [codeMask, if_neg fun both => (comment both.1).1 both.2, if_neg fun both => (comment both.1).2 both.2,
    if_neg (Bool.eq_false_iff.mp start), if_neg quote, if_neg fun both => Bool.eq_false_iff.mp (char both.1) both.2]

/-- Where no name goes on, or another blank follows, the joined name makes no difference. -/
theorem joinedMask_eq (ends : ∀ c ∈ rest.head?, isIdentByte c → isWideBlank c) : joinedMask rest = codeMask rest := by
  cases rest with
  | nil =>
    rw [joinedMask]
    rfl
  | cons c rest =>
    by_cases inside : isIdentByte c
    · have wide := ends c rfl inside
      have large : 0x80 ≤ c.toNat := by
        simp only [isWideBlank, contains_iff_mem, mem_cons, not_mem_nil, or_false] at wide
        omega
      have plain : rawStringPrefix (c :: ([] ++ rest)) = none :=
        rawStringPrefix_other (wide_ne large (by decide)) (wide_ne large (by decide))
      have single : ([c] : Text).all isIdentByte := by simpa using inside
      have whole := @codeMask_name _ [] _ (isIdentStart_wide large) rfl plain
      rw [nil_append] at whole
      rw [whole]
      exact joinedMask_append single rest
    · rw [joinedMask, takeWhile_cons_of_neg inside, dropWhile_cons_of_neg inside]
      rfl

theorem joinedMask_ends (ends : NameEnds rest) : joinedMask rest = codeMask rest := by
  refine joinedMask_eq fun c first inside => ?_
  have stops := ends c first
  rw [isNameChar, inside, Bool.true_and, Bool.not_eq_false'] at stops
  exact stops

/-- A reading that starts joined to a name, or not. -/
def readFrom (joined : Bool) (text : Text) : List Bool := if joined then joinedMask text else codeMask text

theorem readFrom_eq (ends : ∀ c ∈ text.head?, isIdentByte c → isWideBlank c) (joined : Bool) :
    readFrom joined text = codeMask text := by
  cases joined with
  | true => exact joinedMask_eq ends
  | false => rfl

theorem readFrom_mark (outside : isIdentByte c = false) (joined : Bool) (text : Text) :
    readFrom joined (c :: text) = codeMask (c :: text) :=
  readFrom_eq (fun d first inside => by
    obtain rfl := Option.some.inj first
    rw [outside] at inside
    cases inside) joined

/-- A name that goes on behind a wide blank is only passed. -/
theorem readFrom_joined (joined : Bool) (inside : name.all isIdentByte)
    (plain : joined = false → codeMask (name ++ rest) = flat true name ++ joinedMask rest) :
    readFrom joined (name ++ rest) = flat true name ++ joinedMask rest := by
  cases joined with
  | true => exact joinedMask_append inside rest
  | false => exact plain rfl

section Names

theorem isIdentByte_of_isNameChar (inside : isNameChar c) : isIdentByte c := (Bool.and_eq_true_iff.mp inside).1

theorem inside_of_isName (named : isName name) : name.all isIdentByte := by
  refine all_eq_true.mpr fun c member => isIdentByte_of_isNameChar ?_
  exact all_eq_true.mp (Bool.and_eq_true_iff.mp named).2 c member

theorem isName_cons (named : isName name) :
    ∃ c tail, name = c :: tail ∧ isNameStart c ∧ isIdentStart c ∧ tail.all isNameChar := by
  obtain ⟨start, inside⟩ := Bool.and_eq_true_iff.mp named
  cases name with
  | nil => cases start
  | cons c tail =>
    exact ⟨c, tail, rfl, start, (Bool.and_eq_true_iff.mp start).1, (Bool.and_eq_true_iff.mp inside).2⟩

theorem opensRaw_name (inside : isIdentByte c) (text : Text) : opensRaw (c :: text) = false := by
  have hash : c ≠ '#' := by
    rintro rfl
    cases inside
  have quote : c ≠ '"' := by
    rintro rfl
    cases inside
  simp [opensRaw, hash, quote]

/-- A name whose last letters do not seem to open a raw string is no part of one. -/
theorem rawStringPrefix_name (named : isName name) (ends : NameEnds rest) (clear : ClearOf name rest) :
    rawStringPrefix (name ++ rest) = none := by
  obtain ⟨c, tail, rfl, -, -, inside⟩ := isName_cons named
  have behindR (tail : Text) (inside : tail.all isNameChar) (clear : tail = [] → ¬opensRaw rest) :
      rawStringPrefix ('r' :: (tail ++ rest)) = none := by
    rw [rawStringPrefix_r]
    cases tail with
    | nil => exact if_neg (clear rfl)
    | cons d tail =>
      have here := isIdentByte_of_isNameChar (Bool.and_eq_true_iff.mp inside).1
      exact if_neg (Bool.eq_false_iff.mp (opensRaw_name here (tail ++ rest)))
  by_cases isR : c = 'r'
  · subst isR
    refine behindR tail inside fun none => ?_
    subst none
    exact clear (mem_cons_self ..)
  · by_cases isB : c = 'b'
    · subst isB
      rw [cons_append, rawStringPrefix_b]
      split
      · rename_i raw
        cases tail with
        | nil => exact absurd (ends 'r' raw) (by decide)
        | cons d tail =>
          obtain rfl : d = 'r' := Option.some.inj raw
          refine behindR tail (Bool.and_eq_true_iff.mp inside).2 fun none => ?_
          subst none
          exact clear (mem_cons_of_mem _ (mem_cons_self ..))
      · rfl
    · exact rawStringPrefix_other isB isR

theorem codeMask_word (named : isName name) (ends : NameEnds rest) (clear : ClearOf name rest) :
    codeMask (name ++ rest) = flat true name ++ codeMask rest := by
  have inside := inside_of_isName named
  have plain := rawStringPrefix_name named ends clear
  obtain ⟨c, tail, rfl, -, start, -⟩ := isName_cons named
  rw [← joinedMask_ends ends]
  exact codeMask_name start (Bool.and_eq_true_iff.mp inside).2 plain

theorem readFrom_word (named : isName name) (ends : NameEnds rest) (joined : Bool)
    (clear : joined = false → ClearOf name rest) :
    readFrom joined (name ++ rest) = flat true name ++ codeMask rest := by
  rw [← joinedMask_ends ends]
  refine readFrom_joined joined (inside_of_isName named) fun plain => ?_
  rw [joinedMask_ends ends]
  exact codeMask_word named ends (clear plain)

theorem named_of_suffixEnds (ends : SuffixEnds suffix rest) : suffix = [] ∨ isName suffix ∧ NameEnds rest := by
  by_cases none : suffix = []
  · exact .inl none
  · rw [SuffixEnds, if_neg none] at ends
    exact .inr ends

theorem codeMask_suffix (named : suffix = [] ∨ isName suffix ∧ NameEnds rest) (clear : ClearOf suffix rest) :
    codeMask (suffix ++ rest) = flat true suffix ++ codeMask rest := by
  rcases named with rfl | ⟨named, ends⟩
  · rfl
  · exact codeMask_word named ends clear

/-- Digits are code. -/
theorem codeMask_digits (digits : name.all Char.isDigit) (rest : Text) :
    codeMask (name ++ rest) = flat true name ++ codeMask rest := by
  induction name with
  | nil => rfl
  | cons d name ih =>
    obtain ⟨digit, digits⟩ := Bool.and_eq_true_iff.mp digits
    have bounds : 48 ≤ d.toNat ∧ d.toNat ≤ 57 := by simpa [Char.isDigit, UInt32.le_iff_toNat_le] using digit
    have other (mark : Char) (outside : mark.toNat < 48 ∨ 57 < mark.toNat) : d ≠ mark := by
      rintro rfl
      omega
    have start : isIdentStart d = false := by
      have letter : d.isAlpha = false := by
        have alpha : d.isAlpha = (d.isUpper || d.isLower) := rfl
        have upper : d.isUpper = decide (d.val ≥ 'A'.val ∧ d.val ≤ 'Z'.val) := rfl
        have lower : d.isLower = (d.val ≥ 'a'.val && d.val ≤ 'z'.val) := rfl
        simp only [alpha, upper, lower, Bool.or_eq_false_iff, Bool.and_eq_false_iff, decide_eq_false_iff_not,
          UInt32.le_iff_toNat_le, ge_iff_le]
        have same : d.val.toNat = d.toNat := rfl
        simp [same]
        omega
      simp only [isIdentStart, letter, Bool.or_eq_false_iff, decide_eq_false_iff_not]
      exact ⟨⟨trivial, other '_' (by decide)⟩, by omega⟩
    rw [cons_append, codeMask_other start (fun same => absurd same (other _ (by decide))) (other _ (by decide))
      (fun same => absurd same (other _ (by decide))), ih digits]
    have small : d.toNat < 0x80 := by omega
    rw [← singleton_append (x := d), flat_append, flat_single small]
    rfl

end Names

section Literals

theorem nests_two {comment : Text} (nests : Nests comment) : ∃ c d later, comment = c :: d :: later := by
  induction nests with
  | closes => exact ⟨_, _, _, rfl⟩
  | inner _ _ _ ih =>
    obtain ⟨c, d, later, rfl⟩ := ih
    exact ⟨_, _, _, rfl⟩
  | nested => exact ⟨_, _, _, rfl⟩

/-- A block comment is left one level further out. -/
theorem behindNestedBlockComment_nests {comment : Text} (nests : Nests comment) (depth : Nat) (rest : Text) :
    behindNestedBlockComment (depth + 1)
    (comment ++ rest) = if depth = 0 then rest else behindNestedBlockComment depth rest := by
  induction nests generalizing depth rest with
  | closes =>
    rw [cons_append, singleton_append, behindNestedBlockComment, if_neg (by decide), if_pos ⟨rfl, rfl⟩]
    rfl
  | inner opens closes later ih =>
    obtain ⟨d, e, tail, rfl⟩ := nests_two later
    rw [← ih, cons_append, cons_append, behindNestedBlockComment]
    have pair {first second b : Char}
      (other : ¬[first, second] <+: b :: d :: e :: tail) : ¬(b = first ∧ d = second) := by
      rintro ⟨rfl, rfl⟩
      exact other ⟨e :: tail, rfl⟩
    rw [if_neg (pair opens), if_neg (pair closes)]
  | nested comment later first second =>
    rw [cons_append, cons_append, append_assoc, behindNestedBlockComment, if_pos ⟨rfl, rfl⟩, first,
      if_neg (Nat.succ_ne_zero depth), second]

theorem behindQuoted_escapes (escapes : Escapes body) (rest : Text) :
    behindQuoted '"' false (body ++ '"' :: rest) = rest := by
  induction escapes with
  | nil =>
    rw [nil_append, behindQuoted.eq_def]
    rfl
  | plain quote escape later ih =>
    rw [cons_append, behindQuoted.eq_def]
    simp only
    rw [if_neg fun both => Bool.false_ne_true both.2, if_neg escape, if_neg quote, ih]
  | escape later ih =>
    rw [cons_append, cons_append, behindQuoted.eq_def]
    simp only
    rw [if_neg fun both => Bool.false_ne_true both.2, if_pos trivial, ih]

theorem behindQuoted_plain (plain : ∀ d ∈ body, d ≠ '\'' ∧ d ≠ '\\' ∧ d ≠ '\n') (rest : Text) :
    behindQuoted '\'' true (body ++ '\'' :: rest) = rest := by
  induction body with
  | nil =>
    rw [nil_append, behindQuoted.eq_def]
    rfl
  | cons d body ih =>
    obtain ⟨quote, escape, line⟩ := plain d (mem_cons_self ..)
    rw [cons_append, behindQuoted.eq_def]
    simp only
    rw [if_neg fun both => line both.1, if_neg escape, if_neg quote,
      ih fun e member => plain e (mem_cons_of_mem _ member)]

theorem behindQuoted_char (char : CharBody body) (rest : Text) :
    behindQuoted '\'' true (body ++ '\'' :: rest) = rest := by
  cases char with
  | one quote escape line =>
    exact behindQuoted_plain (fun d member => mem_singleton.mp member ▸ ⟨quote, escape, line⟩) rest
  | escape line plain =>
    rw [cons_append, cons_append, behindQuoted.eq_def]
    simp only
    rw [if_neg fun both => absurd both.1 (by decide), if_pos trivial, behindQuoted_plain plain]

theorem opensChar_char (char : CharBody body) (rest : Text) : opensChar (body ++ '\'' :: rest) := by
  cases char with
  | one quote escape line =>
    rw [singleton_append, opensChar, if_neg escape]
    rfl
  | @escape c tail line plain =>
    have passes (d : Char) (member : d ∈ tail) : (d ≠ '\'' && d ≠ '\n') = true := by
      simp [(plain d member).1, (plain d member).2.2]
    rw [cons_append, opensChar, if_pos rfl]
    by_cases quote : c = '\''
    · subst quote
      rfl
    · rw [cons_append, dropWhile_cons_of_pos (by simp [quote, line]), dropWhile_append_of_pos passes]
      rfl

/-- A raw string ends at the first quote with its number signs. -/
theorem behindRawString_body (inside : ¬ '"' :: List.replicate hashes '#' <:+: body) (rest : Text) :
    behindRawString hashes (body ++ '"' :: (List.replicate hashes '#' ++ rest)) = rest := by
  induction body with
  | nil =>
    rw [nil_append, behindRawString, if_pos ⟨rfl, isPrefixOf_iff_prefix.mpr (prefix_append ..)⟩,
      drop_left' length_replicate]
  | cons c body ih =>
    rw [cons_append, behindRawString, if_neg, ih fun later => inside (later.trans (suffix_cons ..).isInfix)]
    rintro ⟨rfl, closes⟩
    refine inside (List.IsPrefix.isInfix ?_)
    refine (prefix_cons_inj _).mpr ?_
    -- The hashes of a closing cannot reach over the closing quote.
    rcases prefix_or_prefix_of_prefix ( isPrefixOf_iff_prefix.mp closes) (prefix_append body _)
      with within | beyond
    · exact within
    · obtain ⟨more, same⟩ := beyond
      cases more with
      | nil =>
        rw [append_nil] at same
        exact same ▸ prefix_rfl
      | cons d more =>
        have hash : d = '#' := eq_of_mem_replicate (same ▸ mem_append_right _ (mem_cons_self ..))
        rw [closesRawString, ← same, hash, isPrefixOf_iff_prefix, prefix_append_right_inj] at closes
        exact absurd (cons_prefix_cons.mp closes).1 (by decide)

end Literals

section Pieces

theorem marks_append {first second : List (Option Bool)} {front back : List Bool} (before : Marks first front)
    (behind : Marks second back) : Marks (first ++ second) (front ++ back) := rel_append before behind

theorem marks_flat (kind : Bool) (text : Text) : Marks (List.replicate (units text).length (some kind))
    (flat kind text) := by
  rw [flat]
  induction (units text).length with
  | zero => exact .nil
  | succ n ih => exact .cons (fun _ => Option.some.inj) ih

theorem marks_open (kind : Bool) (text : Text) : Marks (List.replicate (units text).length none) (flat kind text) := by
  rw [flat]
  induction (units text).length with
  | zero => exact .nil
  | succ n ih => exact .cons (fun _ none => nomatch none) ih

/-- A piece of one part is read as it is. -/
theorem marks_single {piece : Piece} (parts : piece.parts = [(text, some kind)]) :
    Marks piece.kinds (flat kind text) ∧ piece.text = text := by
  rw [Piece.kinds, Piece.text, parts]
  simp only [flatMap_cons, flatMap_nil, append_nil]
  exact ⟨marks_flat kind text, trivial⟩

/-- A literal is read from its quote on, its opener as code or not, and its suffix as code. -/
theorem marks_literal {piece : Piece}
    (parts : piece.parts = [(opener, none), (text, some false), (suffix, some true)]) (kind : Bool) :
    Marks piece.kinds (flat kind opener ++ flat false text ++ flat true suffix) ∧
      piece.text = opener ++ text ++ suffix := by
  rw [Piece.kinds, Piece.text, parts]
  simp only [flatMap_cons, flatMap_nil, append_nil, ← append_assoc]
  exact ⟨marks_append (marks_append (marks_open kind opener) (marks_flat false text)) (marks_flat true suffix), trivial⟩

/-- The letters before a literal that is no raw string for the mask. -/
theorem readFrom_opener (named : opener = [] ∨ isName opener) (quote : isIdentByte c = false) (joined : Bool)
    (plain : joined = false → ClearOf opener (c :: rest)) :
    readFrom joined (opener ++ c :: rest) = flat true opener ++ codeMask (c :: rest) := by
  rcases named with rfl | named
  · exact readFrom_mark quote joined rest
  · refine readFrom_word named (fun d first => ?_) joined plain
    obtain rfl := Option.some.inj first
    rw [isNameChar, quote, Bool.false_and]

theorem codeMask_quoted (escapes : Escapes body) (rest : Text) :
    codeMask ('"' :: (body ++ ['"']) ++ rest) = flat false ('"' :: (body ++ ['"'])) ++ codeMask rest := by
  have same : '"' :: (body ++ ['"']) ++ rest = '"' :: (body ++ '"' :: rest) := by simp
  rw [same, codeMask, if_neg fun both => absurd both.1 (by decide), if_neg fun both => absurd both.1 (by decide),
    if_neg (by decide), if_pos rfl, behindQuoted_escapes escapes, ← same]
  exact marked_append

theorem codeMask_character (char : CharBody body) (rest : Text) :
    codeMask ('\'' :: (body ++ ['\'']) ++ rest) = flat false ('\'' :: (body ++ ['\''])) ++ codeMask rest := by
  have same : '\'' :: (body ++ ['\'']) ++ rest = '\'' :: (body ++ '\'' :: rest) := by simp
  rw [same, codeMask, if_neg fun both => absurd both.1 (by decide), if_neg fun both => absurd both.1 (by decide),
    if_neg (by decide), if_neg (by decide), if_pos ⟨rfl, opensChar_char char rest⟩, behindQuoted_char char, ← same]
  exact marked_append

/-- A raw string opens with its letters, number signs and quote. -/
theorem rawStringPrefix_raw (known : opener ∈ [['r'], ['b', 'r']]) (hashes : Nat) (rest : Text) :
    rawStringPrefix (opener ++ List.replicate hashes '#' ++ '"' :: rest) = some (hashes, '"' :: rest) := by
  have left : (replicate hashes '#' ++ '"' :: rest).dropWhile (· = '#') = '"' :: rest := by
    rw [dropWhile_append_of_pos fun c member => by simpa using eq_of_mem_replicate member]
    rfl
  have passed : ((replicate hashes '#' ++ '"' :: rest).takeWhile (· = '#')).length = hashes := by
    rw [takeWhile_append_of_pos fun c member => by simpa using eq_of_mem_replicate member]
    simp
  have behindR : rawStringPrefix ('r' :: (replicate hashes '#' ++ '"' :: rest)) = some (hashes, '"' :: rest) := by
    rw [rawStringPrefix_r, if_pos (by simp only [opensRaw, left]; rfl), left, passed]
  rcases mem_cons.mp known with rfl | other
  · exact behindR
  · obtain rfl := mem_singleton.mp other
    rw [append_assoc, cons_append, rawStringPrefix_b]
    exact behindR

/-- A raw string is no code. -/
theorem codeMask_raw (known : opener ∈ [['r'], ['b', 'r']]) (inside : ¬ '"' :: List.replicate hashes '#' <:+: body)
    (rest : Text) :
    codeMask (opener ++ List.replicate hashes '#' ++ '"' :: (body ++ '"' :: List.replicate hashes '#') ++ rest) =
      flat false (opener ++ List.replicate hashes '#' ++ '"' :: (body ++ '"' :: List.replicate hashes '#')) ++
        codeMask rest := by
  have same : opener ++ replicate hashes '#' ++ '"' :: (body ++ '"' :: replicate hashes '#') ++ rest =
      opener ++ replicate hashes '#' ++ '"' :: (body ++ '"' :: (replicate hashes '#' ++ rest)) := by simp
  have found := rawStringPrefix_raw known hashes (body ++ '"' :: (replicate hashes '#' ++ rest))
  obtain ⟨c, tail, shape, start, slash⟩ : ∃ c tail, opener = c :: tail ∧ isIdentStart c ∧ c ≠ '/' := by
    rcases mem_cons.mp known with rfl | other
    · exact ⟨_, _, rfl, rfl, by decide⟩
    · obtain rfl := mem_singleton.mp other
      exact ⟨_, _, rfl, rfl, by decide⟩
  rw [← marked_append, same]
  subst shape
  rw [cons_append, cons_append] at found ⊢
  rw [codeMask, if_neg fun both => slash both.1, if_neg fun both => slash both.1, if_pos start]
  split
  · rename_i read
    obtain ⟨rfl, rfl⟩ := Prod.mk.inj (Option.some.inj (read.symm.trans found))
    rw [tail_cons, behindRawString_body inside]
  · rename_i none
    rw [found] at none
    cases none

/-- A blank is code, and a wide one joins what follows. -/
theorem readFrom_blank (blank : isBlank c) (joined : Bool) (rest : Text) :
    readFrom joined ([c] ++ rest) = flat true [c] ++ readFrom (isWideBlank c) rest := by
  by_cases wide : isWideBlank c
  · have large : 0x80 ≤ c.toNat := by
      simp only [isWideBlank, contains_iff_mem, mem_cons, not_mem_nil, or_false] at wide
      omega
    have single : ([c] : Text).all isIdentByte := by simpa using isIdentByte_wide large
    rw [wide]
    refine readFrom_joined joined single fun _ => ?_
    exact @codeMask_name _ [] _ (isIdentStart_wide large) rfl
      (rawStringPrefix_other (wide_ne large (by decide)) (wide_ne large (by decide)))
  · have narrow : c ∈ [' ', '\t', '\n', '\x0b', '\x0c', '\r'] := by
      simpa [isBlank, wide] using blank
    have facts : ∀ c ∈ [' ', '\t', '\n', '\x0b', '\x0c', '\r'], isIdentByte c = false ∧ isIdentStart c = false ∧
      c ≠ '/' ∧ c ≠ '"' ∧
        c ≠ '\'' ∧ c.toNat < 0x80 := forall_of_all (by decide)
    obtain ⟨outside, start, slash, quote, char, small⟩ := facts c narrow
    rw [Bool.eq_false_iff.mpr wide, singleton_append, readFrom_mark outside,
      codeMask_other start (fun same => absurd same slash) quote (fun same => absurd same char), flat_single small]
    rfl

theorem codeMask_mark (mark : isMark c) (comment : c = '/' → rest.head? ≠ some '/' ∧ rest.head? ≠ some '*') :
    isIdentByte c = false ∧ codeMask ([c] ++ rest) = flat true [c] ++ codeMask rest := by
  simp only [isMark, Bool.and_eq_true, decide_eq_true_eq, Bool.not_eq_true', ne_eq] at mark
  obtain ⟨⟨⟨⟨small, outside⟩, -⟩, quote⟩, char⟩ := mark
  have start : isIdentStart c = false := by
    refine Bool.eq_false_iff.mpr fun start => Bool.eq_false_iff.mp outside ?_
    simp only [isIdentStart, isIdentByte, Char.isAlphanum, Bool.or_eq_true] at start ⊢
    tauto
  refine ⟨outside, ?_⟩
  rw [singleton_append, codeMask_other start comment quote (fun same => absurd same char), flat_single small]
  rfl

/-- A raw identifier is read as code. -/
theorem readFrom_rawName (named : isName name) (ends : NameEnds rest) (clear : ClearOf name rest) (joined : Bool) :
    readFrom joined ('r' :: '#' :: name ++ rest) = flat true ('r' :: '#' :: name) ++ codeMask rest := by
  have notRaw : ¬opensRaw ('#' :: (name ++ rest)) := by
    have inside := inside_of_isName named
    obtain ⟨c, tail, rfl, -⟩ := isName_cons named
    exact Bool.eq_false_iff.mp (opensRaw_name (Bool.and_eq_true_iff.mp inside).1 (tail ++ rest))
  have before :=
    @readFrom_opener _ ['r'] _ (.inr (by decide)) (show isIdentByte '#' = false by decide) joined fun _ _ => notRaw
  rw [singleton_append, codeMask_other (by decide) (fun same => absurd same (by decide)) (by decide)
    (fun same => absurd same (by decide)),
    codeMask_word named ends clear] at before
  exact before

/-- A lifetime is code. -/
theorem codeMask_lifetime (named : isName name) (ends : NameEnds rest) (closed : rest.head? ≠ some '\'')
    (clear : ClearOf name rest) : codeMask ('\'' :: name ++ rest) = flat true ('\'' :: name) ++ codeMask rest := by
  have label : opensChar (name ++ rest) = false := by
    obtain ⟨c, tail, rfl, -, start, inside⟩ := isName_cons named
    have escape : c ≠ '\\' := by
      rintro rfl
      cases start
    rw [cons_append, opensChar, if_neg escape, decide_eq_false_iff_not]
    cases tail with
    | nil => exact closed
    | cons d tail =>
      intro quote
      obtain rfl := Option.some.inj quote
      cases (Bool.and_eq_true_iff.mp inside).1
  rw [cons_append, codeMask_other (by decide) (fun same => absurd same (by decide)) (by decide) fun _ => label,
    codeMask_word named ends clear]
  rfl

/-- A number with its suffix is code. -/
theorem readFrom_number {digits tail : Text} (number : digits.all Char.isDigit) (named : tail = [] ∨ isName tail)
    (ends : NameEnds rest) (joined : Bool) (clear : joined = false → ClearOf tail rest) :
    readFrom joined (digits ++ tail ++ rest) = flat true (digits ++ tail) ++ codeMask rest := by
  have digitsInside : digits.all isIdentByte := all_eq_true.mpr fun d member => by
    rw [isIdentByte, Char.isAlphanum, all_eq_true.mp number d member, Bool.or_true, Bool.true_or, Bool.true_or]
  have tailInside : tail.all isIdentByte := by
    rcases named with rfl | named
    · rfl
    · exact inside_of_isName named
  have inside : (digits ++ tail).all isIdentByte := by rw [all_append, digitsInside, tailInside]; rfl
  rw [← joinedMask_ends ends]
  refine readFrom_joined joined inside fun plain => ?_
  rw [joinedMask_ends ends, append_assoc, codeMask_digits number,
    codeMask_suffix (named.imp_right fun named => ⟨named, ends⟩) (clear plain), flat_append, append_assoc]

theorem codeMask_lineComment (inside : '\n' ∉ body) (ends : ∀ c ∈ rest.head?, c = '\n') :
    codeMask ('/' :: '/' :: body ++ rest) = flat false ('/' :: '/' :: body) ++ codeMask rest := by
  have stops : ('/' :: (body ++ rest)).dropWhile (· ≠ '\n') = rest := by
    rw [dropWhile_cons_of_pos (by decide), dropWhile_append_of_pos fun c member => by
      simpa using fun same : c = '\n' => inside (same ▸ member)]
    cases rest with
    | nil => rfl
    | cons c rest => exact dropWhile_cons_of_neg (by simpa using ends c rfl)
  rw [cons_append, cons_append, codeMask, if_pos ⟨rfl, rfl⟩]
  simp only [stops]
  show marked false ('/' :: '/' :: body ++ rest) rest _ = _
  exact marked_append

theorem codeMask_blockComment (nests : Nests body) (rest : Text) :
    codeMask ('/' :: '*' :: body ++ rest) = flat false ('/' :: '*' :: body) ++ codeMask rest := by
  have left := behindNestedBlockComment_nests nests 0 rest
  rw [if_pos rfl] at left
  rw [cons_append, cons_append, codeMask, if_neg fun both => absurd (Option.some.inj both.2) (by decide),
    if_pos ⟨rfl, rfl⟩]
  simp only [tail_cons, left]
  show marked false ('/' :: '*' :: body ++ rest) rest _ = _
  exact marked_append

/-- A literal that opens with letters the mask takes for code. -/
theorem readFrom_literal {piece : Piece}
    (parts : piece.parts = [(opener, none), (c :: text, some false), (suffix, some true)])
    (named : opener = [] ∨ isName opener) (quote : isIdentByte c = false) (joined : Bool)
    (plain : joined = false → opener ∉ [['r'], ['b', 'r']])
    (literal : ∀ rest, codeMask (c :: text ++ rest) = flat false (c :: text) ++ codeMask rest)
    (ends : SuffixEnds suffix rest) (clear : ClearOf suffix rest) :
    ∃ mask, Marks piece.kinds mask ∧ readFrom joined (piece.text ++ rest) = mask ++ codeMask rest := by
  obtain ⟨marks, same⟩ := marks_literal parts true
  refine ⟨_, marks, ?_⟩
  rw [same, append_assoc, append_assoc, cons_append,
    readFrom_opener named quote joined fun unjoined known => absurd known (plain unjoined), ← cons_append, literal,
    codeMask_suffix (named_of_suffixEnds ends) clear]
  simp only [append_assoc]

/-- A raw string with its suffix is masked as the piece says. -/
theorem readFrom_raw (known : opener ∈ [['r'], ['b', 'r'], ['c', 'r']])
    (inside : ¬ '"' :: List.replicate hashes '#' <:+: body) (ends : SuffixEnds suffix rest) (joined : Bool)
    (alike : (Piece.raw opener hashes body suffix).ReadAlike joined rest) :
    ∃ mask, Marks (Piece.raw opener hashes body suffix).kinds mask ∧
      readFrom joined ((Piece.raw opener hashes body suffix).text ++ rest) = mask ++ codeMask rest := by
  obtain ⟨plainly, clear⟩ := alike
  have letters : ∀ opener ∈ [['r'], ['b', 'r'], ['c', 'r']], isName opener ∧
    (opener = ['c', 'r'] ∨ opener ∈ [['r'], ['b', 'r']]) ∧
      (opener = ['c', 'r'] → opener ∉ [['r'], ['b', 'r']]) := by decide
  obtain ⟨named, isRaw, other⟩ := letters opener known
  by_cases missed : joined ∨ opener = ['c', 'r']
  · obtain ⟨rfl, escapes⟩ := plainly missed
    have parts : (Piece.raw opener 0 body suffix).parts =
      [(opener, none), ('"' :: (body ++ ['"']), some false), (suffix, some true)] := by
      simp [Piece.parts]
    refine readFrom_literal parts (.inr named) (by decide) joined (fun unjoined => ?_)
      (codeMask_quoted escapes) ends clear
    rcases missed with rfl | isC
    · cases unjoined
    · exact other isC
  · obtain ⟨unjoined, notC⟩ := not_or.mp missed
    obtain ⟨marks, same⟩ := @marks_literal _ _ _ (.raw opener hashes body suffix) rfl false
    refine ⟨_, marks, ?_⟩
    rw [Bool.eq_false_iff.mpr unjoined, same, append_assoc _ suffix, readFrom, if_neg Bool.false_ne_true,
      codeMask_raw (isRaw.resolve_left notC) inside, codeMask_suffix (named_of_suffixEnds ends) clear, flat_append]
    simp only [append_assoc]

/-- A piece that is read as the language does has its marks, and the reading goes on behind it. -/
theorem readFrom_piece {piece : Piece} (joined : Bool) (valid : piece.Valid rest)
    (alike : piece.ReadAlike joined rest) :
    ∃ mask, Marks piece.kinds mask ∧ readFrom joined (piece.text ++ rest) = mask ++ readFrom piece.isWide rest := by
  have single {text : Text} {kind : Bool} (parts : piece.parts = [(text, some kind)])
      (read : readFrom joined (text ++ rest) = flat kind text ++ readFrom piece.isWide rest) :
      ∃ mask, Marks piece.kinds mask ∧ readFrom joined (piece.text ++ rest) = mask ++ readFrom piece.isWide rest := by
    obtain ⟨marks, same⟩ := marks_single parts
    exact ⟨_, marks, same ▸ read⟩
  cases piece with
  | blank c => exact single rfl (readFrom_blank valid joined rest)
  | mark c =>
    obtain ⟨outside, read⟩ := codeMask_mark valid.1 valid.2
    exact single rfl ((readFrom_mark outside joined rest).trans read)
  | word name =>
    obtain ⟨named, ends, clear, -⟩ := valid
    refine single rfl (readFrom_word named ends joined fun _ known => clear ?_)
    rcases mem_cons.mp known with rfl | other
    · exact mem_cons_self ..
    · exact mem_cons_of_mem _ (mem_cons.mpr (.inl (mem_singleton.mp other)))
  | rawName name => exact single rfl (readFrom_rawName valid.1 valid.2 alike joined)
  | lifetime name =>
    obtain ⟨named, ends, closed⟩ := valid
    exact single rfl ((readFrom_mark (by decide) joined _).trans (codeMask_lifetime named ends closed alike))
  | number digits tail =>
    obtain ⟨-, number, named, ends⟩ := valid
    exact single rfl
      (readFrom_number number named ends joined fun unjoined => alike.resolve_left (by simp [unjoined]))
  | lineComment body =>
    exact single rfl ((readFrom_mark (by decide) joined _).trans (codeMask_lineComment valid.1 valid.2))
  | blockComment body =>
    exact single rfl ((readFrom_mark (by decide) joined _).trans (codeMask_blockComment valid rest))
  | quoted opener body suffix =>
    obtain ⟨known, escapes, ends⟩ := valid
    have letters : ∀ opener ∈ [[], ['b'], ['c']], (opener = [] ∨ isName opener) ∧ opener ∉ [['r'], ['b', 'r']] := by
      decide
    obtain ⟨named, plain⟩ := letters opener known
    exact readFrom_literal rfl named (by decide) joined (fun _ => plain) (codeMask_quoted escapes) ends alike
  | raw opener hashes body suffix => exact readFrom_raw valid.1 valid.2.1 valid.2.2 joined alike
  | character opener body suffix =>
    obtain ⟨known, char, ends⟩ := valid
    have letters : ∀ opener ∈ [[], ['b']], (opener = [] ∨ isName opener) ∧ opener ∉ [['r'], ['b', 'r']] := by decide
    obtain ⟨named, plain⟩ := letters opener known
    exact readFrom_literal rfl named (by decide) joined (fun _ => plain) (codeMask_character char) ends alike

end Pieces

/-- Pieces that are all read as the language does have their marks. -/
theorem readFrom_pieces {joined : Bool} {pieces : List Piece} (valid : Valid pieces) (alike : ReadAlike joined pieces) :
    Marks (pieces.flatMap Piece.kinds) (readFrom joined (source pieces)) := by
  induction pieces generalizing joined with
  | nil =>
    have none : readFrom joined [] = [] := by
      rw [readFrom_eq (fun c first => absurd first (by simp)), codeMask]
    rw [source, flatMap_nil, flatMap_nil, none]
    exact .nil
  | cons piece pieces ih =>
    obtain ⟨mask, marks, read⟩ := readFrom_piece joined valid.1 alike.1
    rw [source, flatMap_cons, flatMap_cons]
    show Marks _ (readFrom joined (piece.text ++ source pieces))
    rw [read]
    exact marks_append marks (ih valid.2 alike.2)

section Headers

variable {header : Text}

theorem opensRaw_quiet (quote : '"' ∉ text) (ends : ∀ c ∈ rest.head?, c = '\n') : opensRaw (text ++ rest) = false := by
  induction text with
  | nil =>
    cases rest with
    | nil => rfl
    | cons c rest =>
      obtain rfl := ends c rfl
      rfl
  | cons c text ih =>
    by_cases hash : c = '#'
    · subst hash
      exact ih fun member => quote (mem_cons_of_mem _ member)
    · have other : c ≠ '"' := fun same => quote (same ▸ mem_cons_self ..)
      rw [cons_append, opensRaw, dropWhile_cons_of_neg (by simpa using hash)]
      simpa using other

/-- Where no quote follows on the line, no raw string opens. -/
theorem rawStringPrefix_quiet (quote : '"' ∉ text) (ends : ∀ c ∈ rest.head?, c = '\n') :
    rawStringPrefix (c :: (text ++ rest)) = none := by
  have behindR {text : Text} (quote : '"' ∉ text) : rawStringPrefix ('r' :: (text ++ rest)) = none := by
    rw [rawStringPrefix_r, opensRaw_quiet quote ends]
    rfl
  by_cases isR : c = 'r'
  · exact isR ▸ behindR quote
  · by_cases isB : c = 'b'
    · rw [isB, rawStringPrefix_b]
      split
      · rename_i raw
        cases text with
        | nil => exact absurd (ends 'r' raw) (by decide)
        | cons d text =>
          obtain rfl : d = 'r' := Option.some.inj raw
          exact behindR fun member => quote (mem_cons_of_mem _ member)
      · rfl
    · exact rawStringPrefix_other isB isR

theorem Quiet.quoteless (quiet : Quiet rest header) : '"' ∉ header := by
  induction header with
  | nil => exact not_mem_nil
  | cons c header ih =>
    rw [mem_cons, not_or]
    exact ⟨fun same => quiet.1 same.symm, ih quiet.2.2.2⟩

/-- No comment opens across the end of a line. -/
theorem head?_header {mark : Char} (ends : ∀ c ∈ rest.head?, c = '\n') (known : mark ≠ '\n') :
    (header ++ rest).head? = some mark ↔ header.head? = some mark := by
  cases header with
  | nil => exact ⟨fun first => absurd (ends mark first) known, fun none => nomatch none⟩
  | cons d header => exact .rfl

/-- A line that opens no literal and no comment is code, in a name or not. -/
theorem codeMask_quiet (quiet : Quiet rest header) (ends : ∀ c ∈ rest.head?, c = '\n') (joined : Bool) :
    readFrom joined (header ++ rest) = flat true header ++ codeMask rest := by
  induction header generalizing joined with
  | nil =>
    refine readFrom_eq (fun c first inside => ?_) joined
    obtain rfl := ends c first
    cases inside
  | cons c header ih =>
    obtain ⟨quote, comment, char, later⟩ := quiet
    have split : flat true (c :: header) = flat true [c] ++ flat true header := flat_append [c] header
    have single : joinedMask (header ++ rest) = flat true header ++ codeMask rest := ih later true
    have plain : readFrom false (c :: header ++ rest) = flat true (c :: header) ++ codeMask rest := by
      rw [split, append_assoc]
      by_cases start : isIdentStart c
      · rw [← single]
        exact @codeMask_name _ [] _ start rfl (@rawStringPrefix_quiet header _ _ later.quoteless ends)
      · have small : c.toNat < 0x80 := Nat.lt_of_not_le fun large => start (isIdentStart_wide large)
        rw [flat_single small, ← show _ = flat true header ++ codeMask rest from ih later false]
        have outside (slash : c = '/') : (header ++ rest).head? ≠ some '/' ∧ (header ++ rest).head? ≠ some '*' :=
          ⟨fun second => (comment slash).1 ((head?_header ends (by decide)).mp second),
            fun second => (comment slash).2 ((head?_header ends (by decide)).mp second)⟩
        exact codeMask_other (Bool.eq_false_iff.mpr start) outside quote char
    cases joined with
    | false => exact plain
    | true =>
      by_cases inside : isIdentByte c
      · have all : ([c] : Text).all isIdentByte := by simpa using inside
        rw [split, append_assoc, ← single]
        exact joinedMask_append all (header ++ rest)
      · rw [cons_append, readFrom_mark (Bool.eq_false_iff.mpr inside)]
        exact plain

theorem head?_marked (shorter : (units suffix).length < (units (c :: text)).length) :
    (marked kind (c :: text) suffix mask).head? = some kind := by
  obtain ⟨n, positive⟩ := Nat.exists_eq_add_of_lt shorter
  rw [marked, covered, positive, show (units suffix).length + n + 1 - (units suffix).length = n + 1 by omega]
  rfl

/-- The first byte of a comment, a string or a character literal is no code. -/
theorem codeMask_opens (opens : c = '/' ∧ (text.head? = some '/' ∨ text.head? = some '*') ∨ c = '"' ∨
    c = '\'' ∧ opensChar text = true) : (codeMask (c :: text)).head? = some false := by
  have within {behind : Text} (inside : (units behind).length ≤ (units text).length) :
      (units behind).length < (units (c :: text)).length := by
    have positive : 0 < (unitsOf c).length := by
      rcases unitsOf_cases c with ⟨-, same⟩ | ⟨-, first, later, same, -⟩ <;> rw [same] <;> exact Nat.succ_pos _
    rw [units_cons, length_append]
    omega
  rw [codeMask]
  rcases opens with ⟨rfl, second⟩ | rfl | ⟨rfl, char⟩
  · by_cases line : text.head? = some '/'
    · rw [if_pos ⟨rfl, line⟩]
      refine head?_marked (within ?_)
      rw [← dropWhile_units fun b large => by simpa using @wide_ne _ '\n' large (by decide)]
      exact (dropWhile_suffix _).length_le
    · rw [if_neg fun both => line both.2, if_pos ⟨rfl, second.resolve_left line⟩]
      refine head?_marked (within ?_)
      rw [← behindNestedBlockComment_units, ← tail_units (by decide) (second.resolve_left line)]
      exact (behindNestedBlockComment_le 1 _).trans (by rw [length_tail]; exact Nat.sub_le _ _)
  · refine head?_marked (within ?_)
    rw [← behindQuoted_units (by decide)]
    exact behindQuoted_le _ _ _
  · rw [if_neg fun both => absurd both.1 (by decide), if_neg fun both => absurd both.1 (by decide), if_neg (by decide),
      if_neg (by decide), if_pos ⟨rfl, char⟩]
    refine head?_marked (within ?_)
    rw [← behindQuoted_units (by decide)]
    exact behindQuoted_le _ _ _

/-- The letters before a raw string are no code. -/
theorem codeMask_opensRaw (start : isIdentStart c) (raw : rawStringPrefix (c :: text) ≠ none) :
    (codeMask (c :: text)).head? = some false := by
  have slash : c ≠ '/' := by
    rintro rfl
    cases start
  rw [codeMask, if_neg fun both => slash both.1, if_neg fun both => slash both.1, if_pos start]
  split
  · rename_i hashes quoted found
    have prefixed := rawStringPrefix_units (c :: text)
    rw [found] at prefixed
    refine head?_marked ?_
    rw [← behindRawString_units, ← tail_units (by decide) (head?_of_rawStringPrefix found)]
    have shorter := behindRawString_le hashes (units quoted).tail
    rw [length_tail] at shorter
    exact Nat.lt_of_le_of_lt (shorter.trans (Nat.sub_le _ _)) (rawStringPrefix_length prefixed)
  · exact absurd ‹_› raw

/-- A line that is marked as code opens no literal and no comment. -/
theorem quiet_of_flat (ends : ∀ c ∈ rest.head?, c = '\n') (joined : Bool)
    (code : flat true header <+: readFrom joined (header ++ rest)) : Quiet rest header := by
  induction header generalizing joined with
  | nil => trivial
  | cons c header ih =>
    rw [show c :: header = [c] ++ header from rfl, flat_append, append_assoc] at code
    have letter (inside : isIdentByte c = true) (later : Quiet rest header) : Quiet rest (c :: header) := by
      refine ⟨?_, ?_, ?_, later⟩ <;> rintro rfl <;> cases inside
    by_cases passed : joined = true ∧ isIdentByte c = true
    · obtain ⟨rfl, inside⟩ := passed
      have all : ([c] : Text).all isIdentByte := by simpa using inside
      rw [readFrom, if_pos rfl, joinedMask_append all, prefix_append_right_inj] at code
      exact letter inside (ih true code)
    · have read : readFrom joined ([c] ++ (header ++ rest)) = codeMask (c :: (header ++ rest)) := by
        cases joined with
        | false => rfl
        | true => exact readFrom_mark (Bool.eq_false_iff.mpr fun inside => passed ⟨rfl, inside⟩) true _
      rw [read] at code
      have first : (codeMask (c :: (header ++ rest))).head? ≠ some false := by
        intro opened
        obtain ⟨later, same⟩ := code
        have single : flat true [c] = true :: replicate ((unitsOf c).length - 1) true := by
          rw [flat, units_cons, units_nil, append_nil]
          rcases unitsOf_cases c with ⟨-, one⟩ | ⟨-, b, more, one, -⟩ <;> rw [one] <;> rfl
        rw [← same, single] at opened
        cases opened
      by_cases start : isIdentStart c
      · have plain : rawStringPrefix (c :: ([] ++ (header ++ rest))) = none :=
          by_contra fun raw => first (codeMask_opensRaw start raw)
        have named := @codeMask_name _ [] _ start rfl plain
        rw [nil_append] at named
        rw [named, prefix_append_right_inj] at code
        refine letter ?_ (ih true code)
        rw [isIdentStart, Bool.or_assoc] at start
        rw [isIdentByte, Bool.or_assoc, Char.isAlphanum, Bool.or_assoc, Bool.or_left_comm, start, Bool.or_true]
      · have quote : c ≠ '"' := fun same => first (codeMask_opens (.inr (.inl same)))
        have comment (slash : c = '/') : (header ++ rest).head? ≠ some '/' ∧ (header ++ rest).head? ≠ some '*' :=
          ⟨fun second => first (codeMask_opens (.inl ⟨slash, .inl second⟩)),
            fun second => first (codeMask_opens (.inl ⟨slash, .inr second⟩))⟩
        have char (same : c = '\'') : opensChar (header ++ rest) = false :=
          Bool.eq_false_iff.mpr fun opens => first (codeMask_opens (.inr (.inr ⟨same, opens⟩)))
        have small : c.toNat < 0x80 := Nat.lt_of_not_le fun large => start (isIdentStart_wide large)
        rw [codeMask_other (Bool.eq_false_iff.mpr start) comment quote char, flat_single small] at code
        refine ⟨quote, fun slash => ?_, char, ih false (prefix_cons_inj true |>.mp code)⟩
        exact ⟨fun second => (comment slash).1 ((head?_header ends (by decide)).mpr second),
          fun second => (comment slash).2 ((head?_header ends (by decide)).mpr second)⟩

end Headers

end Steps

section Sources

theorem covered_length {kind : Bool} {bytes rest : Bytes} {mask : List Bool} (shorter : rest.length ≤ bytes.length)
    (same : mask.length = rest.length) : (covered kind bytes rest mask).length = bytes.length := by
  rw [covered, length_append, length_replicate, same]
  omega

/-- The mask is as long as the text. -/
theorem length_of_rustCodeMask {bytes : Bytes} {mask : List Bool} (found : rustCodeMask bytes = some mask) :
    mask.length = bytes.length := by
  fun_induction rustCodeMask bytes generalizing mask with
  | case1 =>
    cases found
    rfl
  | case2 b rest line behind =>
    rename_i ih
    obtain ⟨inner, read, rfl⟩ := Option.map_eq_some_iff.mp found
    exact covered_length (Nat.le_succ_of_le (dropWhile_suffix _).length_le) (ih read)
  | case3 b rest line block behind =>
    rename_i ih
    obtain ⟨inner, read, rfl⟩ := Option.map_eq_some_iff.mp found
    refine covered_length ?_ (ih read)
    have shorter := behindNestedBlockComment_le 1 rest.tail
    rw [length_tail] at shorter
    show (behindNestedBlockComment 1 rest.tail).length ≤ rest.length + 1
    omega
  | case4 b rest line block start hashes quoted raw behind =>
    rename_i ih
    obtain ⟨inner, read, rfl⟩ := Option.map_eq_some_iff.mp found
    refine covered_length ?_ (ih read)
    have shorter := rawStringPrefix_length raw
    have smaller := behindRawString_le hashes quoted.tail
    rw [length_tail] at smaller
    show (behindRawString hashes quoted.tail).length ≤ _
    omega
  | case5 b rest line block start raw name behind ident ih =>
    obtain ⟨inner, read, rfl⟩ := Option.map_eq_some_iff.mp found
    exact covered_length (Nat.le_of_lt (readIdent_shorter ident).1) (ih read)
  | case6 => cases found
  | case7 rest behind line block start =>
    rename_i ih
    obtain ⟨inner, read, rfl⟩ := Option.map_eq_some_iff.mp found
    exact covered_length (Nat.le_succ_of_le (behindQuoted_le _ _ _)) (ih read)
  | case8 b rest line block start string char behind =>
    rename_i ih
    obtain ⟨inner, read, rfl⟩ := Option.map_eq_some_iff.mp found
    exact covered_length (Nat.le_succ_of_le (behindQuoted_le _ _ _)) (ih read)
  | case9 b rest line block start string char ih =>
    obtain ⟨inner, read, rfl⟩ := Option.map_eq_some_iff.mp found
    exact congrArg (· + 1) (ih read)

/-- Whether each byte of a source is code for the language. -/
def kindsOf (header : Text) (pieces : List Piece) : List (Option Bool) :=
  List.replicate (units header).length (some true) ++ pieces.flatMap Piece.kinds

theorem flat_of_marks {kinds : List (Option Bool)} {mask : List Bool}
    (marks : Marks (List.replicate (units text).length (some true) ++ kinds) mask) : flat true text <+: mask := by
  rw [flat]
  generalize (units text).length = n at marks ⊢
  induction n generalizing mask with
  | zero => exact nil_prefix
  | succ n ih =>
    rw [replicate_succ] at marks ⊢
    cases marks with
    | cons known later => exact cons_prefix_cons.mpr ⟨(known true rfl).symm, ih later⟩

/-- Every text has a mask of its length. For a source whose literals the mask reads as the language does, it is right
exactly when the line for the shell opens none. -/
theorem code_mask_follows_tokens (text header : Text) (pieces : List Piece) :
    (∃ mask, rustCodeMask (units text) = some mask ∧ mask.length = (units text).length) ∧
      (Header header (source pieces) → Valid pieces → ReadAlike false pieces →
        ((∃ mask, rustCodeMask (units (header ++ source pieces)) = some mask ∧ Marks (kindsOf header pieces) mask) ↔
          Quiet (source pieces) header)) := by
  refine ⟨⟨_, rustCodeMask_units text, length_of_rustCodeMask (rustCodeMask_units text)⟩, ?_⟩
  intro shape valid alike
  rcases shape with rfl | ⟨line, -, -, ends⟩
  · exact iff_of_true ⟨_, rustCodeMask_units _, marks_append (marks_flat true []) (readFrom_pieces valid alike)⟩ trivial
  · constructor
    · rintro ⟨mask, found, marks⟩
      obtain rfl := Option.some.inj ((rustCodeMask_units _).symm.trans found)
      exact quiet_of_flat ends false (flat_of_marks marks)
    · intro quiet
      refine ⟨_, rustCodeMask_units _, ?_⟩
      rw [show codeMask (header ++ source pieces) = _ from codeMask_quiet quiet ends false]
      exact marks_append (marks_flat true header) (readFrom_pieces valid alike)

def rawThenComment : List Piece := [.raw ['r'] 1 ['a', '"', 'b'] [], .blockComment ['*', '/']]

/-- A raw string behind a header. -/
theorem code_mask_follows_raw_string :
    ∃ mask, rustCodeMask (units (source rawThenComment)) = some mask ∧ Marks (kindsOf [] rawThenComment) mask := by
  have valid : Valid rawThenComment :=
    ⟨⟨by decide, by decide, fun c first => by cases first; decide⟩, .closes, trivial⟩
  have alike : ReadAlike false rawThenComment := by
    refine ⟨⟨fun missed => ?_, fun known => absurd known (by decide)⟩, trivial, trivial⟩
    exact absurd missed (by decide)
  exact ((code_mask_follows_tokens [] [] rawThenComment).2 (.inl rfl) valid alike).mpr trivial

def rawCString : List Piece := [.raw ['c', 'r'] 1 ['a', '"', 'b'] []]

/-- A raw C string is read as a string, which a quote inside of it ends. -/
theorem raw_c_string_is_cut : ¬∀ header pieces, Header header (source pieces) → Valid pieces →
      ∃ mask, rustCodeMask (units (header ++ source pieces)) = some mask ∧ Marks (kindsOf header pieces) mask := by
  intro right
  have valid : Valid rawCString := ⟨⟨by decide, by decide, fun c first => nomatch first⟩, trivial⟩
  obtain ⟨mask, found, marks⟩ := right [] rawCString (.inl rfl) valid
  have read : codeMask (source rawCString) = [true, true, true, false, false, false, true, false, false] := by
    decide +kernel
  obtain rfl := Option.some.inj (found.symm.trans (rustCodeMask_units _))
  rw [nil_append, read] at marks
  have inside := marks.get (i := 6) (by decide) (by decide) false rfl
  cases inside

end Sources

end Codegraph.Resolve.RustLexical
