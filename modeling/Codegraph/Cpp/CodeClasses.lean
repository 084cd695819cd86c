import Mathlib.Data.List.Basic

/- This file gives each byte of a C++ source its lexical class. -/

namespace Codegraph.Cpp
open List

inductive CodeClass where
  | code
  | comment
  | literal
  | directive
  deriving DecidableEq

namespace CodeClasses

variable (bytes : List Char) {i : Nat}

def byteAt (i : Nat) : Char := bytes[i]?.getD '\x00'

def isAsciiDigit (c : Char) : Bool := '0' ≤ c && c ≤ '9'

def isAsciiWhitespace (c : Char) : Bool := c = ' ' || c = '\t' || c = '\n' || c = '\r' || c = '\x0c'

def lineStop (i : Nat) : Nat := i + ((bytes.drop i).takeWhile (· ≠ '\n')).length

/-- Past a logical preprocessor line, over every line break behind a backslash. -/
def preprocessorStop (start i : Nat) : Nat :=
  let stop := lineStop bytes i
  let back := if stop > start ∧ byteAt bytes (stop - 1) = '\r' then stop - 1 else stop
  let continued := back > start ∧ byteAt bytes (back - 1) = '\\'
  if stop < bytes.length then
    if ¬ continued ∨ stop + 1 ≥ bytes.length then stop + 1 else preprocessorStop start (stop + 1)
  else stop
termination_by bytes.length - i
decreasing_by
  have : i ≤ lineStop bytes i := Nat.le_add_right ..
  omega

/-- Past a literal from behind its opening quote. It stops at a line break. -/
def quotedStop (quote : Char) (i : Nat) : Nat :=
  if i < bytes.length then
    let c := byteAt bytes i
    if c = '\n' then i
    else if c = '\\' then
      if i + 1 < bytes.length ∧ byteAt bytes (i + 1) ≠ '\n' then quotedStop quote (i + 2) else quotedStop quote (i + 1)
    else if c = quote then i + 1
    else quotedStop quote (i + 1)
  else i
termination_by bytes.length - i

/-- The first place at or behind an index where the closer of a raw string ends. -/
def closerStop (closer : List Char) (k : Nat) : Nat :=
  if k + closer.length > bytes.length then bytes.length
  else if closer.isPrefixOf (bytes.drop k) then k + closer.length
  else closerStop closer (k + 1)
termination_by bytes.length + 1 - k
decreasing_by omega

/-- Past a raw string from its quote. A malformed opener is an ordinary string. -/
def rawStop (quote : Nat) : Nat :=
  let delimiter := ((bytes.drop (quote + 1)).take 16).takeWhile fun c => c ≠ '(' && !isAsciiWhitespace c
  let delimEnd := quote + 1 + delimiter.length
  if bytes[delimEnd]? = some '(' then closerStop bytes (')' :: (delimiter ++ ['"'])) (delimEnd + 1)
  else quotedStop bytes '"' (quote + 1)

def blockStop (i : Nat) : Nat :=
  if i < bytes.length then
    if byteAt bytes i = '*' ∧ byteAt bytes (i + 1) = '/' then i + 2 else blockStop (i + 1)
  else i
termination_by bytes.length - i

variable {bytes}

theorem inside_of_at {c : Char} (solid : c ≠ '\x00') (found : byteAt bytes i = c) : i < bytes.length := by
  by_contra outside
  rw [byteAt, getElem?_eq_none (Nat.le_of_not_lt outside)] at found
  exact solid found.symm

theorem get_of_at {c : Char} (solid : c ≠ '\x00') (found : byteAt bytes i = c) : bytes[i]? = some c := by
  have inside := inside_of_at solid found
  rw [byteAt, getElem?_eq_getElem inside, Option.getD_some] at found
  rw [getElem?_eq_getElem inside, found]

theorem le_lineStop (i : Nat) : i ≤ lineStop bytes i := Nat.le_add_right ..

theorem lineStop_le (inside : i ≤ bytes.length) : lineStop bytes i ≤ bytes.length := by
  have shorter := (takeWhile_sublist (p := (· ≠ '\n')) (l := bytes.drop i)).length_le
  rw [length_drop] at shorter
  rw [lineStop]
  omega

/-- A line that does not end the bytes stops at a line break. -/
theorem newline_lineStop (inside : lineStop bytes i < bytes.length) : bytes[lineStop bytes i]? = some '\n' := by
  have stops := head?_dropWhile_not (· ≠ '\n') (bytes.drop i)
  have behind : ((bytes.drop i).takeWhile (· ≠ '\n') ++
    (bytes.drop i).dropWhile (· ≠ '\n'))[((bytes.drop i).takeWhile (· ≠ '\n')).length]? =
      ((bytes.drop i).dropWhile (· ≠ '\n')).head? := by
    rw [getElem?_append_right (Nat.le_refl _), Nat.sub_self, head?_eq_getElem?]
  rw [takeWhile_append_dropWhile, getElem?_drop, ← lineStop, getElem?_eq_getElem inside] at behind
  rw [← behind] at stops
  rw [getElem?_eq_getElem inside]
  simpa using stops

theorem preprocessorStop_bounds (start : Nat) (inside : i < bytes.length) :
    i < preprocessorStop bytes start i ∧ preprocessorStop bytes start i ≤ bytes.length := by
  fun_induction preprocessorStop bytes start i with
  | case1 i stop back continued more ends =>
    have least : i ≤ lineStop bytes i := le_lineStop i
    omega
  | case2 i stop back continued more ends ih =>
    have least : i ≤ lineStop bytes i := le_lineStop i
    have later := ih (by omega)
    omega
  | case3 i stop =>
    have least : i ≤ lineStop bytes i := le_lineStop i
    have most := lineStop_le (Nat.le_of_lt inside)
    omega

theorem lt_lineStop (inside : i < bytes.length) (other : byteAt bytes i ≠ '\n') : i < lineStop bytes i := by
  have here : bytes[i]? = some bytes[i] := getElem?_eq_getElem inside
  rw [byteAt, here, Option.getD_some] at other
  rw [lineStop, drop_eq_getElem_cons inside, takeWhile_cons_of_pos (by simpa using other), length_cons]
  omega

theorem quotedStop_bounds (quote : Char) (inside : i ≤ bytes.length) :
    i ≤ quotedStop bytes quote i ∧ quotedStop bytes quote i ≤ bytes.length := by
  fun_induction quotedStop bytes quote i with
  | case1 => omega
  | case2 i more c other escapes next ih =>
    have := ih (by omega)
    omega
  | case3 i more c other escapes next ih =>
    have := ih (by omega)
    omega
  | case4 => omega
  | case5 i more c other plain notQuote ih =>
    have := ih (by omega)
    omega
  | case6 => omega

theorem closerStop_bounds (closer : List Char) {k : Nat} (inside : k ≤ bytes.length) :
    k ≤ closerStop bytes closer k ∧ closerStop bytes closer k ≤ bytes.length := by
  fun_induction closerStop bytes closer k with
  | case1 => omega
  | case2 => omega
  | case3 k more other ih =>
    have solid : closer.length ≠ 0 := by
      intro empty
      rw [length_eq_zero_iff] at empty
      exact other (by rw [empty]; rfl)
    have := ih (by omega)
    omega

theorem rawStop_bounds {quote : Nat} (inside : quote < bytes.length) :
    quote < rawStop bytes quote ∧ rawStop bytes quote ≤ bytes.length := by
  rw [rawStop]
  split
  · rename_i opens
    have last := (List.getElem?_eq_some_iff.mp opens).1
    generalize ((bytes.drop (quote + 1)).take 16).takeWhile (fun c => c ≠ '(' && !isAsciiWhitespace c) = delimiter
      at last ⊢
    have bounds := closerStop_bounds (k := quote + 1 + delimiter.length + 1) (')' :: (delimiter ++ ['"'])) last
    omega
  · have bounds := quotedStop_bounds (i := quote + 1) '"' inside
    omega

theorem blockStop_bounds (inside : i ≤ bytes.length) : i ≤ blockStop bytes i ∧ blockStop bytes i ≤ bytes.length := by
  fun_induction blockStop bytes i with
  | case1 i more closes =>
    have := inside_of_at (by decide) closes.2
    omega
  | case2 i more other ih =>
    have := ih (by omega)
    omega
  | case3 => omega

variable (bytes) in
/-- The classes of the bytes from an index on. -/
def classesFrom (i : Nat) (atLineStart : Bool) : List CodeClass :=
  if inside : i < bytes.length then
    let b := byteAt bytes i
    if b = '\n' then .code :: classesFrom (i + 1) true
    else if atLineStart ∧ (b = ' ' ∨ b = '\t' ∨ b = '\r') then .code :: classesFrom (i + 1) true
    else if atLineStart ∧ b = '#' then
      List.replicate (preprocessorStop bytes i i - i) .directive ++ classesFrom (preprocessorStop bytes i i) true
    else if b = '/' ∧ byteAt bytes (i + 1) = '/' then
      List.replicate (lineStop bytes i - i) .comment ++ classesFrom (lineStop bytes i) false
    else if b = '/' ∧ byteAt bytes (i + 1) = '*' then
      List.replicate (blockStop bytes (i + 2) - i) .comment ++ classesFrom (blockStop bytes (i + 2)) false
    else if b = '"' ∧ i > 0 ∧ byteAt bytes (i - 1) = 'R' then
      List.replicate (rawStop bytes i - i) .literal ++ classesFrom (rawStop bytes i) false
    else if b = '"' ∨ b = '\'' then
      List.replicate (quotedStop bytes b (i + 1) - i) .literal ++ classesFrom (quotedStop bytes b (i + 1)) false
    else .code :: classesFrom (i + 1) false
  else []
termination_by bytes.length - i
decreasing_by
  · omega
  · omega
  · have bounds := preprocessorStop_bounds i inside
    omega
  · have further := lt_lineStop inside ‹_›
    omega
  · have next := inside_of_at (by decide) (And.right ‹b = '/' ∧ byteAt bytes (i + 1) = '*'›)
    have bounds := blockStop_bounds (i := i + 2) next
    omega
  · have bounds := rawStop_bounds inside
    omega
  · have bounds := quotedStop_bounds (i := i + 1) (byteAt bytes i) inside
    omega
  · omega

end CodeClasses

def cppCodeClasses (bytes : List Char) : List CodeClass := CodeClasses.classesFrom bytes 0 true

end Codegraph.Cpp
