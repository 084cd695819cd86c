import Codegraph.Library.Matches
import Codegraph.Library.Utf8Loops
import Codegraph.Watch.Scope

/- This file reads the exports of a Lua module, of one name or of all at once. -/

namespace Codegraph.Lua
open Utf8 List
open Watch.Scope (Text)

/-- JavaScript's white space, with the byte order mark. -/
def isJsSpace (c : Char) : Bool :=
  ['\t', '\n', '\x0b', '\x0c', '\r', ' ', '\u00a0', '\u1680', '\u2028', '\u2029', '\u202f', '\u205f', '\u3000',
    '\ufeff'].contains c ||
    ('\u2000' ≤ c && c ≤ '\u200a')

def isNameStart (c : Char) : Bool := c.isAlpha || c = '_'

def isNameChar (c : Char) : Bool := c.isAlphanum || c = '_'

section Tails

def segmentLength (text : Text) : Nat := if text.head?.any isNameStart then (text.takeWhile isNameChar).length else 0

/-- Where the next segment of a dotted name starts and how long it is. -/
def nextSegment (text : Text) (end_ : Nat) : Option (Nat × Nat) :=
  match (text.drop end_).dropWhile isJsSpace with
  | '.' :: dotted =>
    let next := dotted.dropWhile isJsSpace
    if segmentLength next = 0 then none else some (text.length - next.length, segmentLength next)
  | _ => none

theorem nextSegment_lt {text : Text} {end_ next length : Nat} (found : nextSegment text end_ = some (next, length)) :
    end_ < next + length ∧ end_ < text.length := by
  rw [nextSegment] at found
  split at found
  · rename_i dotted shape
    simp only at found
    split at found
    · cases found
    · rename_i some_
      obtain ⟨rfl, rfl⟩ := Prod.mk.inj (Option.some.inj found)
      have front := (dropWhile_suffix (l := text.drop end_) isJsSpace).length_le
      have back := (dropWhile_suffix (l := dotted) isJsSpace).length_le
      rw [shape, length_cons, length_drop] at front
      omega
  · cases found

/-- The further ends of a dotted name. -/
def furtherEnds (text : Text) (end_ : Nat) : List Nat :=
  match _ : nextSegment text end_ with
  | some (next, length) => (next + length) :: furtherEnds text (next + length)
  | none => []
termination_by text.length - end_
decreasing_by
  have bounds := nextSegment_lt ‹_›
  omega

/-- Where a dotted name at the start of a text can end, the longest first. -/
def dottedEnds (text : Text) : List Nat :=
  if segmentLength text = 0 then [] else (segmentLength text :: furtherEnds text (segmentLength text)).reverse

/-- Behind an export stands the end of its line or of the text, a comma, a semicolon or a closing brace. -/
def exportTail : Text → Bool
  | [] => true
  | c :: rest =>
    if ['\n', '\r', '\u2028', '\u2029'].contains c then true
    else if isJsSpace c then exportTail rest
    else [',', ';', '}'].contains c

def stripEquals (text : Text) : Option Text :=
  match text.dropWhile isJsSpace with
  | '=' :: after => some (after.dropWhile isJsSpace)
  | _ => none

/-- The length of the right side when a member is exported between these texts. -/
def exportAt (front rest member : Text) : Option Nat :=
  let boundary := front = [] || front.getLast?.any fun c => isJsSpace c || ['{', ',', '.'].contains c
  if !boundary || !member.isPrefixOf rest then none
  else do
    let after ← stripEquals (rest.drop member.length)
    (dottedEnds after).find? fun end_ => exportTail (after.drop end_)

end Tails

section Scans

variable (source : Text)

/-- The line of an export at an offset. -/
def exportLine (at_ : Nat) : Option Nat := (sliceTo source at_).map fun front => front.dropLast.count '\n' + 2

/-- The right side of the export of a member at an offset, if one is there. An offset inside of a character has no
result. -/
def exportRhs (at_ : Nat) (member : Text) : Option (Option Text) := do
  let front ← sliceTo source at_
  let rest ← sliceFrom source at_
  pure do
    let length ← exportAt front rest member
    let after ← stripEquals (rest.drop member.length)
    pure (after.take length)

/-- The offsets of the matches of a text, none of which overlaps the one before. -/
def matchIndices (member : Text) : List Nat :=
  let places := if given : member ≠ [] then Matches.matchesFrom member source given 0
    else List.range (source.length + 1)
  places.map fun place => (units (source.take place)).length

/-- The first export of a member among some offsets. -/
def firstExportAt (member : Text) : List Nat → Option (Option (Nat × Text))
  | [] => some none
  | at_ :: later => do
      match ← exportRhs source at_ member with
      | some rhs => pure (some (← exportLine source at_, rhs))
      | none => firstExportAt member later

def firstExport (member : Text) : Option (Option (Nat × Text)) :=
  firstExportAt source member (matchIndices source member)

/-- A name starts at a byte. -/
def startsName (at_ : Nat) : Bool :=
  (units source)[at_]?.any isNameStart && (at_ = 0 || !(units source)[at_ - 1]?.any isNameChar)

def nameLength (at_ : Nat) : Nat := (((units source).drop at_).takeWhile isNameChar).length

theorem nameLength_pos {at_ : Nat} (starts : startsName source at_) :
    at_ < (units source).length ∧ 0 < nameLength source at_ := by
  have first := (Bool.and_eq_true_iff.mp starts).1
  obtain ⟨b, found, start⟩ := (Option.any_eq_true _ _).mp first
  obtain ⟨inside, same⟩ := List.getElem?_eq_some_iff.mp found
  refine ⟨inside, ?_⟩
  have name : isNameChar b := by
    simp only [isNameStart, isNameChar, Char.isAlphanum, Bool.or_eq_true] at start ⊢
    tauto
  rw [nameLength, drop_eq_getElem_cons inside, same, takeWhile_cons_of_pos name]
  exact Nat.succ_pos _

/-- The exports from a byte on, with those that are known by then. -/
def allExportsFrom (at_ : Nat) (out : List (Text × Nat × Text)) : Option (List (Text × Nat × Text)) :=
  if inside : at_ < (units source).length then
    if starts : startsName source at_ then do
      let member ← slice source at_ (at_ + nameLength source at_)
      let more ←
        if (out.lookup member).isSome then pure []
        else do
          match ← exportRhs source at_ member with
          | some rhs => pure [(member, ← exportLine source at_, rhs)]
          | none => pure []
      allExportsFrom (at_ + nameLength source at_) (out ++ more)
    else allExportsFrom (at_ + 1) out
  else some out
termination_by (units source).length - at_
decreasing_by
  · have some_ := (nameLength_pos source starts).2
    omega
  · omega

/-- The first export of each name. -/
def allExports : Option (List (Text × Nat × Text)) := allExportsFrom source 0 []

end Scans

section Characters

variable {source front rest member chunk : Text} {c : Char}

def isIdentifier (member : Text) : Bool := member.head?.any isNameStart && member.all isNameChar

/-- The export of a member between two texts. -/
def exportOf (front rest member : Text) : Option (Nat × Text) := do
  let length ← exportAt front rest member
  let after ← stripEquals (rest.drop member.length)
  pure (front.dropLast.count '\n' + 2, after.take length)

/-- The first export of a member in a text behind another one. -/
def firstFrom (member : Text) (front : Text) : Text → Option (Nat × Text)
  | [] => none
  | c :: rest => (exportOf front (c :: rest) member).or (firstFrom member (front ++ [c]) rest)

theorem isNameChar_of_start (start : isNameStart c) : isNameChar c := by
  simp only [isNameStart, isNameChar, Char.isAlphanum, Bool.or_eq_true] at start ⊢
  tauto

theorem isNameChar_small (name : isNameChar c) : c.toNat < 128 := by
  refine Nat.lt_of_not_le fun wide => ?_
  have same : c.val.toNat = c.toNat := rfl
  have alpha : c.isAlpha = (c.isUpper || c.isLower) := rfl
  have upper : c.isUpper = decide (c.val ≥ 'A'.val ∧ c.val ≤ 'Z'.val) := rfl
  have lower : c.isLower = (c.val ≥ 'a'.val && c.val ≤ 'z'.val) := rfl
  simp only [isNameChar, Char.isAlphanum, alpha, upper, lower, Char.isDigit, Bool.or_eq_true, Bool.and_eq_true,
    decide_eq_true_eq, UInt32.le_iff_toNat_le, ge_iff_le, same] at name
  rcases name with ((⟨-, small⟩ | ⟨-, small⟩) | ⟨-, small⟩) | rfl
  · exact absurd (Nat.le_trans wide small) (by decide)
  · exact absurd (Nat.le_trans wide small) (by decide)
  · exact absurd (Nat.le_trans wide small) (by decide)
  · exact absurd wide (by decide)

theorem not_name_of_space (space : isJsSpace c) : isNameChar c = false := by
  refine Bool.eq_false_iff.mpr fun name => ?_
  have small := isNameChar_small name
  rcases Bool.or_eq_true_iff.mp space with listed | between
  · have marks : ['\t', '\n', '\x0b', '\x0c', '\r', ' ', '\u00a0', '\u1680', '\u2028', '\u2029', '\u202f', '\u205f',
      '\u3000', '\ufeff'].all
        fun c => !isNameChar c := by decide
    have outside := all_eq_true.mp marks c (contains_iff_mem.mp listed)
    rw [name] at outside
    cases outside
  · have large : 0x2000 ≤ c.toNat := of_decide_eq_true (Bool.and_eq_true_iff.mp between).1
    omega

theorem stripEquals_head {text after : Text} (found : stripEquals text = some after) :
    ∀ d ∈ text.head?, isNameChar d = false := by
  intro d first
  obtain ⟨later, rfl⟩ := head?_eq_some_iff.mp first
  by_cases space : isJsSpace d
  · exact not_name_of_space space
  · rw [stripEquals, dropWhile_cons_of_neg space] at found
    split at found
    · rename_i shape
      obtain ⟨rfl, -⟩ := cons.inj shape
      decide
    · cases found

/-- An export stands behind no name, and its member is the whole name that starts there. -/
theorem exportOf_some {found : Nat × Text} (exported : exportOf front rest member = some found) :
    (∀ d ∈ front.getLast?, isNameChar d = false) ∧ ∃ later, rest = member ++ later ∧
      ∀ d ∈ later.head?, isNameChar d = false := by
  obtain ⟨length, at_, -⟩ := Option.bind_eq_some_iff.mp exported
  rw [exportAt] at at_
  split at at_
  · cases at_
  · rename_i fits
    simp only [Bool.or_eq_true, Bool.not_eq_true', not_or, Bool.not_eq_false] at fits
    obtain ⟨boundary, starts⟩ := fits
    obtain ⟨later, rfl⟩ := isPrefixOf_iff_prefix.mp starts
    obtain ⟨after, stripped, -⟩ := Option.bind_eq_some_iff.mp at_
    rw [drop_left] at stripped
    refine ⟨fun d last => ?_, later, rfl, stripEquals_head stripped⟩
    rcases boundary with none | mark
    · rw [of_decide_eq_true none] at last
      cases last
    · rw [last, Option.any_some] at mark
      rcases Bool.or_eq_true_iff.mp mark with space | sign
      · exact not_name_of_space space
      · have marks : ['{', ',', '.'].all fun c => !isNameChar c := by decide
        have outside := all_eq_true.mp marks d (contains_iff_mem.mp sign)
        rwa [Bool.not_eq_true'] at outside

/-- Where nothing is exported the search goes on. -/
theorem firstFrom_skip (none_ : ∀ before c after, chunk = before ++ c :: after →
    exportOf (front ++ before) (c :: (after ++ rest)) member = none) :
    firstFrom member front (chunk ++ rest) = firstFrom member (front ++ chunk) rest := by
  induction chunk generalizing front with
  | nil => rw [nil_append, append_nil]
  | cons c chunk ih =>
    have here := none_ [] c chunk rfl
    rw [append_nil] at here
    rw [cons_append, firstFrom, here, Option.none_or, ih, append_assoc]
    · rfl
    · intro before d after split
      have later := none_ (c :: before) d after (by rw [split]; rfl)
      rwa [append_assoc]

/-- Inside of a name nothing is exported. -/
theorem exportOf_inside {before : Text} (names : ∀ d ∈ before, isNameChar d) (some_ : before ≠ []) :
    exportOf (front ++ before) rest member = none := by
  cases exported : exportOf (front ++ before) rest member with
  | none => rfl
  | some found =>
    have last : (front ++ before).getLast? = some (before.getLast some_) := by
      rw [getLast?_append_of_ne_nil _ some_, getLast?_eq_some_getLast some_]
    have ends := (exportOf_some exported).1 _ last
    rw [names _ (getLast_mem some_)] at ends
    cases ends

/-- Behind the first character of a name the search goes on behind the name. -/
theorem firstFrom_name {name : Text} (names : ∀ d ∈ name, isNameChar d) (some_ : name ≠ []) :
    firstFrom member front (name ++ rest) =
      (exportOf front (name ++ rest) member).or (firstFrom member (front ++ name) rest) := by
  cases name with
  | nil => exact absurd rfl some_
  | cons c name =>
    obtain ⟨first, later⟩ := forall_mem_cons.mp names
    have skip : firstFrom member (front ++ [c]) (name ++ rest) = firstFrom member (front ++ [c] ++ name) rest := by
      refine firstFrom_skip fun before d after split => ?_
      rw [append_assoc]
      refine exportOf_inside
        (forall_mem_append.mpr ⟨forall_mem_singleton.mpr first, fun e inside => later e ?_⟩) (by simp)
      rw [split]
      exact mem_append_left _ inside
    rw [cons_append, firstFrom, skip, append_assoc]
    rfl

end Characters

section Offsets

variable {source front rest member : Text} {out : List (Text × Nat × Text)}

theorem exportRhs_units (front rest member : Text) :
    exportRhs (front ++ rest) (units front).length member = some ((exportOf front rest member).map Prod.snd) := by
  rw [exportRhs, sliceTo_units, sliceFrom_units]
  show some _ = some _
  rw [exportOf]
  cases exportAt front rest member with
  | none => rfl
  | some length =>
    cases stripEquals (rest.drop member.length) with
    | none => rfl
    | some after => rfl

theorem exportLine_units (front rest : Text) : exportLine (front ++ rest)
    (units front).length = some (front.dropLast.count '\n' + 2) := by
  rw [exportLine, sliceTo_units]
  rfl

theorem fst_exportOf {found : Nat × Text} (exported : exportOf front rest member = some found) :
    found.1 = front.dropLast.count '\n' + 2 := by
  obtain ⟨length, -, bound⟩ := Option.bind_eq_some_iff.mp exported
  obtain ⟨after, -, same⟩ := Option.bind_eq_some_iff.mp bound
  exact congrArg Prod.fst (Option.some.inj same).symm

/-- One offset of the search for a member. -/
theorem firstExportAt_cons (front rest member : Text) (later : List Nat) :
    firstExportAt (front ++ rest) member ((units front).length :: later) =
      match exportOf front rest member with
      | some found => some (some found)
      | none => firstExportAt (front ++ rest) member later := by
  rw [firstExportAt, exportRhs_units]
  cases exported : exportOf front rest member with
  | none => rfl
  | some found =>
    show (exportLine (front ++ rest) (units front).length).bind _ = _
    rw [exportLine_units, ← fst_exportOf exported]
    rfl

theorem firstFrom_none (never : ∀ k, ¬member <+: rest.drop k) : firstFrom member front rest = none := by
  have skip := @firstFrom_skip front [] member rest fun before c after split => by
    cases exported : exportOf (front ++ before) (c :: (after ++ [])) member with
    | none => rfl
    | some found =>
      obtain ⟨-, later, same, -⟩ := exportOf_some exported
      refine absurd ⟨later, ?_⟩ (never before.length)
      rw [split, drop_left, ← same, append_nil]
  rw [append_nil] at skip
  rw [skip, firstFrom]

/-- The search at the matches finds the first export. -/
theorem firstExport_eq (named : isIdentifier member) :
    firstExport source member = some (firstFrom member [] source) := by
  have given : member ≠ [] := by
    rintro rfl
    cases named
  have names : ∀ d ∈ member, isNameChar d := all_eq_true.mp (Bool.and_eq_true_iff.mp named).2
  have run (start : Nat) : firstExportAt source member
    ((Matches.matchesFrom member source given start).map fun place => (units (source.take place)).length) =
      some (firstFrom member (source.take start) (source.drop start)) := by
    induction start using Matches.matchesFrom.induct member source given with
    | case1 start missing =>
      rw [Matches.matchesFrom_none missing, firstFrom_none fun k => Matches.find_none missing]
      rfl
    | case2 start offset found ih =>
      have stands := Matches.find_some found
      obtain ⟨rest, split⟩ := stands
      have parts : source.drop start = (source.drop start).take offset ++ (member ++ rest) := by
        rw [split, take_append_drop]
      have front : source.take start ++ (source.drop start).take offset = source.take (start + offset) :=
        (take_add ..).symm
      have whole : source = source.take (start + offset) ++ (member ++ rest) := by
        rw [← front, append_assoc, ← parts, take_append_drop]
      have skip : firstFrom member (source.take start) ((source.drop start).take offset ++ (member ++ rest)) =
          firstFrom member (source.take (start + offset)) (member ++ rest) := by
        rw [← front]
        refine firstFrom_skip fun before c after cut => ?_
        cases exported : exportOf (source.take start ++ before) (c :: (after ++ (member ++ rest))) member with
        | none => rfl
        | some found' =>
          obtain ⟨-, later, same, -⟩ := exportOf_some exported
          have room := congrArg length cut
          rw [length_append, length_cons] at room
          have short : before.length < offset :=
            Nat.lt_of_lt_of_le (by omega) (length_take_le offset (source.drop start))
          refine absurd ⟨later, ?_⟩ (Matches.find_first found short)
          rw [parts, cut, append_assoc, drop_left, ← same]
          rfl
      have behind : source.take (start + offset + member.length) = source.take (start + offset) ++ member ∧
          source.drop (start + offset + member.length) = rest := by
        have size : (source.take (start + offset) ++ member).length = start + offset + member.length := by
          have room := Matches.find_drop_fits given found
          rw [length_append, length_take]
          omega
        have grouped : source = (source.take (start + offset) ++ member) ++ rest := by rw [append_assoc, ← whole]
        constructor
        · conv_lhs => rw [grouped]
          rw [take_left' size]
        · conv_lhs => rw [grouped]
          rw [drop_left' size]
      rw [Matches.matchesFrom_some found, map_cons, parts, skip, firstFrom_name names given]
      have step := firstExportAt_cons (source.take (start + offset)) (member ++ rest) member
      rw [← whole] at step
      rw [step, ih, behind.1, behind.2]
      cases exportOf (source.take (start + offset)) (member ++ rest) member <;> rfl
  rw [firstExport, matchIndices, dif_pos given]
  exact run 0

/-- The byte behind a text is the first one of the next character. -/
theorem getElem?_behind {c : Char} (small : c.toNat < 128) (front rest : Text) :
    (units (front ++ c :: rest))[(units front).length]? = some c := by
  rw [units_append, getElem?_append_right (Nat.le_refl _), Nat.sub_self, units_cons, unitsOf_ascii small]
  rfl

/-- The byte before a place belongs to a name exactly when the character does. -/
theorem name_before (front rest : Text) (some_ : front ≠ []) :
    (units (front ++ rest))[(units front).length - 1]?.any isNameChar = front.getLast?.any isNameChar := by
  rcases eq_nil_or_concat' front with rfl | ⟨before, d, rfl⟩
  · exact absurd rfl some_
  · have size := length_pos_iff.mpr (unitsOf_ne_nil d)
    have single : units (before ++ [d]) = units before ++ unitsOf d := by
      rw [units_append, units_cons, units_nil, append_nil]
    rw [getLast?_concat, units_append, single, length_append,
      getElem?_append_left (by rw [length_append]; omega),
      getElem?_append_right (by omega)]
    have last : (unitsOf d)[(units before).length + (unitsOf d).length - 1 - (units before).length]? =
      (unitsOf d).getLast? := by
      rw [getLast?_eq_getElem?]
      congr 1
      omega
    rw [last]
    by_cases small : d.toNat < 128
    · rw [unitsOf_ascii small]
      rfl
    · have wide := Nat.le_of_not_lt small
      have outside {e : Char} (large : 128 ≤ e.toNat) : isNameChar e = false :=
        Bool.eq_false_iff.mpr fun name => absurd (isNameChar_small name) (Nat.not_lt.mpr large)
      rw [getLast?_eq_some_getLast (unitsOf_ne_nil d), Option.any_some, Option.any_some, outside wide,
        outside (unitsOf_wide wide (getLast_mem _))]

theorem startsName_units {c : Char} (small : c.toNat < 128) (front rest : Text) : startsName (front ++ c :: rest)
    (units front).length ↔ isNameStart c ∧ ∀ d ∈ front.getLast?, isNameChar d = false := by
  rw [startsName, getElem?_behind small, Option.any_some, Bool.and_eq_true]
  refine and_congr_right fun start => ?_
  cases front with
  | nil => simp
  | cons e front =>
    have size : (units (e :: front)).length ≠ 0 := fun zero => by
      have none := units_eq_nil.mp (length_eq_zero_iff.mp zero)
      cases none
    rw [name_before (e :: front) (c :: rest) (by simp), decide_eq_false size, Bool.false_or, Bool.not_eq_true']
    cases (e :: front).getLast? <;> simp

/-- A byte of a wide character starts no name. -/
theorem allExportsFrom_wide {c : Char} (wide : 128 ≤ c.toNat) (front rest : Text) (out : List (Text × Nat × Text)) :
    allExportsFrom (front ++ c :: rest) (units front).length out = allExportsFrom (front ++ c :: rest)
    (units (front ++ [c])).length out := by
  have bytes : units (front ++ c :: rest) = units front ++ (unitsOf c ++ units rest) := by rw [units_append, units_cons]
  have pass (k : Nat) (inside : k ≤ (unitsOf c).length) :
      allExportsFrom (front ++ c :: rest) (units front).length out =
        allExportsFrom (front ++ c :: rest) ((units front).length + k) out := by
    induction k with
    | zero => rfl
    | succ k ih =>
      have byte : (units (front ++ c :: rest))[(units front).length + k]? = (unitsOf c)[k]? := by
        rw [bytes, getElem?_append_right (Nat.le_add_right ..), Nat.add_sub_cancel_left,
          getElem?_append_left inside]
      have room : (units front).length + k < (units (front ++ c :: rest)).length := by
        rw [bytes, length_append, length_append]
        omega
      have quiet : ¬startsName (front ++ c :: rest) ((units front).length + k) := by
        intro starts
        have first := (Bool.and_eq_true_iff.mp starts).1
        rw [byte] at first
        obtain ⟨b, found, start⟩ := (Option.any_eq_true _ _).mp first
        have large := unitsOf_wide wide (mem_of_getElem? found)
        exact absurd (isNameChar_small (isNameChar_of_start start)) (Nat.not_lt.mpr large)
      rw [ih (Nat.le_of_succ_le inside), allExportsFrom, dif_pos room, dif_neg quiet, Nat.add_assoc]
  have whole := pass _ (Nat.le_refl _)
  rwa [← length_append, show units front ++ unitsOf c = units (front ++ [c]) by
    rw [units_append, units_cons, units_nil, append_nil]] at whole

theorem units_of_names (names : ∀ d ∈ member, isNameChar d) : units member = member := by
  induction member with
  | nil => rfl
  | cons d member ih =>
    obtain ⟨first, later⟩ := forall_mem_cons.mp names
    rw [units_cons, unitsOf_ascii (isNameChar_small first), ih later]
    rfl

/-- The bytes of a name are its characters. -/
theorem nameLength_units (names : ∀ d ∈ member, isNameChar d) (ends : ∀ d ∈ rest.head?, isNameChar d = false)
    (front : Text) : nameLength (front ++ (member ++ rest)) (units front).length = member.length := by
  rw [nameLength, units_append, drop_left, units_append, units_of_names names, takeWhile_append_of_pos names]
  cases rest with
  | nil => simp
  | cons d rest =>
    have stops : ∀ b ∈ (units (d :: rest)).head?, isNameChar b = false := by
      intro b first
      have outside := ends d rfl
      by_cases small : d.toNat < 128
      · rw [units_cons, unitsOf_ascii small] at first
        exact Option.some.inj first ▸ outside
      · obtain ⟨byte, later, same, -⟩ := unitsOf_split d
        rw [units_cons, same] at first
        obtain rfl := Option.some.inj first
        have large := unitsOf_wide (Nat.le_of_not_lt small) (same ▸ mem_cons_self ..)
        exact Bool.eq_false_iff.mpr fun name => absurd (isNameChar_small name) (Nat.not_lt.mpr large)
    cases bytes : units (d :: rest) with
    | nil => simp
    | cons b tail =>
      rw [takeWhile_cons_of_neg (by simp [stops b (bytes ▸ rfl)]), append_nil]

theorem lookup_append (name : Text) (first second : List (Text × Nat × Text)) :
    (first ++ second).lookup name = (first.lookup name).or (second.lookup name) := by
  induction first with
  | nil => rfl
  | cons entry first ih =>
    rw [cons_append, lookup_cons, lookup_cons]
    cases name == entry.1 with
    | true => rfl
    | false => exact ih

/-- What the scan adds at a name. -/
def entryAt (out : List (Text × Nat × Text)) (front rest member : Text) : List (Text × Nat × Text) :=
  if (out.lookup member).isSome then [] else ((exportOf front rest member).map fun found => (member, found)).toList

/-- The scan takes one name. -/
theorem allExportsFrom_name {c : Char} {later : Text} (shape : member ++ rest = c :: later) (start : isNameStart c)
    (before : ∀ d ∈ front.getLast?, isNameChar d = false) (names : ∀ d ∈ member, isNameChar d)
    (ends : ∀ d ∈ rest.head?, isNameChar d = false) (out : List (Text × Nat × Text)) :
    allExportsFrom (front ++ (member ++ rest)) (units front).length out =
      allExportsFrom (front ++ (member ++ rest))
      (units (front ++ member)).length (out ++ entryAt out front (member ++ rest) member) := by
  have starts : startsName (front ++ (member ++ rest)) (units front).length := by
    rw [shape]
    exact (startsName_units (isNameChar_small (isNameChar_of_start start)) front later).mpr ⟨start, before⟩
  have size : nameLength (front ++ (member ++ rest)) (units front).length = (units member).length := by
    rw [nameLength_units names ends, units_of_names names]
  rw [allExportsFrom, dif_pos (nameLength_pos _ starts).1, dif_pos starts, size, slice_units, ← length_append,
    ← units_append, entryAt]
  simp only [Option.bind_eq_bind, Option.bind_some, exportRhs_units, exportLine_units]
  split_ifs
  · rfl
  · cases exported : exportOf front (member ++ rest) member with
    | none => rfl
    | some found =>
      rw [← fst_exportOf exported]
      rfl

theorem takeWhile_name {name : Text} (names : ∀ d ∈ name, isNameChar d)
    (ends : ∀ d ∈ rest.head?, isNameChar d = false) : (name ++ rest).takeWhile isNameChar = name := by
  rw [takeWhile_append_of_pos names]
  cases rest with
  | nil => simp
  | cons d rest => rw [takeWhile_cons_of_neg (by simp [ends d rfl]), append_nil]

/-- What a name adds to the known exports is its own first export. -/
theorem lookup_entryAt {name : Text} (names : ∀ d ∈ member, isNameChar d)
    (ends : ∀ d ∈ rest.head?, isNameChar d = false) (named : isIdentifier name) (fresh : out.lookup name = none) :
    (entryAt out front (member ++ rest) member).lookup name = exportOf front (member ++ rest) name := by
  by_cases same : name = member
  · subst same
    rw [entryAt, fresh]
    cases exportOf front (name ++ rest) name with
    | none => rfl
    | some found => simp
  · have other : exportOf front (member ++ rest) name = none := by
      cases exported : exportOf front (member ++ rest) name with
      | none => rfl
      | some found =>
        obtain ⟨-, later, shape, stops⟩ := exportOf_some exported
        have inside := all_eq_true.mp (Bool.and_eq_true_iff.mp named).2
        exact absurd (by rw [← takeWhile_name inside stops, ← shape, takeWhile_name names ends]) same
    rw [other, entryAt]
    split
    · rfl
    · cases exportOf front (member ++ rest) member with
      | none => rfl
      | some found => simp [same]

/-- The scan from a place on knows what was known and the first exports from there on. -/
theorem allExportsFrom_spec (size : Nat) (small : rest.length ≤ size) (front : Text) (out : List (Text × Nat × Text)) :
    ∃ exports, allExportsFrom (front ++ rest) (units front).length out = some exports ∧
      ∀ name, isIdentifier name → exports.lookup name = (out.lookup name).or (firstFrom name front rest) := by
  have done (front : Text) (out : List (Text × Nat × Text)) : ∃ exports,
    allExportsFrom (front ++ []) (units front).length out = some exports ∧
      ∀ name, isIdentifier name → exports.lookup name = (out.lookup name).or (firstFrom name front []) := by
    refine ⟨out, ?_, fun name _ => (Option.or_none).symm⟩
    rw [append_nil, allExportsFrom, dif_neg (Nat.lt_irrefl _)]
  induction size generalizing rest front out with
  | zero =>
    obtain rfl := length_eq_zero_iff.mp (Nat.le_zero.mp small)
    exact done front out
  | succ size ih =>
    cases rest with
    | nil => exact done front out
    | cons c rest =>
      have shorter : rest.length ≤ size := Nat.le_of_succ_le_succ small
      -- Where no name starts, one character is passed.
      have pass (same : allExportsFrom (front ++ c :: rest) (units front).length out =
            allExportsFrom (front ++ c :: rest) (units (front ++ [c])).length out)
          (none_ : ¬(isNameStart c ∧ ∀ d ∈ front.getLast?, isNameChar d = false)) :
          ∃ exports, allExportsFrom (front ++ c :: rest) (units front).length out = some exports ∧
            ∀ name, isIdentifier name →
              exports.lookup name = (out.lookup name).or (firstFrom name front (c :: rest)) := by
        obtain ⟨exports, found, known⟩ := ih shorter (front ++ [c]) out
        rw [append_assoc, singleton_append] at found
        refine ⟨exports, same.trans found, fun name named => ?_⟩
        have here : exportOf front (c :: rest) name = none := by
          cases exported : exportOf front (c :: rest) name with
          | none => rfl
          | some entry =>
            obtain ⟨before, later, shape, -⟩ := exportOf_some exported
            refine absurd ⟨?_, before⟩ none_
            cases name with
            | nil => cases named
            | cons d name =>
              obtain ⟨rfl, -⟩ := cons.inj shape
              exact (Bool.and_eq_true_iff.mp named).1
        rw [known name named, firstFrom, here, Option.none_or]
      by_cases wide : 128 ≤ c.toNat
      · refine pass (allExportsFrom_wide wide front rest out) fun both => ?_
        exact absurd (isNameChar_small (isNameChar_of_start both.1)) (Nat.not_lt.mpr wide)
      · have ascii := Nat.lt_of_not_le wide
        by_cases starts : isNameStart c ∧ ∀ d ∈ front.getLast?, isNameChar d = false
        · obtain ⟨start, before⟩ := starts
          have first := isNameChar_of_start start
          have split := takeWhile_append_dropWhile (p := isNameChar) (l := c :: rest)
          have names : ∀ d ∈ (c :: rest).takeWhile isNameChar, isNameChar d :=
            fun d member => mem_takeWhile_imp member
          have ends : ∀ d ∈ ((c :: rest).dropWhile isNameChar).head?, isNameChar d = false := fun d head => by
            have stops := head?_dropWhile_not isNameChar (c :: rest)
            rw [head] at stops
            exact stops
          have some_ : (c :: rest).takeWhile isNameChar ≠ [] := by
            rw [takeWhile_cons_of_pos first]
            exact cons_ne_nil _ _
          have room : ((c :: rest).dropWhile isNameChar).length ≤ size := by
            rw [dropWhile_cons_of_pos first]
            exact (dropWhile_suffix _).length_le.trans shorter
          generalize (c :: rest).takeWhile isNameChar = member, (c :: rest).dropWhile isNameChar = behind
            at split names ends some_ room
          obtain ⟨exports, found, known⟩ :=
            ih room (front ++ member) (out ++ entryAt out front (member ++ behind) member)
          rw [← split]
          rw [append_assoc] at found
          refine ⟨exports, (allExportsFrom_name split start before names ends out).trans found,
            fun name named => ?_⟩
          rw [known name named, lookup_append, firstFrom_name names some_, Option.or_assoc]
          cases fresh : out.lookup name with
          | some entry => rfl
          | none => rw [lookup_entryAt names ends named fresh]
        · have inside : (units front).length < (units (front ++ c :: rest)).length :=
            (List.getElem?_eq_some_iff.mp (getElem?_behind ascii front rest)).1
          have quiet : ¬startsName (front ++ c :: rest) (units front).length := fun found =>
            starts ((startsName_units ascii front rest).mp found)
          have next : (units (front ++ [c])).length = (units front).length + 1 := by
            rw [units_append, units_cons, unitsOf_ascii ascii, length_append]
            rfl
          refine pass ?_ starts
          rw [allExportsFrom, dif_pos inside, dif_neg quiet, next]

end Offsets

/-- The scan of a whole module finds for each name what the search for this name alone finds. -/
theorem one_pass_matches (source : Text) : ∃ exports, allExports source = some exports ∧ ∀ name, isIdentifier name →
      firstExport source name = some (exports.lookup name) := by
  obtain ⟨exports, found, same⟩ := allExportsFrom_spec source.length (Nat.le_refl _) [] []
  refine ⟨exports, found, fun name named => ?_⟩
  rw [firstExport_eq named, same name named]
  rfl

/-- A module with one exported member. -/
theorem one_pass_matches_check : ∃ exports, allExports "M.check = a .b\n".toList = some exports ∧
      firstExport "M.check = a .b\n".toList "check".toList = some (exports.lookup "check".toList) := by
  obtain ⟨exports, found, same⟩ := one_pass_matches "M.check = a .b\n".toList
  exact ⟨exports, found, same _ (by decide)⟩

end Codegraph.Lua
