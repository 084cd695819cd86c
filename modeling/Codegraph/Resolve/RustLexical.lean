import Codegraph.Library.Utf8Loops

/- This file marks the bytes of a Rust source that are code. -/

namespace Codegraph.Resolve.RustLexical
open List

/-- A source as its bytes, each as the character of its number. -/
abbrev Bytes := List Char

def isIdentStart (b : Char) : Bool := b.isAlpha || b = '_' || 0x80 ≤ b.toNat

def isIdentByte (b : Char) : Bool := b.isAlphanum || b = '_' || 0x80 ≤ b.toNat

/-- A byte inside of a character. -/
def isContinuation (b : Char) : Bool := 0x80 ≤ b.toNat && b.toNat < 0xC0

/-- The identifier at the start of some bytes, and the bytes behind it. A part of a character is no text. -/
def readIdent : Bytes → Option (Bytes × Bytes)
  | [] => none
  | b :: rest =>
    if isIdentStart b ∧ !isContinuation b then some (b :: rest.takeWhile isIdentByte, rest.dropWhile isIdentByte)
      else none

/-- The bytes behind a block comment that nests, from its opening or from inside of it. -/
def behindNestedBlockComment : Nat → Bytes → Bytes
  | _, [] => []
  | _, [_] => []
  | depth, b :: c :: rest =>
    if b = '/' ∧ c = '*' then behindNestedBlockComment (depth + 1) rest
    else if b = '*' ∧ c = '/' then if depth - 1 = 0 then rest else behindNestedBlockComment (depth - 1) rest
    else behindNestedBlockComment depth (c :: rest)

/-- The number of hashes of a raw string that starts here, and the bytes from its opening quote on. -/
def rawStringPrefix (bytes : Bytes) : Option (Nat × Bytes) :=
  let behindB := if bytes.head? = some 'b' then bytes.tail else bytes
  let quoted := behindB.tail.dropWhile (· = '#')
  if behindB.head? = some 'r' ∧ quoted.head? = some '"' then some ((behindB.tail.takeWhile (· = '#')).length, quoted)
    else none

def closesRawString (hashes : Nat) (behindQuote : Bytes) : Bool := (List.replicate hashes '#').isPrefixOf behindQuote

/-- The bytes behind a raw string, from behind its opening quote. -/
def behindRawString (hashes : Nat) : Bytes → Bytes
  | [] => []
  | b :: rest => if b = '"' ∧ closesRawString hashes rest then rest.drop hashes else behindRawString hashes rest

/-- The bytes behind a literal with escapes, from behind its opening quote. -/
def behindQuoted (delim : Char) (resetAtNewline : Bool) : Bytes → Bytes
  | [] => []
  | b :: rest =>
    if b = '\n' ∧ resetAtNewline then b :: rest
    else if b = '\\' then
      match rest with
      | [] => []
      | _ :: later => behindQuoted delim resetAtNewline later
    else if b = delim then rest
    else behindQuoted delim resetAtNewline rest

/-- The length of the character that a byte starts. -/
def widthOf (b : Char) : Nat :=
  if b.toNat < 0x80 then 1 else if b.toNat < 0xE0 then 2 else if b.toNat < 0xF0 then 3 else 4

/-- A quote opens a literal, and no lifetime or label. -/
def opensCharLiteral (behindQuote : Bytes) : Bool :=
  match behindQuote with
  | [] => false
  | b :: rest =>
    if b = '\\' then (rest.dropWhile fun b => b ≠ '\'' && b ≠ '\n').head? = some '\''
    else ((b :: rest).drop (widthOf b)).head? = some '\''

/-- A check of all members of a list. -/
theorem forall_of_all {α : Type} {p : α → Prop} [DecidablePred p] {members : List α}
    (all : members.all fun a => decide (p a)) :
    ∀ a ∈ members, p a := fun a member => of_decide_eq_true (all_eq_true.mp all a member)

section Shorter

theorem behindNestedBlockComment_le (depth : Nat) (bytes : Bytes) :
    (behindNestedBlockComment depth bytes).length ≤ bytes.length := by
  fun_induction behindNestedBlockComment depth bytes with
  | case1 => exact Nat.le_refl _
  | case2 => exact Nat.zero_le _
  | case3 depth b c rest opens ih => exact Nat.le_succ_of_le (Nat.le_succ_of_le ih)
  | case4 depth b c rest opens closes outer => exact Nat.le_succ_of_le (Nat.le_succ _)
  | case5 depth b c rest opens closes inner ih => exact Nat.le_succ_of_le (Nat.le_succ_of_le ih)
  | case6 depth b c rest opens closes ih => exact Nat.le_succ_of_le ih

/-- The prefix of a raw string is not empty. -/
theorem rawStringPrefix_length {bytes quoted : Bytes} {hashes : Nat}
    (found : rawStringPrefix bytes = some (hashes, quoted)) : quoted.length < bytes.length := by
  have shorter : (if bytes.head? = some 'b' then bytes.tail else bytes).length ≤ bytes.length := by
    split
    · rw [length_tail]
      exact Nat.sub_le _ _
    · exact Nat.le_refl _
  simp only [rawStringPrefix] at found
  generalize (if bytes.head? = some 'b' then bytes.tail else bytes) = behindB at found shorter
  split at found
  · rename_i both
    obtain ⟨behind, rfl⟩ := head?_eq_some_iff.mp both.1
    cases found
    have smaller := (dropWhile_suffix (l := behind) (· = '#')).length_le
    rw [length_cons] at shorter
    exact Nat.lt_of_le_of_lt smaller shorter
  · cases found

theorem head?_of_rawStringPrefix {bytes quoted : Bytes} {hashes : Nat}
    (found : rawStringPrefix bytes = some (hashes, quoted)) : quoted.head? = some '"' := by
  simp only [rawStringPrefix] at found
  generalize (if bytes.head? = some 'b' then bytes.tail else bytes) = behindB at found
  split at found
  · rename_i both
    cases found
    exact both.2
  · cases found

theorem behindRawString_le (hashes : Nat) (bytes : Bytes) : (behindRawString hashes bytes).length ≤ bytes.length := by
  induction bytes with
  | nil => exact Nat.le_refl _
  | cons b rest ih =>
    rw [behindRawString]
    split
    · exact Nat.le_succ_of_le (drop_suffix _ _).length_le
    · exact Nat.le_succ_of_le ih

theorem behindQuoted_le (delim : Char) (resetAtNewline : Bool) (bytes : Bytes) :
    (behindQuoted delim resetAtNewline bytes).length ≤ bytes.length := by
  fun_induction behindQuoted delim resetAtNewline bytes with
  | case1 => exact Nat.le_refl _
  | case2 => exact Nat.le_refl _
  | case3 => exact Nat.zero_le _
  | case4 _ _ _ ih => exact Nat.le_succ_of_le (Nat.le_succ_of_le ih)
  | case5 => exact Nat.le_succ _
  | case6 _ _ _ _ _ ih => exact Nat.le_succ_of_le ih

theorem readIdent_shorter {bytes name behind : Bytes} (read : readIdent bytes = some (name, behind)) :
    behind.length < bytes.length ∧ name ++ behind = bytes := by
  unfold readIdent at read
  split at read
  · cases read
  · split at read
    · cases read
      exact ⟨Nat.lt_succ_of_le (dropWhile_suffix _).length_le, congrArg _ takeWhile_append_dropWhile⟩
    · cases read

end Shorter

/-- The mask of some bytes whose rest has a mask: what stands before the rest is all of one kind. -/
def covered (kind : Bool) (bytes rest : Bytes) (mask : List Bool) : List Bool :=
  List.replicate (bytes.length - rest.length) kind ++ mask

/-- A byte is true where it is code. An identifier that is no text has no mask. -/
def rustCodeMask (bytes : Bytes) : Option (List Bool) :=
  match bytes with
  | [] => some []
  | b :: rest =>
    if b = '/' ∧ rest.head? = some '/' then
      let behind := rest.dropWhile (· ≠ '\n')
      (rustCodeMask behind).map (covered false (b :: rest) behind)
    else if b = '/' ∧ rest.head? = some '*' then
      let behind := behindNestedBlockComment 1 rest.tail
      (rustCodeMask behind).map (covered false (b :: rest) behind)
    else if isIdentStart b then
      match _ : rawStringPrefix (b :: rest) with
      | some (hashes, quoted) =>
        let behind := behindRawString hashes quoted.tail
        (rustCodeMask behind).map (covered false (b :: rest) behind)
      | none =>
        match _ : readIdent (b :: rest) with
        | some (_, behind) => (rustCodeMask behind).map (covered true (b :: rest) behind)
        | none => none
    else if b = '"' then
      let behind := behindQuoted '"' false rest
      (rustCodeMask behind).map (covered false (b :: rest) behind)
    else if b = '\'' ∧ opensCharLiteral rest then
      let behind := behindQuoted '\'' true rest
      (rustCodeMask behind).map (covered false (b :: rest) behind)
    else (rustCodeMask rest).map (true :: ·)
termination_by bytes.length
decreasing_by
  · exact Nat.lt_succ_of_le (List.dropWhile_suffix _).length_le
  · have shorter := behindNestedBlockComment_le 1 rest.tail
    rw [List.length_tail] at shorter
    rw [List.length_cons]
    omega
  · have shorter := rawStringPrefix_length ‹_›
    have smaller := behindRawString_le hashes quoted.tail
    rw [List.length_tail] at smaller
    omega
  · exact (readIdent_shorter ‹_›).1
  · exact Nat.lt_succ_of_le (behindQuoted_le _ _ _)
  · exact Nat.lt_succ_of_le (behindQuoted_le _ _ _)
  · exact Nat.lt_succ_self _

section Characters

open Utf8

variable {text rest : List Char} {c b : Char} {wide : Bytes}

/-- All bytes of a part of a character are large. -/
def Wide (bytes : Bytes) : Prop := ∀ b ∈ bytes, 0x80 ≤ b.toNat

theorem Wide.tail (large : Wide (b :: wide)) : Wide wide := fun d member => large d (mem_cons_of_mem _ member)

theorem wide_ne {mark : Char} (large : 0x80 ≤ b.toNat) (ascii : mark.toNat < 0x80) : b ≠ mark := by
  rintro rfl
  omega

theorem isIdentByte_wide (large : 0x80 ≤ b.toNat) : isIdentByte b = true := by
  rw [isIdentByte, decide_eq_true large, Bool.or_true]

theorem isIdentStart_wide (large : 0x80 ≤ b.toNat) : isIdentStart b = true := by
  rw [isIdentStart, decide_eq_true large, Bool.or_true]

/-- A character is one small byte, or one large byte that starts it and some large bytes behind. -/
theorem unitsOf_cases (c : Char) : c.toNat < 0x80 ∧ unitsOf c = [c] ∨
    0x80 ≤ c.toNat ∧ ∃ first later, unitsOf c = first :: later ∧ Wide (first :: later) ∧ isContinuation first = false ∧
      widthOf first = later.length + 1 := by
  by_cases small : c.toNat < 0x80
  · exact .inl ⟨small, unitsOf_ascii small⟩
  · have large : Wide (unitsOf c) := fun b member => unitsOf_wide (Nat.le_of_not_lt small) member
    refine .inr ⟨Nat.le_of_not_lt small, ?_⟩
    have bound := toNat_lt c
    have wide : ¬c.val.toNat ≤ 127 := Nat.not_le_of_lt (Nat.lt_of_not_le fun le => small (Nat.lt_succ_of_le le))
    rw [unitsOf, String.utf8EncodeChar, if_neg wide] at large ⊢
    generalize c.val.toNat = v at bound large wide ⊢
    split_ifs at large ⊢
    all_goals
      refine ⟨_, _, rfl, large, ?_, ?_⟩
      · simp only [isContinuation, toNat_ofUInt8, Bool.and_eq_false_iff, decide_eq_false_iff_not]
        omega
      · simp only [widthOf, toNat_ofUInt8, map_cons, map_nil, length_cons, length_nil]
        split_ifs <;> omega

section Loops

variable {p : Char → Bool}

theorem units_wide_split (large : 0x80 ≤ c.toNat) (text : List Char) :
    ∃ first later, unitsOf c = first :: later ∧ Wide (first :: later) ∧
      units (c :: text) = first :: (later ++ units text) := by
  rcases unitsOf_cases c with ⟨small, -⟩ | ⟨-, first, later, same, wide, -, -⟩
  · omega
  · exact ⟨first, later, same, wide, by rw [units_cons, same, cons_append]⟩

/-- A loop that passes all large bytes stops at a character. -/
theorem dropWhile_units (passes : ∀ b : Char, 0x80 ≤ b.toNat → p b = true) (text : List Char) :
    (units text).dropWhile p = units (text.dropWhile p) := by
  induction text with
  | nil => rfl
  | cons c text ih =>
    by_cases small : c.toNat < 0x80
    · rw [units_cons, unitsOf_ascii small, singleton_append, dropWhile_cons, dropWhile_cons]
      split
      · exact ih
      · rw [units_cons, unitsOf_ascii small, singleton_append]
    · obtain ⟨first, later, same, wide, -⟩ := units_wide_split (Nat.le_of_not_lt small) text
      rw [units_cons, same, dropWhile_append_of_pos fun b member => passes b (wide b member), ih,
        dropWhile_cons_of_pos (passes c (Nat.le_of_not_lt small))]

theorem behindNestedBlockComment_skip (large : 0x80 ≤ b.toNat) (depth : Nat) (bytes : Bytes) :
    behindNestedBlockComment depth (b :: bytes) = behindNestedBlockComment depth bytes := by
  cases bytes with
  | nil => simp [behindNestedBlockComment]
  | cons c bytes =>
    rw [behindNestedBlockComment, if_neg fun both => wide_ne large (by decide) both.1,
      if_neg fun both => wide_ne large (by decide) both.1]

theorem behindNestedBlockComment_wide (large : Wide wide) (depth : Nat) (bytes : Bytes) :
    behindNestedBlockComment depth (wide ++ bytes) = behindNestedBlockComment depth bytes := by
  induction wide with
  | nil => rfl
  | cons b wide ih =>
    rw [cons_append, behindNestedBlockComment_skip (large b (mem_cons_self ..)), ih large.tail]

/-- A block comment ends at the same place in the bytes. -/
theorem behindNestedBlockComment_units (depth : Nat) (text : List Char) :
    behindNestedBlockComment depth (units text) = units (behindNestedBlockComment depth text) := by
  have skip (depth : Nat) {c : Char} (large : 0x80 ≤ c.toNat) (rest : List Char) :
      behindNestedBlockComment depth (units (c :: rest)) = behindNestedBlockComment depth (units rest) := by
    obtain ⟨first, later, same, wide, -⟩ := units_wide_split large rest
    rw [units_cons, same, behindNestedBlockComment_wide wide]
  have pass (depth : Nat) {b c : Char} (rest : List Char) (opens : ¬(b = '/' ∧ c = '*'))
    (closes : ¬(b = '*' ∧ c = '/')) :
      behindNestedBlockComment depth (units (b :: c :: rest)) = behindNestedBlockComment depth (units (c :: rest)) := by
    by_cases small : b.toNat < 0x80
    · by_cases other : c.toNat < 0x80
      · rw [units_cons, units_cons, unitsOf_ascii small, unitsOf_ascii other, singleton_append,
          singleton_append,
          behindNestedBlockComment, if_neg opens, if_neg closes]
      · obtain ⟨first, later, -, wide, same⟩ := units_wide_split (Nat.le_of_not_lt other) rest
        have large := wide first (mem_cons_self ..)
        rw [units_cons, unitsOf_ascii small, singleton_append, same, behindNestedBlockComment,
          if_neg fun both => wide_ne large (by decide) both.2, if_neg fun both => wide_ne large (by decide) both.2]
    · exact skip depth (Nat.le_of_not_lt small) _
  have both {b c : Char} (first : b.toNat < 0x80) (second : c.toNat < 0x80) (rest : List Char) : units
    (b :: c :: rest) = b :: c :: units rest := by
    rw [units_cons, units_cons, unitsOf_ascii first, unitsOf_ascii second]
    rfl
  fun_induction behindNestedBlockComment depth text with
  | case1 => simp [behindNestedBlockComment]
  | case2 depth c =>
    by_cases small : c.toNat < 0x80
    · rw [units_cons, unitsOf_ascii small]
      simp [behindNestedBlockComment]
    · rw [skip depth (Nat.le_of_not_lt small)]
      simp [behindNestedBlockComment]
  | case3 depth b c rest opens ih =>
    obtain ⟨rfl, rfl⟩ := opens
    rw [both (by decide) (by decide), behindNestedBlockComment, if_pos ⟨rfl, rfl⟩, ih]
  | case4 depth b c rest opens closes outer =>
    obtain ⟨rfl, rfl⟩ := closes
    rw [both (by decide) (by decide), behindNestedBlockComment, if_neg opens, if_pos ⟨rfl, rfl⟩, if_pos outer]
  | case5 depth b c rest opens closes inner ih =>
    obtain ⟨rfl, rfl⟩ := closes
    rw [both (by decide) (by decide), behindNestedBlockComment, if_neg opens, if_pos ⟨rfl, rfl⟩, if_neg inner, ih]
  | case6 depth b c rest opens closes ih => rw [pass depth rest opens closes, ih]

theorem behindRawString_wide (large : Wide wide) (hashes : Nat) (bytes : Bytes) :
    behindRawString hashes (wide ++ bytes) = behindRawString hashes bytes := by
  induction wide with
  | nil => rfl
  | cons b wide ih =>
    rw [cons_append, behindRawString,
      if_neg fun both => wide_ne (large b (mem_cons_self ..)) (by decide) both.1, ih large.tail]

/-- Small characters at the start of a text are its first bytes. -/
theorem isPrefixOf_units {marks : List Char} (ascii : ∀ mark ∈ marks, mark.toNat < 0x80) (text : List Char) :
    marks.isPrefixOf (units text) = marks.isPrefixOf text := by
  induction marks generalizing text with
  | nil => rw [isPrefixOf_nil_left, isPrefixOf_nil_left]
  | cons mark marks ih =>
    have small := ascii mark (mem_cons_self ..)
    cases text with
    | nil => rfl
    | cons c text =>
      by_cases narrow : c.toNat < 0x80
      · rw [units_cons, unitsOf_ascii narrow, singleton_append, isPrefixOf_cons_cons,
          isPrefixOf_cons_cons,
          ih fun mark member => ascii mark (mem_cons_of_mem _ member)]
      · obtain ⟨first, later, -, wide, same⟩ := units_wide_split (Nat.le_of_not_lt narrow) text
        have large := wide first (mem_cons_self ..)
        rw [same, isPrefixOf_cons_cons, isPrefixOf_cons_cons, beq_false_of_ne (wide_ne large small).symm,
          beq_false_of_ne (wide_ne (Nat.le_of_not_lt narrow) small).symm, Bool.false_and, Bool.false_and]

theorem drop_units {marks : List Char} (ascii : ∀ mark ∈ marks, mark.toNat < 0x80) {text : List Char}
    (starts : marks.isPrefixOf text) : (units text).drop marks.length = units (text.drop marks.length) := by
  obtain ⟨rest, rfl⟩ := isPrefixOf_iff_prefix.mp starts
  have same : units marks = marks := by
    clear starts
    induction marks with
    | nil => rfl
    | cons mark marks ih =>
      rw [units_cons, unitsOf_ascii (ascii mark (mem_cons_self ..)),
        ih fun mark member => ascii mark (mem_cons_of_mem _ member)]
      rfl
  rw [units_append, same, drop_left, drop_left]

theorem hash_ascii {hashes : Nat} : ∀ mark ∈ List.replicate hashes '#', mark.toNat < 0x80 := fun mark member => by
  rw [eq_of_mem_replicate member]
  decide

theorem behindRawString_units (hashes : Nat) (text : List Char) :
    behindRawString hashes (units text) = units (behindRawString hashes text) := by
  induction text with
  | nil => rfl
  | cons c text ih =>
    by_cases small : c.toNat < 0x80
    · rw [units_cons, unitsOf_ascii small, singleton_append, behindRawString, behindRawString, closesRawString,
        closesRawString,
        isPrefixOf_units hash_ascii]
      split
      · rename_i closes
        have moved := drop_units hash_ascii closes.2
        rwa [length_replicate] at moved
      · exact ih
    · obtain ⟨first, later, same, wide, -⟩ := units_wide_split (Nat.le_of_not_lt small) text
      rw [units_cons, same, behindRawString_wide wide, ih, behindRawString,
        if_neg fun both => wide_ne (Nat.le_of_not_lt small) (by decide) both.1]

variable {delim : Char} {resetAtNewline : Bool}

theorem behindQuoted_wide (ascii : delim.toNat < 0x80) (large : Wide wide) (bytes : Bytes) :
    behindQuoted delim resetAtNewline (wide ++ bytes) = behindQuoted delim resetAtNewline bytes := by
  induction wide with
  | nil => rfl
  | cons b wide ih =>
    have here := large b (mem_cons_self ..)
    rw [cons_append, behindQuoted.eq_def]
    simp only
    rw [if_neg fun both => wide_ne here (by decide) both.1, if_neg (wide_ne here (by decide)),
      if_neg (wide_ne here ascii), ih large.tail]

/-- A quoted literal ends at the same place in the bytes. -/
theorem behindQuoted_units (ascii : delim.toNat < 0x80) (resetAtNewline : Bool) (text : List Char) :
    behindQuoted delim resetAtNewline (units text) = units (behindQuoted delim resetAtNewline text) := by
  have small {b : Char} (ascii : b.toNat < 0x80) (rest : List Char) : units (b :: rest) = b :: units rest := by
    rw [units_cons, unitsOf_ascii ascii]
    rfl
  fun_induction behindQuoted delim resetAtNewline text with
  | case1 => rfl
  | case2 b rest ends =>
    obtain ⟨rfl, reset⟩ := ends
    rw [small (by decide), behindQuoted.eq_def]
    exact if_pos ⟨rfl, reset⟩
  | case3 ends =>
    rw [small (by decide), behindQuoted.eq_def]
    simp only
    rw [if_neg ends, if_pos trivial]
    rfl
  | case4 c rest ends ih =>
    rw [small (by decide), behindQuoted.eq_def]
    simp only
    rw [if_neg ends, if_pos trivial, ← ih]
    rcases unitsOf_cases c with ⟨-, same⟩ | ⟨-, first, later, same, wide, -, -⟩
    · rw [units_cons, same]
      rfl
    · rw [units_cons, same, cons_append]
      exact behindQuoted_wide ascii wide.tail _
  | case5 rest ends escape =>
    rw [small ascii, behindQuoted.eq_def]
    simp only
    rw [if_neg ends, if_neg escape, if_pos trivial]
  | case6 b rest ends escape other ih =>
    by_cases narrow : b.toNat < 0x80
    · rw [small narrow, behindQuoted.eq_def]
      simp only
      rw [if_neg ends, if_neg escape, if_neg other, ih]
    · obtain ⟨first, later, same, wide, -⟩ := units_wide_split (Nat.le_of_not_lt narrow) rest
      rw [units_cons, same, behindQuoted_wide ascii wide, ih]

/-- As many number signs stand in front of the bytes. -/
theorem takeWhile_length_units (text : List Char) :
    ((units text).takeWhile (· = '#')).length = (text.takeWhile (· = '#')).length ∧
      (units text).dropWhile (· = '#') = units (text.dropWhile (· = '#')) := by
  induction text with
  | nil => exact ⟨rfl, rfl⟩
  | cons c text ih =>
    by_cases hash : c = '#'
    · subst hash
      have here : units ('#' :: text) = '#' :: units text := by
        rw [units_cons, unitsOf_ascii (by decide)]
        rfl
      rw [here]
      exact ⟨congrArg (· + 1) ih.1, ih.2⟩
    · have stays : ∃ first later, units (c :: text) = first :: later ∧ first ≠ '#' := by
        by_cases small : c.toNat < 0x80
        · exact ⟨c, units text, by rw [units_cons, unitsOf_ascii small]; rfl, hash⟩
        · obtain ⟨first, later, -, wide, same⟩ := units_wide_split (Nat.le_of_not_lt small) text
          exact ⟨first, _, same, wide_ne (wide first (mem_cons_self ..)) (by decide)⟩
      obtain ⟨first, later, same, other⟩ := stays
      rw [takeWhile_cons_of_neg (by simpa using hash), dropWhile_cons_of_neg (by simpa using hash), same,
        takeWhile_cons_of_neg (by simpa using other), dropWhile_cons_of_neg (by simpa using other)]
      exact ⟨rfl, rfl⟩

/-- A small character is the first byte of a text that starts with it, and no other text has it there. -/
theorem units_small (small : c.toNat < 0x80) (text : List Char) : units (c :: text) = c :: units text := by
  rw [units_cons, unitsOf_ascii small]
  rfl

theorem tail_units {mark : Char} (ascii : mark.toNat < 0x80) (first : text.head? = some mark) :
    (units text).tail = units text.tail := by
  obtain ⟨rest, rfl⟩ := head?_eq_some_iff.mp first
  rw [units_small ascii]
  rfl

/-- A raw string opens alike in the bytes. -/
theorem rawStringPrefix_units (text : List Char) :
    rawStringPrefix (units text) = (rawStringPrefix text).map fun (hashes, quoted) => (hashes, units quoted) := by
  have behind : (if (units text).head? = some 'b' then (units text).tail else units text) =
      units (if text.head? = some 'b' then text.tail else text) := by
    by_cases first : text.head? = some 'b'
    · rw [if_pos ((head?_units_iff (by decide)).mpr first), if_pos first, tail_units (by decide) first]
    · rw [if_neg fun found => first ((head?_units_iff (by decide)).mp found), if_neg first]
  simp only [rawStringPrefix, behind]
  generalize (if text.head? = some 'b' then text.tail else text) = behindB
  by_cases first : behindB.head? = some 'r'
  · obtain ⟨counted, left⟩ := takeWhile_length_units behindB.tail
    rw [tail_units (by decide) first, counted, left]
    simp only [@head?_units_iff _ 'r' (by decide), @head?_units_iff _ '"' (by decide)]
    split <;> rfl
  · rw [if_neg fun both => first ((head?_units_iff (by decide)).mp both.1), if_neg fun both => first both.1]
    rfl

end Loops

section Masks

/-- A quote opens a literal of one character or of an escape. -/
def opensChar (behindQuote : List Char) : Bool :=
  match behindQuote with
  | [] => false
  | c :: rest =>
    if c = '\\' then (rest.dropWhile fun c => c ≠ '\'' && c ≠ '\n').head? = some '\'' else rest.head? = some '\''

/-- A character literal opens alike in the bytes. -/
theorem opensCharLiteral_units (text : List Char) : opensCharLiteral (units text) = opensChar text := by
  cases text with
  | nil => rfl
  | cons c rest =>
    rw [opensChar]
    by_cases escape : c = '\\'
    · subst escape
      have passes (b : Char) (large : 0x80 ≤ b.toNat) : (b ≠ '\'' && b ≠ '\n') = true := by
        simp [@wide_ne _ '\'' large (by decide), @wide_ne _ '\n' large (by decide)]
      rw [units_small (by decide), opensCharLiteral, if_pos rfl, if_pos rfl, dropWhile_units passes]
      simp only [@head?_units_iff _ '\'' (by decide)]
    · rw [if_neg escape]
      rcases unitsOf_cases c with ⟨small, -⟩ | ⟨large, first, later, same, wide, -, width⟩
      · rw [units_small small, opensCharLiteral, if_neg escape, widthOf, if_pos small]
        exact decide_eq_decide.mpr (head?_units_iff (by decide))
      · rw [units_cons, same, cons_append, opensCharLiteral,
          if_neg (wide_ne (wide first (mem_cons_self ..)) (by decide)), width, drop_succ_cons,
            drop_left]
        exact decide_eq_decide.mpr (head?_units_iff (by decide))

/-- The mask of a text whose rest has a mask. -/
def marked (kind : Bool) (text rest : List Char) (mask : List Bool) : List Bool :=
  covered kind (units text) (units rest) mask

/-- The mask of the bytes of a text, as its characters are read. -/
def codeMask (text : List Char) : List Bool :=
  match text with
  | [] => []
  | c :: rest =>
    if c = '/' ∧ rest.head? = some '/' then
      let behind := rest.dropWhile (· ≠ '\n')
      marked false (c :: rest) behind (codeMask behind)
    else if c = '/' ∧ rest.head? = some '*' then
      let behind := behindNestedBlockComment 1 rest.tail
      marked false (c :: rest) behind (codeMask behind)
    else if isIdentStart c then
      match _ : rawStringPrefix (c :: rest) with
      | some (hashes, quoted) =>
        let behind := behindRawString hashes quoted.tail
        marked false (c :: rest) behind (codeMask behind)
      | none => marked true (c :: rest) (rest.dropWhile isIdentByte) (codeMask (rest.dropWhile isIdentByte))
    else if c = '"' then
      let behind := behindQuoted '"' false rest
      marked false (c :: rest) behind (codeMask behind)
    else if c = '\'' ∧ opensChar rest then
      let behind := behindQuoted '\'' true rest
      marked false (c :: rest) behind (codeMask behind)
    else true :: codeMask rest
termination_by text.length
decreasing_by
  · exact Nat.lt_succ_of_le (List.dropWhile_suffix _).length_le
  · have shorter := behindNestedBlockComment_le 1 rest.tail
    rw [List.length_tail] at shorter
    rw [List.length_cons]
    omega
  · have shorter := rawStringPrefix_length ‹_›
    have smaller := behindRawString_le hashes quoted.tail
    rw [List.length_tail] at smaller
    omega
  · exact Nat.lt_succ_of_le (List.dropWhile_suffix _).length_le
  · exact Nat.lt_succ_of_le (behindQuoted_le _ _ _)
  · exact Nat.lt_succ_of_le (behindQuoted_le _ _ _)
  · exact Nat.lt_succ_self _

/-- The first byte of a text that starts with a character of an identifier. -/
theorem units_ident {c : Char} (start : isIdentStart c) (rest : List Char) :
    ∃ b tail, units (c :: rest) = b :: tail ∧ isIdentStart b ∧ b ≠ '/' ∧ isContinuation b = false ∧
      tail.dropWhile isIdentByte = units (rest.dropWhile isIdentByte) := by
  have goes := dropWhile_units (p := isIdentByte) (fun _ => isIdentByte_wide)
  rcases unitsOf_cases c with ⟨small, -⟩ | ⟨-, first, later, same, wide, character, -⟩
  · refine ⟨c, units rest, units_small small rest, start, ?_, ?_, goes rest⟩
    · rintro rfl
      cases start
    · simp only [isContinuation, Bool.and_eq_false_iff, decide_eq_false_iff_not]
      omega
  · have large := wide first (mem_cons_self ..)
    refine ⟨first, later ++ units rest, by
      rw [units_cons, same]; rfl, isIdentStart_wide large, wide_ne large (by decide), character, ?_⟩
    rw [dropWhile_append_of_pos fun b member => isIdentByte_wide (wide.tail b member), goes]

/-- The bytes of a text are read as its characters are. -/
theorem rustCodeMask_units (text : List Char) : rustCodeMask (units text) = some (codeMask text) := by
  have notWide {c : Char} (other : ¬isIdentStart c) : c.toNat < 0x80 :=
    Nat.lt_of_not_le fun large => other (isIdentStart_wide large)
  have next {mark : Char} (ascii : mark.toNat < 0x80) {c : Char} {rest : List Char}
    (other : ¬(c = '/' ∧ rest.head? = some mark)) :
      ¬(c = '/' ∧ (units rest).head? = some mark) := fun both => other ⟨both.1, (head?_units_iff ascii).mp both.2⟩
  fun_induction codeMask text with
  | case1 => rw [units_nil, rustCodeMask]
  | case2 c rest line behind ih =>
    obtain ⟨rfl, second⟩ := line
    rw [marked, units_small (by decide), rustCodeMask, if_pos ⟨rfl, (head?_units_iff (by decide)).mpr second⟩,
      dropWhile_units fun b large => by simpa using @wide_ne _ '\n' large (by decide)]
    exact congrArg (Option.map (covered _ _ _)) ih
  | case3 c rest line block behind ih =>
    obtain ⟨rfl, second⟩ := block
    rw [marked, units_small (by decide), rustCodeMask, if_neg (next (by decide) line),
      if_pos ⟨rfl, (head?_units_iff (by decide)).mpr second⟩, tail_units (by decide) second,
        behindNestedBlockComment_units]
    exact congrArg (Option.map (covered _ _ _)) ih
  | case4 c rest line block start hashes quoted raw behind ih =>
    obtain ⟨b, tail, same, startsIdent, notSlash, -, -⟩ := units_ident start rest
    have prefixed := rawStringPrefix_units (c :: rest)
    rw [raw, same] at prefixed
    rw [marked, same, rustCodeMask, if_neg fun both => notSlash both.1, if_neg fun both => notSlash both.1,
      if_pos startsIdent]
    split
    · rename_i found
      obtain ⟨rfl, rfl⟩ := Prod.mk.inj (Option.some.inj (found.symm.trans prefixed))
      rw [tail_units (by decide) (head?_of_rawStringPrefix raw), behindRawString_units]
      exact congrArg (Option.map (covered _ _ _)) ih
    · rename_i none
      rw [prefixed] at none
      cases none
  | case5 c rest line block start raw ih =>
    obtain ⟨b, tail, same, startsIdent, notSlash, character, ends⟩ := units_ident start rest
    have plain := rawStringPrefix_units (c :: rest)
    rw [raw, same] at plain
    have read : readIdent (b :: tail) = some (b :: tail.takeWhile isIdentByte, tail.dropWhile isIdentByte) :=
      if_pos ⟨startsIdent, by rw [character]; rfl⟩
    rw [marked, same, rustCodeMask, if_neg fun both => notSlash both.1, if_neg fun both => notSlash both.1,
      if_pos startsIdent]
    split
    · rename_i found
      rw [plain] at found
      cases found
    · split
      · rename_i found
        cases found.symm.trans read
        rw [ends, ih]
        rfl
      · rename_i none
        rw [read] at none
        cases none
  | case6 rest line block start behind ih =>
    rw [marked, units_small (by decide), rustCodeMask, if_neg fun both => absurd both.1 (by decide),
      if_neg fun both => absurd both.1 (by decide), if_neg (by decide), if_pos rfl, behindQuoted_units (by decide)]
    exact congrArg (Option.map (covered _ _ _)) ih
  | case7 c rest line block start string char behind ih =>
    obtain ⟨rfl, opens⟩ := char
    rw [marked, units_small (by decide), rustCodeMask, if_neg (next (by decide) line), if_neg (next (by decide) block),
      if_neg start, if_neg string, if_pos ⟨rfl, opensCharLiteral_units rest ▸ opens⟩, behindQuoted_units (by decide)]
    exact congrArg (Option.map (covered _ _ _)) ih
  | case8 c rest line block start string char ih =>
    rw [units_small (notWide start), rustCodeMask, if_neg (next (by decide) line), if_neg (next (by decide) block),
      if_neg start, if_neg string, if_neg fun both => char ⟨both.1, opensCharLiteral_units rest ▸ both.2⟩, ih]
    rfl

end Masks

end Characters

end Codegraph.Resolve.RustLexical
