import Codegraph.Resolve.ByteStripping
import Codegraph.Resolve.StringContents

/- This file blanks the contents of string literals over the bytes of a text, as reading characters does. -/

namespace Codegraph.Resolve.StripComments
open Scanning Utf8 List

section Bytes

variable (text : List Char)

/-- The length of the character that starts at a byte. -/
def charLen (index : Nat) : Option Nat := do
  let tail ← sliceFrom text index
  return (tail.head?.map Char.utf8Size).getD 1

/-- Writes the content of a literal until its closing quote or its end. -/
def writeContent (quote : Char) : Nat → Nat → List Char → Option (Nat × List Char)
  | 0, _, _ => none
  | fuel + 1, index, out =>
    let bytes := units text
    if index < bytes.length then do
      let c ← bytes[index]?
      if c = quote then return (index, out)
      else if c = '\\' ∧ index + 1 < bytes.length then do
        let size ← charLen text (index + 1)
        writeContent quote fuel (index + 1 + size) (out ++ [' ', ' '])
      else if quote ≠ '`' ∧ c = '\n' then return (index, out)
      else do
        let size ← charLen text index
        writeContent quote fuel (index + size) (out ++ [if c = '\n' then '\n' else ' '])
    else return (index, out)

/-- The index behind the regex literal that starts at a slash, if one does. -/
def regexStop (index : Nat) : Option (Option Nat) := do
  let bytes := units text
  let before ← slice text 0 index
  if regexLiteralMayStart before then
    let stop ← seek regexStep bytes (bytes.length + 1) false (index + 1)
    return if stop < bytes.length ∧ bytes[stop]? = some '/' then some (stop + 1) else none
  else return none

def blankStringContentsFrom : Nat → Nat → Nat → List Char → Option (List Char)
  | 0, _, _, _ => none
  | fuel + 1, index, copied, out =>
    let bytes := units text
    if index < bytes.length then do
      let c ← bytes[index]?
      let regex ← if c = '/' then regexStop text index else some none
      match regex with
      | some stop => blankStringContentsFrom fuel stop copied out
      | none =>
        if isQuote c then do
          let before ← slice text copied (index + 1)
          let (closed, out) ← writeContent text c (bytes.length + 1) (index + 1) (out ++ before)
          let stop := if closed < bytes.length ∧ bytes[closed]? = some c then closed + 1 else closed
          blankStringContentsFrom fuel stop closed out
        else blankStringContentsFrom fuel (index + 1) copied out
    else do
      let tail ← slice text copied bytes.length
      return out ++ tail

def blankStringContents : Option (List Char) := blankStringContentsFrom text ((units text).length + 1) 0 0 []

end Bytes

section Content

variable {text front rest out content : List Char} {quote c d : Char} {fuel : Nat}

theorem regexStep_ascii : LooksForAscii regexStep where
  wide state c next wide := by
    have other {mark : Char} (small : mark.toNat < 128) : c ≠ mark := by
      rintro rfl
      exact absurd small (Nat.not_lt_of_le wide)
    simp [regexStep, other]
  next _ _ _ _ _ _ := rfl

theorem charLen_units (whole : text = front ++ c :: rest) : charLen text (units front).length = some c.utf8Size := by
  simp [charLen, whole, sliceFrom_units]

theorem isQuote_ascii (quotes : isQuote c) : c.toNat < 128 := by
  simp only [isQuote, Bool.or_eq_true, decide_eq_true_eq] at quotes
  rcases quotes with (rfl | rfl) | rfl <;> decide

theorem blankContent_cons (plain : c ≠ '\\' ∨ content = []) :
    blankContent (c :: content) = (if c = '\n' then '\n' else ' ') :: blankContent content := by
  cases content with
  | nil => rfl
  | cons d content => rw [blankContent, if_neg (plain.resolve_right (cons_ne_nil _ _))]

/-- The first byte of a character is an ASCII mark exactly when the character is. -/
theorem first_byte (whole : text = front ++ c :: rest) :
    ∃ byte, (units text)[(units front).length]? = some byte ∧ ∀ mark :
    Char, mark.toNat < 128 → (byte = mark ↔ c = mark) := by
  obtain ⟨byte, later, split, -⟩ := unitsOf_split c
  have found : (units text)[(units front).length]? = some byte := by
    rw [whole, units_append, units_cons, split]
    simp
  refine ⟨byte, found, fun mark ascii => ?_⟩
  have same : (units (c :: rest)).head? = some mark ↔ (c :: rest).head? = some mark := head?_units_iff ascii
  rw [units_cons, split, cons_append, head?_cons, head?_cons, Option.some.injEq, Option.some.injEq]
    at same
  exact same

/-- A loop over a literal goes on behind a plain character. -/
def Plain (quote c : Char) (rest : List Char) : Prop :=
  c ≠ quote ∧ ¬ (c = '\\' ∧ rest ≠ []) ∧ ¬ (quote ≠ '`' ∧ c = '\n')

theorem contentLength_plain (plain : Plain quote c rest) :
    contentLength quote (c :: rest) = contentLength quote rest + 1 := by
  have step : quoteStep quote () c rest.head? = .one () := by
    obtain ⟨notQuote, noEscape, noBreak⟩ := plain
    unfold quoteStep literalStep
    rw [if_neg notQuote, if_neg (by simpa [List.isSome_head?] using noEscape), if_neg (by simpa using noBreak)]
  rw [contentLength, advance_cons, step]
  rfl

theorem contentLength_escape (other : '\\' ≠ quote) :
    contentLength quote ('\\' :: d :: rest) = contentLength quote rest + 2 := by
  have step : quoteStep quote () '\\' (some d) = .two () := by
    unfold quoteStep literalStep
    rw [if_neg other, if_pos ⟨rfl, rfl⟩]
  rw [contentLength, advance_cons, head?_cons, step]
  rfl

theorem contentLength_stop (stops : c = quote ∨ quote ≠ '`' ∧ c = '\n') : contentLength quote (c :: rest) = 0 := by
  have step : quoteStep quote () c rest.head? = .stop := by
    unfold quoteStep literalStep
    by_cases closes : c = quote
    · rw [if_pos closes]
    · obtain ⟨single, rfl⟩ := stops.resolve_left closes
      rw [if_neg closes, if_neg (by simp), if_pos (by simpa using single)]
  rw [contentLength, advance_cons, step]

theorem length_le_units (text : List Char) : text.length ≤ (units text).length := by
  induction text with
  | nil => exact Nat.le_refl 0
  | cons c text ih =>
    have positive := c.utf8Size_pos
    rw [units_cons, length_cons, length_append, length_unitsOf]
    omega

theorem units_longer (whole : text = front ++ c :: rest) (ascii : c.toNat < 128) :
    (units front).length + 1 < (units text).length ↔ rest ≠ [] := by
  rw [whole, units_append, units_cons, unitsOf_ascii ascii, length_append, length_append,
    length_singleton, ← length_pos_iff, length_pos_iff, ne_eq, ← units_eq_nil, ← length_eq_zero_iff]
  omega

/-- Writing the content of a literal over the bytes writes what is written for its characters. -/
theorem writeContent_eq (ascii : quote.toNat < 128) (front rest : List Char) (whole : text = front ++ rest)
    (enough : rest.length < fuel) : writeContent text quote fuel (units front).length out =
      some ((units (front ++ rest.take (contentLength quote rest))).length,
        out ++ blankContent (rest.take (contentLength quote rest))) := by
  induction length : rest.length using Nat.strongRecOn generalizing front rest out fuel with
  | ind size ih =>
    obtain ⟨fuel, rfl⟩ := Nat.exists_eq_add_one_of_ne_zero (Nat.ne_of_gt (Nat.zero_lt_of_lt enough))
    cases rest with
    | nil =>
      rw [writeContent, if_neg (by simp [whole])]
      simp [contentLength, advance, blankContent]
    | cons c rest =>
      obtain ⟨byte, found, marks⟩ := first_byte whole
      rw [writeContent, if_pos (inside_of_getElem? found), found]
      simp only [Option.bind_eq_bind, Option.bind_some, marks _ ascii, marks '\\' (by decide), marks '\n' (by decide)]
      by_cases closes : c = quote
      · rw [if_pos closes, contentLength_stop (.inl closes)]
        simp [blankContent]
      rw [if_neg closes]
      by_cases escapes : c = '\\' ∧ rest ≠ []
      · obtain ⟨rfl, some⟩ := escapes
        obtain ⟨d, rest, rfl⟩ := exists_cons_of_ne_nil some
        have size : charLen text ((units front).length + 1) = Option.some d.utf8Size := by
          have behind : text = (front ++ ['\\']) ++ d :: rest := by simp [whole]
          have at' := charLen_units behind
          rwa [units_append, length_append] at at'
        have goes : writeContent text quote fuel _ (out ++ [' ', ' ']) = _ :=
          ih rest.length (by simp only [← length, length_cons]; omega) (front ++ ['\\', d]) rest
            (by simp [whole]) (by simp at enough; omega) rfl
        have place : (units front).length + 1 + d.utf8Size = (units (front ++ ['\\', d])).length := by
          simp [unitsOf_ascii (by decide : '\\'.toNat < 128)]
          omega
        rw [if_pos ⟨rfl, (units_longer whole (by decide)).mpr some⟩, size, contentLength_escape closes,
          Option.bind_some, place, goes, take_succ_cons, take_succ_cons, blankContent, if_pos rfl]
        simp
      have notEscape : ¬ (c = '\\' ∧ (units front).length + 1 < (units text).length) := by
        rintro ⟨rfl, later⟩
        exact escapes ⟨rfl, (units_longer whole (by decide)).mp later⟩
      rw [if_neg notEscape]
      by_cases breaks : quote ≠ '`' ∧ c = '\n'
      · rw [if_pos breaks, contentLength_stop (.inr breaks)]
        simp [blankContent]
      have goes : writeContent text quote fuel _ (out ++ [if c = '\n' then '\n' else ' ']) = _ :=
        ih rest.length (by simp [← length]) (front ++ [c]) rest (by simp [whole]) (by simp at enough; omega) rfl
      have place : (units front).length + c.utf8Size = (units (front ++ [c])).length := by simp
      have plain : c ≠ '\\' ∨ rest.take (contentLength quote rest) = [] := by
        by_cases backslash : c = '\\'
        · have none : rest = [] := by
            by_contra some
            exact escapes ⟨backslash, some⟩
          exact .inr (by rw [none, take_nil])
        · exact .inl backslash
      rw [if_neg breaks, charLen_units whole, Option.bind_some, place, goes,
        contentLength_plain ⟨closes, escapes, breaks⟩, take_succ_cons, blankContent_cons plain]
      simp

end Content

section Blanking

variable {text front middle rest out : List Char} {c : Char} {fuel index copied count closed : Nat}

/-- The byte loop over a regex literal stops where the character loop does. -/
theorem regexStop_eq (front rest : List Char) (whole : text = front ++ '/' :: rest) :
    regexStop text (units front).length =
      some ((if regexLiteralMayStart front then regexLength rest else none).map fun length =>
        (units (front ++ '/' :: rest.take length)).length) := by
  have bytes : units text = (units front ++ ['/']) ++ units rest := by
    rw [whole, units_append, units_cons, unitsOf_ascii (by decide : '/'.toNat < 128)]
    simp
  have before : slice text 0 (units front).length = some front := by
    have cut := slice_units [] front ('/' :: rest)
    simpa [whole] using cut
  rw [regexStop, before]
  simp only [Option.bind_eq_bind, Option.bind_some]
  split
  · have inside : (units rest).length < (units text).length + 1 := by
      rw [bytes, length_append]
      omega
    have seeks : seek regexStep _ _ false _ = _ := seek_units regexStep_ascii (units front ++ ['/']) inside
    rw [← bytes, length_append, length_singleton] at seeks
    rw [seeks, Option.bind_some, regexLength]
    have stands : (units text)[(units front).length + 1 + bytesBefore rest (advance regexStep false rest)]? = some '/' ↔
        rest[advance regexStep false rest]? = some '/' := by
      have at' := getElem?_bytesBefore (by decide : '/'.toNat < 128) (units front ++ ['/']) rest
        (advance regexStep false rest)
      rwa [← bytes, length_append, length_singleton] at at'
    by_cases closes : rest[advance regexStep false rest]? = some '/'
    · have found := stands.mpr closes
      have short : advance regexStep false rest < rest.length := inside_of_getElem? closes
      rw [if_pos ⟨inside_of_getElem? found, found⟩, if_pos closes, bytesBefore_inside (Nat.le_of_lt short)]
      have length : (units (front ++ '/' :: rest.take (advance regexStep false rest + 1))).length =
          (units front).length + 1 + (units (rest.take (advance regexStep false rest))).length + 1 := by
        rw [units_append, units_cons, length_append, length_append,
          unitsOf_ascii (by decide : '/'.toNat < 128), units_take_succ closes (by decide), length_singleton]
        omega
      rw [Option.map_some, length]
      rfl
    · rw [if_neg fun both => closes (stands.mp both.2), if_neg closes]
      rfl
  · rfl

/-- From the place of a character on, the bytes are blanked as the characters are. The middle is still to be copied. -/
def BlanksFrom (text : List Char) (fuel : Nat) (front middle rest : List Char) : Prop :=
  ∀ out, blankStringContentsFrom text fuel (units (front ++ middle)).length (units front).length out =
    some (out ++ middle ++ scan stringReader (front ++ middle) rest)

theorem blankStringContentsFrom_regex (found : (units text)[index]? = some '/')
    (regex : regexStop text index = some (some closed)) :
    blankStringContentsFrom text (fuel + 1) index copied out = blankStringContentsFrom text fuel closed copied out := by
  rw [blankStringContentsFrom, if_pos (inside_of_getElem? found), found]
  simp [regex]

/-- The loop blanks one literal and goes on behind it. -/
theorem blankStringContentsFrom_literal {content before : List Char} {stop : Nat}
    (found : (units text)[index]? = some c) (quotes : isQuote c) (copies : slice text copied (index + 1) = some before)
    (writes : writeContent text c ((units text).length + 1) (index + 1) (out ++ before) = some (closed, content))
    (stops : (if closed < (units text).length ∧ (units text)[closed]? = some c then closed + 1 else closed) = stop) :
    blankStringContentsFrom text (fuel + 1) index copied out =
      blankStringContentsFrom text fuel stop closed content := by
  have code : c ≠ '/' := by
    rintro rfl
    exact absurd quotes (by decide)
  rw [blankStringContentsFrom, if_pos (inside_of_getElem? found), found]
  simp [code, quotes, copies, writes, stops]

theorem blankStringContentsFrom_code (found : (units text)[index]? = some c)
    (regex : c = '/' → regexStop text index = some none) (plain : isQuote c = false) :
    blankStringContentsFrom text (fuel + 1) index copied out =
      blankStringContentsFrom text fuel (index + 1) copied out := by
  rw [blankStringContentsFrom, if_pos (inside_of_getElem? found), found]
  by_cases slash : c = '/'
  · obtain rfl := slash
    simp [regex rfl, plain]
  · simp [slash, plain]

theorem BlanksFrom.keeps
    (reads : stringReader (front ++ middle) c rest = .keep count c rest (front ++ middle ++ c :: rest.take count))
    (later : BlanksFrom text fuel front (middle ++ c :: rest.take count) (rest.drop count))
    (steps : ∀ out, blankStringContentsFrom text (fuel + 1) (units (front ++ middle)).length (units front).length out =
      blankStringContentsFrom text fuel (units (front ++ (middle ++ c :: rest.take count))).length
        (units front).length out) : BlanksFrom text (fuel + 1) front middle (c :: rest) := by
  intro out
  rw [steps, scan_cons, reads]
  simpa [Piece.keep] using later out

/-- What a literal is written as, and the state behind it. -/
theorem stringReader_literal (before rest : List Char) (quotes : isQuote c) : stringReader before c rest =
      ⟨literalLength c (c = '`') rest, c :: (blankContent (rest.take (contentLength c rest)) ++
        (rest.take (literalLength c (c = '`') rest)).drop (contentLength c rest)),
        before ++ c :: rest.take (literalLength c (c = '`') rest)⟩ := by
  have code : c ≠ '/' := by
    rintro rfl
    exact absurd quotes (by decide)
  simp [stringReader, code, quotes]

theorem literal_split (quote : Char) (rest : List Char) : rest.take (contentLength quote rest) ++
      (rest.take (literalLength quote (quote = '`') rest)).drop (contentLength quote rest) =
        rest.take (literalLength quote (quote = '`') rest) := by
  have split := take_append_drop (contentLength quote rest) (rest.take (literalLength quote (quote = '`') rest))
  rwa [take_take, Nat.min_eq_left (contentLength_le quote rest)] at split

/-- One turn of the loop at a quote writes the content of a literal. -/
theorem BlanksFrom.literal (stands : StandsAt text front middle c rest) (quotes : isQuote c)
    (later : ∀ front middle, text = front ++ (middle ++ rest.drop (literalLength c (c = '`') rest)) →
      BlanksFrom text fuel front middle (rest.drop (literalLength c (c = '`') rest))) :
    BlanksFrom text (fuel + 1) front middle (c :: rest) := by
  intro out
  generalize joined : (rest.take (literalLength c (c = '`') rest)).drop (contentLength c rest) = closing
  have split := literal_split c rest
  rw [joined] at split
  have place : (units (front ++ middle ++ [c])).length = (units (front ++ middle)).length + 1 := by
    rw [units_append, length_append, units_cons, unitsOf_ascii stands.ascii]
    rfl
  have copies : slice text (units front).length ((units (front ++ middle)).length + 1) = some (middle ++ [c]) := by
    rw [← place, append_assoc, units_append front, length_append]
    have cut := slice_units front (middle ++ [c]) rest
    rwa [append_assoc middle, singleton_append, ← stands.whole] at cut
  have behind : text = front ++ middle ++ [c] ++ rest := by simp [stands.whole]
  have bytes : units text = units (front ++ middle ++ [c]) ++ units rest := by rw [behind, units_append]
  have inside : rest.length < (units text).length + 1 := by
    have more := length_le_units rest
    rw [bytes, length_append]
    omega
  have writes : writeContent text c _ _ (out ++ (middle ++ [c])) = _ :=
    writeContent_eq stands.ascii (front ++ middle ++ [c]) rest behind inside
  have stops := literal_stop stands.ascii (c = '`') (units (front ++ middle ++ [c])) rest rfl
  rw [← bytes, ← length_append, ← length_append, ← units_append, ← units_append] at stops
  have goes := later (front ++ middle ++ [c] ++ rest.take (contentLength c rest)) closing
    (by rw [append_assoc, ← append_assoc _ closing, split, take_append_drop, behind])
    (out ++ (middle ++ [c]) ++ blankContent (rest.take (contentLength c rest)))
  rw [append_assoc _ _ closing, split] at goes
  rw [place] at writes
  rw [blankStringContentsFrom_literal stands.found quotes copies writes stops, goes, scan_cons,
    stringReader_literal _ _ quotes, joined]
  simp

/-- One turn of the loop at an ASCII character reads one piece. -/
theorem BlanksFrom.ascii (stands : StandsAt text front middle c rest)
    (later : ∀ count front middle, text = front ++ (middle ++ rest.drop count) →
      BlanksFrom text fuel front middle (rest.drop count)) : BlanksFrom text (fuel + 1) front middle (c :: rest) := by
  have found := stands.found
  by_cases regex : ∃ length, c = '/' ∧
    (if regexLiteralMayStart (front ++ middle) then regexLength rest else none) = some length
  · obtain ⟨length, rfl, literal⟩ := regex
    have stops := regexStop_eq (front ++ middle) rest (by simp [stands.whole] : text = front ++ middle ++ '/' :: rest)
    have reads : stringReader (front ++ middle) '/' rest =
      .keep length '/' rest (front ++ middle ++ '/' :: rest.take length) := by
      simp [stringReader, literal]
    refine .keeps reads (later length _ _ (by simpa using stands.cut length)) fun out => ?_
    rw [literal, Option.map_some, append_assoc] at stops
    exact blankStringContentsFrom_regex found stops
  have noRegex (slash : c = '/') : (if regexLiteralMayStart (front ++ middle) then regexLength rest else none) = none :=
    Option.eq_none_iff_forall_ne_some.mpr fun length literal => regex ⟨length, slash, literal⟩
  by_cases quotes : isQuote c
  · exact .literal stands quotes (later _)
  · have reads : stringReader (front ++ middle) c rest = .keep 0 c rest (front ++ middle ++ c :: rest.take 0) := by
      by_cases slash : c = '/' <;> simp_all [stringReader]
    refine .keeps reads (later 0 _ _ (by simpa using stands.cut 0)) fun out => ?_
    have place : (units (front ++ (middle ++ c :: rest.take 0))).length = (units (front ++ middle)).length + 1 := by
      simp [unitsOf_ascii stands.ascii, Nat.add_assoc]
    rw [blankStringContentsFrom_code found _ (Bool.eq_false_iff.mpr quotes), place]
    rintro rfl
    rw [regexStop_eq (front ++ middle) rest (by simp [stands.whole]), noRegex rfl, Option.map_none]

/-- Bytes of wide characters are code. -/
theorem blankStringContentsFrom_wide (found : (units text)[index]? = some c) (large : 128 ≤ c.toNat) :
    blankStringContentsFrom text (fuel + 1) index copied out =
      blankStringContentsFrom text fuel (index + 1) copied out := by
  refine blankStringContentsFrom_code found ?_ (Bool.eq_false_iff.mpr fun quotes => ?_)
  · rintro rfl
    exact absurd large (by decide)
  · exact absurd (isQuote_ascii quotes) (Nat.not_lt_of_le large)

/-- Any other character is skipped byte by byte. -/
theorem BlanksFrom.wide (wide : 128 ≤ c.toNat) (whole : text = front ++ (middle ++ c :: rest))
    (later : BlanksFrom text fuel front (middle ++ [c]) rest) :
    BlanksFrom text (fuel + (unitsOf c).length) front middle (c :: rest) := by
  intro out
  have bytes : units text = units (front ++ middle) ++ (unitsOf c ++ units rest) := by
    rw [whole, ← append_assoc, units_append, units_cons]
  have slash : c ≠ '/' := by
    rintro rfl
    exact absurd wide (by decide)
  have plain : isQuote c = false :=
    Bool.eq_false_iff.mpr fun quotes => absurd (isQuote_ascii quotes) (Nat.not_lt_of_le wide)
  have code : stringReader (front ++ middle) c rest = .keep 0 c rest (front ++ middle ++ [c]) := by
    simp [stringReader, slash, plain]
  have goes := later out
  rw [@skips_wide _ _ _ _ _ _ (fun fuel index => blankStringContentsFrom text fuel index _ out)
    (fun _ _ _ => blankStringContentsFrom_wide) (fun d member => unitsOf_wide wide member) bytes, scan_cons, code]
  simpa [Piece.keep, Nat.add_assoc] using goes

theorem BlanksFrom.ends (whole : text = front ++ middle) : BlanksFrom text (fuel + 1) front middle [] := by
  intro out
  rw [← whole, blankStringContentsFrom, if_neg (Nat.lt_irrefl _)]
  have tail := slice_to_end whole
  rw [← whole] at tail
  simp [tail]

/-- The byte version blanks what the character version blanks. -/
theorem blankStringContents_eq (text : List Char) : blankStringContents text = some (blankStringContentsChars text) :=
  @byteLoop_all _ text (BlanksFrom text) (fun _ _ _ => .ends) (fun _ _ _ _ _ => .ascii) (fun _ _ _ _ _ => .wide)
    [] [] text rfl (Nat.lt_succ_self _) []

/-- Both byte versions agree with their character versions on every text. -/
theorem byte_versions_agree : (∀ src allow, stripCStyle src allow = some (stripCStyleChars src allow)) ∧
      ∀ text, blankStringContents text = some (blankStringContentsChars text) :=
  ⟨stripCStyle_eq, blankStringContents_eq⟩

/-- Blanking keeps the length and every line break exactly of the texts whose literals escape no line break. -/
theorem blanked_keeps_grid_iff (text : List Char) : (∃ out, blankStringContents text = some out ∧ KeepsGrid text out) ↔
      ∀ content ∈ literalContents [] text, escapesNewline content = false := by
  rw [blankStringContents_eq, ← masks_stringReader_iff]
  constructor
  · rintro ⟨out, same, keeps⟩
    obtain rfl := Option.some.inj same
    exact keeps.masks
  · intro masks
    exact ⟨_, rfl, masks.keepsGrid⟩

/-- An escaped line break is written as the second of two spaces. -/
theorem escaped_newline_lost :
    ¬ ∃ out, blankStringContents ['\'', '\\', '\n', '\''] = some out ∧ KeepsGrid ['\'', '\\', '\n', '\''] out := by
  rintro ⟨out, same, keeps⟩
  have written : blankStringContents ['\'', '\\', '\n', '\''] = some ['\'', ' ', ' ', '\''] := by decide
  obtain rfl := Option.some.inj (written.symm.trans same)
  exact absurd ((keeps.newlines 2).mpr rfl) (by decide)

end Blanking

end Codegraph.Resolve.StripComments
