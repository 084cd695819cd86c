import Codegraph.Library.Utf8Loops
import Codegraph.Resolve.CommentScanners

/- This file strips C-style comments over the bytes of a text, and shows that it does what reading characters does. -/

namespace Codegraph.Resolve.StripComments
open Scanning Utf8 List

section Bytes

variable (src : List Char)

/-- Copies the text up to the blanked range and then one space for each of its characters. -/
def blankInto (out : List Char) (copied start stop : Nat) : Option (List Char × Nat) := do
  let before ← slice src copied start
  let blanked ← slice src start stop
  return (out ++ before ++ blank blanked, stop)

/-- An index past the end, a slice off a character boundary and a loop without end have no result. -/
def stripCStyleFrom (allowSingleQuoteStrings : Bool) : Nat → Nat → Nat → List Char → Option (List Char)
  | 0, _, _, _ => none
  | fuel + 1, index, copied, out =>
    let bytes := units src
    if index < bytes.length then do
      let c ← bytes[index]?
      let c2 := bytes[index + 1]?.getD '\x00'
      if c = '/' ∧ c2 = '*' then do
        let closed ← seek blockStep bytes (bytes.length + 1) () (index + 2)
        let stop := if closed < bytes.length then closed + 2 else closed
        let (out, copied) ← blankInto src out copied index stop
        stripCStyleFrom allowSingleQuoteStrings fuel stop copied out
      else if c = '/' ∧ c2 = '/' then do
        let stop ← seek lineStep bytes (bytes.length + 1) () index
        let (out, copied) ← blankInto src out copied index stop
        stripCStyleFrom allowSingleQuoteStrings fuel stop copied out
      else if c = '"' ∨ allowSingleQuoteStrings ∧ c = '\'' ∨ c = '`' then do
        let closed ← seek (literalStep c (c = '`')) bytes (bytes.length + 1) () (index + 1)
        let stop := if closed < bytes.length ∧ bytes[closed]? = some c then closed + 1 else closed
        stripCStyleFrom allowSingleQuoteStrings fuel stop copied out
      else stripCStyleFrom allowSingleQuoteStrings fuel (index + 1) copied out
    else do
      let tail ← slice src copied bytes.length
      return out ++ tail

def stripCStyle (allowSingleQuoteStrings : Bool) : Option (List Char) :=
  stripCStyleFrom src allowSingleQuoteStrings ((units src).length + 1) 0 0 []

end Bytes

section Marks

theorem lineStep_ascii : LooksForAscii lineStep where
  wide state c next wide := by
    unfold lineStep
    rw [if_neg]
    rintro rfl
    exact absurd wide (by decide)
  next _ _ _ _ _ _ := rfl

theorem blockStep_ascii : LooksForAscii blockStep where
  wide state c next wide := by
    unfold blockStep
    rw [if_neg]
    rintro ⟨rfl, -⟩
    exact absurd wide (by decide)
  next state c d e dWide eWide := by
    unfold blockStep
    rw [if_neg, if_neg]
    · rintro ⟨-, same⟩
      obtain rfl := Option.some.inj same
      exact absurd eWide (by decide)
    · rintro ⟨-, same⟩
      obtain rfl := Option.some.inj same
      exact absurd dWide (by decide)

theorem literalStep_ascii {quote : Char} (multiline : Bool) (ascii : quote.toNat < 128) :
    LooksForAscii (literalStep quote multiline) where
  wide state c next wide := by
    have other {mark : Char} (small : mark.toNat < 128) : c ≠ mark := by
      rintro rfl
      exact absurd small (Nat.not_lt_of_le wide)
    unfold literalStep
    rw [if_neg (other ascii), if_neg fun escapes => other (by decide) escapes.1,
      if_neg fun breaks => other (by decide) breaks.2]
  next _ _ _ _ _ _ := by simp only [literalStep, Option.isSome_some]

end Marks

section Closings

variable {front text : List Char} {fuel : Nat} {quote c : Char} {multiline : Bool}

theorem lineStep_le (text : List Char) : advance lineStep () text ≤ text.length := by
  refine advance_le (fun s c next => ?_) () text
  unfold lineStep
  split <;> simp

theorem blockStep_le (text : List Char) : advance blockStep () text ≤ text.length := by
  refine advance_le (fun s c next => ?_) () text
  unfold blockStep
  split <;> simp

theorem literalStep_le (text : List Char) : advance (literalStep quote multiline) () text ≤ text.length := by
  refine advance_le (fun s c next => ?_) () text
  unfold literalStep
  split_ifs <;> simp_all

theorem seek_line (front : List Char) (enough : (units text).length < fuel) :
    seek lineStep (front ++ units text) fuel () front.length =
      some (front.length + (units (text.take (lineLength text))).length) := by
  rw [seek_units lineStep_ascii front enough, bytesBefore_inside (lineStep_le text)]
  rfl

theorem units_take_succ {count : Nat} (found : text[count]? = some c) (ascii : c.toNat < 128) :
    (units (text.take (count + 1))).length = (units (text.take count)).length + 1 := by
  rw [take_add_one, found, units_append, Option.toList_some, units_cons, unitsOf_ascii ascii]
  simp

theorem blockStep_stop {state : Unit} {next : Option Char} (stops : blockStep state c next = .stop) :
    c = '*' ∧ next = some '/' := by
  unfold blockStep at stops
  split at stops
  · assumption
  · cases stops

/-- The byte loop and the two bytes behind it reach to the end of the comment. -/
theorem seek_block (front : List Char) (enough : (units text).length < fuel) :
    ∃ closed, seek blockStep (front ++ units text) fuel () front.length = some closed ∧
      (if closed < (front ++ units text).length then closed + 2 else closed) =
        front.length + (units (text.take (blockLength text))).length := by
  refine ⟨_, seek_units blockStep_ascii front enough, ?_⟩
  rw [bytesBefore_inside (blockStep_le text), blockLength]
  simp only [bytes_inside]
  split
  · rename_i inside
    have here := getElem?_eq_getElem inside
    obtain ⟨state, stops⟩ := advance_stops here
    obtain ⟨star, slash⟩ := blockStep_stop stops
    rw [star] at here
    rw [units_take_succ slash (by decide), units_take_succ here (by decide)]
    rfl
  · rfl

/-- The closing quote behind the content of a literal is part of it. -/
theorem literal_stop (ascii : quote.toNat < 128) (multiline : Bool) (front text : List Char) {closed : Nat}
    (stops : closed = front.length + (units (text.take (advance (literalStep quote multiline) () text))).length) :
    (if closed < (front ++ units text).length ∧ (front ++ units text)[closed]? = some quote then closed + 1
      else closed) =
      front.length + (units (text.take (literalLength quote multiline text))).length := by
  rw [stops, literalLength]
  simp only [getElem?_units, head?_units_iff ascii, head?_drop, bytes_inside]
  by_cases closes : text[advance (literalStep quote multiline) () text]? = some quote
  · rw [if_pos closes, if_pos ⟨(List.getElem?_eq_some_iff.mp closes).1, closes⟩, units_take_succ closes ascii]
    rfl
  · rw [if_neg closes, if_neg fun both => closes both.2]

theorem seek_literal (ascii : quote.toNat < 128) (multiline : Bool) (front : List Char)
    (enough : (units text).length < fuel) :
    ∃ closed, seek (literalStep quote multiline) (front ++ units text) fuel () front.length = some closed ∧
      (if closed < (front ++ units text).length ∧ (front ++ units text)[closed]? = some quote then closed + 1
        else closed) =
        front.length + (units (text.take (literalLength quote multiline text))).length :=
  ⟨_, seek_units (literalStep_ascii multiline ascii) front enough,
    literal_stop ascii multiline front text (by rw [bytesBefore_inside (literalStep_le text)])⟩

end Closings

section Stripping

variable {src out chunk : List Char} {allow : Bool} {fuel index closed stop copied : Nat} {c c2 : Char}

theorem inside_of_getElem? {text : List Char} (found : text[index]? = some c) : index < text.length :=
  (List.getElem?_eq_some_iff.mp found).1

theorem stripCStyleFrom_block (found : (units src)[index]? = some '/') (second : (units src)[index + 1]? = some '*')
    (seeks : seek blockStep (units src) ((units src).length + 1) () (index + 2) = some closed)
    (stops : (if closed < (units src).length then closed + 2 else closed) = stop) :
    stripCStyleFrom src allow (fuel + 1) index copied out =
      (blankInto src out copied index stop).bind fun (out, copied) =>
        stripCStyleFrom src allow fuel stop copied out := by
  rw [stripCStyleFrom, if_pos (inside_of_getElem? found), found, second]
  simp [seeks, stops]

theorem stripCStyleFrom_line (found : (units src)[index]? = some '/') (second : (units src)[index + 1]? = some '/')
    (seeks : seek lineStep (units src) ((units src).length + 1) () index = some stop) :
    stripCStyleFrom src allow (fuel + 1) index copied out =
      (blankInto src out copied index stop).bind fun (out, copied) =>
        stripCStyleFrom src allow fuel stop copied out := by
  rw [stripCStyleFrom, if_pos (inside_of_getElem? found), found, second]
  simp [seeks]

theorem stripCStyleFrom_literal (found : (units src)[index]? = some c) (literal : c = '"' ∨ allow ∧ c = '\'' ∨ c = '`')
    (seeks : seek (literalStep c (c = '`')) (units src) ((units src).length + 1) () (index + 1) = some closed)
    (stops : (if closed < (units src).length ∧ (units src)[closed]? = some c then closed + 1 else closed) = stop) :
    stripCStyleFrom src allow (fuel + 1) index copied out = stripCStyleFrom src allow fuel stop copied out := by
  have code : c ≠ '/' := by rcases literal with rfl | ⟨-, rfl⟩ | rfl <;> decide
  rw [stripCStyleFrom, if_pos (inside_of_getElem? found), found]
  simp [code, literal, seeks, stops]

/-- A byte that opens nothing is passed over. -/
theorem stripCStyleFrom_code (found : (units src)[index]? = some c)
    (block : ¬ (c = '/' ∧ (units src)[index + 1]? = some '*')) (line : ¬ (c = '/' ∧ (units src)[index + 1]? = some '/'))
    (literal : ¬ (c = '"' ∨ allow ∧ c = '\'' ∨ c = '`')) :
    stripCStyleFrom src allow (fuel + 1) index copied out = stripCStyleFrom src allow fuel (index + 1) copied out := by
  have second {mark : Char} (solid : mark ≠ '\x00') (other : ¬ (c = '/' ∧ (units src)[index + 1]? = some mark)) :
      ¬ (c = '/' ∧ (units src)[index + 1]?.getD '\x00' = mark) := by
    rintro ⟨slash, same⟩
    cases next : (units src)[index + 1]? with
    | none => exact solid (by simpa [next] using same.symm)
    | some d => exact other ⟨slash, by simpa [next] using same⟩
  rw [stripCStyleFrom, if_pos (inside_of_getElem? found), found]
  simp only [Option.bind_eq_bind, Option.bind_some]
  rw [if_neg (second (by decide) block), if_neg (second (by decide) line), if_neg literal]

/-- A loop that takes the bytes of wide characters for code skips them. -/
theorem skips_wide {α : Type} {bytes front wide rest : List Char} {loop : Nat → Nat → α}
    (steps : ∀ fuel index c, bytes[index]? = some c → 128 ≤ c.toNat → loop (fuel + 1) index = loop fuel (index + 1))
    (all : ∀ c ∈ wide, 128 ≤ c.toNat) (whole : bytes = front ++ (wide ++ rest)) :
    loop (fuel + wide.length) front.length = loop fuel (front.length + wide.length) := by
  induction wide generalizing front with
  | nil => rfl
  | cons c wide ih =>
    have skip := @ih (front ++ [c]) (fun d member => all d (mem_cons_of_mem _ member)) (by simp [whole])
    have found : bytes[front.length]? = some c := by
      rw [whole]
      simp
    rw [length_append, length_singleton] at skip
    rw [length_cons, ← Nat.add_assoc, steps _ _ _ found (all c mem_cons_self), skip, Nat.add_assoc,
      Nat.add_comm 1]

theorem stripCStyleFrom_wide (found : (units src)[index]? = some c) (large : 128 ≤ c.toNat) :
    stripCStyleFrom src allow (fuel + 1) index copied out = stripCStyleFrom src allow fuel (index + 1) copied out := by
  have other {mark : Char} (small : mark.toNat < 128) : c ≠ mark := by
    rintro rfl
    exact absurd small (Nat.not_lt_of_le large)
  exact stripCStyleFrom_code found (fun opens => other (by decide) opens.1) (fun opens => other (by decide) opens.1)
    (by simp [other])

/-- Blanking a chunk copies what lies before it. -/
theorem blankInto_units (front middle chunk rest : List Char) (whole : src = front ++ (middle ++ (chunk ++ rest))) :
    blankInto src out (units front).length (units (front ++ middle)).length (units (front ++ middle ++ chunk)).length =
      some (out ++ middle ++ blank chunk, (units (front ++ middle ++ chunk)).length) := by
  have before : slice src (units front).length (units (front ++ middle)).length = some middle := by
    rw [whole, units_append, length_append]
    exact slice_units front middle (chunk ++ rest)
  have blanked : slice src (units (front ++ middle)).length (units (front ++ middle ++ chunk)).length = some chunk := by
    rw [whole, units_append (front ++ middle), length_append, ← append_assoc]
    exact slice_units (front ++ middle) chunk rest
  simp only [blankInto, before, blanked, Option.bind_eq_bind, Option.bind_some]
  rfl

/-- The rest of a text that starts with one more piece is read with the fuel that is left. -/
theorem enough_after {fuel count : Nat} {c : Char} {rest : List Char} (ascii : c.toNat < 128)
    (enough : (units (c :: rest)).length < fuel + 1) : (units (rest.drop count)).length < fuel := by
  rw [units_cons, unitsOf_ascii ascii, singleton_append, length_cons, units_take_drop rest count,
    length_append] at enough
  omega

/-- From the place of a character on, the bytes are stripped as the characters are. The middle is still to be copied. -/
def StripsFrom (src : List Char) (allow : Bool) (fuel : Nat) (front middle rest : List Char) : Prop :=
  ∀ out, stripCStyleFrom src allow fuel (units (front ++ middle)).length (units front).length out =
    some (out ++ middle ++ scan (cStyleReader allow) () rest)

/-- The loop stands at an ASCII character. -/
structure StandsAt (src front middle : List Char) (c : Char) (rest : List Char) : Prop where
  whole : src = front ++ (middle ++ c :: rest)
  ascii : c.toNat < 128

variable {front middle rest : List Char} {count : Nat}

theorem StandsAt.bytes (stands : StandsAt src front middle c rest) :
    units src = units (front ++ middle) ++ c :: units rest := by
  rw [stands.whole, ← append_assoc, units_append, units_cons, unitsOf_ascii stands.ascii, singleton_append]

theorem StandsAt.found (stands : StandsAt src front middle c rest) :
    (units src)[(units (front ++ middle)).length]? = some c := by
  rw [stands.bytes]
  simp

section

variable (stands : StandsAt src front middle c rest)
include stands

theorem StandsAt.second : (units src)[(units (front ++ middle)).length + 1]? = (units rest).head? := by
  rw [stands.bytes, getElem?_append_right (by omega), head?_eq_getElem?]
  simp

theorem StandsAt.second_iff {mark : Char} (ascii : mark.toNat < 128) :
    (units src)[(units (front ++ middle)).length + 1]? = some mark ↔ rest.head? = some mark := by
  rw [stands.second, head?_units_iff ascii]

theorem StandsAt.cut (count : Nat) : src = front ++ (middle ++ ((c :: rest.take count) ++ rest.drop count)) := by
  rw [stands.whole, ← cons_split]

/-- A comment at a character is blanked, and the scan goes on behind it. -/
theorem StandsAt.blanks (reads : cStyleReader allow () c rest = .blanked count c rest ())
    (later : ∀ front middle, src = front ++ (middle ++ rest.drop count) →
      StripsFrom src allow fuel front middle (rest.drop count))
    (steps : ∀ out, stripCStyleFrom src allow (fuel + 1) (units (front ++ middle)).length (units front).length out =
      (blankInto src out (units front).length (units (front ++ middle)).length
        (units (front ++ middle ++ (c :: rest.take count))).length).bind fun (out, copied) =>
          stripCStyleFrom src allow fuel (units (front ++ middle ++ (c :: rest.take count))).length copied out) :
    StripsFrom src allow (fuel + 1) front middle (c :: rest) := by
  intro out
  have goes := later (front ++ middle ++ (c :: rest.take count)) [] (by simpa using stands.cut count)
    (out ++ middle ++ blank (c :: rest.take count))
  rw [steps, blankInto_units front middle _ _ (stands.cut count), scan_cons, reads]
  simpa [Piece.blanked] using goes

theorem StandsAt.keeps (reads : cStyleReader allow () c rest = .keep count c rest ())
    (later : ∀ front middle, src = front ++ (middle ++ rest.drop count) →
      StripsFrom src allow fuel front middle (rest.drop count))
    (steps : ∀ out, stripCStyleFrom src allow (fuel + 1) (units (front ++ middle)).length (units front).length out =
      stripCStyleFrom src allow fuel (units (front ++ (middle ++ (c :: rest.take count)))).length
        (units front).length out) : StripsFrom src allow (fuel + 1) front middle (c :: rest) := by
  intro out
  have goes := later front (middle ++ (c :: rest.take count)) (by simpa using stands.cut count) out
  rw [steps, scan_cons, reads]
  simpa [Piece.keep] using goes

theorem StandsAt.longer : (units rest).length + 1 < (units src).length + 1 := by
  rw [stands.bytes, length_append, length_cons]
  omega

/-- One turn of the loop at an ASCII character reads one piece. -/
theorem StandsAt.strips (later : ∀ count front middle, src = front ++ (middle ++ rest.drop count) →
      StripsFrom src allow fuel front middle (rest.drop count)) :
    StripsFrom src allow (fuel + 1) front middle (c :: rest) := by
  have found := stands.found
  have enough := stands.longer
  by_cases block : c = '/' ∧ rest.head? = some '*'
  · obtain ⟨rfl, star⟩ := block
    obtain ⟨tail, rfl⟩ := head?_eq_some_iff.mp star
    refine stands.blanks (if_pos ⟨rfl, rfl⟩) (later _) fun out => ?_
    have bytes : units src = (units (front ++ middle) ++ ['/', '*']) ++ units tail := by
      rw [stands.bytes, units_cons, unitsOf_ascii (by decide : '*'.toNat < 128)]
      simp
    have inside : (units tail).length < (units src).length + 1 := by
      rw [bytes, length_append]
      omega
    obtain ⟨closed, seeks, stops⟩ := seek_block (units (front ++ middle) ++ ['/', '*']) inside
    rw [← bytes, length_append] at seeks stops
    refine stripCStyleFrom_block found ((stands.second_iff (by decide)).mpr rfl) seeks (stops.trans ?_)
    rw [tail_cons, Nat.add_comm 1, take_succ_cons, units_append (front ++ middle), units_cons, units_cons,
      unitsOf_ascii (by decide : '/'.toNat < 128), unitsOf_ascii (by decide : '*'.toNat < 128)]
    simp only [length_append, length_cons, length_nil]
    omega
  by_cases line : c = '/' ∧ rest.head? = some '/'
  · refine stands.blanks ((if_neg block).trans (if_pos line)) (later _) fun out => ?_
    obtain ⟨rfl, slash⟩ := line
    have bytes : units src = units (front ++ middle) ++ units ('/' :: rest) := by
      rw [stands.bytes, units_cons, unitsOf_ascii (by decide : '/'.toNat < 128)]
      rfl
    have inside : (units ('/' :: rest)).length < (units src).length + 1 := by
      rw [bytes, length_append]
      omega
    have seeks := seek_line (units (front ++ middle)) inside
    have length : lineLength ('/' :: rest) = lineLength rest + 1 := advance_cons lineStep () '/' rest
    rw [← bytes, length, take_succ_cons, ← length_append, ← units_append] at seeks
    exact stripCStyleFrom_line found ((stands.second_iff (by decide)).mpr slash) seeks
  by_cases literal : c = '"' ∨ allow ∧ c = '\'' ∨ c = '`'
  · refine stands.keeps ((if_neg block).trans ((if_neg line).trans (if_pos literal))) (later _) fun out => ?_
    have bytes : units src = (units (front ++ middle) ++ [c]) ++ units rest := by
      rw [stands.bytes]
      simp
    obtain ⟨closed, seeks, stops⟩ := seek_literal stands.ascii (c = '`') (units (front ++ middle) ++ [c])
      (Nat.lt_of_succ_lt enough)
    rw [← bytes, length_append] at seeks stops
    refine stripCStyleFrom_literal found literal seeks (stops.trans ?_)
    rw [← append_assoc, units_append (front ++ middle), units_cons, unitsOf_ascii stands.ascii]
    simp only [length_append, length_cons, length_nil]
    omega
  · refine stands.keeps ((if_neg block).trans ((if_neg line).trans (if_neg literal))) (later 0) fun out => ?_
    rw [stripCStyleFrom_code found (by rwa [stands.second_iff (by decide)])
      (by rwa [stands.second_iff (by decide)]) literal,
      ← append_assoc, units_append (front ++ middle), take_zero, units_cons, unitsOf_ascii stands.ascii]
    simp [Nat.add_assoc]

end

/-- Any other character is skipped byte by byte. -/
theorem StripsFrom.wide (wide : 128 ≤ c.toNat) (whole : src = front ++ (middle ++ c :: rest))
    (later : StripsFrom src allow fuel front (middle ++ [c]) rest) :
    StripsFrom src allow (fuel + (unitsOf c).length) front middle (c :: rest) := by
  intro out
  have bytes : units src = units (front ++ middle) ++ (unitsOf c ++ units rest) := by
    rw [whole, ← append_assoc, units_append, units_cons]
  have other {mark : Char} (ascii : mark.toNat < 128) : c ≠ mark := by
    rintro rfl
    exact absurd ascii (Nat.not_lt_of_le wide)
  have code : cStyleReader allow () c rest = .keep 0 c rest () := by simp [cStyleReader, other]
  have goes := later out
  rw [@skips_wide _ _ _ _ _ _ (fun fuel index => stripCStyleFrom src allow fuel index _ out)
    (fun _ _ _ => stripCStyleFrom_wide) (fun d member => unitsOf_wide wide member) bytes, scan_cons, code]
  simpa [Piece.keep, Nat.add_assoc] using goes

/-- A loop over bytes gets through a text that it gets through character by character. The last text is still to be
read. -/
theorem byteLoop_all {src : List Char} {reads : Nat → List Char → List Char → List Char → Prop}
    (ends : ∀ fuel front middle, src = front ++ middle → reads (fuel + 1) front middle [])
    (ascii : ∀ fuel front middle c rest, StandsAt src front middle c rest →
      (∀ count front middle, src = front ++ (middle ++ rest.drop count) → reads fuel front middle (rest.drop count)) →
      reads (fuel + 1) front middle (c :: rest))
    (wide : ∀ fuel front middle c rest, 128 ≤ c.toNat → src = front ++ (middle ++ c :: rest) →
      reads fuel front (middle ++ [c]) rest → reads (fuel + (unitsOf c).length) front middle (c :: rest))
    (front middle rest : List Char) (whole : src = front ++ (middle ++ rest)) (enough : (units rest).length < fuel) :
    reads fuel front middle rest := by
  induction length : rest.length using Nat.strongRecOn generalizing front middle rest fuel with
  | ind size ih =>
    cases rest with
    | nil =>
      obtain ⟨fuel, rfl⟩ := Nat.exists_eq_add_one_of_ne_zero (Nat.ne_of_gt (Nat.zero_lt_of_lt enough))
      exact ends fuel front middle (by rw [whole, append_nil])
    | cons c rest =>
      have shorter (count : Nat) : (rest.drop count).length < size := length ▸ drop_shorter rest count
      by_cases small : c.toNat < 128
      · obtain ⟨fuel, rfl⟩ := Nat.exists_eq_add_one_of_ne_zero (Nat.ne_of_gt (Nat.zero_lt_of_lt enough))
        exact ascii _ _ _ _ _ ⟨whole, small⟩ fun count front middle whole =>
          ih _ (shorter count) _ _ _ whole (enough_after small enough) rfl
      · rw [units_cons, length_append] at enough
        obtain ⟨less, rfl⟩ : ∃ less, fuel = less + (unitsOf c).length := ⟨fuel - (unitsOf c).length, by omega⟩
        exact wide _ _ _ _ _ (Nat.le_of_not_lt small) whole
          (ih _ (shorter 0) _ _ _ (by simp [whole]) (by omega) rfl)

theorem slice_to_end (whole : src = front ++ middle) :
    slice src (units front).length (units (front ++ middle)).length = some middle := by
  rw [whole, units_append, length_append]
  simpa using slice_units front middle []

theorem StripsFrom.ends (whole : src = front ++ middle) : StripsFrom src allow (fuel + 1) front middle [] := by
  intro out
  rw [← whole, stripCStyleFrom, if_neg (Nat.lt_irrefl _)]
  have tail := slice_to_end whole
  rw [← whole] at tail
  simp [tail]

/-- The byte version strips what the character version strips. -/
theorem stripCStyle_eq (src : List Char) (allow : Bool) : stripCStyle src allow = some (stripCStyleChars src allow) :=
  @byteLoop_all _ src (StripsFrom src allow) (fun _ _ _ => .ends) (fun _ _ _ _ _ => StandsAt.strips)
    (fun _ _ _ _ _ => .wide) [] [] src rfl (Nat.lt_succ_self _) []

end Stripping

end Codegraph.Resolve.StripComments
