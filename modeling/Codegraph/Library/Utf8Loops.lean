import Codegraph.Library.Scanning
import Codegraph.Library.SeparatedText
import Codegraph.Library.Utf8

/- This file runs loops over the UTF-8 bytes of a text that look only for ASCII marks, and cuts a text at its bytes. -/

namespace Utf8
open Scanning List

/-- The bytes of a text, each as the character of its number. -/
def units (text : List Char) : List Char := (bytes text).map Char.ofUInt8

/-- The bytes of one character. -/
def unitsOf (c : Char) : List Char := (String.utf8EncodeChar c).map Char.ofUInt8

@[simp] theorem units_nil : units [] = [] := rfl

@[simp] theorem units_cons (c : Char) (text : List Char) : units (c :: text) = unitsOf c ++ units text := by
  simp [units, unitsOf]

@[simp] theorem units_append (first second : List Char) : units (first ++ second) = units first ++ units second := by
  simp [units]

@[simp] theorem length_unitsOf (c : Char) : (unitsOf c).length = c.utf8Size := by simp [unitsOf]

theorem toNat_ofUInt8 (x : Nat) : (Char.ofUInt8 (UInt8.ofNat x)).toNat = x % 256 := by
  show (UInt8.ofNat x).toUInt32.toNat = x % 256
  rw [UInt8.toNat_toUInt32, UInt8.toNat_ofNat']

/-- An ASCII character is its own byte. -/
theorem unitsOf_ascii {c : Char} (ascii : c.toNat < 128) : unitsOf c = [c] := by
  have small : c.val.toNat ≤ 127 := Nat.le_of_lt_succ ascii
  rw [unitsOf, String.utf8EncodeChar, if_pos small, map_singleton]
  have same : (Char.ofUInt8 (UInt8.ofNat c.val.toNat)).toNat = c.toNat := by
    rw [toNat_ofUInt8]
    exact Nat.mod_eq_of_lt (Nat.lt_trans ascii (by decide))
  rw [Char.toNat_inj.mp same]

/-- The bytes of any other character are no ASCII characters. -/
theorem unitsOf_wide {c d : Char} (wide : 128 ≤ c.toNat) (member : d ∈ unitsOf c) : 128 ≤ d.toNat := by
  have large : ¬ c.val.toNat ≤ 127 := Nat.not_le_of_lt wide
  rw [unitsOf, String.utf8EncodeChar, if_neg large] at member
  generalize c.val.toNat = v at member
  split_ifs at member <;>
    simp only [map_cons, map_nil, mem_cons, not_mem_nil, or_false] at member
  · rcases member with rfl | rfl <;> rw [toNat_ofUInt8] <;> omega
  · rcases member with rfl | rfl | rfl <;> rw [toNat_ofUInt8] <;> omega
  · rcases member with rfl | rfl | rfl | rfl <;> rw [toNat_ofUInt8] <;> omega

theorem unitsOf_ne_nil (c : Char) : unitsOf c ≠ [] := by simp [unitsOf, String.utf8EncodeChar_ne_nil]

section Seeking

variable {σ : Type*} (step : σ → Char → Option Char → Advance σ) (bytes : List Char)

/-- The index at which a loop over bytes stops. A loop that runs out of fuel has no result. -/
def seek : Nat → σ → Nat → Option Nat
  | 0, _, _ => none
  | fuel + 1, state, index =>
    if index < bytes.length then do
      let byte ← bytes[index]?
      match step state byte bytes[index + 1]? with
      | .stop => some index
      | .one next => seek fuel next (index + 1)
      | .two next => seek fuel next (index + 2)
    else some index

/-- A loop that looks only for ASCII marks goes over all others one by one. -/
structure LooksForAscii : Prop where
  wide : ∀ state c next, 128 ≤ c.toNat → step state c next = .one state
  next : ∀ state c d e, 128 ≤ d.toNat → 128 ≤ e.toNat → step state c (some d) = step state c (some e)

variable {step} {bytes} {front wide rest text : List Char} {state : σ} {fuel index : Nat} {c : Char}

theorem seek_end (outside : ¬ index < bytes.length) : seek step bytes (fuel + 1) state index = some index := by
  rw [seek, if_neg outside]

theorem seek_cons (front : List Char) (c : Char) (rest : List Char) :
    seek step (front ++ c :: rest) (fuel + 1) state front.length = match step state c rest.head? with
      | .stop => some front.length
      | .one next => seek step (front ++ c :: rest) fuel next (front.length + 1)
      | .two next => seek step (front ++ c :: rest) fuel next (front.length + 2) := by
  have next : (front ++ c :: rest)[front.length + 1]? = rest.head? := by
    rw [getElem?_append_right (by omega), head?_eq_getElem?]
    simp
  rw [seek, if_pos (by simp), next]
  simp

/-- The bytes of wide characters are gone over one by one. -/
theorem seek_wide (ascii : LooksForAscii step) (all : ∀ c ∈ wide, 128 ≤ c.toNat) (front rest : List Char) :
    seek step (front ++ (wide ++ rest)) (fuel + wide.length) state front.length =
      seek step (front ++ (wide ++ rest)) fuel state (front.length + wide.length) := by
  induction wide generalizing front with
  | nil => rfl
  | cons c wide ih =>
    have skip := ih (fun d member => all d (mem_cons_of_mem _ member)) (front ++ [c])
    rw [append_assoc, singleton_append, length_append, length_singleton] at skip
    rw [length_cons, ← Nat.add_assoc, cons_append, seek_cons, ascii.wide _ _ _ (all c mem_cons_self)]
    rw [show front.length + (wide.length + 1) = front.length + 1 + wide.length by omega]
    exact skip

/-- The number of bytes behind which a loop over characters stops. -/
def bytesBefore (text : List Char) (count : Nat) : Nat := (units (text.take count)).length + (count - text.length)

@[simp] theorem bytesBefore_zero (text : List Char) : bytesBefore text 0 = 0 := by simp [bytesBefore]

theorem bytesBefore_cons (c : Char) (text : List Char) (count : Nat) :
    bytesBefore (c :: text) (count + 1) = (unitsOf c).length + bytesBefore text count := by
  simp only [bytesBefore, take_succ_cons, units_cons, length_append, length_cons]
  omega

/-- The next byte is as good as the next character for a loop that looks for ASCII marks. -/
theorem step_head (ascii : LooksForAscii step) (state : σ) (c : Char) (text : List Char) :
    step state c (units text).head? = step state c text.head? := by
  cases text with
  | nil => rfl
  | cons d text =>
    by_cases small : d.toNat < 128
    · rw [units_cons, unitsOf_ascii small]
      rfl
    · obtain ⟨e, later, same⟩ := exists_cons_of_ne_nil (unitsOf_ne_nil d)
      have wide := unitsOf_wide (Nat.le_of_not_lt small) (same ▸ mem_cons_self)
      rw [units_cons, same]
      exact ascii.next state c e d wide (Nat.le_of_not_lt small)

/-- The bytes behind the first one of a character are no ASCII characters. -/
theorem unitsOf_split (c : Char) : ∃ first later, unitsOf c = first :: later ∧ ∀ d ∈ later, 128 ≤ d.toNat := by
  by_cases small : c.toNat < 128
  · exact ⟨c, [], unitsOf_ascii small, by simp⟩
  · obtain ⟨first, later, same⟩ := exists_cons_of_ne_nil (unitsOf_ne_nil c)
    exact ⟨first, later, same,
      fun d member => unitsOf_wide (Nat.le_of_not_lt small) (same ▸ mem_cons_of_mem _ member)⟩

/-- A loop over the bytes stops where the loop over the characters does. -/
theorem seek_units (ascii : LooksForAscii step) (front : List Char) (enough : (units text).length < fuel) :
    seek step (front ++ units text) fuel state front.length =
      some (front.length + bytesBefore text (advance step state text)) := by
  induction size : text.length using Nat.strongRecOn generalizing text front state fuel with
  | ind size ih =>
    cases text with
    | nil =>
      obtain ⟨fuel, rfl⟩ := Nat.exists_eq_add_one_of_ne_zero (Nat.ne_of_gt enough)
      rw [seek_end (by simp)]
      rfl
    | cons c rest =>
      have later (front : List Char) (state : σ) (fuel : Nat) (enough : (units rest).length < fuel) :
          seek step (front ++ units rest) fuel state front.length =
            some (front.length + bytesBefore rest (advance step state rest)) :=
        ih rest.length (by simp [← size]) front enough rfl
      rw [units_cons] at enough ⊢
      rw [advance_cons]
      by_cases small : c.toNat < 128
      · rw [unitsOf_ascii small, singleton_append] at enough ⊢
        obtain ⟨fuel, rfl⟩ := Nat.exists_eq_add_one_of_ne_zero (Nat.ne_of_gt (Nat.zero_lt_of_lt enough))
        rw [length_cons] at enough
        rw [seek_cons, step_head ascii]
        cases step state c rest.head? with
        | stop => simp
        | one next =>
          have goes := later (front ++ [c]) next _ (Nat.lt_of_succ_lt_succ enough)
          rw [append_assoc, singleton_append, length_append, length_singleton] at goes
          dsimp only
          rw [goes, bytesBefore_cons, unitsOf_ascii small, length_singleton, Nat.add_assoc]
        | two next =>
          dsimp only
          cases rest with
          | nil =>
            obtain ⟨fuel, rfl⟩ :=
              Nat.exists_eq_add_one_of_ne_zero (Nat.ne_of_gt (Nat.lt_of_succ_lt_succ enough))
            rw [units_nil, seek_end (by simp), bytesBefore_cons, unitsOf_ascii small]
            rfl
          | cons d rest =>
            obtain ⟨first, after, split, wide⟩ := unitsOf_split d
            rw [units_cons, split, length_append, length_cons] at enough
            obtain ⟨less, rfl⟩ : ∃ less, fuel = less + after.length := ⟨fuel - after.length, by omega⟩
            have skip : seek step _ (less + after.length) next _ = seek step _ less next _ :=
              seek_wide ascii wide (front ++ [c, first]) (units rest)
            have goes : seek step (_ ++ units rest) less next _ = _ :=
              ih rest.length (by simp only [← size, length_cons]; omega) (front ++ c :: first :: after)
                (by omega) rfl
            simp only [append_assoc, cons_append, nil_append, length_append,
              length_cons, length_nil] at skip goes
            have behind : front.length + (0 + 1 + 1) + after.length = front.length +
              (after.length + 1 + 1) := by omega
            rw [units_cons, split, cons_append, tail_cons, bytesBefore_cons, bytesBefore_cons,
              unitsOf_ascii small, split]
            refine skip.trans ?_
            rw [behind, goes]
            simp only [length_cons, length_nil, Option.some.injEq]
            omega
      · have wide : ∀ d ∈ unitsOf c, 128 ≤ d.toNat := fun d member => unitsOf_wide (Nat.le_of_not_lt small) member
        rw [length_append] at enough
        obtain ⟨less, rfl⟩ : ∃ less, fuel = less + (unitsOf c).length := ⟨fuel - (unitsOf c).length, by omega⟩
        have goes := later (front ++ unitsOf c) state less (by omega)
        rw [append_assoc, length_append] at goes
        rw [seek_wide ascii wide, goes, ascii.wide _ _ _ (Nat.le_of_not_lt small), bytesBefore_cons, Nat.add_assoc]

end Seeking

section Places

variable {front text : List Char} {mark : Char} {count : Nat} {needle : List Char}

/-- An ASCII mark is the next byte exactly when it is the next character. -/
theorem head?_units_iff (ascii : mark.toNat < 128) : (units text).head? = some mark ↔ text.head? = some mark := by
  cases text with
  | nil => rfl
  | cons c text =>
    by_cases small : c.toNat < 128
    · rw [units_cons, unitsOf_ascii small]
      rfl
    · obtain ⟨first, later, same⟩ := exists_cons_of_ne_nil (unitsOf_ne_nil c)
      have wide := unitsOf_wide (Nat.le_of_not_lt small) (same ▸ mem_cons_self)
      rw [units_cons, same]
      refine iff_of_false (fun found => ?_) fun found => ?_
      · obtain rfl := Option.some.inj found
        exact absurd ascii (Nat.not_lt_of_le wide)
      · obtain rfl := Option.some.inj found
        exact small ascii

/-- An ASCII text is read off the front of the bytes exactly when it is read off the front of the text. -/
theorem prefix_of_units (ascii : ∀ c ∈ needle, c.toNat < 128) (starts : needle <+: units text) : needle <+: text := by
  induction needle generalizing text with
  | nil => exact nil_prefix
  | cons c needle ih =>
    obtain ⟨small, later⟩ := forall_mem_cons.mp ascii
    obtain ⟨rest, shape⟩ := starts
    have first : (units text).head? = some c := by rw [← shape]; rfl
    obtain ⟨tail, rfl⟩ := head?_eq_some_iff.mp ((head?_units_iff small).mp first)
    rw [units_cons, unitsOf_ascii small, singleton_append, cons_append, cons.injEq] at shape
    exact cons_prefix_cons.mpr ⟨rfl, ih later ⟨rest, shape.2⟩⟩

/-- An ASCII text stands inside the bytes only where it stands inside the text. -/
theorem infix_of_units (ascii : ∀ c ∈ needle, c.toNat < 128) (inside : needle <:+: units text) : needle <:+: text := by
  induction text with
  | nil => exact inside
  | cons c text ih =>
    cases needle with
    | nil => exact nil_infix
    | cons mark needle =>
      have small := ascii mark mem_cons_self
      by_cases wide : c.toNat < 128
      · rw [units_cons, unitsOf_ascii wide, singleton_append, infix_cons_iff] at inside
        rcases inside with starts | later
        · have whole : mark :: needle <+: units (c :: text) := by
            rw [units_cons, unitsOf_ascii wide]
            exact starts
          exact (prefix_of_units ascii whole).isInfix
        · exact infix_cons_iff.mpr (.inr (ih later))
      · have free : mark ∉ unitsOf c :=
          fun member => absurd small (Nat.not_lt_of_le (unitsOf_wide (Nat.le_of_not_lt wide) member))
        rw [units_cons, SeparatedText.enclosed_skip free] at inside
        exact infix_cons_iff.mpr (.inr (ih inside))

theorem ascii_of_all (small : needle.all (fun c => c.toNat < 128) = true) : ∀ c ∈ needle, c.toNat < 128 := by
  intro c member
  exact of_decide_eq_true (all_eq_true.mp small c member)

/-- An ASCII text occurs in the bytes exactly where it occurs in the text. -/
theorem bytes_infix_iff (ascii : ∀ c ∈ needle, c.toNat < 128) : bytes needle <:+: bytes text ↔ needle <:+: text := by
  constructor
  · intro inside
    have spelled : units needle = needle := by
      induction needle with
      | nil => rfl
      | cons c needle ih =>
        obtain ⟨small, later⟩ := forall_mem_cons.mp ascii
        have behind : bytes needle <:+: bytes text := by
          rw [bytes_cons] at inside
          exact (suffix_append _ _).isInfix.trans inside
        rw [units_cons, unitsOf_ascii small, ih later behind, singleton_append]
    have mapped : units needle <:+: units text := inside.map Char.ofUInt8
    rw [spelled] at mapped
    exact infix_of_units ascii mapped
  · rintro ⟨front, back, rfl⟩
    exact ⟨bytes front, bytes back, by simp⟩

theorem bytesBefore_inside (inside : count ≤ text.length) :
    bytesBefore text count = (units (text.take count)).length := by
  simp [bytesBefore, inside]

theorem units_take_drop (text : List Char) (count : Nat) :
    units text = units (text.take count) ++ units (text.drop count) := by
  rw [← units_append, take_append_drop]

/-- The byte at the place of a character is the first one of the character. -/
theorem getElem?_units (front : List Char) (text : List Char) (count : Nat) :
    (front ++ units text)[front.length + (units (text.take count)).length]? = (units (text.drop count)).head? := by
  rw [units_take_drop text count, ← append_assoc, getElem?_append_right (by simp), head?_eq_getElem?]
  simp

theorem units_eq_nil : units text = [] ↔ text = [] := by
  cases text with
  | nil => simp
  | cons c text => simp [unitsOf_ne_nil]

theorem bytes_inside (front : List Char) (text : List Char) (count : Nat) :
    front.length + (units (text.take count)).length < (front ++ units text).length ↔ count < text.length := by
  have behind : (units (text.drop count)).length = 0 ↔ text.length ≤ count := by
    rw [length_eq_zero_iff, units_eq_nil, drop_eq_nil_iff]
  rw [units_take_drop text count, length_append, length_append]
  omega

/-- An ASCII mark stands where a loop over the bytes stops exactly when it stands where the loop over characters does.
-/
theorem getElem?_bytesBefore (ascii : mark.toNat < 128) (front : List Char) (text : List Char) (count : Nat) :
    (front ++ units text)[front.length + bytesBefore text count]? = some mark ↔ text[count]? = some mark := by
  rcases Nat.le_total count text.length with inside | outside
  · rw [bytesBefore_inside inside, getElem?_units, head?_units_iff ascii, head?_drop]
  · have behind : (units text).length ≤ bytesBefore text count := by
      rw [bytesBefore, take_of_length_le outside]
      omega
    rw [getElem?_eq_none outside, getElem?_eq_none (by rw [length_append]; omega)]

end Places

section Slices

/-- The text behind a number of bytes, unless that is past the end or inside of a character. -/
def sliceFrom : List Char → Nat → Option (List Char)
  | text, 0 => some text
  | [], _ + 1 => none
  | c :: rest, offset + 1 => if c.utf8Size ≤ offset + 1 then sliceFrom rest (offset + 1 - c.utf8Size) else none

/-- The text of the first bytes, unless they end past the end or inside of a character. -/
def sliceTo : List Char → Nat → Option (List Char)
  | _, 0 => some []
  | [], _ + 1 => none
  | c :: rest, offset + 1 =>
    if c.utf8Size ≤ offset + 1 then (sliceTo rest (offset + 1 - c.utf8Size)).map (c :: ·) else none

def slice (text : List Char) (start stop : Nat) : Option (List Char) :=
  if start ≤ stop then (sliceFrom text start).bind fun rest => sliceTo rest (stop - start) else none

theorem sliceFrom_units (front rest : List Char) : sliceFrom (front ++ rest) (units front).length = some rest := by
  induction front with
  | nil =>
    cases rest <;> rfl
  | cons c front ih =>
    have positive := c.utf8Size_pos
    rw [units_cons, length_append, length_unitsOf]
    obtain ⟨size, same⟩ : ∃ size, c.utf8Size + (units front).length = size + 1 :=
      ⟨c.utf8Size - 1 + (units front).length, by omega⟩
    rw [same, cons_append, sliceFrom, if_pos (by omega), ← same, Nat.add_sub_cancel_left, ih]

theorem sliceTo_units (chunk rest : List Char) : sliceTo (chunk ++ rest) (units chunk).length = some chunk := by
  induction chunk with
  | nil =>
    cases rest <;> rfl
  | cons c chunk ih =>
    have positive := c.utf8Size_pos
    rw [units_cons, length_append, length_unitsOf]
    obtain ⟨size, same⟩ : ∃ size, c.utf8Size + (units chunk).length = size + 1 :=
      ⟨c.utf8Size - 1 + (units chunk).length, by omega⟩
    rw [same, cons_append, sliceTo, if_pos (by omega), ← same, Nat.add_sub_cancel_left, ih]
    rfl

/-- A slice between the places of two characters is the text between them. -/
theorem slice_units (front chunk rest : List Char) : slice (front ++ (chunk ++ rest))
    (units front).length ((units front).length + (units chunk).length) = some chunk := by
  rw [slice, if_pos (Nat.le_add_right ..), sliceFrom_units, Option.bind_some, Nat.add_sub_cancel_left, sliceTo_units]

end Slices

end Utf8
