import Codegraph.Library.Utf8Loops

/- This file replaces bytes of a text in place, and shows when the bytes stay those of a text. -/

namespace Utf8
open List

/-- The text of some bytes, unless they are not valid. -/
def fromUtf8 (bytes : List Char) : Option (List Char) :=
  ((bytes.map fun byte => UInt8.ofNat byte.toNat).toByteArray.utf8Decode?).map Array.toList

theorem ofNat_toNat_ofUInt8 (byte : UInt8) : UInt8.ofNat (Char.ofUInt8 byte).toNat = byte := by
  rw [← UInt8.toNat_inj, UInt8.toNat_ofNat']
  show byte.toUInt32.toNat % 256 = byte.toNat
  rw [UInt8.toNat_toUInt32]
  exact Nat.mod_eq_of_lt byte.toNat_lt

@[simp] theorem fromUtf8_units (text : List Char) : fromUtf8 (units text) = some text := by
  have back : (units text).map (fun byte => UInt8.ofNat byte.toNat) = bytes text := by
    rw [units, map_map]
    exact map_id'' ofNat_toNat_ofUInt8 _
  have decoded : (bytes text).toByteArray.utf8Decode? = some text.toArray := utf8Decode?_utf8Encode
  rw [fromUtf8, back, decoded]
  simp

end Utf8

namespace Repainting
open Utf8

def isBreak (byte : Char) : Bool := byte = '\n' || byte = '\r'

section Bytes

variable {Allowed Wider : Nat → Char → Prop} {bytes painted repainted more morePainted : List Char} {i offset : Nat}

/-- Some bytes with others in their places. No line break is replaced. -/
structure Repaints (Allowed : Nat → Char → Prop) (bytes painted : List Char) : Prop where
  length_eq : painted.length = bytes.length
  replaced : ∀ {i b c}, bytes[i]? = some b → painted[i]? = some c → c ≠ b → isBreak b = false ∧ Allowed i c

theorem Repaints.refl (Allowed : Nat → Char → Prop) (bytes : List Char) : Repaints Allowed bytes bytes where
  length_eq := rfl
  replaced old new other := absurd (Option.some.inj (new.symm.trans old)) other

theorem Repaints.mono (repaints : Repaints Allowed bytes painted) (wider : ∀ i c, Allowed i c → Wider i c) :
    Repaints Wider bytes painted where
  length_eq := repaints.length_eq
  replaced old new other := (repaints.replaced old new other).imp_right (wider _ _)

theorem Repaints.get (repaints : Repaints Allowed bytes painted) {c : Char} (new : painted[i]? = some c) :
    ∃ b, bytes[i]? = some b := by
  have inside := (List.getElem?_eq_some_iff.mp new).1
  rw [repaints.length_eq] at inside
  exact ⟨_, List.getElem?_eq_getElem inside⟩

theorem Repaints.trans (first : Repaints Allowed bytes painted) (second : Repaints Allowed painted repainted) :
    Repaints Allowed bytes repainted where
  length_eq := second.length_eq.trans first.length_eq
  replaced {i b c} old new other := by
    obtain ⟨between, found⟩ := second.get new
    by_cases kept : c = between
    · subst kept
      exact first.replaced old found other
    · have changed := second.replaced found new kept
      by_cases same : between = b
      · exact same ▸ changed
      · exact ⟨(first.replaced old found same).1, changed.2⟩

/-- Repainted parts make up a repainted whole. -/
theorem Repaints.append (first : Repaints (fun i => Allowed (offset + i)) bytes painted)
    (second : Repaints (fun i => Allowed (offset + bytes.length + i)) more morePainted) :
    Repaints (fun i => Allowed (offset + i)) (bytes ++ more) (painted ++ morePainted) where
  length_eq := by rw [List.length_append, List.length_append, first.length_eq, second.length_eq]
  replaced {i b c} old new other := by
    rcases Nat.lt_or_ge i bytes.length with inside | behind
    · rw [List.getElem?_append_left inside] at old
      rw [List.getElem?_append_left (first.length_eq ▸ inside)] at new
      exact first.replaced old new other
    · rw [List.getElem?_append_right behind] at old
      rw [List.getElem?_append_right (first.length_eq ▸ behind), first.length_eq] at new
      have changed := second.replaced old new other
      rwa [Nat.add_assoc, Nat.add_sub_cancel' behind] at changed

theorem Repaints.append_same {Written : Char → Prop} (first : Repaints (fun _ => Written) bytes painted)
    (second : Repaints (fun _ => Written) more morePainted) :
    Repaints (fun _ => Written) (bytes ++ more) (painted ++ morePainted) :=
  @Repaints.append (fun _ => Written) bytes painted more morePainted 0 first second

/-- Bytes without line breaks are replaced by spaces. -/
theorem repaints_spaces (plain : ∀ b ∈ bytes, isBreak b = false) :
    Repaints (fun _ c => c = ' ') bytes (List.replicate bytes.length ' ') where
  length_eq := List.length_replicate
  replaced old new _ := ⟨plain _ (List.mem_of_getElem? old), List.eq_of_mem_replicate (List.mem_of_getElem? new)⟩

/-- A repainting of two parts repaints each of them. -/
theorem Repaints.of_append
    (repaints : Repaints (fun i => Allowed (offset + i)) (bytes ++ more) (painted ++ morePainted))
    (same : painted.length = bytes.length) : Repaints (fun i => Allowed (offset + i)) bytes painted ∧
      Repaints (fun i => Allowed (offset + bytes.length + i)) more morePainted := by
  have lengths := repaints.length_eq
  rw [List.length_append, List.length_append, same] at lengths
  refine ⟨⟨same, ?_⟩, ⟨Nat.add_left_cancel lengths, ?_⟩⟩
  · intro i b c old new other
    have inside := (List.getElem?_eq_some_iff.mp old).1
    refine repaints.replaced ?_ ?_ other
    · rwa [List.getElem?_append_left inside]
    · rwa [List.getElem?_append_left (same ▸ inside)]
  · intro i b c old new other
    rw [Nat.add_assoc]
    refine repaints.replaced ?_ ?_ other
    · rwa [List.getElem?_append_right (Nat.le_add_right ..), Nat.add_sub_cancel_left]
    · rwa [← same, List.getElem?_append_right (Nat.le_add_right ..), Nat.add_sub_cancel_left]

/-- Line breaks stay where they are, and none is new. -/
theorem Repaints.break_iff (repaints : Repaints Allowed bytes painted) (solid : ∀ i c, Allowed i c → isBreak c = false)
    {mark : Char} (breaks : isBreak mark) : painted[i]? = some mark ↔ bytes[i]? = some mark := by
  constructor
  · intro new
    obtain ⟨b, old⟩ := repaints.get new
    by_cases same : mark = b
    · rwa [same]
    · have changed := solid _ _ (repaints.replaced old new same).2
      rw [breaks] at changed
      cases changed
  · intro old
    have inside := (getElem?_eq_some_iff.mp old).1
    rw [← repaints.length_eq] at inside
    have new := List.getElem?_eq_getElem inside
    by_cases same : painted[i] = mark
    · rwa [same] at new
    · have changed := (repaints.replaced old new same).1
      rw [breaks] at changed
      cases changed

end Bytes

section Painting

/-- The bytes with those from one index up to another blanked. Line breaks stay. -/
def blankSpan (start stop : Nat) (bytes : List Char) : List Char :=
  bytes.mapIdx fun i byte => if start ≤ i ∧ i < stop ∧ isBreak byte = false then ' ' else byte

/-- The bytes with a field written over those from an index on. -/
def overwrite (start : Nat) (field : List Char) (bytes : List Char) : List Char :=
  bytes.mapIdx fun i byte => if start ≤ i then field[i - start]?.getD byte else byte

variable {bytes field : List Char} {start stop : Nat}

theorem repaints_blankSpan (start stop : Nat) (bytes : List Char) :
    Repaints (fun _ c => c = ' ') bytes (blankSpan start stop bytes) where
  length_eq := List.length_mapIdx
  replaced {i b c} old new other := by
    rw [blankSpan, List.getElem?_mapIdx, old, Option.map_some, Option.some.injEq] at new
    split at new
    · exact ⟨And.right (And.right ‹_›), new.symm⟩
    · exact absurd new.symm other

/-- Overwriting without line breaks repaints the field only. -/
theorem repaints_overwrite (start : Nat)
    (solid : ∀ k b, k < field.length → bytes[start + k]? = some b → isBreak b = false) :
    Repaints (fun i c => start ≤ i ∧ field[i - start]? = some c) bytes (overwrite start field bytes) where
  length_eq := List.length_mapIdx
  replaced {i b c} old new other := by
    rw [overwrite, List.getElem?_mapIdx, old, Option.map_some, Option.some.injEq] at new
    split at new
    · rename_i behind
      cases found : field[i - start]? with
      | none => exact absurd (by rw [← new, found]; rfl) other
      | some d =>
        rw [found, Option.getD_some] at new
        refine ⟨solid (i - start) b (List.getElem?_eq_some_iff.mp found).1 ?_, behind, congrArg some new⟩
        rwa [Nat.add_sub_cancel' behind]
    · exact absurd new.symm other

end Painting

section Texts

/-- A character of a text starts at a byte, or the text ends there. -/
def AtChar (text : List Char) (place : Nat) : Prop := ∃ front back, text = front ++ back ∧ (units front).length = place

variable {text field : List Char} {start stop place : Nat} {byte : Char}

/-- An ASCII byte is a character. -/
theorem atChar_ascii (found : (units text)[place]? = some byte) (ascii : byte.toNat < 128) :
    AtChar text place ∧ AtChar text (place + 1) := by
  induction text generalizing place with
  | nil => cases found
  | cons c text ih =>
    rw [units_cons] at found
    rcases Nat.lt_or_ge place (unitsOf c).length with inside | behind
    · rw [List.getElem?_append_left inside] at found
      have small : c.toNat < 128 := by
        by_contra large
        exact absurd ascii (Nat.not_lt_of_le (unitsOf_wide (Nat.le_of_not_lt large) (List.mem_of_getElem? found)))
      have one : unitsOf c = [c] := unitsOf_ascii small
      rw [one] at inside
      obtain rfl : place = 0 := Nat.lt_one_iff.mp inside
      exact ⟨⟨[], c :: text, rfl, rfl⟩, [c], text, rfl, by simp [one]⟩
    · rw [List.getElem?_append_right behind] at found
      obtain ⟨⟨front, back, split, length⟩, later, rest, next, lengthNext⟩ := ih found
      refine ⟨⟨c :: front, back, by rw [split]; rfl, ?_⟩, c :: later, rest, by rw [next]; rfl, ?_⟩
      · rw [units_cons, List.length_append]
        omega
      · rw [units_cons, List.length_append]
        omega

/-- The text between two places of characters. -/
theorem AtChar.chunk (opens : AtChar text start) (closes : AtChar text stop) (ordered : start ≤ stop) :
    ∃ front chunk back, text = front ++ (chunk ++ back) ∧ (units front).length = start ∧
      (units front).length + (units chunk).length = stop := by
  obtain ⟨front, rest, rfl, rfl⟩ := opens
  obtain ⟨before, back, split, rfl⟩ := closes
  rcases List.append_eq_append_iff.mp split with ⟨chunk, rfl, rfl⟩ | ⟨chunk, rfl, rfl⟩
  · exact ⟨front, chunk, back, rfl, rfl, by rw [units_append, List.length_append]⟩
  · rw [units_append, List.length_append] at ordered
    have none : (units chunk).length = 0 := by omega
    rw [List.length_eq_zero_iff, units_eq_nil] at none
    exact ⟨before, [], rest, by simp [none], by simp [none], by simp⟩

theorem slice_chunk {word : List Char} (opens : AtChar text start) (closes : AtChar text stop)
    (found : slice text start stop = some word) : ((units text).drop start).take (stop - start) = units word := by
  have ordered : start ≤ stop := by
    by_contra other
    rw [slice, if_neg other] at found
    cases found
  obtain ⟨front, chunk, back, rfl, rfl, rfl⟩ := opens.chunk closes ordered
  rw [slice_units, Option.some.injEq] at found
  rw [Nat.add_sub_cancel_left, units_append, List.drop_left, units_append, List.take_left, found]

theorem units_ascii (ascii : ∀ c ∈ text, c.toNat < 128) : units text = text := by
  induction text with
  | nil => rfl
  | cons c text ih =>
    rw [List.forall_mem_cons] at ascii
    rw [units_cons, unitsOf_ascii ascii.1, ih ascii.2]
    rfl

/-- What writes over bytes of a text, and leaves it a text with a character wherever one started. -/
def KeepsText (text : List Char) (bytes : List Char) : Prop :=
  ∃ painted, units painted = bytes ∧ ∀ place, AtChar text place → AtChar painted place

/-- Painting a chunk over keeps the places of characters. -/
theorem atChar_painted {front chunk ascii back : List Char} (same : (units ascii).length = (units chunk).length)
    (plain : ∀ c ∈ ascii, c.toNat < 128) (atChar : AtChar (front ++ (chunk ++ back)) place) :
    AtChar (front ++ (ascii ++ back)) place := by
  obtain ⟨before, behind, split, rfl⟩ := atChar
  rcases List.append_eq_append_iff.mp split with ⟨tail, rfl, inner⟩ | ⟨tail, rfl, -⟩
  · rcases List.append_eq_append_iff.mp inner with ⟨rest, rfl, -⟩ | ⟨rest, rfl, -⟩
    · refine ⟨front ++ (ascii ++ rest), behind, ?_, ?_⟩
      · simp_all
      · simp only [units_append, List.length_append, same]
    · refine ⟨front ++ ascii.take (units tail).length, ascii.drop (units tail).length ++ back, ?_, ?_⟩
      · rw [List.append_assoc, ← List.append_assoc (ascii.take _), List.take_append_drop]
      · have short : (units tail).length ≤ ascii.length := by
          rw [← units_ascii plain, same, units_append, List.length_append]
          exact Nat.le_add_right ..
        have taken := units_ascii fun c member => plain c (List.mem_of_mem_take (i := (units tail).length) member)
        rw [units_append, units_append, List.length_append, List.length_append, taken, List.length_take,
          Nat.min_eq_left short]
  · exact ⟨before, tail ++ (ascii ++ back), List.append_assoc .., rfl⟩

/-- Bytes from one character to another are replaced by ASCII bytes. -/
theorem keepsText_mapIdx {paint : Nat → Char → Char} (opens : AtChar text start) (closes : AtChar text stop)
    (outside : ∀ i b, i < start ∨ stop ≤ i → paint i b = b)
    (ascii : ∀ i b, start ≤ i → i < stop → (paint i b).toNat < 128) : KeepsText text ((units text).mapIdx paint) := by
  obtain ⟨front, rest, rfl, rfl⟩ := opens
  obtain ⟨before, back, split, rfl⟩ := closes
  rcases List.append_eq_append_iff.mp split with ⟨chunk, rfl, rfl⟩ | ⟨chunk, rfl, rfl⟩
  · have written : ∀ c ∈ (units chunk).mapIdx (fun i => paint (i + (units front).length)), c.toNat < 128 := by
      intro c member
      obtain ⟨i, inside, rfl⟩ := List.mem_mapIdx.mp member
      refine ascii _ _ (Nat.le_add_left ..) ?_
      rw [units_append, List.length_append]
      omega
    refine ⟨front ++ ((units chunk).mapIdx (fun i => paint (i + (units front).length)) ++ back), ?_, fun place =>
      atChar_painted (by rw [units_ascii written, List.length_mapIdx]) written⟩
    have kept : (units front).mapIdx paint = units front := by
      refine List.ext_getElem List.length_mapIdx fun i _ inside => ?_
      rw [List.getElem_mapIdx]
      exact outside _ _ (.inl inside)
    have keptBack : (units back).mapIdx (fun i => paint (i + (units chunk).length + (units front).length)) =
      units back := by
      refine List.ext_getElem List.length_mapIdx fun i _ inside => ?_
      rw [List.getElem_mapIdx]
      refine outside _ _ (.inr ?_)
      rw [units_append, List.length_append]
      omega
    rw [units_append, units_append, units_ascii written, units_append, units_append, List.mapIdx_append,
      List.mapIdx_append, kept, keptBack]
  · refine ⟨_, ?_, fun place atChar => atChar⟩
    refine (List.ext_getElem List.length_mapIdx fun i _ inside => ?_).symm
    rw [List.getElem_mapIdx]
    refine outside _ _ ?_
    rw [units_append, List.length_append]
    omega

theorem keepsText_blankSpan (opens : AtChar text start) (closes : AtChar text stop) :
    KeepsText text (blankSpan start stop (units text)) := by
  refine keepsText_mapIdx opens closes (fun i b outside => ?_) fun i b behind before => ?_
  · rw [if_neg]
    rintro ⟨behind, before, -⟩
    omega
  · split
    · decide
    · rename_i kept
      have breaks : isBreak b = true := by
        by_contra plain
        exact kept ⟨behind, before, Bool.eq_false_iff.mpr plain⟩
      rw [isBreak, Bool.or_eq_true, decide_eq_true_eq, decide_eq_true_eq] at breaks
      rcases breaks with rfl | rfl <;> decide

theorem keepsText_overwrite (ascii : ∀ c ∈ field, c.toNat < 128) (opens : AtChar text start)
    (closes : AtChar text (start + field.length)) : KeepsText text (overwrite start field (units text)) := by
  refine keepsText_mapIdx opens closes (fun i b outside => ?_) fun i b behind before => ?_
  · split
    · rw [List.getElem?_eq_none (by omega), Option.getD_none]
    · rfl
  · have inside : i - start < field.length := by omega
    rw [if_pos behind, List.getElem?_eq_getElem inside, Option.getD_some]
    exact ascii _ (List.getElem_mem inside)

/-- Paints that start and end at characters keep the text a text. -/
theorem keepsText_foldl {α : Type*} {items : List α} {paint : α → List Char → List Char} (ends : α → Nat × Nat)
    (each : ∀ item ∈ items, ∀ text, AtChar text (ends item).1 → AtChar text (ends item).2 →
      KeepsText text (paint item (units text)))
    (all : ∀ item ∈ items, AtChar text (ends item).1 ∧ AtChar text (ends item).2) :
    KeepsText text (items.foldl (fun bytes item => paint item bytes) (units text)) := by
  refine List.foldlRecOn items _ ⟨text, rfl, fun place atChar => atChar⟩ fun bytes keeps item member => ?_
  obtain ⟨painted, rfl, places⟩ := keeps
  have ⟨opens, closes⟩ := all item member
  obtain ⟨repainted, written, placesNext⟩ := each item member painted (places _ opens) (places _ closes)
  exact ⟨repainted, written, fun place atChar => placesNext place (places place atChar)⟩

end Texts

section Spans

variable {text : List Char} {spans : List (Nat × Nat)}

/-- The bytes with every span blanked. -/
def blankAll (spans : List (Nat × Nat)) (bytes : List Char) : List Char :=
  spans.foldl (fun bytes span => blankSpan span.1 span.2 bytes) bytes

/-- A text with the bytes of some spans blanked, unless it is no text then. -/
def blankSpans (text : List Char) (spans : List (Nat × Nat)) : List Char :=
  if spans.isEmpty then text else (fromUtf8 (blankAll spans (units text))).getD text

theorem repaints_blankAll (spans : List (Nat × Nat)) (bytes : List Char) :
    Repaints (fun _ c => c = ' ') bytes (blankAll spans bytes) :=
  List.foldlRecOn spans _ (.refl _ bytes) fun _ repaints _ _ => repaints.trans (repaints_blankSpan ..)

theorem keepsText_blankAll (all : ∀ span ∈ spans, AtChar text span.1 ∧ AtChar text span.2) :
    KeepsText text (blankAll spans (units text)) :=
  keepsText_foldl id (fun _ _ _ opens closes => keepsText_blankSpan opens closes) all

/-- Blanked spans of whole characters leave a text. -/
theorem units_blankSpans (all : ∀ span ∈ spans, AtChar text span.1 ∧ AtChar text span.2) :
    units (blankSpans text spans) = blankAll spans (units text) := by
  rw [blankSpans]
  split
  · rename_i none
    rw [List.isEmpty_iff.mp none]
    rfl
  · obtain ⟨painted, written, -⟩ := keepsText_blankAll all
    rw [← written, fromUtf8_units, Option.getD_some]

theorem repaints_blankSpans (all : ∀ span ∈ spans, AtChar text span.1 ∧ AtChar text span.2) :
    Repaints (fun _ c => c = ' ') (units text) (units (blankSpans text spans)) :=
  units_blankSpans all ▸ repaints_blankAll spans (units text)

end Spans

section Fields

variable {Allowed : Nat → Char → Prop} {text bytes : List Char} {fields : List (Nat × List Char)}

/-- The bytes with every field written at its place. -/
def overwriteAll (fields : List (Nat × List Char)) (bytes : List Char) : List Char :=
  fields.foldl (fun bytes field => overwrite field.1 field.2 bytes) bytes

/-- Overwriting fields repaints what each of them is allowed to. -/
theorem repaints_overwriteAll (solid : ∀ i c, Allowed i c → isBreak c = false)
    (fit : ∀ field ∈ fields, ∀ k b, k < field.2.length → bytes[field.1 + k]? = some b → isBreak b = false)
    (allowed : ∀ field ∈ fields, ∀ i c, field.1 ≤ i → field.2[i - field.1]? = some c → Allowed i c) :
    Repaints Allowed bytes (overwriteAll fields bytes) := by
  refine List.foldlRecOn fields _ (.refl _ bytes) fun current repaints field member => ?_
  have plain (k : Nat) (b : Char) (inside : k < field.2.length) (found : current[field.1 + k]? = some b) : isBreak b =
    false := by
    by_contra other
    have breaks : isBreak b = true := by simpa using other
    have old := (repaints.break_iff solid breaks).mp found
    rw [fit field member k b inside old] at breaks
    cases breaks
  have written := repaints_overwrite field.1 plain
  exact repaints.trans (written.mono fun i c new => allowed field member i c new.1 new.2)

theorem get_padded {word : List Char} {count k : Nat} {c : Char}
    (found : (word ++ List.replicate count ' ')[k]? = some c) : c = ' ' ∨ word[k]? = some c := by
  rcases Nat.lt_or_ge k word.length with inside | behind
  · rw [List.getElem?_append_left inside] at found
    exact .inr found
  · rw [List.getElem?_append_right behind] at found
    exact .inl (List.eq_of_mem_replicate (List.mem_of_getElem? found))

theorem keepsText_overwriteAll (ascii : ∀ field ∈ fields, ∀ c ∈ field.2, c.toNat < 128)
    (all : ∀ field ∈ fields, AtChar text field.1 ∧ AtChar text (field.1 + field.2.length)) :
    KeepsText text (overwriteAll fields (units text)) :=
  keepsText_foldl (fun field => (field.1, field.1 + field.2.length))
    (fun field member _ opens closes => keepsText_overwrite (ascii field member) opens closes) all

end Fields

section Rows

variable {Allowed : Nat → Char → Prop} {rows outs lines : List (List Char)} {row out line : List Char} {offset : Nat}

/-- Rows of bytes that are repainted each in its place. -/
inductive RowsRepaint (Allowed : Nat → Char → Prop) : Nat → List (List Char) → List (List Char) → Prop
  | nil (offset : Nat) : RowsRepaint Allowed offset [] []
  | cons {offset : Nat} {row out : List Char} {rows outs : List (List Char)}
      (head : Repaints (fun i => Allowed (offset + i)) row out)
      (tail : RowsRepaint Allowed (offset + row.length + 1) rows outs) : RowsRepaint Allowed offset (row :: rows)
        (out :: outs)

theorem newline_units (free : '\n' ∉ line) : '\n' ∉ units line := by
  intro member
  obtain ⟨byte, found, same⟩ := List.mem_map.mp member
  obtain ⟨c, inside, part⟩ := List.mem_flatMap.mp found
  have here : '\n' ∈ unitsOf c := List.mem_map.mpr ⟨byte, part, same⟩
  by_cases small : c.toNat < 128
  · rw [unitsOf_ascii small, List.mem_singleton] at here
    exact free (here ▸ inside)
  · exact absurd (unitsOf_wide (Nat.le_of_not_lt small) here) (by decide)

theorem units_intercalate (lines : List (List Char)) :
    units (['\n'].intercalate lines) = ['\n'].intercalate (lines.map units) := by
  induction lines with
  | nil => rfl
  | cons line rest ih =>
    cases rest with
    | nil => simp
    | cons next rest =>
      rw [List.intercalate_cons_cons, units_append, units_append, ih, List.map_cons, List.map_cons, List.map_cons,
        List.intercalate_cons_cons]
      rfl

theorem RowsRepaint.joined (repaint : RowsRepaint Allowed offset rows outs) :
    Repaints (fun i => Allowed (offset + i)) (['\n'].intercalate rows) (['\n'].intercalate outs) := by
  induction repaint with
  | nil => exact .refl _ _
  | @cons offset row out rows outs head tail ih =>
    cases tail with
    | nil => simpa using head
    | cons next rest =>
      rw [List.intercalate_cons_cons, List.intercalate_cons_cons]
      refine .append (head.append (.refl _ _)) ?_
      rw [List.length_append, List.length_singleton, ← Nat.add_assoc]
      exact ih

theorem rowsRepaint_same {Written : Char → Prop} (offset : Nat)
    (each : List.Forall₂ (Repaints fun _ => Written) rows outs) : RowsRepaint (fun _ => Written) offset rows outs := by
  induction each generalizing offset with
  | nil => exact .nil offset
  | cons head _ ih => exact .cons head (ih _)

/-- Lines that are repainted one by one are so together. -/
theorem repaints_lines {Written : Char → Prop}
    (each : List.Forall₂ (fun line out => Repaints (fun _ => Written) (units line) (units out)) lines outs) :
    Repaints (fun _ => Written) (units (['\n'].intercalate lines)) (units (['\n'].intercalate outs)) := by
  have rows : List.Forall₂ (Repaints fun _ => Written) (lines.map units) (outs.map units) := by
    rwa [List.forall₂_map_left_iff, List.forall₂_map_right_iff]
  rw [units_intercalate, units_intercalate]
  exact (rowsRepaint_same 0 rows).joined

theorem joined_newline (row next : List Char) (rest : List (List Char)) :
    (['\n'].intercalate (row :: next :: rest))[row.length]? = some '\n' := by
  rw [List.intercalate_cons_cons, List.append_assoc, List.getElem?_append_right (Nat.le_refl _), Nat.sub_self]
  rfl

theorem joined_row {i : Nat} (row : List Char) (rest : List (List Char)) (inside : i < row.length) :
    (['\n'].intercalate (row :: rest))[i]? = row[i]? := by
  cases rest with
  | nil => simp
  | cons next rest => rw [List.intercalate_cons_cons, List.append_assoc, List.getElem?_append_left inside]

/-- Where no line break is moved, the first row of one text is as long as that of the other. -/
theorem first_row_le (solid : ∀ i c, Allowed i c → isBreak c = false) {next : List Char} {rest : List (List Char)}
    (free : '\n' ∉ out)
    (repaints : Repaints Allowed (['\n'].intercalate (row :: next :: rest)) (['\n'].intercalate (out :: outs))) :
    out.length ≤ row.length := by
  by_contra longer
  have found := (repaints.break_iff solid rfl).mpr (joined_newline row next rest)
  rw [joined_row out outs (Nat.lt_of_not_le longer)] at found
  exact free (List.mem_of_getElem? found)

/-- Texts that are repainted into one another are so row by row. -/
theorem rowsRepaint_of_joined (solid : ∀ i c, Allowed i c → isBreak c = false) (freeRows : ∀ row ∈ rows, '\n' ∉ row)
    (freeOuts : ∀ out ∈ outs, '\n' ∉ out) (some_rows : rows ≠ []) (some_outs : outs ≠ [])
    (repaints : Repaints (fun i => Allowed (offset + i)) (['\n'].intercalate rows) (['\n'].intercalate outs)) :
    RowsRepaint Allowed offset rows outs := by
  induction rows generalizing outs offset with
  | nil => exact absurd rfl some_rows
  | cons row rest ih =>
    obtain ⟨out, outRest, rfl⟩ := List.exists_cons_of_ne_nil some_outs
    rw [List.forall_mem_cons] at freeRows freeOuts
    have solidAt : ∀ i c, Allowed (offset + i) c → isBreak c = false := fun i c => solid (offset + i) c
    cases rest with
    | nil =>
      cases outRest with
      | nil => exact .cons (by simpa using repaints) (.nil _)
      | cons outNext outRest =>
        have found := (repaints.break_iff solidAt rfl).mp (joined_newline out outNext outRest)
        rw [List.intercalate_singleton] at found
        exact absurd (List.mem_of_getElem? found) freeRows.1
    | cons next rest =>
      have shorter := first_row_le solidAt freeOuts.1 repaints
      cases outRest with
      | nil =>
        have found := (repaints.break_iff solidAt rfl).mpr (joined_newline row next rest)
        rw [List.intercalate_singleton] at found
        exact absurd (List.mem_of_getElem? found) freeOuts.1
      | cons outNext outRest =>
        have longer : row.length ≤ out.length := by
          by_contra short
          have found := (repaints.break_iff solidAt rfl).mp (joined_newline out outNext outRest)
          rw [joined_row row _ (Nat.lt_of_not_le short)] at found
          exact freeRows.1 (List.mem_of_getElem? found)
        have same := Nat.le_antisymm shorter longer
        rw [List.intercalate_cons_cons, List.intercalate_cons_cons] at repaints
        have split := repaints.of_append (by rw [List.length_append, List.length_append, same])
        rw [List.length_append, List.length_singleton, ← Nat.add_assoc] at split
        refine .cons (split.1.of_append same).1 (ih freeRows.2 freeOuts.2 (by simp) (by simp) split.2)

end Rows

end Repainting
