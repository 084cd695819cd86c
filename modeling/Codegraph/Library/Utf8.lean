import Mathlib.Data.List.Basic
import Mathlib.Data.Char

/- This file relates texts to their UTF-8 bytes. -/

namespace Utf8
open List

/-- The bytes of a text. -/
def bytes (text : List Char) : List UInt8 := text.flatMap String.utf8EncodeChar

@[simp] theorem bytes_nil : bytes [] = [] := rfl

@[simp] theorem bytes_cons (c : Char) (text : List Char) : bytes (c :: text) = String.utf8EncodeChar c ++ bytes text :=
  flatMap_cons

@[simp] theorem bytes_append (first second : List Char) : bytes (first ++ second) = bytes first ++ bytes second :=
  flatMap_append

section Order

variable {first second : List UInt8} {c d : Char}

/-- The first byte in which two lists differ is smaller in the one that comes before. -/
def Before (first second : List UInt8) : Prop :=
  ∃ shared x y left right, x < y ∧ first = shared ++ x :: left ∧ second = shared ++ y :: right

theorem Before.append (before : Before first second) (left right : List UInt8) :
    Before (first ++ left) (second ++ right) := by
  obtain ⟨shared, x, y, tail, rest, less, rfl, rfl⟩ := before
  exact ⟨shared, x, y, tail ++ left, rest ++ right, less, by simp, by simp⟩

theorem Before.lex (before : Before first second) : List.Lex (· < ·) first second := by
  obtain ⟨shared, x, y, tail, rest, less, rfl, rfl⟩ := before
  induction shared with
  | nil => exact List.Lex.rel less
  | cons z shared ih => exact List.Lex.cons ih

theorem before_cons {x y : Nat} (order : x % 256 < y % 256 ∨ x % 256 = y % 256 ∧ Before first second) :
    Before (UInt8.ofNat x :: first) (UInt8.ofNat y :: second) := by
  rcases order with less | ⟨same, shared, a, b, left, right, less, rfl, rfl⟩
  · exact ⟨[], _, _, first, second, by rwa [UInt8.lt_iff_toNat_lt, UInt8.toNat_ofNat', UInt8.toNat_ofNat'], rfl, rfl⟩
  · have equal : UInt8.ofNat x = UInt8.ofNat y := by
      rwa [← UInt8.toNat_inj, UInt8.toNat_ofNat', UInt8.toNat_ofNat']
    exact ⟨UInt8.ofNat x :: shared, a, b, left, right, less, rfl, by rw [equal]; rfl⟩

theorem toNat_lt (c : Char) : c.val.toNat < 1114112 := by
  rcases c.valid with low | ⟨-, high⟩
  · exact Nat.lt_trans low (by decide)
  · exact high

/-- The encodings of two characters differ in a byte, which is smaller in the smaller character. -/
theorem encode_before (less : c < d) : Before (String.utf8EncodeChar c) (String.utf8EncodeChar d) := by
  have order : c.val.toNat < d.val.toNat := less
  have small := toNat_lt d
  unfold String.utf8EncodeChar
  generalize c.val.toNat = m at *
  generalize d.val.toNat = n at *
  dsimp only
  split_ifs
  · exact before_cons (.inl (by omega))
  · exact before_cons (.inl (by omega))
  · exact before_cons (.inl (by omega))
  · exact before_cons (.inl (by omega))
  · omega
  · by_cases high : m / 64 = n / 64
    · exact before_cons (.inr ⟨by omega, before_cons (.inl (by omega))⟩)
    · exact before_cons (.inl (by omega))
  · exact before_cons (.inl (by omega))
  · exact before_cons (.inl (by omega))
  · omega
  · omega
  · by_cases high : m / 4096 = n / 4096
    · by_cases middle : m / 64 = n / 64
      · exact before_cons (.inr ⟨by omega, before_cons (.inr ⟨by omega, before_cons (.inl (by omega))⟩)⟩)
      · exact before_cons (.inr ⟨by omega, before_cons (.inl (by omega))⟩)
    · exact before_cons (.inl (by omega))
  · exact before_cons (.inl (by omega))
  · omega
  · omega
  · omega
  · by_cases top : m / 262144 = n / 262144
    · by_cases high : m / 4096 = n / 4096
      · by_cases middle : m / 64 = n / 64
        · exact before_cons (.inr ⟨by omega, before_cons (.inr ⟨by omega, before_cons (.inr ⟨by omega,
            before_cons (.inl (by omega))⟩)⟩)⟩)
        · exact before_cons (.inr ⟨by omega, before_cons (.inr ⟨by omega, before_cons (.inl (by omega))⟩)⟩)
      · exact before_cons (.inr ⟨by omega, before_cons (.inl (by omega))⟩)
    · exact before_cons (.inl (by omega))

theorem lex_asymm (less : List.Lex (· < ·) first second) : ¬ List.Lex (· < ·) second first := by
  induction less with
  | nil => exact not_lex_nil
  | rel smaller =>
    rw [cons_lex_cons_iff]
    rintro (greater | ⟨rfl, -⟩)
    · exact UInt8.lt_asymm smaller greater
    · exact UInt8.lt_irrefl _ smaller
  | cons _ ih =>
    rw [cons_lex_cons_iff, or_iff_right (UInt8.lt_irrefl _), and_iff_right rfl]
    exact ih

theorem append_lex_iff (shared : List UInt8) :
    List.Lex (· < ·) (shared ++ first) (shared ++ second) ↔ List.Lex (· < ·) first second := by
  induction shared with
  | nil => rfl
  | cons x shared ih =>
    rw [cons_append, cons_append, cons_lex_cons_iff, ih, or_iff_right (UInt8.lt_irrefl x),
      and_iff_right rfl]

/-- Comparing bytes compares texts by their characters. -/
theorem bytes_lex_iff {first second : List Char} :
    List.Lex (· < ·) (bytes first) (bytes second) ↔ List.Lex (· < ·) first second := by
  induction first generalizing second with
  | nil =>
    cases second with
    | nil => exact iff_of_false not_lex_nil not_lex_nil
    | cons d rest =>
      refine iff_of_true ?_ List.Lex.nil
      rw [bytes_nil, bytes_cons]
      cases encoded : String.utf8EncodeChar d with
      | nil => exact absurd encoded String.utf8EncodeChar_ne_nil
      | cons x tail => exact List.Lex.nil
  | cons c first ih =>
    cases second with
    | nil => exact iff_of_false not_lex_nil not_lex_nil
    | cons d second =>
      rw [bytes_cons, bytes_cons, cons_lex_cons_iff]
      rcases lt_trichotomy c d with less | rfl | more
      · exact iff_of_true ((encode_before less).append _ _).lex (.inl less)
      · rw [append_lex_iff, ih, or_iff_right (lt_irrefl c), and_iff_right rfl]
      · refine iff_of_false (fun less => ?_) ?_
        · have later := ((encode_before more).append (bytes second) (bytes first)).lex
          exact lex_asymm less later
        · rintro (less | ⟨rfl, -⟩)
          · exact lt_asymm less more
          · exact lt_irrefl _ more

end Order

section Decoding

variable {text : List Char} {content : List UInt8}

/-- The text that some bytes encode, if they encode one. -/
def decode (content : List UInt8) : Option (List Char) := (String.fromUTF8? content.toByteArray).map String.toList

@[simp] theorem decode_bytes (text : List Char) : decode (bytes text) = some text := by
  have valid : (bytes text).toByteArray.IsValidUTF8 := ByteArray.isValidUTF8_utf8Encode
  have same : String.fromUTF8 (bytes text).toByteArray valid = String.ofList text := rfl
  rw [decode, String.fromUTF8?, dif_pos valid, same, Option.map_some, String.toList_ofList]

theorem bytes_of_decode (decoded : decode content = some text) : bytes text = content := by
  obtain ⟨found, read, rfl⟩ := Option.map_eq_some_iff.mp decoded
  rw [String.fromUTF8?] at read
  split at read
  · cases read
    exact toByteArray_inj.mp String.utf8Encode_toList
  · cases read

end Decoding

end Utf8
