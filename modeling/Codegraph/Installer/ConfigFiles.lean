import Codegraph.Library.Utf8Loops
import Codegraph.Watch.Scope

/- This file models the files that the installer reads and writes. -/

namespace Codegraph.Installer
open List
open Codegraph.Watch.Scope (Text)

/-- No file, or a file with its bytes. -/
abbrev FileState := Option (List UInt8)

/-- A file that is missing or is not UTF-8 has no text. -/
def readToString (file : FileState) : Option Text := file.bind Utf8.decode

/-- The file is written beside its place and then renamed to it. -/
def atomicWriteFile (content : Text) : FileState := some (Utf8.bytes content)

@[simp] theorem readToString_write (content : Text) : readToString (atomicWriteFile content) = some content :=
  Utf8.decode_bytes content

theorem write_of_readToString {file : FileState} {content : Text} (read : readToString file = some content) :
    file = atomicWriteFile content := by
  obtain ⟨bytes, rfl, decoded⟩ := Option.bind_eq_some_iff.mp read
  rw [atomicWriteFile, Utf8.bytes_of_decode decoded]

inductive FileAction where
  | created
  | updated
  | unchanged
  | removed
  | notFound
  | kept
  | skipped
  deriving DecidableEq

def trimStart (text : Text) : Text := text.dropWhile Scanning.isWhitespace

def trimEnd (text : Text) : Text := text.rdropWhile Scanning.isWhitespace

def trim (text : Text) : Text := trimEnd (trimStart text)

section Trimming

variable {text white : Text}

theorem trimEnd_append (text : Text) :
    ∃ white, (∀ c ∈ white, Scanning.isWhitespace c = true) ∧ text = trimEnd text ++ white :=
  ⟨text.rtakeWhile Scanning.isWhitespace, fun _ member => mem_rtakeWhile_imp member,
    (rdropWhile_append_rtakeWhile ..).symm⟩

theorem trimEnd_white (blank : ∀ c ∈ white, Scanning.isWhitespace c = true) (text : Text) :
    trimEnd (text ++ white) = trimEnd text := by
  rw [trimEnd, trimEnd, rdropWhile, rdropWhile, reverse_append,
    dropWhile_append_of_pos fun c member => blank c (mem_reverse.mp member)]

theorem trim_white (blank : ∀ c ∈ white, Scanning.isWhitespace c = true) (text : Text) :
    trim (text ++ white) = trim text := by
  rw [trim, trim, trimStart, trimStart, dropWhile_append]
  split
  · rename_i empty
    rw [dropWhile_eq_nil_iff.mpr blank, isEmpty_iff.mp empty]
  · exact trimEnd_white blank _

theorem trim_trimEnd (text : Text) : trim (trimEnd text) = trim text := by
  obtain ⟨white, blank, shape⟩ := trimEnd_append text
  conv_rhs => rw [shape, trim_white blank]

theorem trimEnd_trimEnd (text : Text) : trimEnd (trimEnd text) = trimEnd text := rdropWhile_idempotent ..

/-- A trimmed text stays as it is. -/
theorem trim_trim (text : Text) : trim (trim text) = trim text := by
  have first : trimStart (trim text) = trim text := by
    obtain ⟨rest, shape⟩ := rdropWhile_prefix Scanning.isWhitespace (trimStart text)
    rw [trimStart, dropWhile_eq_self_iff]
    intro some_
    have head : (trimStart text)[0]? = some ((trim text)[0]) := by
      rw [← shape, getElem?_append_left (by exact some_)]
      exact getElem?_eq_getElem some_
    obtain ⟨inside, same⟩ := List.getElem?_eq_some_iff.mp head
    rw [← same]
    exact dropWhile_get_zero_not Scanning.isWhitespace text inside
  rw [trim, first]
  exact trimEnd_trimEnd _

end Trimming

end Codegraph.Installer
