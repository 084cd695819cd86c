import Codegraph.Library.Sha256
import Codegraph.Store.Slot

/- This file writes a slot as the compact JSON text and reads that text back. -/

namespace Codegraph.Store

/-- The reader consumes a fixed label. -/
def expect (label input : List Char) : Option (List Char) :=
  if label.isPrefixOf input then some (input.drop label.length) else none

def readNumber (input : List Char) : Option (UInt64 × List Char) :=
  let digits := input.takeWhile Char.isDigit
  let value := Nat.ofDigitChars 10 digits 0
  if digits ≠ [] ∧ value < UInt64.size then some (UInt64.ofNat value, input.dropWhile Char.isDigit) else none

def unquoted (c : Char) : Bool := c ≠ '"'

/-- A plain string ends at its first quote. -/
def readString (input : List Char) : Option (String × List Char) := do
  let body ← expect ['"'] input
  let rest ← expect ['"'] (body.dropWhile unquoted)
  return (String.ofList (body.takeWhile unquoted), rest)

theorem expect_append (label rest : List Char) : expect label (label ++ rest) = some rest := by
  simp [expect]

theorem takeWhile_stop {p : Char → Bool} (left : List Char) (stop : Char) (rest : List Char)
    (inside : ∀ c ∈ left, p c = true) (stops : p stop = false) :
    (left ++ stop :: rest).takeWhile p = left ∧ (left ++ stop :: rest).dropWhile p = stop :: rest := by
  rw [List.takeWhile_append_of_pos inside, List.dropWhile_append_of_pos inside]
  simp [stops]

theorem readNumber_append (value : UInt64) (stop : Char) (rest : List Char) (stops : stop.isDigit = false) :
    readNumber (Nat.toDigits 10 value.toNat ++ stop :: rest) = some (value, stop :: rest) := by
  have digits : ∀ c ∈ Nat.toDigits 10 value.toNat, c.isDigit = true :=
    fun c member => Nat.isDigit_of_mem_toDigits (by decide) (by decide) member
  obtain ⟨taken, dropped⟩ := takeWhile_stop _ stop rest digits stops
  have nonempty : Nat.toDigits 10 value.toNat ≠ [] := Nat.toDigits_ne_nil
  have bounded := value.toNat_lt
  simp [readNumber, taken, dropped, nonempty, Nat.ofDigitChars_ten_toDigits, bounded]

theorem readString_append (text : String) (rest : List Char) (plain : ∀ c ∈ text.toList, unquoted c = true) :
    readString ('"' :: (text.toList ++ '"' :: rest)) = some (text, rest) := by
  obtain ⟨taken, dropped⟩ := takeWhile_stop text.toList '"' rest plain (by decide)
  have opened : expect ['"'] ('"' :: (text.toList ++ '"' :: rest)) = some (text.toList ++ '"' :: rest) :=
    expect_append ['"'] _
  have closed : expect ['"'] ('"' :: rest) = some rest := expect_append ['"'] rest
  simp [readString, opened, taken, dropped, closed]

def fieldLabel (opening : Char) (name : String) : List Char :=
  opening :: '"' :: (name.toList ++ ['"', ':'])

theorem expect_fieldLabel (opening : Char) (name : String) (rest : List Char) :
    expect (fieldLabel opening name) (fieldLabel opening name ++ rest) = some rest :=
  expect_append _ _

theorem readNumber_fieldLabel (value : UInt64) (name : String) (rest : List Char) :
    readNumber (Nat.toDigits 10 value.toNat ++ (fieldLabel ',' name ++ rest)) =
      some (value, fieldLabel ',' name ++ rest) :=
  readNumber_append value ',' _ (by decide)

/-- The compact text of a slot lists its six fields in order. -/
def slotText (wire : WireSlot) : List Char :=
  fieldLabel '\x7b' "sequence" ++ (Nat.toDigits 10 wire.sequence.toNat ++
    (fieldLabel ',' "storageProtocol" ++ (Nat.toDigits 10 wire.storageProtocol.toNat ++
    (fieldLabel ',' "extractionVersion" ++ (Nat.toDigits 10 wire.extractionVersion.toNat ++
    (fieldLabel ',' "phase" ++ ('"' :: (wire.phase.toList ++ '"' ::
    (fieldLabel ',' "projectIdentity" ++ ('"' :: (wire.projectIdentity.toList ++ '"' ::
    (fieldLabel ',' "checksum" ++ ('"' :: (wire.checksum.toList ++ '"' :: ['\x7d']))))))))))))))

def readSlotText (text : List Char) : Option WireSlot := do
  let rest ← expect (fieldLabel '\x7b' "sequence") text
  let (sequence, rest) ← readNumber rest
  let rest ← expect (fieldLabel ',' "storageProtocol") rest
  let (storageProtocol, rest) ← readNumber rest
  let rest ← expect (fieldLabel ',' "extractionVersion") rest
  let (extractionVersion, rest) ← readNumber rest
  let rest ← expect (fieldLabel ',' "phase") rest
  let (phase, rest) ← readString rest
  let rest ← expect (fieldLabel ',' "projectIdentity") rest
  let (projectIdentity, rest) ← readString rest
  let rest ← expect (fieldLabel ',' "checksum") rest
  let (checksum, rest) ← readString rest
  if rest = ['\x7d'] then
    some ⟨sequence, storageProtocol, extractionVersion, phase, projectIdentity, checksum⟩
  else none

theorem unquoted_of_lowercaseHex {c : Char} (hex : isLowercaseHex c = true) : unquoted c = true := by
  have different : c ≠ '"' := by
    rintro rfl
    cases hex
  simp [unquoted, different]

theorem unquoted_of_lowercaseSha256 {value : String} (encoded : isLowercaseSha256 value = true) :
    ∀ c ∈ value.toList, unquoted c = true := by
  simp only [isLowercaseSha256, Bool.and_eq_true, List.all_eq_true] at encoded
  exact fun c member => unquoted_of_lowercaseHex (encoded.2 c member)

theorem unquoted_of_phase (phase : StatePhase) : ∀ c ∈ phase.asWire.toList, unquoted c = true := by
  have all : phase.asWire.toList.all unquoted = true := by cases phase <;> rfl
  exact List.all_eq_true.mp all

/-- The text of a plain slot reads back. -/
theorem readSlotText_slotText (wire : WireSlot) (plain : wire.plain) : readSlotText (slotText wire) = some wire := by
  obtain ⟨⟨phase, named⟩, owner, checksum⟩ := plain
  have phrase : ∀ c ∈ wire.phase.toList, unquoted c = true := named ▸ unquoted_of_phase phase
  simp only [readSlotText, slotText, expect_fieldLabel, readNumber_fieldLabel, Option.bind_eq_bind, Option.bind_some,
    readString_append _ _ phrase, readString_append _ _ (unquoted_of_lowercaseSha256 owner),
    readString_append _ _ (unquoted_of_lowercaseSha256 checksum), if_true]

theorem fromUTF8_toUTF8 (text : String) : String.fromUTF8? text.toUTF8 = some text := by
  simp only [String.fromUTF8?, String.toUTF8_eq_toByteArray]
  rw [dif_pos text.isValidUTF8]
  rfl

/-- The reference codec hashes with SHA-256 and writes compact JSON. -/
def referenceCodec : Codec where
  digest content := Sha256.digest content.toList
  digestWidth _ := Sha256.digest_length _
  toVec wire := .ok (String.ofList (slotText wire)).toUTF8
  fromSlice bytes :=
    match (String.fromUTF8? bytes).bind fun text => readSlotText text.toList with
    | some wire => .ok wire
    | none => .error "expected the six canonical fields"
  readBack wire plain := by
    refine ⟨_, rfl, ?_⟩
    rw [fromUTF8_toUTF8, Option.bind_some, String.toList_ofList, readSlotText_slotText wire plain]

/-- The reference project's identity is the digest of its own payload. -/
def referencePaths : IndexPaths where
  currentRoot := "/project/.codegraph/v2"
  projectIdentity := hexLower (Sha256.digest "codegraph-project".toUTF8.toList)
  identityEncoded := hexLower_isLowercaseSha256 _ (Sha256.digest_length _)

end Codegraph.Store
