import Codegraph.Store.Classification
import Codegraph.Store.ReferenceCodec

/- This file proves that the payload of a checksum tells its fields apart. -/

namespace Codegraph.Store

/-- The payload that the checksum of a slot covers. -/
def WireSlot.payload (wire : WireSlot) : String :=
  canonicalChecksumPayload wire.sequence wire.storageProtocol wire.extractionVersion wire.phase wire.projectIdentity

section Payload

variable {sequence storageProtocol extractionVersion sequence' storageProtocol' extractionVersion' : UInt64}
  {phase projectIdentity phase' projectIdentity' : String}

/-- A decimal number has no line feed, so that it ends at the first one. -/
theorem decimal_line_inj {value value' : UInt64} {rest rest' : List Char}
    (same : (toString value).toList ++ '\n' :: rest = (toString value').toList ++ '\n' :: rest') :
    value = value' ∧ rest = rest' := by
  have written (number : UInt64) : (toString number).toList = Nat.toDigits 10 number.toNat := by
    simp [toString, Nat.repr_eq_ofList_toDigits]
  have digits (number : UInt64) : ∀ c ∈ (toString number).toList, c.isDigit = true := fun c member =>
    Nat.isDigit_of_mem_toDigits (by decide) (by decide) (written number ▸ member)
  obtain ⟨taken, dropped⟩ := takeWhile_stop _ '\n' rest (digits value) (by decide)
  obtain ⟨taken', dropped'⟩ := takeWhile_stop _ '\n' rest' (digits value') (by decide)
  rw [← same] at taken' dropped'
  have numbers := taken.symm.trans taken'
  rw [written, written] at numbers
  have read := congrArg (fun letters => Nat.ofDigitChars 10 letters 0) numbers
  simp only [Nat.ofDigitChars_ten_toDigits] at read
  exact ⟨UInt64.toNat_inj.mp read, (List.cons.inj (dropped.symm.trans dropped')).2⟩

/-- The payload as the lines that its fields stand on. -/
theorem payload_lines :
    (canonicalChecksumPayload sequence storageProtocol extractionVersion phase projectIdentity).toList =
    (checksumDomain ++ "\nsequence=").toList ++ ((toString sequence).toList ++ '\n' ::
      ("storageProtocol=".toList ++ ((toString storageProtocol).toList ++ '\n' ::
        ("extractionVersion=".toList ++ ((toString extractionVersion).toList ++ '\n' ::
          ("phase=".toList ++
            (phase.toList ++ ("\nprojectIdentity=".toList ++ (projectIdentity.toList ++ ['\n']))))))))) := by
  simp [canonicalChecksumPayload, checksumDomain, String.toList_append]

/-- The three numbers end at their line feeds and the owner has a fixed width, so that any text may stand between
them. -/
theorem payload_inj (owner : isLowercaseSha256 projectIdentity = true)
    (owner' : isLowercaseSha256 projectIdentity' = true)
    (same : canonicalChecksumPayload sequence storageProtocol extractionVersion phase projectIdentity =
      canonicalChecksumPayload sequence' storageProtocol' extractionVersion' phase' projectIdentity') :
    sequence = sequence' ∧ storageProtocol = storageProtocol' ∧ extractionVersion = extractionVersion' ∧
      phase = phase' ∧
      projectIdentity = projectIdentity' := by
  have lines := congrArg String.toList same
  rw [payload_lines, payload_lines] at lines
  obtain ⟨sequences, lines⟩ := decimal_line_inj (List.append_cancel_left lines)
  obtain ⟨protocols, lines⟩ := decimal_line_inj (List.append_cancel_left lines)
  obtain ⟨versions, lines⟩ := decimal_line_inj (List.append_cancel_left lines)
  simp only [isLowercaseSha256, Bool.and_eq_true, beq_iff_eq] at owner owner'
  obtain ⟨phases, tails⟩ := List.append_inj' (List.append_cancel_left lines) (by simp [owner.1, owner'.1])
  have owners := List.append_cancel_right (List.append_cancel_left tails)
  exact ⟨sequences, protocols, versions, String.toList_inj.mp phases, String.toList_inj.mp owners⟩

end Payload

section Collisions

variable {codec : Codec} {index : Fin 2} {path owner : String} {wire : WireSlot} {record : StateSlotRecord}

theorem hexLower_inj {bytes bytes' : List UInt8} (same : hexLower bytes = hexLower bytes') : bytes = bytes' := by
  have nibble : ∀ first second : Fin 16, hexDigit first = hexDigit second → first = second := by decide
  have letters := String.ofList_inj.mp same
  induction bytes generalizing bytes' with
  | nil =>
    cases bytes' with
    | nil => rfl
    | cons byte rest => cases letters
  | cons byte bytes ih =>
    cases bytes' with
    | nil => cases letters
    | cons byte' bytes' =>
      simp only [List.flatMap_cons, List.cons_append, List.nil_append, List.cons.injEq] at letters
      obtain ⟨high, low, rest⟩ := letters
      have high_ := Fin.mk.inj (nibble _ _ high)
      have low_ := Fin.mk.inj (nibble _ _ low)
      have equal : byte = byte' := UInt8.toNat_inj.mp (by omega)
      rw [equal, ih (congrArg String.ofList rest) rest]

theorem toUTF8_inj {text text' : String} (same : text.toUTF8 = text'.toUTF8) : text = text' :=
  Option.some.inj ((fromUTF8_toUTF8 text).symm.trans (same ▸ fromUTF8_toUTF8 text'))

/-- A record that passes the checks carries the digest of its own payload. -/
theorem validateParsed_checked
    (validated : (validateParsed codec index path wire owner).validatedRecord = some record) :
    record = wire.record ∧ isLowercaseSha256 wire.projectIdentity = true ∧
      codec.hashContent wire.payload = wire.checksum := by
  simp only [validateParsed] at validated
  split_ifs at validated with encoded digest matching owned lower above unknown
  all_goals simp only [SlotOutcome.validatedRecord, Option.some.injEq, reduceCtorEq] at validated
  · exact ⟨validated.symm, by simpa using encoded, not_not.mp matching⟩
  · exact ⟨validated.symm, by simpa using encoded, not_not.mp matching⟩

/-- Two payloads are equal only when all fields are, so that two different records share a checksum only when the
digests of two different payloads collide. -/
theorem checksum_payload_tells_fields_apart :
    (∀ (sequence storageProtocol extractionVersion sequence' storageProtocol' extractionVersion' : UInt64)
      (phase projectIdentity phase' projectIdentity' : String), isLowercaseSha256 projectIdentity = true →
        isLowercaseSha256 projectIdentity' = true →
      canonicalChecksumPayload sequence storageProtocol extractionVersion phase projectIdentity =
        canonicalChecksumPayload sequence' storageProtocol' extractionVersion' phase' projectIdentity' →
      sequence = sequence' ∧ storageProtocol = storageProtocol' ∧ extractionVersion = extractionVersion' ∧
        phase = phase' ∧
        projectIdentity = projectIdentity') ∧
    ∀ (codec : Codec) (index index' : Fin 2) (path path' owner owner' : String) (wire wire' : WireSlot)
    (record record' : StateSlotRecord),
      (validateParsed codec index path wire owner).validatedRecord = some record →
      (validateParsed codec index' path' wire' owner').validatedRecord = some record' →
      record ≠ record' → record.checksum = record'.checksum →
      wire.payload.toUTF8 ≠ wire'.payload.toUTF8 ∧
        codec.digest wire.payload.toUTF8 = codec.digest wire'.payload.toUTF8 := by
  refine ⟨fun _ _ _ _ _ _ _ _ _ _ owner owner' same => payload_inj owner owner' same, ?_⟩
  intro codec index index' path path' owner owner' wire wire' record record' validated validated' different shared
  obtain ⟨rfl, encoded, digest⟩ := validateParsed_checked validated
  obtain ⟨rfl, encoded', digest'⟩ := validateParsed_checked validated'
  replace shared : wire.checksum = wire'.checksum := shared
  constructor
  · intro same
    obtain ⟨sequences, protocols, versions, phases, owners⟩ := payload_inj encoded encoded' (toUTF8_inj same)
    refine different ?_
    rw [WireSlot.record, WireSlot.record, sequences, protocols, versions, phases, owners, shared]
  · exact hexLower_inj (digest.trans (shared.trans digest'.symm))

/-- A field that looks like the line of another one. -/
theorem checksum_payload_tells_fields_apart_lookalike :
    canonicalChecksumPayload 7 3 22 "a\nprojectIdentity=b" referencePaths.projectIdentity ≠
      canonicalChecksumPayload 7 3 22 "a" referencePaths.projectIdentity := by
  intro same
  have fields :=
    checksum_payload_tells_fields_apart.1 7 3 22 7 3 22 "a\nprojectIdentity=b" referencePaths.projectIdentity "a"
    referencePaths.projectIdentity referencePaths.identityEncoded referencePaths.identityEncoded same
  exact absurd fields.2.2.2.1 (by decide)

end Collisions

end Codegraph.Store
