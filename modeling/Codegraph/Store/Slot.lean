import Mathlib

/- This file holds the two fixed state slots, their wire form, and the classifier that reads them. -/

namespace Codegraph.Store

/-- There are two slots. -/
instance slotsNeZero : NeZero 2 := ⟨Nat.succ_ne_zero 1⟩

/-- A slot above this storage protocol belongs to a later binary. -/
def currentStorageProtocol : UInt64 := 2

/-- This binary builds indexes at this extraction version. -/
def currentExtractionVersion : UInt64 := 22

def checksumDomain : String := "codegraph-index-state-v1"

/-- The largest sequence admits no successor. -/
def maxSequence : UInt64 := 18446744073709551615

inductive StatePhase where
  | building
  | current
  | uninitialized
  deriving DecidableEq

/-- The wire spelling is stored in the slot and hashed into the checksum. -/
def StatePhase.asWire : StatePhase → String
  | .building => "building"
  | .current => "current"
  | .uninitialized => "uninitialized"

def StatePhase.fromWire (value : String) : Option StatePhase :=
  if value = "building" then some .building
  else if value = "current" then some .current
  else if value = "uninitialized" then some .uninitialized
  else none

@[simp] theorem StatePhase.fromWire_asWire (phase : StatePhase) : StatePhase.fromWire phase.asWire = some phase := by
  cases phase <;> decide

/-- A hexadecimal digit is one of the sixteen lowercase characters. -/
def hexDigit (nibble : Fin 16) : Char :=
  ['0', '1', '2', '3', '4', '5', '6', '7', '8', '9', 'a', 'b', 'c', 'd', 'e', 'f'].get nibble

/-- Each byte prints its high nibble first. -/
def hexLower (bytes : List UInt8) : String :=
  String.ofList (bytes.flatMap fun byte =>
    [hexDigit ⟨byte.toNat / 16, by have := byte.toNat_lt; omega⟩,
      hexDigit ⟨byte.toNat % 16, by omega⟩])

def isLowercaseHex (c : Char) : Bool := c.isDigit || ('a' ≤ c && c ≤ 'f')

/-- An owner or a checksum has exactly sixty-four lowercase hexadecimal characters. -/
def isLowercaseSha256 (value : String) : Bool :=
  value.toList.length == 64 && value.toList.all isLowercaseHex

theorem hexDigit_lowercase (nibble : Fin 16) : isLowercaseHex (hexDigit nibble) = true := by
  revert nibble
  decide

theorem hexLower_length (bytes : List UInt8) : (hexLower bytes).toList.length = 2 * bytes.length := by
  simp only [hexLower, String.toList_ofList]
  induction bytes with
  | nil => rfl
  | cons byte rest ih =>
    simp only [List.flatMap_cons, List.length_append, List.length_cons, List.length_nil, ih]
    omega

theorem hexLower_isLowercaseSha256 (bytes : List UInt8) (width : bytes.length = 32) :
    isLowercaseSha256 (hexLower bytes) = true := by
  have digits : (hexLower bytes).toList.all isLowercaseHex = true := by
    simp [hexLower, hexDigit_lowercase]
  simp only [isLowercaseSha256, hexLower_length, width, digits, Bool.and_true]
  decide

/-- Every canonical field is required at its own type, and other fields are ignored. -/
structure WireSlot where
  sequence : UInt64
  storageProtocol : UInt64
  extractionVersion : UInt64
  phase : String
  projectIdentity : String
  checksum : String
  deriving DecidableEq

/-- A plain wire slot has a known phase and two well encoded digests. -/
def WireSlot.plain (wire : WireSlot) : Prop :=
  (∃ phase : StatePhase, wire.phase = phase.asWire) ∧
    isLowercaseSha256 wire.projectIdentity = true ∧ isLowercaseSha256 wire.checksum = true

/-- The slots pass through a hash and a JSON codec that read back what they wrote. -/
structure Codec where
  digest : ByteArray → List UInt8
  digestWidth : ∀ content, (digest content).length = 32
  toVec : WireSlot → Except String ByteArray
  fromSlice : ByteArray → Except String WireSlot
  readBack : ∀ wire : WireSlot, wire.plain →
    ∃ bytes, toVec wire = .ok bytes ∧ fromSlice bytes = .ok wire

def Codec.hashContent (codec : Codec) (content : String) : String :=
  hexLower (codec.digest content.toUTF8)

theorem Codec.hashContent_isLowercaseSha256 (codec : Codec) (content : String) :
    isLowercaseSha256 (codec.hashContent content) = true :=
  hexLower_isLowercaseSha256 _ (codec.digestWidth _)

/-- The digest covers a fixed field order that ends every line with one line feed. -/
def canonicalChecksumPayload (sequence storageProtocol extractionVersion : UInt64)
    (phase projectIdentity : String) : String :=
  checksumDomain ++ "\nsequence=" ++ toString sequence ++
    "\nstorageProtocol=" ++ toString storageProtocol ++
    "\nextractionVersion=" ++ toString extractionVersion ++
    "\nphase=" ++ phase ++ "\nprojectIdentity=" ++ projectIdentity ++ "\n"

def Codec.checksumHex (codec : Codec) (sequence storageProtocol extractionVersion : UInt64)
    (phase projectIdentity : String) : String :=
  codec.hashContent
    (canonicalChecksumPayload sequence storageProtocol extractionVersion phase projectIdentity)

/-- The paths of one project carry its owner identity, which is itself a digest. -/
structure IndexPaths where
  currentRoot : String
  projectIdentity : String
  identityEncoded : isLowercaseSha256 projectIdentity = true

def IndexPaths.stateSlots (paths : IndexPaths) (index : Fin 2) : String :=
  paths.currentRoot ++ "/index-state." ++ toString index.val ++ ".json"

/-- A valid record has a phase, and a record of a later protocol may have none. -/
structure StateSlotRecord where
  sequence : UInt64
  storageProtocol : UInt64
  extractionVersion : UInt64
  phase : Option StatePhase
  phaseRaw : String
  projectIdentity : String
  checksum : String
  deriving DecidableEq

inductive CorruptReason where
  | unreadableSlot (slot : Fin 2) (path detail : String)
  | notARegularFile (slot : Fin 2) (path kind : String)
  | slotChangedDuringRead (slot : Fin 2) (path detail : String)
  | malformedJson (slot : Fin 2) (path detail : String)
  | invalidOwnerEncoding (slot : Fin 2) (path found : String)
  | invalidChecksumEncoding (slot : Fin 2) (path found : String)
  | unknownPhase (slot : Fin 2) (path phase : String)
  | checksumMismatch (slot : Fin 2) (path expected found : String)
  | unsupportedStorageProtocol (slot : Fin 2) (path : String) (found supported : UInt64)
  | ownerMismatch (slot : Fin 2) (path expected found : String)
  | equalSequence (sequence : UInt64) (identicalPayload : Bool)
  | sequenceExhausted (sequence : UInt64)
  deriving DecidableEq

inductive ExtractionStatus where
  | current
  | building (built : UInt64)
  | uninitialized
  | missing
  | outdated (built : UInt64)
  | future (built : UInt64)
  | corrupt (reason : CorruptReason)
  deriving DecidableEq

inductive SlotOutcome where
  | absent
  | valid (record : StateSlotRecord)
  | futureProtocol (record : StateSlotRecord)
  | invalid (reason : CorruptReason)
  deriving DecidableEq

structure AuthoritativeSlot where
  index : Fin 2
  path : String
  record : StateSlotRecord
  deriving DecidableEq

structure IndexStateClassification where
  status : ExtractionStatus
  authoritative : Option AuthoritativeSlot
  slots : Fin 2 → SlotOutcome

/-- A present slot path names a readable file, or one that the reader must refuse. -/
inductive SlotEntry where
  | regular (bytes : ByteArray)
  | nonRegular (kind : String)
  | unreadable (detail : String)
  | replaced (detail : String)

inductive RawSlot where
  | absent
  | invalid (reason : CorruptReason)
  | parsed (wire : WireSlot) (bytes : ByteArray)

/-- The reader accepts only a regular file that stays in place and parses. -/
def readSlot (codec : Codec) (paths : IndexPaths) (index : Fin 2) : Option SlotEntry → RawSlot
  | none => .absent
  | some (.nonRegular kind) => .invalid (.notARegularFile index (paths.stateSlots index) kind)
  | some (.unreadable detail) => .invalid (.unreadableSlot index (paths.stateSlots index) detail)
  | some (.replaced detail) =>
    .invalid (.slotChangedDuringRead index (paths.stateSlots index) detail)
  | some (.regular bytes) =>
    match codec.fromSlice bytes with
    | .ok wire => .parsed wire bytes
    | .error detail => .invalid (.malformedJson index (paths.stateSlots index) detail)

def WireSlot.record (wire : WireSlot) : StateSlotRecord where
  sequence := wire.sequence
  storageProtocol := wire.storageProtocol
  extractionVersion := wire.extractionVersion
  phase := StatePhase.fromWire wire.phase
  phaseRaw := wire.phase
  projectIdentity := wire.projectIdentity
  checksum := wire.checksum

/-- The stable fields are checked before the protocol and its phases are trusted. -/
def validateParsed (codec : Codec) (index : Fin 2) (path : String) (wire : WireSlot)
    (ownerIdentity : String) : SlotOutcome :=
  let expected := codec.checksumHex wire.sequence wire.storageProtocol wire.extractionVersion
    wire.phase wire.projectIdentity
  if isLowercaseSha256 wire.projectIdentity = false then
    .invalid (.invalidOwnerEncoding index path wire.projectIdentity)
  else if isLowercaseSha256 wire.checksum = false then
    .invalid (.invalidChecksumEncoding index path wire.checksum)
  else if expected ≠ wire.checksum then
    .invalid (.checksumMismatch index path expected wire.checksum)
  else if wire.projectIdentity ≠ ownerIdentity then
    .invalid (.ownerMismatch index path ownerIdentity wire.projectIdentity)
  else if wire.storageProtocol < currentStorageProtocol then
    .invalid (.unsupportedStorageProtocol index path wire.storageProtocol currentStorageProtocol)
  else if currentStorageProtocol < wire.storageProtocol then
    .futureProtocol wire.record
  else if (StatePhase.fromWire wire.phase).isNone then
    .invalid (.unknownPhase index path wire.phase)
  else
    .valid wire.record

def observe (codec : Codec) (index : Fin 2) (path : String) (raw : RawSlot) (ownerIdentity : String) :
    SlotOutcome :=
  match raw with
  | .absent => .absent
  | .invalid reason => .invalid reason
  | .parsed wire _ => validateParsed codec index path wire ownerIdentity

def SlotOutcome.validRecord : SlotOutcome → Option StateSlotRecord
  | .valid record => some record
  | _ => none

def SlotOutcome.futureRecord : SlotOutcome → Option StateSlotRecord
  | .futureProtocol record => some record
  | _ => none

/-- A validated record belongs to the current protocol or to a later one. -/
def SlotOutcome.validatedRecord : SlotOutcome → Option StateSlotRecord
  | .valid record => some record
  | .futureProtocol record => some record
  | _ => none

def SlotOutcome.invalidReason : SlotOutcome → Option CorruptReason
  | .invalid reason => some reason
  | _ => none

/-- The slot with the highest sequence wins, and slot zero wins a tie. -/
def pickHighest (outcomes : Fin 2 → SlotOutcome) (slots : Fin 2 → String)
    (select : SlotOutcome → Option StateSlotRecord) : Option AuthoritativeSlot :=
  let slot (index : Fin 2) : Option AuthoritativeSlot :=
    (select (outcomes index)).map fun record => ⟨index, slots index, record⟩
  match slot 0, slot 1 with
  | none, second => second
  | first, none => first
  | some first, some second =>
    if first.record.sequence < second.record.sequence then some second else some first

def identicalPayload : RawSlot → RawSlot → Bool
  | .parsed _ left, .parsed _ right => left = right
  | _, _ => false

/-- The status of an authority follows its protocol, its version, and its phase. -/
def AuthoritativeSlot.status (authority : AuthoritativeSlot) : ExtractionStatus :=
  let built := authority.record.extractionVersion
  if currentStorageProtocol < authority.record.storageProtocol ∨ currentExtractionVersion < built then
    .future built
  else if built < currentExtractionVersion then
    if authority.record.phase = some .uninitialized then .uninitialized else .outdated built
  else
    match authority.record.phase with
    | some .current => .current
    | some .building => .building built
    | some .uninitialized => .uninitialized
    | none => .corrupt (.unknownPhase authority.index authority.path authority.record.phaseRaw)

/-- Two validated records at one sequence have no reconstructible history. -/
def equalSequence (raw : Fin 2 → RawSlot) (outcomes : Fin 2 → SlotOutcome) : Option CorruptReason :=
  match (outcomes 0).validatedRecord, (outcomes 1).validatedRecord with
  | some first, some second =>
    if first.sequence = second.sequence then
      some (.equalSequence first.sequence (identicalPayload (raw 0) (raw 1)))
    else none
  | _, _ => none

/-- The authority of two validated slots is the highest future record, or the highest current one. -/
def authorityOf (outcomes : Fin 2 → SlotOutcome) (slots : Fin 2 → String) : Option AuthoritativeSlot :=
  match pickHighest outcomes slots SlotOutcome.futureRecord with
  | some future => some future
  | none => pickHighest outcomes slots SlotOutcome.validRecord

def classifyRaw (codec : Codec) (raw : Fin 2 → RawSlot) (slots : Fin 2 → String) (ownerIdentity : String) :
    IndexStateClassification :=
  let outcomes (index : Fin 2) := observe codec index (slots index) (raw index) ownerIdentity
  match (outcomes 0).invalidReason, (outcomes 1).invalidReason with
  | some reason, _ => ⟨.corrupt reason, none, outcomes⟩
  | none, some reason => ⟨.corrupt reason, none, outcomes⟩
  | none, none =>
    match equalSequence raw outcomes with
    | some reason => ⟨.corrupt reason, none, outcomes⟩
    | none =>
      match authorityOf outcomes slots with
      -- No validated slot remains exactly when both slots are absent.
      | none => ⟨.missing, none, outcomes⟩
      | some authority =>
        if authority.record.sequence = maxSequence then
          ⟨.corrupt (.sequenceExhausted authority.record.sequence), some authority, outcomes⟩
        else
          ⟨authority.status, some authority, outcomes⟩

/-- The classifier reads only the two fixed slots. -/
def classify (codec : Codec) (paths : IndexPaths) (slots : Fin 2 → Option SlotEntry) :
    IndexStateClassification :=
  classifyRaw codec (fun index => readSlot codec paths index (slots index)) paths.stateSlots
    paths.projectIdentity

end Codegraph.Store
