import Codegraph.Store.PublicationRun

/- This file says which pairs of slots a reader trusts, and what a publication leaves for the next reader. -/

namespace Codegraph.Store
open Interruptible

variable {codec : Codec} {raw : Fin 2 → RawSlot} {places : Fin 2 → String} {owner : String}

def RawSlot.wire : RawSlot → Option WireSlot
  | .parsed wire _ => some wire
  | _ => none

/-- A sound slot passes every check, and a later protocol may spell its phase as it likes. -/
structure WireSlot.Sound (codec : Codec) (owner : String) (wire : WireSlot) : Prop where
  ownerEncoded : isLowercaseSha256 wire.projectIdentity = true
  checksumEncoded : isLowercaseSha256 wire.checksum = true
  checksumMatches : codec.checksumHex wire.sequence wire.storageProtocol wire.extractionVersion
    wire.phase wire.projectIdentity = wire.checksum
  owned : wire.projectIdentity = owner
  supported : currentStorageProtocol ≤ wire.storageProtocol
  phaseKnown : wire.storageProtocol = currentStorageProtocol → (StatePhase.fromWire wire.phase).isSome = true

/-- A sound slot is accepted under its own protocol. -/
theorem WireSlot.Sound.validateParsed_eq {wire : WireSlot} (sound : wire.Sound codec owner)
    (index : Fin 2) (path : String) : validateParsed codec index path wire owner =
      if currentStorageProtocol < wire.storageProtocol then .futureProtocol wire.record
      else .valid wire.record := by
  have supported : ¬ wire.storageProtocol < currentStorageProtocol := UInt64.not_lt.mpr sound.supported
  simp only [validateParsed]
  rw [if_neg (by simp [sound.ownerEncoded]), if_neg (by simp [sound.checksumEncoded]),
    if_neg (not_not.mpr sound.checksumMatches), if_neg (not_not.mpr sound.owned), if_neg supported]
  by_cases above : currentStorageProtocol < wire.storageProtocol
  · rw [if_pos above, if_pos above]
  · have known := sound.phaseKnown (UInt64.le_antisymm (UInt64.not_lt.mp above) sound.supported)
    rw [if_neg above, if_neg above, if_neg (by simpa [Option.isSome_iff_ne_none] using known)]

/-- A slot that fails one check is invalid. -/
theorem validateParsed_unsound {wire : WireSlot} (unsound : ¬ wire.Sound codec owner)
    (index : Fin 2) (path : String) : ∃ reason, validateParsed codec index path wire owner = .invalid reason := by
  simp only [validateParsed]
  split
  · exact ⟨_, rfl⟩
  split
  · exact ⟨_, rfl⟩
  split
  · exact ⟨_, rfl⟩
  split
  · exact ⟨_, rfl⟩
  split
  · exact ⟨_, rfl⟩
  rename_i ownerEncoded checksumEncoded checksumMatches owned supported
  split
  · rename_i above
    refine absurd ⟨by simpa using ownerEncoded, by simpa using checksumEncoded, by simpa using checksumMatches,
      by simpa using owned, UInt64.not_lt.mp supported, ?_⟩ unsound
    intro level
    exact absurd (level ▸ above) (UInt64.lt_irrefl _)
  split
  · exact ⟨_, rfl⟩
  · rename_i known
    refine absurd ⟨by simpa using ownerEncoded, by simpa using checksumEncoded, by simpa using checksumMatches,
      by simpa using owned, UInt64.not_lt.mp supported, ?_⟩ unsound
    intro _
    simpa [Option.isSome_iff_ne_none] using known

/-- An observation keeps its meaning in the other slot, and only its reasons name the slot. -/
inductive Meaning (codec : Codec) (owner : String) (slot : RawSlot) : Prop
  | absent (seen : ∀ index path, observe codec index path slot owner = .absent) (missing : slot.wire = none)
      (readable : ∀ reason, slot ≠ .invalid reason)
  | valid (wire : WireSlot) (parsed : slot.wire = some wire) (sound : wire.Sound codec owner)
      (level : ¬ currentStorageProtocol < wire.storageProtocol)
      (seen : ∀ index path, observe codec index path slot owner = .valid wire.record)
  | later (wire : WireSlot) (parsed : slot.wire = some wire) (sound : wire.Sound codec owner)
      (above : currentStorageProtocol < wire.storageProtocol)
      (seen : ∀ index path, observe codec index path slot owner = .futureProtocol wire.record)
  | invalid (seen : ∀ index path, ∃ reason, observe codec index path slot owner = .invalid reason)
      (defect : (∃ reason, slot = .invalid reason) ∨ ∃ wire, slot.wire = some wire ∧ ¬ wire.Sound codec owner)

/-- Every observation of a slot means what the slot holds. -/
theorem observe_meaning (codec : Codec) (owner : String) (slot : RawSlot) : Meaning codec owner slot := by
  cases slot with
  | absent => exact .absent (fun _ _ => rfl) rfl (by simp)
  | invalid reason => exact .invalid (fun _ _ => ⟨reason, rfl⟩) (.inl ⟨reason, rfl⟩)
  | parsed wire bytes =>
    by_cases sound : wire.Sound codec owner
    · by_cases above : currentStorageProtocol < wire.storageProtocol
      · apply Meaning.later wire rfl sound above
        intro index path
        simp only [observe, sound.validateParsed_eq, if_pos above]
      · apply Meaning.valid wire rfl sound above
        intro index path
        simp only [observe, sound.validateParsed_eq, if_neg above]
    · exact .invalid (fun index path => validateParsed_unsound sound index path) (.inr ⟨wire, rfl, sound⟩)

/-- The higher of two records wins, and the first one wins a tie. -/
def higher : Option StateSlotRecord → Option StateSlotRecord → Option StateSlotRecord
  | none, second => second
  | first, none => first
  | some first, some second => if first.sequence < second.sequence then some second else some first

theorem pickHighest_record (outcomes : Fin 2 → SlotOutcome) (select : SlotOutcome → Option StateSlotRecord) :
    (pickHighest outcomes places select).map AuthoritativeSlot.record =
      higher (select (outcomes 0)) (select (outcomes 1)) := by
  rcases first : select (outcomes 0) with _ | left <;> rcases second : select (outcomes 1) with _ | right
  · simp [pickHighest, first, second, higher]
  · simp [pickHighest, first, second, higher]
  · simp [pickHighest, first, second, higher]
  · simp only [pickHighest, first, second, higher, Option.map_some]
    split <;> rfl

theorem higher_comm {first second : Option StateSlotRecord}
    (distinct : ∀ left right, first = some left → second = some right → left.sequence ≠ right.sequence) :
    higher first second = higher second first := by
  rcases first with _ | left <;> rcases second with _ | right
  · rfl
  · rfl
  · rfl
  · simp only [higher]
    rcases UInt64.lt_or_lt_of_ne (distinct left right rfl rfl) with below | above
    · rw [if_pos below, if_neg (UInt64.lt_asymm below)]
    · rw [if_neg (UInt64.lt_asymm above), if_pos above]

/-- Two verdicts agree when they are equal or both corrupt. -/
def ExtractionStatus.agrees : ExtractionStatus → ExtractionStatus → Prop
  | .corrupt _, .corrupt _ => True
  | left, right => left = right

theorem ExtractionStatus.agrees_refl (status : ExtractionStatus) : status.agrees status := by
  cases status <;> first | rfl | trivial

/-- The status of an authority does not depend on the slot that holds it. -/
theorem standingStatus_agrees {first second : AuthoritativeSlot} (same : first.record = second.record) :
    (standingStatus first).agrees (standingStatus second) := by
  simp only [standingStatus, AuthoritativeSlot.status, same]
  split
  · trivial
  split
  · rfl
  split
  · exact ExtractionStatus.agrees_refl _
  · rcases second.record.phase with _ | phase
    · trivial
    · cases phase <;> rfl

/-- The observed pair decides the classification. -/
def seen (codec : Codec) (raw : Fin 2 → RawSlot) (places : Fin 2 → String) (owner : String) (index : Fin 2) :
    SlotOutcome :=
  observe codec index (places index) (raw index) owner

/-- An invalid slot makes the namespace corrupt. -/
theorem classifyRaw_invalid {index : Fin 2} {reason : CorruptReason}
    (invalid : seen codec raw places owner index = .invalid reason) :
    ∃ reason, (classifyRaw codec raw places owner).status = .corrupt reason := by
  rcases first : (seen codec raw places owner 0).invalidReason with _ | found
  · have second : (seen codec raw places owner 1).invalidReason = some reason := by
      rcases slot_cases 0 index with rfl | rfl
      · simp [invalid, SlotOutcome.invalidReason] at first
      · change seen codec raw places owner 1 = _ at invalid
        rw [invalid]
        rfl
    simp only [seen] at first second
    exact ⟨reason, by simp only [classifyRaw, first, second]⟩
  · simp only [seen] at first
    exact ⟨found, by simp only [classifyRaw, first]⟩

theorem classifyRaw_duplicate {reason : CorruptReason}
    (sound : ∀ index, (seen codec raw places owner index).invalidReason = none)
    (duplicate : equalSequence raw (seen codec raw places owner) = some reason) :
    (classifyRaw codec raw places owner).status = .corrupt reason := by
  have first := sound 0
  have second := sound 1
  change equalSequence raw (fun index => seen codec raw places owner index) = _ at duplicate
  simp only [seen] at first second duplicate
  simp only [classifyRaw, first, second, duplicate]

/-- Without a defect the authority decides, and two absent slots have none. -/
def settledStatus : Option AuthoritativeSlot → ExtractionStatus
  | none => .missing
  | some authority => standingStatus authority

/-- Two sound slots of different sequences settle the status by the authority. -/
theorem classifyRaw_settled (sound : ∀ index, (seen codec raw places owner index).invalidReason = none)
    (distinct : equalSequence raw (seen codec raw places owner) = none) : (classifyRaw codec raw places owner).status =
      settledStatus (authorityOf (seen codec raw places owner) places) := by
  have first := sound 0
  have second := sound 1
  change equalSequence raw (fun index => seen codec raw places owner index) = _ at distinct
  change _ = settledStatus (authorityOf (fun index => seen codec raw places owner index) places)
  simp only [seen] at first second distinct ⊢
  simp only [classifyRaw, first, second, distinct]
  rcases authorityOf _ places with _ | authority
  · rfl
  · simp only [settledStatus, standingStatus]
    split <;> rfl

/-- A pair that is not corrupt has no defect and no duplicated sequence. -/
theorem classifyRaw_sound (intact : ∀ reason, (classifyRaw codec raw places owner).status ≠ .corrupt reason) :
    (∀ index, (seen codec raw places owner index).invalidReason = none) ∧
      equalSequence raw (seen codec raw places owner) = none := by
  have sound (index : Fin 2) : (seen codec raw places owner index).invalidReason = none := by
    rcases outcome : seen codec raw places owner index with _ | record | record | reason
    · rfl
    · rfl
    · rfl
    · obtain ⟨found, corrupt⟩ := classifyRaw_invalid outcome
      exact absurd corrupt (intact found)
  refine ⟨sound, ?_⟩
  rcases duplicate : equalSequence raw (seen codec raw places owner) with _ | reason
  · rfl
  · exact absurd (classifyRaw_duplicate sound duplicate) (intact reason)

/-- A reader trusts a pair whose newest record was finished by this very version. -/
structure Trusted (codec : Codec) (raw : Fin 2 → RawSlot) (owner : String) : Prop where
  readable : ∀ index reason, raw index ≠ .invalid reason
  sound : ∀ index wire, (raw index).wire = some wire → wire.Sound codec owner
  supported : ∀ index wire, (raw index).wire = some wire → ¬ currentStorageProtocol < wire.storageProtocol
  distinct : ∀ first second, (raw 0).wire = some first → (raw 1).wire = some second →
    first.sequence ≠ second.sequence
  newest : ∃ index wire, (raw index).wire = some wire ∧
    (∀ other prior, (raw other).wire = some prior → prior.sequence ≤ wire.sequence) ∧
    wire.sequence < maxSequence ∧ wire.extractionVersion = currentExtractionVersion ∧ wire.phase = "current"

/-- Only a finished record of this version and protocol below the last sequence has the status current. -/
theorem standingStatus_current {authority : AuthoritativeSlot} :
    standingStatus authority = .current ↔ authority.record.sequence ≠ maxSequence ∧
      ¬ currentStorageProtocol < authority.record.storageProtocol ∧
      authority.record.extractionVersion = currentExtractionVersion ∧
      authority.record.phase = some .current := by
  simp only [standingStatus, AuthoritativeSlot.status]
  split
  · rename_i exhausted
    simp [exhausted]
  rename_i room
  split
  · rename_i future
    simp only [reduceCtorEq, false_iff, not_and]
    intro _ level version
    rcases future with above | newer
    · exact absurd above level
    · exact absurd (version ▸ newer) (UInt64.lt_irrefl _)
  rename_i present
  split
  · rename_i older
    have different : authority.record.extractionVersion ≠ currentExtractionVersion := UInt64.ne_of_lt older
    split <;> simp [different]
  · rename_i notOlder
    have version : authority.record.extractionVersion = currentExtractionVersion :=
      UInt64.le_antisymm (UInt64.not_lt.mp fun newer => present (.inr newer)) (UInt64.not_lt.mp notOlder)
    have level : ¬ currentStorageProtocol < authority.record.storageProtocol := fun above => present (.inl above)
    rcases authority.record.phase with _ | phase
    · simp
    · cases phase <;> simp [room, level, version]

theorem le_maxSequence (sequence : UInt64) : sequence ≤ maxSequence := by
  have bound := sequence.toNat_lt
  have value : maxSequence.toNat = 2 ^ 64 - 1 := rfl
  rw [UInt64.le_iff_toNat_le, value]
  omega

theorem StatePhase.fromWire_current {value : String} :
    StatePhase.fromWire value = some .current ↔ value = "current" := by
  simp only [StatePhase.fromWire]
  split
  · rename_i building
    simp [building]
  split
  · rename_i current
    simp [current]
  · rename_i other
    split <;> simp [other]

/-- The records of a trusted pair are valid, and no later protocol joins them. -/
theorem Trusted.seen_eq (trusted : Trusted codec raw owner) (index : Fin 2) :
    seen codec raw places owner index = match (raw index).wire with
      | none => .absent
      | some wire => .valid wire.record := by
  cases observe_meaning codec owner (raw index) with
  | absent observed missing _ => simp only [seen, observed, missing]
  | valid wire parsed _ _ observed => simp only [seen, observed, parsed]
  | later wire parsed _ above _ => exact absurd above (trusted.supported index wire parsed)
  | invalid _ defect =>
    rcases defect with ⟨reason, unreadable⟩ | ⟨wire, parsed, unsound⟩
    · exact absurd unreadable (trusted.readable index reason)
    · exact absurd (trusted.sound index wire parsed) unsound

theorem Trusted.validRecord_eq (trusted : Trusted codec raw owner) (index : Fin 2) :
    (seen codec raw places owner index).validRecord = (raw index).wire.map WireSlot.record ∧
      (seen codec raw places owner index).validatedRecord = (raw index).wire.map WireSlot.record ∧
      (seen codec raw places owner index).futureRecord = none ∧
      (seen codec raw places owner index).invalidReason = none := by
  rw [trusted.seen_eq]
  cases (raw index).wire with
  | none => exact ⟨rfl, rfl, rfl, rfl⟩
  | some wire => exact ⟨rfl, rfl, rfl, rfl⟩

/-- A trusted pair classifies as current. -/
theorem Trusted.status_eq (trusted : Trusted codec raw owner) :
    (classifyRaw codec raw places owner).status = .current := by
  have distinct : equalSequence raw (seen codec raw places owner) = none := by
    apply equalSequence_none
    intro left right first second
    rw [(trusted.validRecord_eq 0).2.1, Option.map_eq_some_iff] at first
    rw [(trusted.validRecord_eq 1).2.1, Option.map_eq_some_iff] at second
    obtain ⟨before, parsed, rfl⟩ := first
    obtain ⟨after, next, rfl⟩ := second
    exact trusted.distinct before after parsed next
  rw [classifyRaw_settled (fun index => (trusted.validRecord_eq index).2.2.2) distinct]
  obtain ⟨index, wire, parsed, highest, room, version, phase⟩ := trusted.newest
  have selected : (seen codec raw places owner index).validRecord = some wire.record := by
    rw [(trusted.validRecord_eq index).1, parsed]
    rfl
  have above : ∀ prior, (seen codec raw places owner (1 - index)).validRecord = some prior →
      prior.sequence < wire.record.sequence := by
    intro prior chosen
    rw [(trusted.validRecord_eq _).1, Option.map_eq_some_iff] at chosen
    obtain ⟨other, found, rfl⟩ := chosen
    apply UInt64.lt_of_le_of_ne (highest (1 - index) other found)
    rcases slot_cases 0 index with rfl | rfl
    · exact (trusted.distinct wire other parsed found).symm
    · exact trusted.distinct other wire found parsed
  rw [authorityOf, pickHighest_none fun candidate => (trusted.validRecord_eq candidate).2.2.1]
  simp only [pickHighest_eq selected above, settledStatus]
  exact standingStatus_current.mpr ⟨UInt64.ne_of_lt room, trusted.supported index wire parsed, version,
    StatePhase.fromWire_current.mpr phase⟩

/-- The chosen record is at least as new as every selected one. -/
theorem pickHighest_le {outcomes : Fin 2 → SlotOutcome} {select : SlotOutcome → Option StateSlotRecord}
    {authority : AuthoritativeSlot} (chosen : pickHighest outcomes places select = some authority)
    {index : Fin 2} {record : StateSlotRecord} (selected : select (outcomes index) = some record) :
    record.sequence ≤ authority.record.sequence := by
  have won : higher (select (outcomes 0)) (select (outcomes 1)) = some authority.record := by
    rw [← @pickHighest_record places, chosen]
    rfl
  rcases slot_cases 0 index with rfl | rfl
  · rw [selected] at won
    rcases second : select (outcomes 1) with _ | right
    · rw [second] at won
      cases won
      exact UInt64.le_refl _
    · rw [second] at won
      simp only [higher] at won
      split at won
      · rename_i below
        cases won
        exact UInt64.le_of_lt below
      · cases won
        exact UInt64.le_refl _
  · change select (outcomes 1) = some record at selected
    rw [selected] at won
    rcases first : select (outcomes 0) with _ | left
    · rw [first] at won
      cases won
      exact UInt64.le_refl _
    · rw [first] at won
      simp only [higher] at won
      split at won
      · cases won
        exact UInt64.le_refl _
      · rename_i notBelow
        cases won
        exact UInt64.not_lt.mp notBelow

/-- The status current leaves no room for a record of a later protocol. -/
theorem current_supported {authority : AuthoritativeSlot}
    (chosen : authorityOf (seen codec raw places owner) places = some authority)
    (level : ¬ currentStorageProtocol < authority.record.storageProtocol) (index : Fin 2) :
    (seen codec raw places owner index).futureRecord = none := by
  rcases future : pickHighest (seen codec raw places owner) places SlotOutcome.futureRecord with _ | later
  · exact pickHighest_unselected future index
  · rw [authorityOf, future, Option.some.injEq] at chosen
    subst chosen
    have selected := pickHighest_selected future
    cases observe_meaning codec owner (raw later.index) with
    | absent observed _ _ => simp [seen, observed, SlotOutcome.futureRecord] at selected
    | valid wire _ _ _ observed => simp [seen, observed, SlotOutcome.futureRecord] at selected
    | later wire _ _ above observed =>
      simp only [seen, observed, SlotOutcome.futureRecord, Option.some.injEq] at selected
      exact absurd (selected ▸ above) level
    | invalid observed _ =>
      obtain ⟨reason, invalid⟩ := observed later.index (places later.index)
      simp [seen, invalid, SlotOutcome.futureRecord] at selected

/-- A parsed slot of a pair without defects and without a later protocol is sound and valid. -/
theorem seen_wire {index : Fin 2} {wire : WireSlot} (sound : (seen codec raw places owner index).invalidReason = none)
    (present : (seen codec raw places owner index).futureRecord = none) (parsed : (raw index).wire = some wire) :
    wire.Sound codec owner ∧ ¬ currentStorageProtocol < wire.storageProtocol ∧
      seen codec raw places owner index = .valid wire.record := by
  cases observe_meaning codec owner (raw index) with
  | absent _ missing _ => simp [missing] at parsed
  | valid found stored whole level observed =>
    rw [stored, Option.some.injEq] at parsed
    subst parsed
    exact ⟨whole, level, observed _ _⟩
  | later found _ _ _ observed => simp [seen, observed, SlotOutcome.futureRecord] at present
  | invalid observed _ =>
    obtain ⟨reason, invalid⟩ := observed index (places index)
    simp [seen, invalid, SlotOutcome.invalidReason] at sound

/-- What is current can be trusted. -/
theorem trusted_of_current (current : (classifyRaw codec raw places owner).status = .current) :
    Trusted codec raw owner := by
  obtain ⟨sound, distinct⟩ := classifyRaw_sound fun reason corrupt => by
    rw [current] at corrupt
    cases corrupt
  rw [classifyRaw_settled sound distinct] at current
  rcases chosen : authorityOf (seen codec raw places owner) places with _ | authority
  · simp [chosen, settledStatus] at current
  rw [chosen, settledStatus, standingStatus_current] at current
  obtain ⟨room, level, version, phase⟩ := current
  have present := current_supported chosen level
  have validated (index : Fin 2) (wire : WireSlot) (parsed : (raw index).wire = some wire) :=
    seen_wire (sound index) (present index) parsed
  have highest : pickHighest (seen codec raw places owner) places SlotOutcome.validRecord = some authority := by
    rwa [authorityOf, pickHighest_none present] at chosen
  refine ⟨?_, fun index wire parsed => (validated index wire parsed).1,
    fun index wire parsed => (validated index wire parsed).2.1, ?_, ?_⟩
  · intro index reason unreadable
    have defect := sound index
    simp [seen, unreadable, observe, SlotOutcome.invalidReason] at defect
  · intro first second left right same
    rw [equalSequence, (validated 0 first left).2.2, (validated 1 second right).2.2] at distinct
    simp [SlotOutcome.validatedRecord, WireSlot.record, same] at distinct
  · have selected := pickHighest_selected highest
    cases observe_meaning codec owner (raw authority.index) with
    | absent observed _ _ => simp [seen, observed, SlotOutcome.validRecord] at selected
    | later wire _ _ _ observed => simp [seen, observed, SlotOutcome.validRecord] at selected
    | invalid observed _ =>
      obtain ⟨reason, invalid⟩ := observed authority.index (places authority.index)
      simp [seen, invalid, SlotOutcome.validRecord] at selected
    | valid wire parsed whole _ observed =>
      simp only [seen, observed, SlotOutcome.validRecord, Option.some.injEq] at selected
      rw [← selected] at room version phase
      refine ⟨authority.index, wire, parsed, ?_, ?_, version, StatePhase.fromWire_current.mp phase⟩
      · intro other prior found
        have chosenRecord : (seen codec raw places owner other).validRecord = some prior.record := by
          rw [(validated other prior found).2.2]
          rfl
        have below := pickHighest_le highest chosenRecord
        rwa [← selected] at below
      · exact UInt64.lt_of_le_of_ne (le_maxSequence _) room

/-- The two slots hold each other's contents. -/
def exchanged (raw : Fin 2 → RawSlot) (index : Fin 2) : RawSlot := raw (1 - index)

/-- The records and the defects of a slot move with its contents. -/
theorem observe_moves (slot : RawSlot) (first second : Fin 2) (left right : String) :
    (observe codec first left slot owner).validRecord = (observe codec second right slot owner).validRecord ∧
      (observe codec first left slot owner).futureRecord = (observe codec second right slot owner).futureRecord ∧
      (observe codec first left slot owner).validatedRecord =
        (observe codec second right slot owner).validatedRecord ∧
      ((observe codec first left slot owner).invalidReason = none ↔
        (observe codec second right slot owner).invalidReason = none) := by
  cases observe_meaning codec owner slot with
  | absent observed _ _ => simp only [observed, and_self]
  | valid wire _ _ _ observed => simp only [observed, and_self]
  | later wire _ _ _ observed => simp only [observed, and_self]
  | invalid observed _ =>
    obtain ⟨before, was⟩ := observed first left
    obtain ⟨after, becomes⟩ := observed second right
    simp [was, becomes, SlotOutcome.validRecord, SlotOutcome.futureRecord, SlotOutcome.validatedRecord,
      SlotOutcome.invalidReason]

theorem equalSequence_eq_none {outcomes : Fin 2 → SlotOutcome} : equalSequence raw outcomes = none ↔
    ∀ first second, (outcomes 0).validatedRecord = some first → (outcomes 1).validatedRecord = some second →
      first.sequence ≠ second.sequence := by
  constructor
  · intro distinct first second left right same
    simp [equalSequence, left, right, same] at distinct
  · exact equalSequence_none

theorem SlotOutcome.validatedRecord_of_valid {outcome : SlotOutcome} {record : StateSlotRecord}
    (valid : outcome.validRecord = some record) : outcome.validatedRecord = some record := by
  cases outcome <;> simp_all [SlotOutcome.validRecord, SlotOutcome.validatedRecord]

theorem SlotOutcome.validatedRecord_of_future {outcome : SlotOutcome} {record : StateSlotRecord}
    (later : outcome.futureRecord = some record) : outcome.validatedRecord = some record := by
  cases outcome <;> simp_all [SlotOutcome.futureRecord, SlotOutcome.validatedRecord]

/-- The same record wins after the exchange. -/
theorem authorityOf_exchanged (distinct : equalSequence raw (seen codec raw places owner) = none) :
    (authorityOf (seen codec (exchanged raw) places owner) places).map AuthoritativeSlot.record =
      (authorityOf (seen codec raw places owner) places).map AuthoritativeSlot.record := by
  have apart := equalSequence_eq_none.mp distinct
  have moved (select : SlotOutcome → Option StateSlotRecord)
      (moves : ∀ slot first second left right, select (observe codec first left slot owner) =
        select (observe codec second right slot owner))
      (validated : ∀ outcome record, select outcome = some record → outcome.validatedRecord = some record) :
      (pickHighest (seen codec (exchanged raw) places owner) places select).map AuthoritativeSlot.record =
        (pickHighest (seen codec raw places owner) places select).map AuthoritativeSlot.record := by
    rw [pickHighest_record, pickHighest_record]
    have first : select (seen codec (exchanged raw) places owner 0) = select (seen codec raw places owner 1) :=
      moves (raw 1) _ _ _ _
    have second : select (seen codec (exchanged raw) places owner 1) = select (seen codec raw places owner 0) :=
      moves (raw 0) _ _ _ _
    rw [first, second]
    apply higher_comm
    intro left right before after
    exact (apart right left (validated _ _ after) (validated _ _ before)).symm
  have later := moved SlotOutcome.futureRecord (fun slot _ _ _ _ => (observe_moves slot _ _ _ _).2.1)
    fun _ _ => SlotOutcome.validatedRecord_of_future
  have valid := moved SlotOutcome.validRecord (fun slot _ _ _ _ => (observe_moves slot _ _ _ _).1)
    fun _ _ => SlotOutcome.validatedRecord_of_valid
  simp only [authorityOf]
  rcases before : pickHighest (seen codec raw places owner) places SlotOutcome.futureRecord with _ | future
  · rcases after : pickHighest (seen codec (exchanged raw) places owner) places SlotOutcome.futureRecord
      with _ | found
    · exact valid
    · simp [before, after] at later
  · rcases after : pickHighest (seen codec (exchanged raw) places owner) places SlotOutcome.futureRecord
      with _ | found
    · simp [before, after] at later
    · simpa [before, after] using later

/-- The verdict does not depend on which slot holds which contents. -/
theorem classifyRaw_exchanged (codec : Codec) (raw : Fin 2 → RawSlot) (places : Fin 2 → String) (owner : String) :
    (classifyRaw codec (exchanged raw) places owner).status.agrees
      (classifyRaw codec raw places owner).status := by
  have moves (index : Fin 2) := @observe_moves codec owner (raw (1 - index)) index (1 - index)
    (places index) (places (1 - index))
  by_cases sound : ∀ index, (seen codec raw places owner index).invalidReason = none
  · have kept (index : Fin 2) : (seen codec (exchanged raw) places owner index).invalidReason = none :=
      (moves index).2.2.2.mpr (sound (1 - index))
    rcases duplicate : equalSequence raw (seen codec raw places owner) with _ | reason
    · have distinct : equalSequence (exchanged raw) (seen codec (exchanged raw) places owner) = none := by
        apply equalSequence_none
        intro left right first second
        rw [seen, exchanged, (moves 0).2.2.1] at first
        rw [seen, exchanged, (moves 1).2.2.1] at second
        exact (equalSequence_eq_none.mp duplicate right left second first).symm
      rw [classifyRaw_settled sound duplicate, classifyRaw_settled kept distinct]
      have same := authorityOf_exchanged duplicate
      rcases before : authorityOf (seen codec raw places owner) places with _ | authority
        <;> rcases after : authorityOf (seen codec (exchanged raw) places owner) places with _ | found
      · rfl
      · simp [before, after] at same
      · simp [before, after] at same
      · simp only [before, after, Option.map_some, Option.some.injEq] at same
        exact standingStatus_agrees same
    · rcases again : equalSequence (exchanged raw) (seen codec (exchanged raw) places owner) with _ | found
      · have distinct : equalSequence raw (seen codec raw places owner) = none := by
          apply equalSequence_none
          intro left right first second
          have apart := equalSequence_eq_none.mp again right left
          rw [seen, exchanged, (moves 0).2.2.1, seen, exchanged, (moves 1).2.2.1] at apart
          exact (apart second first).symm
        rw [distinct] at duplicate
        cases duplicate
      · rw [classifyRaw_duplicate sound duplicate, classifyRaw_duplicate kept again]
        trivial
  · have corrupt {contents : Fin 2 → RawSlot}
        (unsound : ¬ ∀ index, (seen codec contents places owner index).invalidReason = none) :
        ∃ reason, (classifyRaw codec contents places owner).status = .corrupt reason := by
      by_contra intact
      exact unsound (classifyRaw_sound fun reason found => intact ⟨reason, found⟩).1
    have again : ¬ ∀ index, (seen codec (exchanged raw) places owner index).invalidReason = none := by
      intro kept
      apply sound
      intro index
      have back := (@observe_moves codec owner (raw index) (1 - index) index
        (places (1 - index)) (places index)).2.2.2
      apply back.mp
      have held := kept (1 - index)
      have twice : (1 - (1 - index) : Fin 2) = index := by omega
      simp only [seen, exchanged] at held
      rwa [twice] at held
    obtain ⟨before, was⟩ := corrupt sound
    obtain ⟨after, becomes⟩ := corrupt again
    rw [was, becomes]
    trivial

/-- The status current is exactly trust in the pair, and no verdict depends on the order of the slots. -/
theorem current_iff_trusted (codec : Codec) (raw : Fin 2 → RawSlot) (places : Fin 2 → String) (owner : String) :
    ((classifyRaw codec raw places owner).status = .current ↔ Trusted codec raw owner) ∧
      (classifyRaw codec (exchanged raw) places owner).status.agrees
        (classifyRaw codec raw places owner).status :=
  ⟨⟨trusted_of_current, Trusted.status_eq⟩, classifyRaw_exchanged codec raw places owner⟩

section Publishing

variable {paths : IndexPaths} {lease : IndexLease} {phase : StatePhase} {fault : PublishFault}
  {slots : Fin 2 → Option SlotEntry} {plan : PublicationPlan}

/-- The next reader finds the published record under the status of its phase. -/
def PublishedState.ReadsBack (codec : Codec) (paths : IndexPaths) (phase : StatePhase) (published : PublishedState)
    (after : SlotFiles) : Prop :=
  (classify codec paths after.slots).authoritative =
      some ⟨published.slot, paths.stateSlots published.slot, published.record⟩ ∧
    (classify codec paths after.slots).status = phase.status

/-- The last sequence that still has a successor. -/
def penultimateSequence : UInt64 := maxSequence - 1

/-- No readable slot is at the last but one sequence. -/
def Unspent (codec : Codec) (paths : IndexPaths) (slots : Fin 2 → Option SlotEntry) : Prop :=
  ∀ index wire bytes, readSlot codec paths index (slots index) = .parsed wire bytes →
    wire.sequence ≠ penultimateSequence

theorem StatePhase.status_ne_corrupt (phase : StatePhase) (reason : CorruptReason) :
    phase.status ≠ .corrupt reason := by
  cases phase <;> simp [StatePhase.status]

/-- A plan below the last sequence reads back, and a plan at the last sequence does not. -/
theorem Planned.readsBack_iff {before after : SlotFiles} {parentSync : ParentSyncStatus}
    (planned : Planned codec paths phase before.slots plan)
    (landed : before.Landed plan.target plan.bytes phase after) :
    (PublishedState.mk plan.target (successorWire codec paths plan.sequence phase).record parentSync).ReadsBack
      codec paths phase after ↔ plan.sequence ≠ maxSequence := by
  have standing := (planned.standing landed.1).classify_eq
  simp only [PublishedState.ReadsBack, standing]
  constructor
  · intro ⟨_, status⟩ exhausted
    have corrupt : standingStatus (authorityAt paths plan.target
        (successorWire codec paths plan.sequence phase).record) = .corrupt (.sequenceExhausted plan.sequence) := by
      rw [standingStatus, if_pos (by exact exhausted)]
      rfl
    exact phase.status_ne_corrupt _ (status.symm.trans corrupt)
  · intro room
    exact ⟨rfl, standingStatus_successor room⟩

/-- A valid slot was read from a wire form of the same sequence. -/
theorem slotOutcome_wire {index : Fin 2} {record : StateSlotRecord}
    (valid : slotOutcome codec paths slots index = .valid record) :
    ∃ wire bytes, readSlot codec paths index (slots index) = .parsed wire bytes ∧ wire.record = record := by
  rcases parsed : readSlot codec paths index (slots index) with _ | reason | ⟨wire, bytes⟩
  · simp [slotOutcome, parsed, observe] at valid
  · simp [slotOutcome, parsed, observe] at valid
  · refine ⟨wire, bytes, rfl, ?_⟩
    simp only [slotOutcome, parsed, observe] at valid
    by_cases sound : wire.Sound codec paths.projectIdentity
    · rw [sound.validateParsed_eq] at valid
      split at valid
      · cases valid
      · exact SlotOutcome.valid.inj valid
    · obtain ⟨reason, invalid⟩ := validateParsed_unsound sound index (paths.stateSlots index)
      rw [invalid] at valid
      cases valid

theorem readSlot_absent {index : Fin 2} (absent : slots index = none) :
    readSlot codec paths index (slots index) = .absent := by
  rw [absent]
  rfl

/-- A plan stays below the last sequence exactly when the pair was unspent. -/
theorem Planned.sequence_ne_iff (planned : Planned codec paths phase slots plan) :
    plan.sequence ≠ maxSequence ↔ Unspent codec paths slots := by
  have last : penultimateSequence + 1 = maxSequence := by decide
  rcases planned.source with ⟨absent, -, first⟩ | ⟨index, record, standing, room, target, next⟩
  · rw [first]
    constructor
    · intro _ candidate wire bytes parsed
      rw [readSlot_absent (absent candidate)] at parsed
      cases parsed
    · intro _
      decide
  · obtain ⟨newest, text, parsed, same⟩ := slotOutcome_wire standing.valid
    have sequence : newest.sequence = record.sequence := congrArg StateSlotRecord.sequence same
    rw [next]
    constructor
    · intro below candidate wire bytes found penultimate
      rcases slot_cases index candidate with rfl | rfl
      · rw [parsed] at found
        cases found
        rw [← sequence, penultimate] at below
        exact below last
      · rcases standing.older with absent | ⟨prior, valid, earlier⟩
        · rw [readSlot_absent (slotOutcome_absent.mp absent)] at found
          cases found
        · obtain ⟨older, content, read, equal⟩ := slotOutcome_wire valid
          rw [read] at found
          cases found
          have before : prior.sequence = penultimateSequence := by rw [← equal]; exact penultimate
          rw [before, UInt64.lt_iff_toNat_lt] at earlier
          have bound := record.sequence.toNat_lt
          have value : penultimateSequence.toNat = 2 ^ 64 - 2 := rfl
          have top : maxSequence.toNat = 2 ^ 64 - 1 := rfl
          apply room
          apply UInt64.toNat_inj.mp
          omega
    · intro unspent exhausted
      apply unspent index newest text parsed
      rw [sequence]
      rw [← last] at exhausted
      exact (UInt64.add_left_inj 1).mp exhausted

/-- A completed publication reads back exactly when no slot was at the last but one sequence. -/
theorem published_state_reads_back (codec : Codec) (paths : IndexPaths) (lease : IndexLease) (phase : StatePhase)
    (fault : PublishFault) (before after : SlotFiles) (published : PublishedState)
    (done : Program.exec (publishIndexStateWith codec paths lease phase fault) before = (.ok published, after)) :
    published.ReadsBack codec paths phase after ↔ Unspent codec paths before.slots := by
  have ended := publishIndexStateWith_ended codec paths lease phase fault before
  rw [done] at ended
  obtain ⟨plan, planned, landed, rfl⟩ := ended
  rw [planned.readsBack_iff landed, planned.sequence_ne_iff]

/-- The first publication reads back. -/
theorem first_publication_reads_back : ∃ published after,
      Program.exec (publishIndexState referenceCodec referencePaths referenceLease .building) SlotFiles.empty =
        (.ok published, after) ∧
      (published.ReadsBack referenceCodec referencePaths .building after ↔
        Unspent referenceCodec referencePaths SlotFiles.empty.slots) := by
  have allowed : validateTransition (classify referenceCodec referencePaths SlotFiles.empty.slots).status
      .building = .ok () := by
    have absent : ∀ index, SlotFiles.empty.slots index = none := fun _ => rfl
    rw [classify_empty absent]
    rfl
  obtain ⟨published, after, done, -⟩ :=
    (@publishIndexStateWith_completes _ _ referenceLease _ _ rfl allowed).exec
      (show SlotFiles.empty.slots = SlotFiles.empty.slots from rfl)
  exact ⟨published, after, done,
    published_state_reads_back referenceCodec referencePaths referenceLease .building .none .empty after
      published done⟩

/-- A slot file that holds one wire form. -/
def writtenSlot (codec : Codec) (wire : WireSlot) : Option SlotEntry :=
  match codec.toVec wire with
  | .ok bytes => some (.regular bytes)
  | .error _ => none

/-- The first slot holds a finished index at the last but one sequence. -/
def penultimateFiles : SlotFiles :=
  ⟨fun index => if index = 0 then
      writtenSlot referenceCodec (successorWire referenceCodec referencePaths penultimateSequence .current)
    else none, [], []⟩

theorem penultimateFiles_standing : Standing referenceCodec referencePaths penultimateFiles.slots 0
    (successorWire referenceCodec referencePaths penultimateSequence .current).record := by
  obtain ⟨bytes, written, -⟩ := referenceCodec.readBack
    (successorWire referenceCodec referencePaths penultimateSequence .current)
    ⟨⟨.current, rfl⟩, referencePaths.identityEncoded, referenceCodec.hashContent_isLowercaseSha256 _⟩
  have stored : penultimateFiles.slots 0 = some (.regular bytes) := by
    simp only [penultimateFiles, if_true, writtenSlot, written]
  exact ⟨slotOutcome_written written stored, .inl (slotOutcome_absent.mpr rfl)⟩

/-- Publishing the last sequence succeeds, and the next reader finds a corrupt namespace. -/
theorem last_publication_is_corrupt : ∃ published after,
      Program.exec (publishIndexState referenceCodec referencePaths referenceLease .building) penultimateFiles =
        (.ok published, after) ∧
      (classify referenceCodec referencePaths after.slots).status =
        .corrupt (.sequenceExhausted maxSequence) := by
  have status := penultimateFiles_standing.classify_eq
  rw [standingStatus_successor (by decide)] at status
  have allowed : validateTransition (classify referenceCodec referencePaths penultimateFiles.slots).status
      .building = .ok () := by
    rw [status]
    rfl
  obtain ⟨published, after, done, -⟩ :=
    (@publishIndexStateWith_completes _ _ referenceLease _ _ rfl allowed).exec
      (show penultimateFiles.slots = penultimateFiles.slots from rfl)
  refine ⟨published, after, done, ?_⟩
  have ended := publishIndexStateWith_ended referenceCodec referencePaths referenceLease .building .none
    penultimateFiles
  rw [done] at ended
  obtain ⟨plan, planned, landed, -⟩ := ended
  have last : plan.sequence = maxSequence := by
    rcases planned.source with ⟨absent, -, -⟩ | ⟨index, record, standing, -, -, next⟩
    · exact absurd (absent 0) penultimateFiles_standing.present
    · obtain ⟨-, rfl⟩ := penultimateFiles_standing.unique standing
      rw [next]
      decide
  rw [(planned.standing landed.1).classify_eq]
  change standingStatus _ = _
  rw [standingStatus, if_pos (by exact last)]
  exact congrArg (fun sequence => ExtractionStatus.corrupt (.sequenceExhausted sequence)) last

end Publishing

end Codegraph.Store
