import Codegraph.Store.Slot

namespace Codegraph.Store

variable {codec : Codec} {paths : IndexPaths} {slots other : Fin 2 → Option SlotEntry} {places : Fin 2 → String}
  {index : Fin 2} {record : StateSlotRecord} {authority : AuthoritativeSlot} {outcomes : Fin 2 → SlotOutcome}
  {select : SlotOutcome → Option StateSlotRecord}

/-- A slot's outcome depends on its own file only. -/
def slotOutcome (codec : Codec) (paths : IndexPaths) (slots : Fin 2 → Option SlotEntry)
    (index : Fin 2) : SlotOutcome :=
  observe codec index (paths.stateSlots index) (readSlot codec paths index (slots index)) paths.projectIdentity

@[simp] theorem classify_slots : (classify codec paths slots).slots = slotOutcome codec paths slots := by
  simp only [classify, classifyRaw]
  split
  · rfl
  · rfl
  · split
    · rfl
    · split
      · rfl
      · split <;> rfl

theorem slotOutcome_congr (same : slots index = other index) :
    slotOutcome codec paths slots index = slotOutcome codec paths other index := by
  simp only [slotOutcome, same]

theorem validateParsed_ne_absent (index : Fin 2) (path : String) (wire : WireSlot) (owner : String) :
    validateParsed codec index path wire owner ≠ .absent := by
  simp only [validateParsed]
  repeat' split
  all_goals simp

/-- Only a missing file has the absent outcome. -/
theorem slotOutcome_absent : slotOutcome codec paths slots index = .absent ↔ slots index = none := by
  constructor
  · intro absent
    rcases entry : slots index with _ | (bytes | kind | detail | detail)
    · rfl
    · simp only [slotOutcome, entry, readSlot] at absent
      split at absent
      · exact absurd absent (validateParsed_ne_absent _ _ _ _)
      · simp [observe] at absent
    all_goals simp [slotOutcome, entry, readSlot, observe] at absent
  · intro missing
    simp [slotOutcome, missing, readSlot, observe]

/-- A validated outcome comes from the bytes of a regular file. -/
theorem slotOutcome_parsed (validated : (slotOutcome codec paths slots index).validatedRecord = some record) :
    ∃ wire, slotOutcome codec paths slots index =
      validateParsed codec index (paths.stateSlots index) wire paths.projectIdentity := by
  rcases entry : slots index with _ | (bytes | kind | detail | detail)
  · simp [slotOutcome, entry, readSlot, observe, SlotOutcome.validatedRecord] at validated
  · rcases parsed : codec.fromSlice bytes with detail | wire
    · simp [slotOutcome, entry, readSlot, parsed, observe, SlotOutcome.validatedRecord] at validated
    · exact ⟨wire, by simp only [slotOutcome, entry, readSlot, parsed, observe]⟩
  all_goals simp [slotOutcome, entry, readSlot, observe, SlotOutcome.validatedRecord] at validated

theorem validateParsed_valid {path owner : String} {wire : WireSlot}
    (valid : validateParsed codec index path wire owner = .valid record) :
    record.storageProtocol = currentStorageProtocol ∧ record.phase.isSome = true := by
  simp only [validateParsed] at valid
  repeat' split at valid
  all_goals simp only [SlotOutcome.valid.injEq, reduceCtorEq] at valid
  rename_i notBelow notAbove known
  subst valid
  refine ⟨UInt64.le_antisymm (UInt64.not_lt.mp notAbove) (UInt64.not_lt.mp notBelow), ?_⟩
  simpa [WireSlot.record, Option.isSome_iff_ne_none] using known

/-- A valid record has the current protocol and a known phase. -/
theorem slotOutcome_valid (valid : slotOutcome codec paths slots index = .valid record) :
    record.storageProtocol = currentStorageProtocol ∧ record.phase.isSome = true := by
  have validated : (slotOutcome codec paths slots index).validatedRecord = some record := by
    rw [valid]
    rfl
  obtain ⟨wire, parsed⟩ := slotOutcome_parsed validated
  exact validateParsed_valid (parsed.symm.trans valid)

theorem validateParsed_future {path owner : String} {wire : WireSlot}
    (later : validateParsed codec index path wire owner = .futureProtocol record) :
    currentStorageProtocol < record.storageProtocol := by
  simp only [validateParsed] at later
  repeat' split at later
  all_goals simp only [SlotOutcome.futureProtocol.injEq, reduceCtorEq] at later
  rename_i above
  subst later
  exact above

/-- A record of a later protocol has that protocol. -/
theorem slotOutcome_future (later : slotOutcome codec paths slots index = .futureProtocol record) :
    currentStorageProtocol < record.storageProtocol := by
  have validated : (slotOutcome codec paths slots index).validatedRecord = some record := by
    rw [later]
    rfl
  obtain ⟨wire, parsed⟩ := slotOutcome_parsed validated
  exact validateParsed_future (parsed.symm.trans later)

/-- The standing record is valid, and the other slot is absent or holds an older valid record. -/
structure Standing (codec : Codec) (paths : IndexPaths) (slots : Fin 2 → Option SlotEntry)
    (index : Fin 2) (record : StateSlotRecord) : Prop where
  valid : slotOutcome codec paths slots index = .valid record
  older : slotOutcome codec paths slots (1 - index) = .absent ∨
    ∃ prior, slotOutcome codec paths slots (1 - index) = .valid prior ∧
      prior.sequence < record.sequence

def authorityAt (paths : IndexPaths) (index : Fin 2) (record : StateSlotRecord) : AuthoritativeSlot :=
  ⟨index, paths.stateSlots index, record⟩

/-- An exhausted authority classifies as corrupt, and every other one by its own status. -/
def standingStatus (authority : AuthoritativeSlot) : ExtractionStatus :=
  if authority.record.sequence = maxSequence then
    .corrupt (.sequenceExhausted authority.record.sequence)
  else authority.status

/-- Two validated slots at different sequences classify by their authority. -/
theorem classify_of_authority (sound : ∀ index, (slotOutcome codec paths slots index).invalidReason = none)
    (distinct : equalSequence (fun index => readSlot codec paths index (slots index))
      (slotOutcome codec paths slots) = none)
    (chosen : authorityOf (slotOutcome codec paths slots) paths.stateSlots = some authority) :
    classify codec paths slots =
      ⟨standingStatus authority, some authority, slotOutcome codec paths slots⟩ := by
  have first := sound 0
  have second := sound 1
  change equalSequence _ (fun index => slotOutcome codec paths slots index) = none at distinct
  change authorityOf (fun index => slotOutcome codec paths slots index) paths.stateSlots = some authority at chosen
  simp only [slotOutcome] at first second distinct chosen
  simp only [classify, classifyRaw, first, second, distinct, chosen, standingStatus]
  split <;> rfl

theorem slot_cases (index candidate : Fin 2) : candidate = index ∨ candidate = 1 - index := by
  omega

/-- A selected record above the other slot's wins in either slot. -/
theorem pickHighest_eq (selected : select (outcomes index) = some record)
    (highest : ∀ prior, select (outcomes (1 - index)) = some prior → prior.sequence < record.sequence) :
    pickHighest outcomes places select = some ⟨index, places index, record⟩ := by
  rcases slot_cases 0 index with rfl | rfl
  · rcases second : select (outcomes 1) with _ | prior
    · simp [pickHighest, selected, second]
    · have earlier := UInt64.not_lt.mpr (UInt64.le_of_lt (highest prior second))
      simp [pickHighest, selected, second, earlier]
  · change select (outcomes 1) = some record at selected
    rcases first : select (outcomes 0) with _ | prior
    · simp [pickHighest, selected, first]
    · have earlier := highest prior first
      simp [pickHighest, selected, first, earlier]

theorem pickHighest_none
    (unselected : ∀ index, select (outcomes index) = none) : pickHighest outcomes places select = none := by
  simp [pickHighest, unselected]

theorem equalSequence_none {raw : Fin 2 → RawSlot}
    (distinct : ∀ first second, (outcomes 0).validatedRecord = some first →
      (outcomes 1).validatedRecord = some second → first.sequence ≠ second.sequence) :
    equalSequence raw outcomes = none := by
  rcases first : (outcomes 0).validatedRecord with _ | left
  · simp [equalSequence, first]
  · rcases second : (outcomes 1).validatedRecord with _ | right
    · simp [equalSequence, first, second]
    · simp [equalSequence, first, second, distinct left right first second]

/-- The standing record is the authority of its two slots. -/
theorem Standing.classify_eq (standing : Standing codec paths slots index record) : classify codec paths slots =
      ⟨standingStatus (authorityAt paths index record), some (authorityAt paths index record),
        slotOutcome codec paths slots⟩ := by
  obtain ⟨valid, older⟩ := standing
  have current (candidate : Fin 2) : (slotOutcome codec paths slots candidate).invalidReason = none ∧
      (slotOutcome codec paths slots candidate).futureRecord = none ∧
      (slotOutcome codec paths slots candidate).validatedRecord =
        (slotOutcome codec paths slots candidate).validRecord := by
    rcases slot_cases index candidate with rfl | rfl
    · simp [valid, SlotOutcome.invalidReason, SlotOutcome.futureRecord, SlotOutcome.validatedRecord,
        SlotOutcome.validRecord]
    · rcases older with absent | ⟨prior, before, -⟩
      · simp [absent, SlotOutcome.invalidReason, SlotOutcome.futureRecord,
          SlotOutcome.validatedRecord, SlotOutcome.validRecord]
      · simp [before, SlotOutcome.invalidReason, SlotOutcome.futureRecord,
          SlotOutcome.validatedRecord, SlotOutcome.validRecord]
  have selected : (slotOutcome codec paths slots index).validRecord = some record := by
    rw [valid]
    rfl
  have highest : ∀ prior, (slotOutcome codec paths slots (1 - index)).validRecord = some prior →
      prior.sequence < record.sequence := by
    intro prior chosen
    rcases older with absent | ⟨found, before, earlier⟩
    · simp [absent, SlotOutcome.validRecord] at chosen
    · simp only [before, SlotOutcome.validRecord, Option.some.injEq] at chosen
      exact chosen ▸ earlier
  apply classify_of_authority
  · exact fun candidate => (current candidate).1
  · apply equalSequence_none
    intro first second left right
    rw [(current 0).2.2] at left
    rw [(current 1).2.2] at right
    rcases slot_cases 0 index with rfl | rfl
    · rw [selected, Option.some.injEq] at left
      exact left ▸ (UInt64.ne_of_lt (highest second right)).symm
    · change (slotOutcome codec paths slots 1).validRecord = _ at selected
      rw [selected, Option.some.injEq] at right
      exact right ▸ UInt64.ne_of_lt (highest first left)
  · rw [authorityOf, pickHighest_none fun candidate => (current candidate).2.1]
    exact pickHighest_eq selected highest

/-- A pair has at most one standing record. -/
theorem Standing.unique {candidate : Fin 2} {found : StateSlotRecord}
    (standing : Standing codec paths slots index record)
    (other : Standing codec paths slots candidate found) : candidate = index ∧ found = record := by
  have same := other.classify_eq.symm.trans standing.classify_eq
  simp only [IndexStateClassification.mk.injEq, Option.some.injEq, authorityAt, AuthoritativeSlot.mk.injEq] at same
  exact ⟨same.2.1.1, same.2.1.2.2⟩

theorem Standing.present (standing : Standing codec paths slots index record) : slots index ≠ none := by
  intro absent
  have missing : slotOutcome codec paths slots index = .absent := slotOutcome_absent.mpr absent
  rw [standing.valid] at missing
  cases missing

/-- The picked slot has the property that it was picked by. -/
theorem pickHighest_selected
        (chosen : pickHighest outcomes places select = some authority) :
    select (outcomes authority.index) = some authority.record := by
  rcases first : select (outcomes 0) with _ | left <;> rcases second : select (outcomes 1) with _ | right
  · simp [pickHighest, first, second] at chosen
  · simp only [pickHighest, first, second, Option.map_none, Option.map_some, Option.some.injEq] at chosen
    subst chosen
    exact second
  · simp only [pickHighest, first, second, Option.map_none, Option.map_some, Option.some.injEq] at chosen
    subst chosen
    exact first
  · simp only [pickHighest, first, second, Option.map_some] at chosen
    split at chosen <;> simp only [Option.some.injEq] at chosen <;> subst chosen
    · exact second
    · exact first

theorem pickHighest_unselected
    (chosen : pickHighest outcomes places select = none) (index : Fin 2) : select (outcomes index) = none := by
  rcases first : select (outcomes 0) with _ | left <;> rcases second : select (outcomes 1) with _ | right
  · rcases slot_cases 0 index with rfl | rfl
    · exact first
    · exact second
  · simp [pickHighest, first, second] at chosen
  · simp [pickHighest, first, second] at chosen
  · simp only [pickHighest, first, second, Option.map_some] at chosen
    split at chosen <;> simp at chosen

/-- Neither a later binary nor a defect owns a publishable namespace. -/
def ExtractionStatus.publishable : ExtractionStatus → Bool
  | .future _ | .corrupt _ => false
  | _ => true

/-- A publishable pair has no invalid slot and no duplicated sequence. -/
theorem publishable_sound (open_ : (classify codec paths slots).status.publishable = true) :
    (∀ index, (slotOutcome codec paths slots index).invalidReason = none) ∧
      equalSequence (fun index => readSlot codec paths index (slots index))
        (slotOutcome codec paths slots) = none := by
  rcases first : (slotOutcome codec paths slots 0).invalidReason with _ | reason
  · rcases second : (slotOutcome codec paths slots 1).invalidReason with _ | reason
    · rcases equal : equalSequence (fun index => readSlot codec paths index (slots index))
          (slotOutcome codec paths slots) with _ | reason
      · refine ⟨fun index => ?_, rfl⟩
        rcases slot_cases 0 index with rfl | rfl
        · exact first
        · exact second
      · change equalSequence _ (fun index => slotOutcome codec paths slots index) = _ at equal
        simp only [slotOutcome] at first second equal
        simp [classify, classifyRaw, first, second, equal, ExtractionStatus.publishable] at open_
    · simp only [slotOutcome] at first second
      simp [classify, classifyRaw, first, second, ExtractionStatus.publishable] at open_
  · simp only [slotOutcome] at first
    simp [classify, classifyRaw, first, ExtractionStatus.publishable] at open_

/-- No later record stands in a publishable pair. -/
theorem publishable_present (open_ : (classify codec paths slots).status.publishable = true)
    (index : Fin 2) : (slotOutcome codec paths slots index).futureRecord = none := by
  obtain ⟨sound, distinct⟩ := publishable_sound open_
  rcases chosen : pickHighest (slotOutcome codec paths slots) paths.stateSlots SlotOutcome.futureRecord with _ | future
  · exact pickHighest_unselected chosen index
  · have authority : authorityOf (slotOutcome codec paths slots) paths.stateSlots = some future := by
      simp [authorityOf, chosen]
    have selected := pickHighest_selected chosen
    have later : currentStorageProtocol < future.record.storageProtocol := by
      rcases outcome : slotOutcome codec paths slots future.index with _ | record | record | reason
        <;> simp only [outcome, SlotOutcome.futureRecord, reduceCtorEq, Option.some.injEq] at selected
      exact selected ▸ slotOutcome_future outcome
    rw [classify_of_authority sound distinct authority] at open_
    simp only [standingStatus, AuthoritativeSlot.status, later, true_or, if_true] at open_
    split at open_ <;> simp [ExtractionStatus.publishable] at open_

/-- A publishable pair is empty, or one of its records stands. -/
theorem publishable_cases (open_ : (classify codec paths slots).status.publishable = true) :
    (∀ index, slots index = none) ∨
      ∃ index record, Standing codec paths slots index record ∧ record.sequence ≠ maxSequence := by
  obtain ⟨sound, distinct⟩ := publishable_sound open_
  have present := publishable_present open_
  have unexhausted {index : Fin 2} {record : StateSlotRecord}
      (standing : Standing codec paths slots index record) : record.sequence ≠ maxSequence := by
    intro exhausted
    rw [standing.classify_eq] at open_
    simp [standingStatus, authorityAt, exhausted, ExtractionStatus.publishable] at open_
  rcases first : slotOutcome codec paths slots 0 with _ | left | left | reason
  · rcases second : slotOutcome codec paths slots 1 with _ | right | right | reason
    · left
      intro index
      rcases slot_cases 0 index with rfl | rfl
      · exact slotOutcome_absent.mp first
      · exact slotOutcome_absent.mp second
    · have standing : Standing codec paths slots 1 right := ⟨second, .inl first⟩
      exact .inr ⟨1, right, standing, unexhausted standing⟩
    · simpa [second, SlotOutcome.futureRecord] using present 1
    · simpa [second, SlotOutcome.invalidReason] using sound 1
  · rcases second : slotOutcome codec paths slots 1 with _ | right | right | reason
    · have standing : Standing codec paths slots 0 left := ⟨first, .inl second⟩
      exact .inr ⟨0, left, standing, unexhausted standing⟩
    · have different : left.sequence ≠ right.sequence := by
        intro same
        simp [equalSequence, first, second, SlotOutcome.validatedRecord, same] at distinct
      rcases UInt64.lt_or_lt_of_ne different with below | above
      · have standing : Standing codec paths slots 1 right := ⟨second, .inr ⟨left, first, below⟩⟩
        exact .inr ⟨1, right, standing, unexhausted standing⟩
      · have standing : Standing codec paths slots 0 left := ⟨first, .inr ⟨right, second, above⟩⟩
        exact .inr ⟨0, left, standing, unexhausted standing⟩
    · simpa [second, SlotOutcome.futureRecord] using present 1
    · simpa [second, SlotOutcome.invalidReason] using sound 1
  · simpa [first, SlotOutcome.futureRecord] using present 0
  · simpa [first, SlotOutcome.invalidReason] using sound 0

/-- Two absent slots classify as missing and have no authority. -/
theorem classify_empty (absent : ∀ index, slots index = none) :
    classify codec paths slots = ⟨.missing, none, slotOutcome codec paths slots⟩ := by
  have outcomes (index : Fin 2) : slotOutcome codec paths slots index = .absent :=
    slotOutcome_absent.mpr (absent index)
  have left := outcomes 0
  have right := outcomes 1
  simp only [slotOutcome] at left right
  simp [classify, classifyRaw, left, right, SlotOutcome.invalidReason, equalSequence, SlotOutcome.validatedRecord,
    authorityOf, pickHighest, SlotOutcome.futureRecord, SlotOutcome.validRecord]
  rfl

end Codegraph.Store
