import Codegraph.Store.Classification
import Codegraph.Store.Publisher

namespace Codegraph.Store
open Interruptible

variable {codec : Codec} {paths : IndexPaths} {lease : IndexLease} {phase : StatePhase}
  {fault : PublishFault} {slots : Fin 2 → Option SlotEntry} {plan : PublicationPlan}
  {operation : StatePublishOperation} {error : StatePublishError} {sequence : UInt64} {after : Fin 2 → Option SlotEntry}

/-- A refusal is any error other than a cut at a checkpoint. -/
def StatePublishError.refusal : StatePublishError → Bool
  | .io _ _ _ => false
  | _ => true

/-- A refused call leaves both slots and the history as they were. -/
def SlotFiles.Unmoved (before after : SlotFiles) : Prop :=
  after.slots = before.slots ∧ after.published = before.published

/-- A call cut before its rename may only have removed the inactive slot. -/
def SlotFiles.Prepared (target : Fin 2) (before after : SlotFiles) : Prop :=
  after.published = before.published ∧
    (after.slots = before.slots ∨ after.slots = Function.update before.slots target none)

/-- A landed rename replaces the target slot and leaves the other one alone. -/
def SlotFiles.Landed (target : Fin 2) (bytes : ByteArray) (phase : StatePhase)
    (before after : SlotFiles) : Prop :=
  after.slots = Function.update before.slots target (some (.regular bytes)) ∧
    after.published = phase :: before.published

/-- The reason for a stop says how far the installation came. -/
def InstallStopped (plan : PublicationPlan) (phase : StatePhase) (before : SlotFiles)
    (error : StatePublishError) (after : SlotFiles) : Prop :=
  match error with
  | .io _ _ point =>
    if point.afterRename then before.Landed plan.target plan.bytes phase after
    else before.Prepared plan.target after
  | _ => before.Unmoved after

theorem checkpoint_establishes {point : PublishCheckpoint}
    {path : String} {pre : SlotFiles → Prop} {cut : StatePublishError → SlotFiles → Prop}
    (stopped : ∀ files, pre files → cut (.io operation path point) files) :
    Establishes pre (checkpoint fault point operation path) (fun _ => pre) cut := by
  apply Establishes.ite
  · intro _
    exact .throw _ stopped
  · intro _
    exact .pure _ fun _ inside => inside

/-- Installing a plan lands its bytes, and where it stops the slots hold or the phase has landed. -/
theorem installPublication_establishes (before : SlotFiles) :
    Establishes (fun files => files = before) (installPublication codec paths fault phase plan)
      (fun result after => before.Landed plan.target plan.bytes phase after ∧
        result = ⟨plan.target, (successorWire codec paths plan.sequence phase).record, fault.parentSync⟩)
      (InstallStopped plan phase before) := by
  have unmoved {files : SlotFiles} (same : before.Unmoved files) : before.Prepared plan.target files :=
    ⟨same.2, .inl same.1⟩
  have created : Establishes (fun files => files = before) (createTemp paths fault)
      (fun _ after => before.Unmoved after) (InstallStopped plan phase before) := by
    apply Establishes.ite
    · intro _
      apply Establishes.throw
      rintro _ rfl
      exact ⟨rfl, rfl⟩
    · intro _
      apply Establishes.modify
      rintro _ rfl
      exact ⟨rfl, rfl⟩
  have written : Establishes before.Unmoved (writeTemp plan.bytes)
      (fun _ after => before.Unmoved after ∧ after.temps.head? = some plan.bytes)
      (InstallStopped plan phase before) := by
    apply Establishes.modify
    intro files same
    exact ⟨same, rfl⟩
  have removed : Establishes (fun files => before.Unmoved files ∧ files.temps.head? = some plan.bytes)
      (removeInactive plan.target)
      (fun _ after => before.Prepared plan.target after ∧ after.temps.head? = some plan.bytes)
      (InstallStopped plan phase before) := by
    intro files ⟨same, temp⟩
    simp only [removeInactive, exec_bind, exec_get]
    split
    · exact ⟨unmoved same, temp⟩
    · exact same
    · exact same
    · exact ⟨⟨same.2, .inr (by simp only [same.1])⟩, temp⟩
    · exact ⟨⟨same.2, .inr (by simp only [same.1])⟩, temp⟩
  have renamed : Establishes
      (fun files => before.Prepared plan.target files ∧ files.temps.head? = some plan.bytes)
      (renameTemp plan.target phase) (fun _ => before.Landed plan.target plan.bytes phase)
      (InstallStopped plan phase before) := by
    apply Establishes.modify
    intro files ⟨prepared, temp⟩
    obtain ⟨rest, temps⟩ := List.head?_eq_some_iff.mp temp
    simp only [temps]
    refine ⟨?_, by rw [prepared.1]⟩
    rcases prepared.2 with same | gone
    · rw [same]
    · rw [gone, Function.update_idem]
  refine created.bind fun _ => ?_
  refine (checkpoint_establishes fun files same => unmoved same).bind fun _ => ?_
  refine written.bind fun _ => ?_
  refine (checkpoint_establishes fun files same => unmoved same.1).bind fun _ => ?_
  refine (checkpoint_establishes fun files same => unmoved same.1).bind fun _ => ?_
  refine (checkpoint_establishes fun files same => unmoved same.1).bind fun _ => ?_
  refine removed.bind fun _ => ?_
  refine (checkpoint_establishes fun files prepared => prepared.1).bind fun _ => ?_
  refine renamed.bind fun _ => ?_
  have landed {files : SlotFiles} (moved : before.Landed plan.target plan.bytes phase files) := moved
  refine (checkpoint_establishes fun files moved => landed moved).bind fun _ => ?_
  refine (checkpoint_establishes fun files moved => landed moved).bind fun _ => ?_
  exact .pure _ fun files landed => ⟨landed, rfl⟩

/-- A plan writes the successor of the empty pair or of the standing record. -/
structure Planned (codec : Codec) (paths : IndexPaths) (phase : StatePhase)
    (slots : Fin 2 → Option SlotEntry) (plan : PublicationPlan) : Prop where
  written : codec.toVec (successorWire codec paths plan.sequence phase) = .ok plan.bytes
  allowed : validateTransition (classify codec paths slots).status phase = .ok ()
  source : ((∀ index, slots index = none) ∧ plan.target = 0 ∧ plan.sequence = 0) ∨
    ∃ index record, Standing codec paths slots index record ∧ record.sequence ≠ maxSequence ∧
      plan.target = 1 - index ∧ plan.sequence = record.sequence + 1

theorem validateTransition_publishable {status : ExtractionStatus}
    (allowed : validateTransition status phase = .ok ()) : status.publishable = true := by
  cases status <;> cases phase <;> first | rfl | cases allowed

/-- The status of a publishable standing record is neither missing, future, nor corrupt. -/
theorem Standing.successorSlot_eq {index : Fin 2} {record : StateSlotRecord}
    (standing : Standing codec paths slots index record)
    (open_ : (classify codec paths slots).status.publishable = true) (room : record.sequence ≠ maxSequence) :
    successorSlot (classify codec paths slots) = .ok (record.sequence + 1, 1 - index) := by
  rw [standing.classify_eq] at open_ ⊢
  have unexhausted : (authorityAt paths index record).record.sequence ≠ maxSequence := room
  simp only [standingStatus, if_neg unexhausted] at open_ ⊢
  have present : (authorityAt paths index record).status ≠ .missing := by
    simp only [AuthoritativeSlot.status]
    repeat' split
    all_goals simp
  rcases status : (authorityAt paths index record).status
  case missing => exact absurd status present
  case future => simp [status, ExtractionStatus.publishable] at open_
  case corrupt => simp [status, ExtractionStatus.publishable] at open_
  all_goals simp [successorSlot, authorityAt, room]

theorem validateTransition_refusal {status : ExtractionStatus}
    (failed : validateTransition status phase = .error error) : error.refusal = true := by
  cases status <;> cases phase <;> cases failed <;> rfl

theorem successorSlot_refusal {classification : IndexStateClassification}
    (failed : successorSlot classification = .error error) : error.refusal = true := by
  simp only [successorSlot] at failed
  repeat' split at failed
  all_goals first | cases failed; done | (cases failed; rfl)

theorem checkInactive_refusal {outcome : SlotOutcome}
    (failed : checkInactive outcome sequence = .error error) : error.refusal = true := by
  simp only [checkInactive] at failed
  repeat' split at failed
  all_goals first | cases failed; done | (cases failed; rfl)

/-- Planning is refused, or it passes every check and names the successor. -/
theorem planPublication_cases (codec : Codec) (paths : IndexPaths) (lease : IndexLease) (phase : StatePhase)
    (slots : Fin 2 → Option SlotEntry) :
    (∃ error, planPublication codec paths lease phase slots = .error error ∧ error.refusal = true) ∨
      ∃ next bytes, validateTransition (classify codec paths slots).status phase = .ok () ∧
        successorSlot (classify codec paths slots) = .ok next ∧
        codec.toVec (successorWire codec paths next.1 phase) = .ok bytes ∧
        planPublication codec paths lease phase slots = .ok ⟨next.2, next.1, bytes⟩ := by
  simp only [planPublication]
  split
  · exact .inl ⟨_, rfl, rfl⟩
  split
  · exact .inl ⟨_, rfl, rfl⟩
  · exact .inl ⟨_, rfl, rfl⟩
  rcases allowed : validateTransition (classify codec paths slots).status phase with reason | _
  · exact .inl ⟨reason, rfl, validateTransition_refusal allowed⟩
  rcases successor : successorSlot (classify codec paths slots) with reason | next
  · exact .inl ⟨reason, rfl, successorSlot_refusal successor⟩
  rcases older : checkInactive ((classify codec paths slots).slots next.2) next.1 with reason | _
  · exact .inl ⟨reason, by simp only [older, bind, Except.bind], checkInactive_refusal older⟩
  rcases written : codec.toVec (successorWire codec paths next.1 phase) with detail | bytes
  · exact .inl ⟨.serialize detail, by simp only [older, written, bind, Except.bind]; rfl, rfl⟩
  · exact .inr ⟨next, bytes, rfl, rfl, written, by simp only [older, written, bind, Except.bind, pure, Except.pure]⟩

/-- Planning never reports a checkpoint. -/
theorem planPublication_refusal
    (failed : planPublication codec paths lease phase slots = .error error) : error.refusal = true := by
  rcases planPublication_cases codec paths lease phase slots with ⟨reason, refused, refusal⟩ | ⟨_, _, _, _, _, planned⟩
  · rw [refused] at failed
    exact Except.error.inj failed ▸ refusal
  · rw [planned] at failed
    cases failed

/-- A successful plan has passed every refusal. -/
theorem planPublication_planned (planned : planPublication codec paths lease phase slots = .ok plan) :
    Planned codec paths phase slots plan := by
  rcases planPublication_cases codec paths lease phase slots with
    ⟨reason, refused, _⟩ | ⟨⟨sequence, target⟩, bytes, allowed, successor, written, landed⟩
  · rw [refused] at planned
    cases planned
  rw [landed] at planned
  cases planned
  refine ⟨written, allowed, ?_⟩
  have open_ := validateTransition_publishable allowed
  rcases publishable_cases open_ with absent | ⟨index, record, standing, room⟩
  · left
    rw [classify_empty absent] at successor
    simp only [successorSlot, Except.ok.injEq, Prod.mk.injEq] at successor
    exact ⟨absent, successor.2.symm, successor.1.symm⟩
  · right
    rw [standing.successorSlot_eq open_ room] at successor
    simp only [Except.ok.injEq, Prod.mk.injEq] at successor
    exact ⟨index, record, standing, room, successor.2.symm, successor.1.symm⟩

/-- The bytes of a well formed slot read back as its own valid record. -/
theorem slotOutcome_written {index : Fin 2} {version : UInt64} {bytes : ByteArray}
    (written : codec.toVec (versionWire codec paths version sequence phase) = .ok bytes)
    (stored : slots index = some (.regular bytes)) : slotOutcome codec paths slots index =
      .valid (versionWire codec paths version sequence phase).record := by
  have plain : (versionWire codec paths version sequence phase).plain :=
    ⟨⟨phase, rfl⟩, paths.identityEncoded, codec.hashContent_isLowercaseSha256 _⟩
  obtain ⟨found, wrote, parsed⟩ := codec.readBack _ plain
  rw [written, Except.ok.injEq] at wrote
  subst wrote
  have owner := paths.identityEncoded
  have encoded : isLowercaseSha256 (codec.checksumHex sequence currentStorageProtocol version
      phase.asWire paths.projectIdentity) = true :=
    codec.hashContent_isLowercaseSha256 _
  have known : (StatePhase.fromWire phase.asWire).isNone = false := by simp
  have level : ¬ currentStorageProtocol < currentStorageProtocol := by decide
  simp only [slotOutcome, stored, readSlot, parsed, observe, validateParsed]
  simp only [versionWire, owner, encoded, known, level, Bool.true_eq_false, Bool.false_eq_true,
    ne_eq, not_true_eq_false, if_false]

/-- The pair before the rename keeps the same authority when only the inactive slot is gone. -/
theorem Standing.keep {index : Fin 2} {record : StateSlotRecord} {after : Fin 2 → Option SlotEntry}
    (standing : Standing codec paths slots index record) (kept : after index = slots index)
    (inactive : after (1 - index) = slots (1 - index) ∨ after (1 - index) = none) :
    Standing codec paths after index record := by
  refine ⟨(slotOutcome_congr kept).trans standing.valid, ?_⟩
  rcases inactive with same | gone
  · rw [slotOutcome_congr same]
    exact standing.older
  · exact .inl (slotOutcome_absent.mpr gone)

theorem successor_toNat (room : sequence ≠ maxSequence) : (sequence + 1).toNat = sequence.toNat + 1 := by
  have bounded := sequence.toNat_lt
  have different : sequence.toNat ≠ maxSequence.toNat := fun same => room (UInt64.toNat_inj.mp same)
  have maximum : maxSequence.toNat = 18446744073709551615 := by decide
  rw [UInt64.toNat_add]
  change (sequence.toNat + 1) % 18446744073709551616 = _
  omega

theorem lt_successor (room : sequence ≠ maxSequence) : sequence < sequence + 1 := by
  rw [UInt64.lt_iff_toNat_lt, successor_toNat room]
  omega

/-- A landed plan makes its own record stand in the target slot. -/
theorem Planned.standing (planned : Planned codec paths phase slots plan)
    (moved : after = Function.update slots plan.target (some (.regular plan.bytes))) :
    Standing codec paths after plan.target (successorWire codec paths plan.sequence phase).record := by
  have stored : after plan.target = some (.regular plan.bytes) := by
    rw [moved, Function.update_self]
  have elsewhere : after (1 - plan.target) = slots (1 - plan.target) := by
    rw [moved, Function.update_of_ne (by omega)]
  refine ⟨slotOutcome_written planned.written stored, ?_⟩
  rcases planned.source with ⟨absent, -, -⟩ | ⟨index, record, standing, room, target, sequence⟩
  · exact .inl (slotOutcome_absent.mpr (elsewhere.trans (absent _)))
  · have opposite : 1 - plan.target = index := by omega
    right
    refine ⟨record, ?_, ?_⟩
    · rw [slotOutcome_congr elsewhere, opposite]
      exact standing.valid
    · change record.sequence < plan.sequence
      rw [sequence]
      exact lt_successor room

/-- A held pair keeps its status, its authority, and the authoritative bytes. -/
structure Held (codec : Codec) (paths : IndexPaths) (before after : Fin 2 → Option SlotEntry) : Prop where
  status : (classify codec paths after).status = (classify codec paths before).status
  authority : (classify codec paths after).authoritative = (classify codec paths before).authoritative
  bytes : ∀ authority, (classify codec paths before).authoritative = some authority →
    after authority.index = before authority.index
  standing : ∀ index record, Standing codec paths before index record →
    Standing codec paths after index record
  empty : (∀ index, before index = none) → ∀ index, after index = none

theorem Held.refl (slots : Fin 2 → Option SlotEntry) : Held codec paths slots slots :=
  ⟨rfl, rfl, fun _ _ => rfl, fun _ _ same => same, fun absent => absent⟩

/-- Removing the inactive slot leaves the authority in place. -/
theorem Planned.held (planned : Planned codec paths phase slots plan)
    (moved : after = slots ∨ after = Function.update slots plan.target none) : Held codec paths slots after := by
  rcases moved with rfl | moved
  · exact .refl _
  rcases planned.source with ⟨absent, -, -⟩ | ⟨index, record, standing, room, target, sequence⟩
  · have same : after = slots := by
      rw [moved]
      exact Function.update_eq_self_iff.mpr (absent _).symm
    exact same ▸ .refl _
  · have kept : after index = slots index := by
      rw [moved, Function.update_of_ne (by omega)]
    have gone : after (1 - index) = none := by
      rw [moved, target, Function.update_self]
    have still := standing.keep kept (.inr gone)
    refine ⟨?_, ?_, ?_, ?_, ?_⟩
    · rw [still.classify_eq, standing.classify_eq]
    · rw [still.classify_eq, standing.classify_eq]
    · intro authority chosen
      rw [standing.classify_eq] at chosen
      simp only [Option.some.injEq] at chosen
      subst chosen
      exact kept
    · intro candidate found other
      obtain ⟨rfl, rfl⟩ := standing.unique other
      exact still
    · intro absent
      exact absurd (absent index) standing.present

/-- A completed call has landed its plan. -/
def PublishCompleted (codec : Codec) (paths : IndexPaths) (phase : StatePhase) (fault : PublishFault)
    (before : SlotFiles) (result : PublishedState) (after : SlotFiles) : Prop :=
  ∃ plan, Planned codec paths phase before.slots plan ∧
    before.Landed plan.target plan.bytes phase after ∧
    result = ⟨plan.target, (successorWire codec paths plan.sequence phase).record, fault.parentSync⟩

/-- The error of a stopped call says what it left behind. -/
def PublishStopped (codec : Codec) (paths : IndexPaths) (phase : StatePhase) (before : SlotFiles)
    (error : StatePublishError) (after : SlotFiles) : Prop :=
  match error with
  | .io _ _ point =>
    ∃ plan, Planned codec paths phase before.slots plan ∧
      if point.afterRename then before.Landed plan.target plan.bytes phase after
      else before.Prepared plan.target after
  | _ => before.Unmoved after

/-- A publication completes, or it stops with the slots held or the phase landed. -/
theorem publishIndexStateWith_ended (codec : Codec) (paths : IndexPaths) (lease : IndexLease)
    (phase : StatePhase) (fault : PublishFault) (before : SlotFiles) :
    Outcome (PublishCompleted codec paths phase fault before) (PublishStopped codec paths phase before)
      (Program.exec (publishIndexStateWith codec paths lease phase fault) before) := by
  simp only [publishIndexStateWith, exec_bind, exec_get]
  rcases decided : planPublication codec paths lease phase before.slots with error | plan
  · have refused := planPublication_refusal decided
    cases error <;> first | exact ⟨rfl, rfl⟩ | cases refused
  · have planned := planPublication_planned decided
    refine (installPublication_establishes before).consequence (fun _ same => same) ?_ ?_ before rfl
    · rintro result after ⟨landed, rfl⟩
      exact ⟨plan, planned, landed, rfl⟩
    · intro error after stopped
      cases error <;> first | exact stopped | exact ⟨plan, planned, stopped⟩

/-- A call holds the pair, or lands its successor. -/
inductive Published (codec : Codec) (paths : IndexPaths) (phase : StatePhase)
    (before after : SlotFiles) : Prop
  | held (same : Held codec paths before.slots after.slots) (history : after.published = before.published)
  | landed (plan : PublicationPlan) (planned : Planned codec paths phase before.slots plan)
      (moved : before.Landed plan.target plan.bytes phase after)

theorem SlotFiles.Unmoved.held {before after : SlotFiles} (same : before.Unmoved after) :
    Held codec paths before.slots after.slots := by
  rw [same.1]
  exact .refl _

/-- However a call ends, it holds the pair or lands its successor. -/
theorem publishIndexStateWith_published (codec : Codec) (paths : IndexPaths) (lease : IndexLease)
    (phase : StatePhase) (fault : PublishFault) (before : SlotFiles) : Published codec paths phase before
      (Program.exec (publishIndexStateWith codec paths lease phase fault) before).2 := by
  have ended := publishIndexStateWith_ended codec paths lease phase fault before
  rcases stopped : Program.exec (publishIndexStateWith codec paths lease phase fault) before with
    ⟨error | result, after⟩ <;> rw [stopped] at ended
  · rcases error with _ | _ | _ | _ | _ | _ | ⟨operation, path, point⟩
    case io =>
      obtain ⟨plan, planned, reached⟩ := ended
      rcases decided : point.afterRename <;> simp only [decided, if_true, if_false,
        Bool.false_eq_true] at reached
      · exact .held (planned.held reached.2) reached.1
      · exact .landed plan planned reached
    all_goals exact .held (SlotFiles.Unmoved.held ended) ended.2
  · obtain ⟨plan, planned, moved, -⟩ := ended
    exact .landed plan planned moved

/-- An accepted transition under the right lease always has a plan. -/
theorem planPublication_accepts (leased : lease.validateExclusive paths = .ok ())
    (allowed : validateTransition (classify codec paths slots).status phase = .ok ()) :
    ∃ plan, planPublication codec paths lease phase slots = .ok plan := by
  have open_ := validateTransition_publishable allowed
  have encodes (sequence : UInt64) :
      ∃ bytes, codec.toVec (successorWire codec paths sequence phase) = .ok bytes := by
    obtain ⟨bytes, written, -⟩ := codec.readBack (successorWire codec paths sequence phase)
      ⟨⟨phase, rfl⟩, paths.identityEncoded, codec.hashContent_isLowercaseSha256 _⟩
    exact ⟨bytes, written⟩
  have chosen : ∃ next, successorSlot (classify codec paths slots) = .ok next ∧
      checkInactive ((classify codec paths slots).slots next.2) next.1 = .ok () := by
    rcases publishable_cases open_ with absent | ⟨index, record, standing, room⟩
    · refine ⟨(0, 0), by rw [classify_empty absent]; rfl, ?_⟩
      rw [classify_slots, slotOutcome_absent.mpr (absent _)]
      rfl
    · refine ⟨(record.sequence + 1, 1 - index), standing.successorSlot_eq open_ room, ?_⟩
      rw [classify_slots]
      rcases standing.older with absent | ⟨prior, before, earlier⟩
      · rw [absent]
        rfl
      · rw [before]
        have below : ¬ record.sequence + 1 ≤ prior.sequence :=
          UInt64.not_le.mpr (UInt64.lt_trans earlier (lt_successor room))
        simp only [checkInactive, below, if_false]
  obtain ⟨next, successor, older⟩ := chosen
  obtain ⟨bytes, written⟩ := encodes next.1
  refine ⟨⟨next.2, next.1, bytes⟩, ?_⟩
  simp only [planPublication, leased]
  split
  · rename_i status
    rw [status] at open_
    cases open_
  · rename_i status
    rw [status] at open_
    cases open_
  · simp only [allowed, successor, older, written, bind, Except.bind, pure, Except.pure]

/-- The inactive slot of a plan can always be removed. -/
theorem Planned.removable (planned : Planned codec paths phase slots plan) :
    slots plan.target = none ∨ ∃ bytes, slots plan.target = some (.regular bytes) := by
  have outcome : slotOutcome codec paths slots plan.target = .absent ∨
      ∃ prior, slotOutcome codec paths slots plan.target = .valid prior := by
    rcases planned.source with ⟨absent, -, -⟩ | ⟨index, record, standing, -, target, -⟩
    · exact .inl (slotOutcome_absent.mpr (absent _))
    · rw [target]
      rcases standing.older with absent | ⟨prior, before, -⟩
      · exact .inl absent
      · exact .inr ⟨prior, before⟩
  rcases outcome with absent | ⟨prior, valid⟩
  · exact .inl (slotOutcome_absent.mp absent)
  · rcases entry : slots plan.target with _ | (bytes | kind | detail | detail)
    · exact .inl rfl
    · exact .inr ⟨bytes, rfl⟩
    all_goals simp [slotOutcome, entry, readSlot, observe] at valid

theorem checkpoint_none {point : PublishCheckpoint} {path : String} (state : SlotFiles) :
    Program.exec (checkpoint PublishFault.none point operation path) state = (.ok (), state) := rfl

/-- Without a fault, a plan is installed to its end. -/
theorem installPublication_completes (planned : Planned codec paths phase slots plan) :
    Completes (fun files => files.slots = slots)
      (installPublication codec paths PublishFault.none phase plan) fun _ _ => True := by
  rintro files rfl
  have created (state : SlotFiles) : Program.exec (createTemp paths PublishFault.none) state =
      (.ok (), { state with temps := ByteArray.empty :: state.temps }) := rfl
  simp only [installPublication, exec_bind, created, checkpoint_none, writeTemp, exec_modify, removeInactive, exec_get]
  rcases planned.removable with absent | ⟨bytes, present⟩
  · simp only [absent, exec_pure, renameTemp, exec_modify, outcome_ok]
  · simp only [present, exec_modify, renameTemp, exec_pure, outcome_ok]

/-- Without a fault, an accepted transition is published. -/
theorem publishIndexStateWith_completes (leased : lease.validateExclusive paths = .ok ())
    (allowed : validateTransition (classify codec paths slots).status phase = .ok ()) :
    Completes (fun files => files.slots = slots)
      (publishIndexStateWith codec paths lease phase PublishFault.none) fun _ _ => True := by
  rintro files rfl
  obtain ⟨plan, decided⟩ := planPublication_accepts leased allowed
  simp only [publishIndexStateWith, exec_bind, exec_get, decided]
  exact installPublication_completes (planPublication_planned decided) files rfl

end Codegraph.Store
