import Codegraph.Store.Publication
import Codegraph.Store.ReferenceCodec

/- This file follows whole sequences of publications, each cut anywhere. -/

namespace Codegraph.Store
open Interruptible

variable {codec : Codec} {paths : IndexPaths} {phase : StatePhase}

/-- One call brings its own lease, its phase, and its environment. -/
structure PublishCall where
  lease : IndexLease
  phase : StatePhase
  fault : PublishFault

def PublishCall.exec (call : PublishCall) (codec : Codec) (paths : IndexPaths) (files : SlotFiles) :
    Except StatePublishError PublishedState × SlotFiles :=
  Program.exec (publishIndexStateWith codec paths call.lease call.phase call.fault) files

def publishAll (codec : Codec) (paths : IndexPaths) (calls : List PublishCall) (files : SlotFiles) :
    SlotFiles :=
  calls.foldl (fun reached call => (call.exec codec paths reached).2) files

/-- The status of a phase published by this binary. -/
def StatePhase.status : StatePhase → ExtractionStatus
  | .building => .building currentExtractionVersion
  | .current => .current
  | .uninitialized => .uninitialized

/-- A standing successor of this binary has the status of its phase. -/
theorem standingStatus_successor {index : Fin 2} {sequence : UInt64} (room : sequence ≠ maxSequence) :
    standingStatus (authorityAt paths index (successorWire codec paths sequence phase).record) =
      phase.status := by
  have level : ¬ currentStorageProtocol < currentStorageProtocol := by decide
  have version : ¬ currentExtractionVersion < currentExtractionVersion := by decide
  cases phase <;>
    simp [standingStatus, authorityAt, WireSlot.record, successorWire, versionWire, room, AuthoritativeSlot.status,
      level, version, StatePhase.status]

/-- A successor takes the other slot one sequence later and leaves the old authority's bytes. -/
structure Succeeded (codec : Codec) (paths : IndexPaths) (phase : StatePhase)
    (before after : Fin 2 → Option SlotEntry) : Prop where
  status : (classify codec paths after).status = phase.status
  first : (classify codec paths before).authoritative = none →
    ∃ new, (classify codec paths after).authoritative = some new ∧ new.index = 0 ∧ new.record.sequence = 0
  next : ∀ old, (classify codec paths before).authoritative = some old →
    after old.index = before old.index ∧
      ∃ new, (classify codec paths after).authoritative = some new ∧ new.index = 1 - old.index ∧
        new.record.sequence.toNat = old.record.sequence.toNat + 1

/-- What one call promises about the slots, by the way it ended. -/
structure PublishCall.Kept (codec : Codec) (paths : IndexPaths) (call : PublishCall)
    (before : SlotFiles) (ended : Except StatePublishError PublishedState × SlotFiles) : Prop where
  refused : ∀ error, ended.1 = .error error → error.refusal = true → ended.2.slots = before.slots
  cut : ∀ operation path point, ended.1 = .error (.io operation path point) →
    point.afterRename = false → Held codec paths before.slots ended.2.slots
  landed : ((∃ result, ended.1 = .ok result) ∨ ∃ operation path point,
      ended.1 = .error (.io operation path point) ∧ point.afterRename = true) →
    Succeeded codec paths call.phase before.slots ended.2.slots

/-- The pair is empty, or its standing record counts the landed publications. -/
def Recorded (codec : Codec) (paths : IndexPaths) (files : SlotFiles) : Prop :=
  (files.published = [] ∧ ∀ index, files.slots index = none) ∨
    ∃ index sequence phase, Standing codec paths files.slots index
        (successorWire codec paths sequence phase).record ∧
      files.published.head? = some phase ∧ sequence.toNat + 1 = files.published.length

theorem Recorded.empty : Recorded codec paths SlotFiles.empty := .inl ⟨rfl, fun _ => rfl⟩

/-- One call keeps the pair recorded, whether it holds or lands. -/
theorem Recorded.step {before after : SlotFiles} {phase : StatePhase}
    (recorded : Recorded codec paths before) (published : Published codec paths phase before after) :
    Recorded codec paths after := by
  rcases published with ⟨same, history⟩ | ⟨plan, planned, moved⟩
  · rcases recorded with ⟨none_, absent⟩ | ⟨index, sequence, last, standing, newest, counted⟩
    · exact .inl ⟨history.trans none_, same.empty absent⟩
    · refine .inr ⟨index, sequence, last, same.standing _ _ standing, ?_, ?_⟩
      · rw [history, newest]
      · rw [history, counted]
  · refine .inr ⟨plan.target, plan.sequence, phase, planned.standing moved.1, by rw [moved.2]; rfl, ?_⟩
    rw [moved.2, List.length_cons]
    rcases planned.source with ⟨absent, -, start⟩ | ⟨index, record, standing, room, -, next⟩
    · rcases recorded with ⟨none_, -⟩ | ⟨index, sequence, last, standing, -, -⟩
      · rw [none_, start]
        rfl
      · exact absurd (absent index) standing.present
    · rcases recorded with ⟨-, absent⟩ | ⟨place, sequence, last, recordedStanding, -, counted⟩
      · exact absurd (absent index) standing.present
      · obtain ⟨-, rfl⟩ := standing.unique recordedStanding
        rw [next, successor_toNat room, ← counted]
        rfl

theorem publishAll_append (done rest : List PublishCall) (files : SlotFiles) :
    publishAll codec paths (done ++ rest) files =
      publishAll codec paths rest (publishAll codec paths done files) := by
  simp only [publishAll, List.foldl_append]

theorem PublishCall.published (codec : Codec) (paths : IndexPaths) (call : PublishCall) (files : SlotFiles) :
    Published codec paths call.phase files (call.exec codec paths files).2 :=
  publishIndexStateWith_published codec paths call.lease call.phase call.fault files

/-- Every run of calls keeps the pair recorded. -/
theorem publishAll_recorded (codec : Codec) (paths : IndexPaths) (calls : List PublishCall)
    (files : SlotFiles) (recorded : Recorded codec paths files) :
    Recorded codec paths (publishAll codec paths calls files) := by
  induction calls generalizing files with
  | nil => exact recorded
  | cons call rest ih => exact ih _ (recorded.step (call.published codec paths files))

theorem Published.history {before after : SlotFiles} (published : Published codec paths phase before after) :
    after.published = before.published ∨ after.published = phase :: before.published := by
  rcases published with ⟨-, history⟩ | ⟨plan, -, moved⟩
  · exact .inl history
  · exact .inr moved.2

/-- The history only grows, by at most one phase a call. -/
theorem publishAll_length (codec : Codec) (paths : IndexPaths) (calls : List PublishCall) (files : SlotFiles) :
    files.published.length ≤ (publishAll codec paths calls files).published.length ∧
      (publishAll codec paths calls files).published.length ≤ files.published.length + calls.length := by
  induction calls generalizing files with
  | nil => exact ⟨le_refl _, le_refl _⟩
  | cons call rest ih =>
    have later := ih (call.exec codec paths files).2
    change _ ≤ (publishAll codec paths rest (call.exec codec paths files).2).published.length ∧
      (publishAll codec paths rest (call.exec codec paths files).2).published.length ≤ _
    rcases (call.published codec paths files).history with same | grown
    · rw [same] at later
      simp only [List.length_cons]
      omega
    · rw [grown] at later
      simp only [List.length_cons] at later ⊢
      omega

/-- A landed plan below the last sequence is the exact successor. -/
theorem Planned.succeeded {before after : SlotFiles} {plan : PublicationPlan}
    (planned : Planned codec paths phase before.slots plan)
    (moved : before.Landed plan.target plan.bytes phase after) (room : plan.sequence ≠ maxSequence) :
    Succeeded codec paths phase before.slots after.slots := by
  have standing := planned.standing moved.1
  refine ⟨?_, ?_, ?_⟩
  · rw [standing.classify_eq]
    exact standingStatus_successor room
  · intro unowned
    rcases planned.source with ⟨-, target, start⟩ | ⟨index, record, old, -, -, -⟩
    · exact ⟨_, by rw [standing.classify_eq], target, start⟩
    · rw [old.classify_eq] at unowned
      cases unowned
  · intro authority owned
    rcases planned.source with ⟨absent, -, -⟩ | ⟨index, record, old, below, target, next⟩
    · rw [classify_empty absent] at owned
      cases owned
    · rw [old.classify_eq] at owned
      simp only [Option.some.injEq] at owned
      subst owned
      refine ⟨?_, _, by rw [standing.classify_eq], target, ?_⟩
      · rw [moved.1, Function.update_of_ne]
        change index ≠ plan.target
        omega
      · change plan.sequence.toNat = record.sequence.toNat + 1
        rw [next, successor_toNat below]

/-- One call keeps its promise while a sequence remains. -/
theorem PublishCall.kept (call : PublishCall) (before : SlotFiles) (recorded : Recorded codec paths before)
    (fewer : (call.exec codec paths before).2.published.length < UInt64.size - 1) :
    call.Kept codec paths before (call.exec codec paths before) := by
  have ended := publishIndexStateWith_ended codec paths call.lease call.phase call.fault before
  have after := recorded.step (call.published codec paths before)
  change Outcome _ _ (call.exec codec paths before) at ended
  generalize call.exec codec paths before = finished at ended after fewer ⊢
  obtain ⟨outcome, files⟩ := finished
  have landed {plan : PublicationPlan} (planned : Planned codec paths call.phase before.slots plan)
      (moved : before.Landed plan.target plan.bytes call.phase files) :
      Succeeded codec paths call.phase before.slots files.slots := by
    apply planned.succeeded moved
    rcases after with ⟨none_, -⟩ | ⟨index, sequence, last, standing, -, counted⟩
    · rw [moved.2] at none_
      cases none_
    · obtain ⟨-, same⟩ := standing.unique (planned.standing moved.1)
      intro exhausted
      have equal : plan.sequence = sequence := congrArg StateSlotRecord.sequence same
      have maximum : maxSequence.toNat = UInt64.size - 1 := by decide
      rw [← equal, exhausted, maximum] at counted
      change _ = files.published.length at counted
      change files.published.length < _ at fewer
      omega
  refine ⟨?_, ?_, ?_⟩
  · rintro error rfl refused
    cases error <;> first | exact ended.1 | cases refused
  · rintro operation path point rfl early
    obtain ⟨plan, planned, reached⟩ := ended
    simp only [early, Bool.false_eq_true, if_false] at reached
    exact planned.held reached.2
  · rintro (⟨result, rfl⟩ | ⟨operation, path, point, rfl, late⟩)
    · obtain ⟨plan, planned, moved, -⟩ := ended
      exact landed planned moved
    · obtain ⟨plan, planned, reached⟩ := ended
      simp only [late, if_true] at reached
      exact landed planned reached

/-- A recorded pair below the last sequence is publishable. -/
theorem Recorded.publishable {files : SlotFiles} (recorded : Recorded codec paths files)
    (fewer : files.published.length < UInt64.size - 1) :
    (classify codec paths files.slots).status.publishable = true := by
  rcases recorded with ⟨-, absent⟩ | ⟨index, sequence, phase, standing, -, counted⟩
  · rw [classify_empty absent]
    rfl
  · have room : sequence ≠ maxSequence := by
      rintro rfl
      have maximum : maxSequence.toNat = UInt64.size - 1 := by decide
      omega
    rw [standing.classify_eq, standingStatus_successor room]
    cases phase <;> rfl

/-- From two absent slots, every prefix of every run of calls stays publishable, and each call keeps
the old authority, exposes its exact successor, or changes nothing, while a sequence remains. -/
theorem publications_keep_authority (codec : Codec) (paths : IndexPaths) (calls : List PublishCall)
    (fewer : (publishAll codec paths calls SlotFiles.empty).published.length < UInt64.size - 1) :
    ∀ done rest, calls = done ++ rest →
      (∀ built reason,
        (classify codec paths (publishAll codec paths done SlotFiles.empty).slots).status ≠ .future built ∧
        (classify codec paths (publishAll codec paths done SlotFiles.empty).slots).status ≠ .corrupt reason) ∧
      ∀ call later, rest = call :: later →
        call.Kept codec paths (publishAll codec paths done SlotFiles.empty)
          (call.exec codec paths (publishAll codec paths done SlotFiles.empty)) := by
  rintro done rest rfl
  have recorded := publishAll_recorded codec paths done _ .empty
  rw [publishAll_append] at fewer
  constructor
  · have shorter := (publishAll_length codec paths rest
      (publishAll codec paths done .empty)).1
    have healthy := recorded.publishable (lt_of_le_of_lt shorter fewer)
    intro built reason
    constructor <;> intro status <;> rw [status] at healthy <;> cases healthy
  · rintro call later rfl
    apply call.kept _ recorded
    exact lt_of_le_of_lt (publishAll_length codec paths later _).1 fewer

def referenceLease : IndexLease :=
  ⟨.exclusive, referencePaths.currentRoot, referencePaths.permanentLock, true⟩

/-- The second call is cut between the removal of the inactive slot and the rename. -/
def referenceCalls : List PublishCall :=
  [⟨referenceLease, .building, .none⟩,
    ⟨referenceLease, .building, { PublishFault.none with cut := (· == .inactiveSlotPrepared) }⟩,
    ⟨referenceLease, .current, .none⟩]

/-- Three publications, the second of which is cut before it renames. -/
theorem publications_keep_authority_reference :
    (publishAll referenceCodec referencePaths referenceCalls SlotFiles.empty).published.length < UInt64.size - 1 ∧
    ∀ done rest, referenceCalls = done ++ rest →
      (∀ built reason,
        (classify referenceCodec referencePaths
          (publishAll referenceCodec referencePaths done SlotFiles.empty).slots).status ≠ .future built ∧
        (classify referenceCodec referencePaths
          (publishAll referenceCodec referencePaths done SlotFiles.empty).slots).status ≠ .corrupt reason) ∧
      ∀ call later, rest = call :: later →
        call.Kept referenceCodec referencePaths (publishAll referenceCodec referencePaths done SlotFiles.empty)
          (call.exec referenceCodec referencePaths
            (publishAll referenceCodec referencePaths done SlotFiles.empty)) := by
  have fewer : (publishAll referenceCodec referencePaths referenceCalls .empty).published.length <
      UInt64.size - 1 := by
    have bounded := (publishAll_length referenceCodec referencePaths referenceCalls .empty).2
    have start : SlotFiles.empty.published.length = 0 := rfl
    have three : referenceCalls.length = 3 := rfl
    have size : UInt64.size = 18446744073709551616 := rfl
    omega
  exact ⟨fewer, publications_keep_authority referenceCodec referencePaths referenceCalls fewer⟩

end Codegraph.Store
