import Codegraph.Store.Readability

/- This file shows that only an explicit init reopens an uninitialized namespace. -/

namespace Codegraph.Store
open Interruptible

variable {codec : Codec} {paths : IndexPaths} {fault : LifecycleFault} {state : Namespace}

/-- The authority of a shut namespace is uninitialized, by this version or an older one. -/
def Shut (codec : Codec) (paths : IndexPaths) (state : Namespace) : Prop :=
  ∃ index record, Standing codec paths state.files.slots index record ∧
    record.phase = some .uninitialized ∧ record.extractionVersion ≤ currentExtractionVersion

def Operation.explicitInit : Operation → Bool
  | .rebuild .explicitInit _ => true
  | _ => false

/-- A shut namespace classifies as uninitialized, or as exhausted at its last sequence. -/
theorem Shut.status (shut : Shut codec paths state) : state.status codec paths = .uninitialized ∨
      ∃ sequence, state.status codec paths = .corrupt (.sequenceExhausted sequence) := by
  obtain ⟨index, record, standing, phase, version⟩ := shut
  have protocol := (slotOutcome_valid standing.valid).1
  have level : ¬ currentStorageProtocol < currentStorageProtocol := by decide
  have older : ¬ currentExtractionVersion < record.extractionVersion := UInt64.not_lt.mpr version
  simp only [Namespace.status, standing.classify_eq, standingStatus]
  split
  · exact .inr ⟨_, rfl⟩
  · left
    simp only [authorityAt, AuthoritativeSlot.status, protocol, level, older, phase, or_self, if_false,
      if_true, ite_self]

theorem Shut.artifacts {changed : Namespace} (shut : Shut codec paths state)
    (files : changed.files = state.files) : Shut codec paths changed := by
  obtain ⟨index, record, standing, rest⟩ := shut
  exact ⟨index, record, files ▸ standing, rest⟩

/-- A landed uninitialized phase shuts any namespace. -/
theorem Planned.shut {files : SlotFiles} {plan : PublicationPlan}
    (planned : Planned codec paths .uninitialized state.files.slots plan)
    (moved : state.files.Landed plan.target plan.bytes .uninitialized files) :
    Shut codec paths { state with files := files } :=
  ⟨plan.target, _, planned.standing moved.1, StatePhase.fromWire_asWire .uninitialized, UInt64.le_refl _⟩

theorem modify_shut {update : Namespace → Namespace} {cut : LifecycleError → Namespace → Prop}
    (files : ∀ state, (update state).files = state.files) :
    Establishes (Shut codec paths) (modify update : Lifecycle Unit) (fun _ => Shut codec paths) cut :=
  .modify _ fun state shut => shut.artifacts (files state)

/-- Every gate but the uninit's own refuses a shut namespace, or reports it as uninitialized. -/
theorem Shut.openForWriteWithOptions {purpose : StoreWritePurpose}
    {opened : StoreWriteOpen} {allowTombstone allowArtifacts : Bool} (shut : Shut codec paths state)
    (admitted : openForWriteWithOptions codec paths (heldLease paths) state purpose allowTombstone
      allowArtifacts = .ok opened) :
    (purpose = .fullRebuild ∧ opened = .fullRebuildRequired ⟨.uninitialized, .fullRebuild⟩) ∨
      (purpose = .uninitContinuation ∧ opened = .uninitContinuation ⟨.uninitialized, .uninitContinuation⟩) := by
  simp only [Store.openForWriteWithOptions] at admitted
  split at admitted
  · cases admitted
  rcases shut.status with status | ⟨sequence, status⟩
  · simp only [status] at admitted
    split at admitted
    · cases admitted
    cases purpose <;> cases admitted
    · exact .inl ⟨rfl, rfl⟩
    · exact .inr ⟨rfl, rfl⟩
  · simp only [status, reduceCtorEq] at admitted

/-- An ordinary rebuild keeps the namespace shut. -/
theorem fullRebuild_shut {kind : RebuildKind} (ordinary : kind ≠ .explicitInit) :
    Keeps (Shut codec paths) (fullRebuild codec paths fault kind) := by
  have refused : Establishes (Shut codec paths) (beginFullRebuildWith codec paths fault kind)
      (fun _ _ => False) (fun _ => Shut codec paths) := by
    refine (acquireOuterExclusive_keeps fun _ _ shut => shut.artifacts rfl).bind fun _ => ?_
    refine (rebuildCheckpoint_establishes fun _ _ inside => inside).bind fun _ => ?_
    have skipped : Keeps (Shut codec paths) (normalizeOwner codec paths kind) := by
      simp only [normalizeOwner, ordinary, if_false]
      exact .skip _
    refine skipped.bind fun _ => ?_
    refine (authorizeRebuild_keeps fun _ _ inside => inside).bind fun authorization => ?_
    refine (requireExplicitInit_keeps fun _ _ inside => inside.1).bind fun _ => ?_
    rintro state ⟨⟨shut, admitted⟩, allowed⟩
    rcases shut.openForWriteWithOptions admitted with ⟨-, opened⟩ | ⟨other, -⟩
    · cases opened
      exact absurd rfl (allowed ordinary).1
    · cases other
  exact refused.bind fun _ state impossible => impossible.elim

theorem incrementalSync_shut : Keeps (Shut codec paths) (incrementalSync codec paths fault) := by
  refine (acquireOrCreateExclusive_keeps fun _ _ shut => shut.artifacts rfl).bind fun _ => ?_
  apply Establishes.read
  intro seen
  refine (liftStore_establishes fun _ _ inside => inside.1).bind fun opened => ?_
  rintro state ⟨⟨shut, rfl⟩, admitted⟩
  rcases shut.openForWriteWithOptions admitted with ⟨other, -⟩ | ⟨other, -⟩
  · cases other
  · cases other

theorem recoverStaleCurrentSidecars_shut :
    Keeps (Shut codec paths) (recoverStaleCurrentSidecars codec paths fault) := by
  intro state shut
  have idle : recoverable codec paths state = false := by
    rcases shut.status with status | ⟨sequence, status⟩ <;> simp [recoverable, status]
  simp only [recoverStaleCurrentSidecars, exec_bind, exec_get, idle, if_true]
  exact shut

/-- Removing the index keeps the namespace shut. -/
theorem removeIndex_shut : Keeps (Shut codec paths) (removeIndex fault) := by
  have checkpoint (point : UninitCheckpoint) : Keeps (Shut codec paths) (uninitCheckpoint fault point) :=
    uninitCheckpoint_establishes fun _ _ inside => inside
  have removed (children : List RuntimeChild) : Keeps (Shut codec paths) (removeChildren fault children) := by
    induction children with
    | nil => exact .skip _
    | cons child rest ih =>
      refine .bind ?_ fun _ => (checkpoint _).bind fun _ => ih
      apply Establishes.reads
      intro seen
      apply Establishes.ite
      · exact fun _ => Establishes.throw _ fun _ inside => inside
      · exact fun _ => modify_shut fun _ => by rfl
  refine (modify_shut fun _ => by rfl).bind fun _ => (checkpoint _).bind fun _ => ?_
  refine (modify_shut fun _ => by rfl).bind fun _ => (checkpoint _).bind fun _ => ?_
  refine (modify_shut fun _ => by rfl).bind fun _ => (checkpoint _).bind fun _ => ?_
  exact removed _

/-- An uninit leaves its slots' history alone until it lands its phase, and then the namespace is shut. -/
theorem uninitIndexWith_shuts {unpublished : Namespace → Prop}
    (held : ∀ state files, unpublished state → Held codec paths state.files.slots files.slots →
      files.published = state.files.published → unpublished { state with files := files }) :
    Establishes unpublished (uninitIndexWith codec paths fault) (fun _ => Shut codec paths)
      (fun _ state => unpublished state ∨ Shut codec paths state) := by
  have stopped (error : LifecycleError) (state : Namespace) := @Or.inr (unpublished state) (Shut codec paths state)
  have waiting (error : LifecycleError) (state : Namespace) := @Or.inl (unpublished state) (Shut codec paths state)
  have published : Establishes unpublished (publishPhase codec paths fault .uninitialized)
      (fun _ => Shut codec paths) (fun _ state => unpublished state ∨ Shut codec paths state) := by
    apply publishPhase_establishes
    · exact fun state files error inside same history => .inl (held state files inside same history)
    · intro state files plan inside planned moved
      exact ⟨fun _ => planned.shut moved, fun _ => .inr (planned.shut moved)⟩
  apply Establishes.reads
  intro seen
  refine (requireUninitable_keeps waiting).bind fun _ => ?_
  refine (acquireExclusiveExisting_keeps waiting).bind fun _ => ?_
  refine .starting ?_ fun _ inside => inside.1
  refine (uninitCheckpoint_establishes waiting).bind fun _ => ?_
  refine (authorizeUninit_keeps waiting).bind fun authorization => ?_
  refine (requireUninitAuthorization_keeps waiting).bind fun _ => ?_
  refine published.bind fun _ => ?_
  refine (uninitCheckpoint_establishes stopped).bind fun _ => ?_
  refine (modify_shut fun _ => by rfl).bind fun _ => ?_
  refine (uninitCheckpoint_establishes stopped).bind fun _ => ?_
  have drained : Establishes (Shut codec paths)
      (Program.lift (fault.drain.mapError LifecycleError.daemonNotDrained))
      (fun _ => Shut codec paths) (fun _ state => unpublished state ∨ Shut codec paths state) :=
    .lift (fun _ _ _ inside => inside) fun error _ state inside => stopped error state inside
  refine drained.bind fun _ => ?_
  refine (uninitCheckpoint_establishes stopped).bind fun _ => ?_
  exact removeIndex_shut.consequence (fun _ inside => inside) (fun _ _ held => held)
    fun _ _ held => .inr held

/-- Every operation other than an explicit init keeps a shut namespace shut. -/
theorem Operation.shut (operation : Operation) (ordinary : operation.explicitInit = false)
    (shut : Shut codec paths state) : Shut codec paths (operation.exec codec paths state) := by
  apply outcome_reached
  cases operation with
  | rebuild kind fault =>
    have other : kind ≠ .explicitInit := by
      rintro rfl
      cases ordinary
    exact fullRebuild_shut other state shut
  | uninit fault =>
    refine (uninitIndexWith_shuts ?_).consequence (fun _ inside => inside) (fun _ _ held => held) ?_ state shut
    · rintro state files ⟨index, record, standing, rest⟩ same -
      exact ⟨index, record, same.standing _ _ standing, rest⟩
    · exact fun _ _ held => held.elim id id
  | sync fault => exact incrementalSync_shut state shut
  | recover fault =>
    exact (recoverStaleCurrentSidecars_shut.bind fun _ => .skip _) state shut
  | place child placed =>
    refine modify_shut (fun state => ?_) state shut
    split <;> rfl

theorem operateAll_shut (codec : Codec) (paths : IndexPaths) (operations : List Operation)
    (ordinary : ∀ operation ∈ operations, operation.explicitInit = false) (state : Namespace)
    (shut : Shut codec paths state) : Shut codec paths (operateAll codec paths operations state) := by
  induction operations generalizing state with
  | nil => exact shut
  | cons operation rest ih =>
    apply ih
    · exact fun later member => ordinary later (List.mem_cons_of_mem _ member)
    · exact operation.shut (ordinary operation List.mem_cons_self) shut

/-- An uninit that published its phase leaves a shut namespace, wherever it was cut. -/
theorem uninit_published_shut (fault : LifecycleFault) (before : Namespace)
    (published : ((Operation.uninit fault).exec codec paths before).files.published ≠
      before.files.published) : Shut codec paths ((Operation.uninit fault).exec codec paths before) := by
  have ended : Establishes (fun state => state.files.published = before.files.published)
      (uninitIndexWith codec paths fault)
      (fun _ state => state.files.published = before.files.published ∨ Shut codec paths state)
      (fun _ state => state.files.published = before.files.published ∨ Shut codec paths state) := by
    refine (uninitIndexWith_shuts ?_).consequence (fun _ inside => inside) (fun _ _ held => .inr held)
      fun _ _ held => held
    exact fun state files inside _ history => history.trans inside
  exact (outcome_reached (ended before rfl)).resolve_left published

/-- The namespace was shut by an uninit of this version, or holds the slot of an older version's uninit. -/
def Uninitialized (codec : Codec) (paths : IndexPaths) (state : Namespace) : Prop :=
  Shut codec paths state ∨ ∃ fault before, state = (Operation.uninit fault).exec codec paths before ∧
    state.files.published ≠ before.files.published

/-- Once an uninit has published its phase, no run without an explicit init makes the namespace current,
building, or readable again, with or without its tombstone. -/
theorem uninit_is_final (codec : Codec) (paths : IndexPaths) (state : Namespace)
    (operations : List Operation) (uninitialized : Uninitialized codec paths state)
    (ordinary : ∀ operation ∈ operations, operation.explicitInit = false) :
    (operateAll codec paths operations state).status codec paths ≠ .current ∧
    (∀ built, (operateAll codec paths operations state).status codec paths ≠ .building built) ∧
    ∀ database, openForRead codec paths (operateAll codec paths operations state) ≠ .ok database := by
  have shut : Shut codec paths state := by
    rcases uninitialized with shut | ⟨fault, before, rfl, published⟩
    · exact shut
    · exact uninit_published_shut fault before published
  have status := (operateAll_shut codec paths operations ordinary state shut).status
  have stale : (operateAll codec paths operations state).status codec paths ≠ .current := by
    rcases status with found | ⟨sequence, found⟩ <;> rw [found] <;> simp
  refine ⟨stale, ?_, ?_⟩
  · intro built
    rcases status with found | ⟨sequence, found⟩ <;> rw [found] <;> simp
  · exact fun database opened => stale (openForRead_entered opened).2.1

/-- An older version left this uninitialized slot, and no tombstone. -/
def olderUninit : Namespace :=
  { Namespace.absent with
    root := .locked
    files :=
      { SlotFiles.empty with
        slots := fun index =>
          if index = 0 then
            some (.regular (String.ofList (slotText
              (versionWire referenceCodec referencePaths 21 5 .uninitialized))).toUTF8)
          else none } }

/-- The uninit of this run is cut right after its publication. -/
def laterOperations : List Operation :=
  [.rebuild .reindex .none, .sync .none, .recover .none,
    .uninit { LifecycleFault.none with uninit := (· = .statePublished) }, .rebuild .reindex .none, .sync .none]

/-- An uninit beside an older slot is final. -/
theorem uninit_is_final_older : Uninitialized referenceCodec referencePaths olderUninit ∧
    (operateAll referenceCodec referencePaths laterOperations olderUninit).status referenceCodec
      referencePaths ≠ .current ∧
    (∀ built, (operateAll referenceCodec referencePaths laterOperations olderUninit).status referenceCodec
      referencePaths ≠ .building built) ∧
    ∀ database, openForRead referenceCodec referencePaths
      (operateAll referenceCodec referencePaths laterOperations olderUninit) ≠ .ok database := by
  have standing : Standing referenceCodec referencePaths olderUninit.files.slots 0
      (versionWire referenceCodec referencePaths 21 5 .uninitialized).record :=
    ⟨slotOutcome_written rfl rfl, .inl (slotOutcome_absent.mpr rfl)⟩
  have uninitialized : Uninitialized referenceCodec referencePaths olderUninit :=
    .inl ⟨0, _, standing, StatePhase.fromWire_asWire .uninitialized, by decide⟩
  have ordinary : ∀ operation ∈ laterOperations, operation.explicitInit = false := by
    simp [laterOperations, Operation.explicitInit]
  exact ⟨uninitialized, uninit_is_final referenceCodec referencePaths olderUninit laterOperations
    uninitialized ordinary⟩

end Codegraph.Store
