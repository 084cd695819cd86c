import Codegraph.Store.Lifecycle

/- This file shows that a readable namespace always holds a finished index. -/

namespace Codegraph.Store
open Interruptible

variable {codec : Codec} {paths : IndexPaths} {fault : LifecycleFault}
  {base : List StatePhase} {phase : StatePhase} {state : Namespace} {kind : RebuildKind}

/-- A finished database carries the stamp in its main file and every finalization step. -/
structure Database.Finished (removals : Nat) (database : Database) : Prop where
  generation : database.generation = removals
  finalization : database.finalization = Finalization.complete
  mainStamp : database.mainStamp = some (toString currentExtractionVersion.toNat)
  logStamp : database.logStamp = none

/-- The artifacts of a coherent namespace agree with its last published phase. -/
structure Coherent (codec : Codec) (paths : IndexPaths) (base : List StatePhase) (state : Namespace) : Prop where
  recorded : Recorded codec paths state.files
  grown : base <:+ state.files.published
  vacant : state.files.published = [] → state.tombstone = false ∧ state.database = none ∧
    state.wal = none ∧ state.shm = false
  unlocked : state.root ≠ .locked → state.files.published = []
  finished : state.files.published.head? = some .current →
    ∃ database, state.database = some database ∧ database.Finished state.removals

theorem Coherent.absent : Coherent codec paths [] .absent where
  recorded := .empty
  grown := List.nil_suffix
  vacant _ := ⟨rfl, rfl, rfl, rfl⟩
  unlocked _ := rfl
  finished newest := by cases newest

/-- A coherent namespace whose lock is held. -/
def Locked (codec : Codec) (paths : IndexPaths) (base : List StatePhase) (state : Namespace) : Prop :=
  Coherent codec paths base state ∧ state.root = .locked

/-- An unsettled namespace has published a phase other than the current one. -/
structure Unsettled (codec : Codec) (paths : IndexPaths) (base : List StatePhase) (phase : StatePhase)
    (state : Namespace) : Prop where
  recorded : Recorded codec paths state.files
  grown : base <:+ state.files.published
  newest : state.files.published.head? = some phase
  pending : phase ≠ .current
  locked : state.root = .locked

theorem Unsettled.coherent {phase : StatePhase} {state : Namespace}
    (unsettled : Unsettled codec paths base phase state) : Coherent codec paths base state := by
  have nonempty : state.files.published ≠ [] := by
    intro none_
    have newest := unsettled.newest
    rw [none_] at newest
    cases newest
  have different : state.files.published.head? ≠ some .current := by
    rw [unsettled.newest]
    exact fun same => unsettled.pending (Option.some.inj same)
  exact ⟨unsettled.recorded, unsettled.grown, fun none_ => absurd none_ nonempty,
    fun open_ => absurd unsettled.locked open_, fun same => absurd same different⟩

/-- An unsettled namespace stays so while only its artifacts change. -/
theorem Unsettled.artifacts {changed : Namespace}
    (unsettled : Unsettled codec paths base phase state) (files : changed.files = state.files)
    (root : changed.root = state.root) : Unsettled codec paths base phase changed :=
  ⟨files ▸ unsettled.recorded, files ▸ unsettled.grown, by rw [files]; exact unsettled.newest, unsettled.pending,
    root.trans unsettled.locked⟩

theorem SlotFiles.Landed.grown {target : Fin 2} {bytes : ByteArray}
    {before after : SlotFiles} (moved : before.Landed target bytes phase after)
    (known : base <:+ before.published) : base <:+ after.published := by
  rw [moved.2]
  exact known.trans (List.suffix_cons phase _)

/-- A publication inside the namespace holds its slots or lands its phase. -/
theorem publishPhase_establishes {pre : Namespace → Prop}
    {post : PublishedState → Namespace → Prop} {cut : LifecycleError → Namespace → Prop}
    (held : ∀ state files error, pre state → Held codec paths state.files.slots files.slots →
      files.published = state.files.published → cut error { state with files := files })
    (landed : ∀ state files plan, pre state → Planned codec paths phase state.files.slots plan →
      state.files.Landed plan.target plan.bytes phase files →
      (∀ result, post result { state with files := files }) ∧
        ∀ error, cut error { state with files := files }) :
    Establishes pre (publishPhase codec paths fault phase) post cut := by
  apply Establishes.focus
  · intro state value part inside ended
    have finished := publishIndexStateWith_ended codec paths (heldLease paths) phase
      (fault.publication phase) state.files
    rw [ended] at finished
    obtain ⟨plan, planned, moved, -⟩ := finished
    exact (landed state part plan inside planned moved).1 value
  · intro state error part inside ended
    have published := publishIndexStateWith_published codec paths (heldLease paths) phase
      (fault.publication phase) state.files
    rw [ended] at published
    rcases published with ⟨same, history⟩ | ⟨plan, planned, moved⟩
    · exact held state part _ inside same history
    · exact (landed state part plan inside planned moved).2 _

section Checkpoints
variable {pre : Namespace → Prop} {cut : LifecycleError → Namespace → Prop} {authorization : StoreWriteAuthorization}

section

variable (stopped : ∀ error state, pre state → cut error state)
include stopped

theorem rebuildCheckpoint_establishes {point : RebuildCheckpoint} :
    Establishes pre (rebuildCheckpoint fault point) (fun _ => pre) cut := by
  refine .idle (fun state => ?_) stopped
  rw [rebuildCheckpoint]
  rcases fault.rebuild point with _ | (_ | _) <;> rfl

theorem rebuildStage_establishes {stage : RebuildStage} :
    Establishes pre (rebuildStage fault stage) (fun _ => pre) cut := by
  refine .idle (fun state => ?_) stopped
  rw [rebuildStage]
  rcases fault.stage stage with _ | (_ | _) <;> rfl

theorem uninitCheckpoint_establishes {point : UninitCheckpoint} :
    Establishes pre (uninitCheckpoint fault point) (fun _ => pre) cut := by
  refine .idle (fun state => ?_) stopped
  rw [uninitCheckpoint]
  split_ifs <;> rfl

theorem requireUninitable_keeps {status : ExtractionStatus} :
    Establishes pre (requireUninitable status) (fun _ => pre) cut := by
  refine .idle (fun state => ?_) stopped
  rw [requireUninitable]
  split_ifs <;> rfl

theorem requireUninitAuthorization_keeps
    : Establishes pre (requireUninitAuthorization authorization) (fun _ => pre) cut := by
  refine .idle (fun state => ?_) stopped
  rw [requireUninitAuthorization]
  split_ifs <;> rfl

/-- A gate's answer is read without touching the namespace. -/
theorem liftStore_establishes {α : Type} {result : Except StoreError α} :
    Establishes pre (liftStore result) (fun value state => pre state ∧ result = .ok value) cut := by
  rcases result with error | value
  · exact .throw _ fun state inside => stopped _ state inside
  · exact .pure _ fun state inside => ⟨inside, rfl⟩

theorem refuseTombstonedNamespace_keeps : Establishes pre (refuseTombstonedNamespace paths)
      (fun _ state => pre state ∧ state.tombstone = false) cut := by
  intro state inside
  simp only [refuseTombstonedNamespace, exec_bind, exec_get]
  rcases marked : state.tombstone
  · exact ⟨inside, marked⟩
  · exact stopped _ state inside

/-- A gate that only reads the namespace keeps any assertion. -/
theorem authorizeRebuild_keeps {kind : RebuildKind} : Establishes pre (authorizeRebuild codec paths kind)
      (fun authorization state => pre state ∧
        openForWriteWithOptions codec paths (heldLease paths) state .fullRebuild
          (kind = .explicitInit) (kind = .explicitInit) = .ok (.fullRebuildRequired authorization)) cut := by
  intro state inside
  simp only [authorizeRebuild, exec_bind, exec_get]
  rcases decided : openForWriteWithOptions codec paths (heldLease paths) state .fullRebuild
      (kind = .explicitInit) (kind = .explicitInit) with error | (_ | authorization | authorization)
  · exact stopped _ state inside
  · exact stopped _ state inside
  · exact ⟨inside, decided⟩
  · exact stopped _ state inside

theorem requireExplicitInit_keeps {kind : RebuildKind} : Establishes pre (requireExplicitInit paths kind authorization)
      (fun _ state => pre state ∧
        (kind ≠ .explicitInit → authorization.status ≠ .uninitialized ∧ state.tombstone = false)) cut := by
  apply Establishes.ite
  · intro explicit
    exact .pure _ fun _ inside => ⟨inside, fun other => absurd explicit other⟩
  · intro _
    apply Establishes.ite
    · intro _
      exact .throw _ fun state inside => stopped _ state inside
    · intro initialized
      refine (refuseTombstonedNamespace_keeps stopped).consequence (fun _ inside => inside) ?_ (fun _ _ held => held)
      exact fun _ state unmarked => ⟨unmarked.1, fun _ => ⟨initialized, unmarked.2⟩⟩

theorem authorizeUninit_keeps : Establishes pre (authorizeUninit codec paths) (fun _ => pre) cut := by
  apply Establishes.read
  intro seen
  refine (liftStore_establishes fun error state inside => stopped error state inside.1).bind fun opened => ?_
  rcases opened with _ | authorization | authorization
  · exact .throw _ fun state inside => stopped _ state inside.1.1
  · exact .throw _ fun state inside => stopped _ state inside.1.1
  · exact .pure _ fun state inside => inside.1.1

theorem acquireExclusiveExisting_keeps : Establishes pre (acquireExclusiveExisting paths fault)
      (fun _ state => pre state ∧ state.root = .locked) cut := by
  apply Establishes.read
  intro seen
  apply Establishes.ite
  · intro _
    exact .throw _ fun state inside => stopped _ state inside.1
  · intro held
    apply Establishes.ite
    · intro _
      refine .pure _ ?_
      rintro state ⟨inside, rfl⟩
      exact ⟨inside, not_not.mp held⟩
    · intro _
      exact .throw _ fun state inside => stopped _ state inside.1

end

/-- Acquiring the lock changes no more than the root. -/
theorem acquireOrCreateExclusive_keeps {inside : Namespace → Prop}
    (rooted : ∀ state root, inside state → inside { state with root := root }) :
    Keeps inside (acquireOrCreateExclusive paths fault) := by
  apply Establishes.reads
  intro seen
  have moved (root : Root) : Keeps inside (modify fun state => { state with root := root } : Lifecycle Unit) :=
    .modify _ fun state held => rooted state root held
  rcases seen.root with _ | _ | _
  · apply Establishes.ite
    · intro _
      refine (moved .lockless).bind fun _ => ?_
      apply Establishes.ite
      · exact fun _ => .throw _ fun _ held => held
      · exact fun _ => moved .locked
    · exact fun _ => .throw _ fun _ held => held
  · exact .throw _ fun _ held => held
  · apply Establishes.ite
    · exact fun _ => .skip _
    · exact fun _ => .throw _ fun _ held => held

theorem acquireOuterExclusive_keeps {inside : Namespace → Prop}
    (rooted : ∀ state root, inside state → inside { state with root := root }) :
    Keeps inside (acquireOuterExclusive codec paths fault) := by
  apply Establishes.reads
  intro seen
  apply Establishes.ite
  · intro _
    apply Establishes.ite
    · exact fun _ => .modify _ fun state held => rooted state .locked held
    · exact fun _ => .throw _ fun _ held => held
  · exact fun _ => acquireOrCreateExclusive_keeps rooted

end Checkpoints

/-- Publishing the building or the uninitialized phase unsettles a locked namespace. -/
theorem publishPhase_unsettles (pending : phase ≠ .current) : Establishes (Locked codec paths base)
      (publishPhase codec paths fault phase) (fun _ => Unsettled codec paths base phase)
      (fun _ => Coherent codec paths base) := by
  apply publishPhase_establishes
  · rintro state files error ⟨coherent, -⟩ same history
    have published : Published codec paths phase state.files files := .held same history
    have recorded := coherent.recorded.step published
    refine ⟨recorded, history ▸ coherent.grown, ?_, ?_, ?_⟩
    · exact fun none_ => coherent.vacant (history ▸ none_)
    · exact fun open_ => history.trans (coherent.unlocked open_)
    · exact fun newest => coherent.finished (history ▸ newest)
  · rintro state files plan ⟨coherent, locked⟩ planned moved
    have recorded := coherent.recorded.step (.landed plan planned moved)
    have newest : files.published.head? = some phase := by rw [moved.2]; rfl
    have unsettled : Unsettled codec paths base phase { state with files := files } :=
      ⟨recorded, moved.grown coherent.grown, newest, pending, locked⟩
    exact ⟨fun _ => unsettled, fun _ => unsettled.coherent⟩

theorem Recorded.removeOwnerMismatched {files : SlotFiles} (recorded : Recorded codec paths files) :
    removeOwnerMismatchedStateSlots codec paths files = files := by
  have owned (index : Fin 2) : (slotOutcome codec paths files.slots index).ownerMismatched = false := by
    rcases recorded with ⟨-, absent⟩ | ⟨place, sequence, phase, standing, -, -⟩
    · rw [slotOutcome_absent.mpr (absent index)]
      rfl
    · rcases slot_cases place index with rfl | rfl
      · rw [standing.valid]
        rfl
      · rcases standing.older with absent | ⟨prior, before, -⟩
        · rw [absent]
          rfl
        · rw [before]
          rfl
  simp [removeOwnerMismatchedStateSlots, owned]

/-- A root may be created or locked around coherent files. -/
theorem Coherent.withRoot {root : Root} (coherent : Coherent codec paths base state)
    (fits : root = .locked ∨ state.root ≠ .locked) : Coherent codec paths base { state with root := root } := by
  refine ⟨coherent.recorded, coherent.grown, coherent.vacant, ?_, coherent.finished⟩
  rcases fits with rfl | open_
  · exact fun open_ => absurd rfl open_
  · exact fun _ => coherent.unlocked open_

/-- Acquiring the lease locks the namespace. -/
theorem acquireOrCreateExclusive_locks : Establishes (Coherent codec paths base) (acquireOrCreateExclusive paths fault)
      (fun _ => Locked codec paths base)
      (fun _ => Coherent codec paths base) := by
  intro state coherent
  simp only [acquireOrCreateExclusive, exec_bind, exec_get]
  rcases held : state.root with _ | _ | _
  · have fresh : state.root ≠ .locked := by rw [held]; decide
    rcases fault.available <;> rcases fault.rootCreated <;>
      simp only [if_true, if_false, Bool.false_eq_true, exec_bind, exec_modify, exec_throw, outcome_ok, outcome_error]
    · exact coherent
    · exact coherent
    · exact ⟨coherent.withRoot (.inl rfl), rfl⟩
    · exact coherent.withRoot (.inr fresh)
  · exact coherent
  · rcases fault.available
    · exact coherent
    · exact ⟨coherent, held⟩

theorem acquireOuterExclusive_locks : Establishes (Coherent codec paths base) (acquireOuterExclusive codec paths fault)
      (fun _ => Locked codec paths base)
      (fun _ => Coherent codec paths base) := by
  intro state coherent
  simp only [acquireOuterExclusive, exec_bind, exec_get]
  split
  · rcases fault.available
    · exact coherent
    · exact ⟨coherent.withRoot (.inl rfl), rfl⟩
  · exact acquireOrCreateExclusive_locks state coherent

/-- The shared prologue leaves a building namespace without a database. -/
theorem beginFromAuthorization_unsettles : Establishes (Locked codec paths base)
      (beginFromAuthorization codec paths fault) (fun _ => Unsettled codec paths base .building)
      (fun _ => Coherent codec paths base) := by
  have stopped (error : LifecycleError) (state : Namespace) := @Unsettled.coherent codec paths base .building state
  have removed : Establishes (Unsettled codec paths base .building) removeDatabaseFiles
      (fun _ => Unsettled codec paths base .building) (fun _ => Coherent codec paths base) :=
    .modify _ fun state unsettled => unsettled.artifacts rfl rfl
  refine (publishPhase_unsettles (by decide)).bind fun _ => ?_
  refine (rebuildCheckpoint_establishes stopped).bind fun _ => ?_
  refine (rebuildCheckpoint_establishes stopped).bind fun _ => ?_
  exact removed.bind fun _ => rebuildCheckpoint_establishes stopped

/-- No recorded slot has an owner to remove. -/
theorem normalizeOwner_keeps {pre : Namespace → Prop} {cut : LifecycleError → Namespace → Prop}
    (recorded : ∀ state, pre state → Recorded codec paths state.files) :
    Establishes pre (normalizeOwner codec paths kind) (fun _ => pre) cut := by
  apply Establishes.ite
  · intro _
    apply Establishes.modify
    intro state inside
    rw [(recorded state inside).removeOwnerMismatched]
    exact inside
  · intro _
    exact .skip _

theorem beginFullRebuildWith_unsettles :
    Establishes (Coherent codec paths base) (beginFullRebuildWith codec paths fault kind)
      (fun _ => Unsettled codec paths base .building) (fun _ => Coherent codec paths base) := by
  refine acquireOuterExclusive_locks.bind fun _ => ?_
  refine (rebuildCheckpoint_establishes fun _ _ inside => inside.1).bind fun _ => ?_
  refine (normalizeOwner_keeps fun _ inside => inside.1.recorded).bind fun _ => ?_
  refine (authorizeRebuild_keeps fun _ _ inside => inside.1).bind fun authorization => ?_
  refine (requireExplicitInit_keeps fun _ _ inside => inside.1.1).bind fun _ => ?_
  exact beginFromAuthorization_unsettles.starting fun state inside => inside.1.1

/-- The database of a rebuild in progress follows the last removal. -/
def Filling (codec : Codec) (paths : IndexPaths) (base : List StatePhase) (finalization : Finalization)
    (stamp logged : Option String)
    (state : Namespace) : Prop :=
  Unsettled codec paths base .building state ∧
    state.database = some ⟨state.removals, stamp, logged, finalization⟩

theorem finalizeDatabase_fills {before after : Finalization} {stamp stamp' logged logged' : Option String}
    {step : Database → Database}
    (effect : ∀ generation, step ⟨generation, stamp, logged, before⟩ = ⟨generation, stamp', logged', after⟩) :
    Establishes (Filling codec paths base before stamp logged) (finalizeDatabase step)
      (fun _ => Filling codec paths base after stamp' logged')
      (fun _ => Unsettled codec paths base .building) := by
  apply Establishes.modify
  rintro state ⟨unsettled, database⟩
  refine ⟨unsettled.artifacts rfl rfl, ?_⟩
  simp only [database, Option.map_some, effect]

/-- The open part of a finish runs every step in order on the same database. -/
theorem finishOpenDatabase_fills : Establishes (Filling codec paths base .none none none) (finishOpenDatabase fault)
      (fun _ => Filling codec paths base ⟨true, true, true, true, false⟩
        (some (toString currentExtractionVersion.toNat)) none)
      (fun _ => Unsettled codec paths base .building) := by
  have stopped {finalization : Finalization} {stamp logged : Option String} (error : LifecycleError)
      (state : Namespace) (filling : Filling codec paths base finalization stamp logged state) :
      Unsettled codec paths base .building state := filling.1
  have restored (generation : Nat) : Database.restoreDefaultPragmas ⟨generation, none, none, .none⟩ =
      ⟨generation, none, none, ⟨true, false, false, false, false⟩⟩ := rfl
  have compacted (generation : Nat) :
      Database.compact ⟨generation, none, none, ⟨true, false, false, false, false⟩⟩ =
        ⟨generation, none, none, ⟨true, true, false, false, false⟩⟩ := rfl
  have stamped (generation : Nat) :
      Database.stampExtractionVersion ⟨generation, none, none, ⟨true, true, false, false, false⟩⟩ =
        ⟨generation, none, some (toString currentExtractionVersion.toNat),
          ⟨true, true, true, false, false⟩⟩ := rfl
  have checkpointed (generation : Nat) :
      Database.checkpointWalTruncate ⟨generation, none, some (toString currentExtractionVersion.toNat),
          ⟨true, true, true, false, false⟩⟩ =
        ⟨generation, some (toString currentExtractionVersion.toNat), none,
          ⟨true, true, true, true, false⟩⟩ := rfl
  refine (rebuildStage_establishes stopped).bind fun _ => ?_
  refine (rebuildStage_establishes stopped).bind fun _ => ?_
  refine (rebuildCheckpoint_establishes stopped).bind fun _ => ?_
  refine (finalizeDatabase_fills restored).bind fun _ => ?_
  refine (rebuildCheckpoint_establishes stopped).bind fun _ => ?_
  refine (rebuildCheckpoint_establishes stopped).bind fun _ => ?_
  refine (finalizeDatabase_fills compacted).bind fun _ => ?_
  refine (rebuildCheckpoint_establishes stopped).bind fun _ => ?_
  refine (rebuildCheckpoint_establishes stopped).bind fun _ => ?_
  refine (finalizeDatabase_fills stamped).bind fun _ => ?_
  refine (rebuildCheckpoint_establishes stopped).bind fun _ => ?_
  refine (rebuildCheckpoint_establishes stopped).bind fun _ => ?_
  refine (finalizeDatabase_fills checkpointed).bind fun _ => ?_
  refine (rebuildCheckpoint_establishes stopped).bind fun _ => ?_
  exact rebuildCheckpoint_establishes stopped

/-- The closed part of a finish publishes the current phase over a finished database. -/
theorem finishClosedDatabase_coherent : Establishes
      (Filling codec paths base ⟨true, true, true, true, false⟩ (some (toString currentExtractionVersion.toNat)) none)
      (finishClosedDatabase codec paths fault kind) (fun _ => Coherent codec paths base)
      (fun _ => Coherent codec paths base) := by
  let closed : Namespace → Prop :=
    Filling codec paths base .complete (some (toString currentExtractionVersion.toNat)) none
  have finished (generation : Nat) :
      Database.close ⟨generation, some (toString currentExtractionVersion.toNat), none,
          ⟨true, true, true, true, false⟩⟩ =
        ⟨generation, some (toString currentExtractionVersion.toNat), none, .complete⟩ := rfl
  have stopped (error : LifecycleError) (state : Namespace) (inside : closed state) :
      Coherent codec paths base state := inside.1.coherent
  have swept : Establishes closed
      (modify (setSidecars fault.closing) : Lifecycle Unit) (fun _ => closed)
      (fun _ => Coherent codec paths base) := by
    apply Establishes.modify
    rintro state ⟨unsettled, database⟩
    exact ⟨unsettled.artifacts rfl rfl, database⟩
  have published : Establishes closed (publishPhase codec paths fault .current)
      (fun _ => Coherent codec paths base) (fun _ => Coherent codec paths base) := by
    apply publishPhase_establishes
    · rintro state files error ⟨unsettled, database⟩ same history
      have step : Published codec paths .current state.files files := .held same history
      have still : Unsettled codec paths base .building { state with files := files } :=
        ⟨unsettled.recorded.step step, history ▸ unsettled.grown, by rw [history]; exact unsettled.newest,
          unsettled.pending, unsettled.locked⟩
      exact still.coherent
    · rintro state files plan ⟨unsettled, database⟩ planned moved
      have step : Published codec paths .current state.files files := .landed plan planned moved
      have coherent : Coherent codec paths base { state with files := files } := by
        refine ⟨unsettled.recorded.step step, moved.grown unsettled.grown, ?_, ?_, ?_⟩
        · intro none_
          change files.published = [] at none_
          rw [moved.2] at none_
          cases none_
        · exact fun open_ => absurd unsettled.locked open_
        · exact fun _ => ⟨_, database, rfl, rfl, rfl, rfl⟩
      exact ⟨fun _ => coherent, fun _ => coherent⟩
  have untombed : Keeps (Coherent codec paths base) (removeTombstone fault kind) := by
    apply Establishes.ite
    · intro _
      refine (rebuildCheckpoint_establishes fun _ _ inside => inside).bind fun _ => ?_
      apply Establishes.modify
      intro state coherent
      exact ⟨coherent.recorded, coherent.grown, fun none_ => ⟨rfl, (coherent.vacant none_).2⟩, coherent.unlocked,
        coherent.finished⟩
    · intro _
      exact .skip _
  have closing : Establishes
      (Filling codec paths base ⟨true, true, true, true, false⟩ (some (toString currentExtractionVersion.toNat)) none)
      (finalizeDatabase .close)
      (fun _ => Filling codec paths base .complete (some (toString currentExtractionVersion.toNat)) none)
      (fun _ => Coherent codec paths base) :=
    (finalizeDatabase_fills finished).consequence (fun _ inside => inside) (fun _ _ held => held)
      fun _ _ held => held.coherent
  refine closing.bind fun _ => ?_
  refine swept.bind fun _ => ?_
  refine (rebuildCheckpoint_establishes stopped).bind fun _ => ?_
  refine (rebuildCheckpoint_establishes stopped).bind fun _ => ?_
  refine published.bind fun _ => ?_
  refine (rebuildCheckpoint_establishes fun _ _ inside => inside).bind fun _ => ?_
  exact untombed.bind fun _ => rebuildCheckpoint_establishes fun _ _ inside => inside

/-- Completing a rebuild leaves a coherent namespace, wherever it stops. -/
theorem completeRebuild_coherent :
    Establishes (Unsettled codec paths base .building) (completeRebuild codec paths fault kind)
      (fun _ => Coherent codec paths base) (fun _ => Coherent codec paths base) := by
  have stopped (error : LifecycleError) (state : Namespace) := @Unsettled.coherent codec paths base .building state
  have created : Establishes (Unsettled codec paths base .building) (openStore fault)
      (fun _ => Filling codec paths base .none none none) (fun _ => Coherent codec paths base) := by
    refine (rebuildStage_establishes stopped).bind fun _ => ?_
    exact .modify _ fun state unsettled => ⟨unsettled.artifacts rfl rfl, rfl⟩
  have finished : Establishes (Filling codec paths base .none none none)
      (.onError (finishOpenDatabase fault) (emergencyCleanup fault))
      (fun _ => Filling codec paths base ⟨true, true, true, true, false⟩
        (some (toString currentExtractionVersion.toNat)) none)
      (fun _ => Coherent codec paths base) := by
    apply finishOpenDatabase_fills.onError
    intro error state unsettled
    simp only [emergencyCleanup]
    split
    · exact unsettled.coherent
    · refine Unsettled.coherent (?_ : Unsettled codec paths base .building _)
      exact unsettled.artifacts rfl rfl
  refine created.bind fun _ => ?_
  exact finished.bind fun _ => finishClosedDatabase_coherent

/-- Changing artifacts alone keeps an unsettled namespace unsettled. -/
theorem modify_unsettled {update : Namespace → Namespace}
    {cut : LifecycleError → Namespace → Prop} (files : ∀ state, (update state).files = state.files)
    (root : ∀ state, (update state).root = state.root) :
    Establishes (Unsettled codec paths base phase) (modify update : Lifecycle Unit)
      (fun _ => Unsettled codec paths base phase) cut :=
  .modify _ fun state unsettled => unsettled.artifacts (files state) (root state)

/-- Removing the index keeps an unsettled namespace so. -/
theorem removeIndex_unsettled :
    Establishes (Unsettled codec paths base phase) (removeIndex fault) (fun _ => Unsettled codec paths base phase)
      (fun _ => Coherent codec paths base) := by
  have checkpoint (point : UninitCheckpoint) : Establishes (Unsettled codec paths base phase)
      (uninitCheckpoint fault point) (fun _ => Unsettled codec paths base phase)
      (fun _ => Coherent codec paths base) := uninitCheckpoint_establishes fun _ _ => Unsettled.coherent
  have removed (children : List RuntimeChild) : Establishes (Unsettled codec paths base phase)
      (removeChildren fault children) (fun _ => Unsettled codec paths base phase)
      (fun _ => Coherent codec paths base) := by
    induction children with
    | nil => exact .skip _
    | cons child rest ih =>
      refine .bind ?_ fun _ => (checkpoint _).bind fun _ => ih
      apply Establishes.reads
      intro seen
      apply Establishes.ite
      · exact fun _ => .throw _ fun _ => Unsettled.coherent
      · exact fun _ => modify_unsettled (fun _ => by rfl) fun _ => by rfl
  refine (modify_unsettled (fun _ => by rfl) fun _ => by rfl).bind fun _ => ?_
  refine (checkpoint _).bind fun _ => ?_
  refine (modify_unsettled (fun _ => by rfl) fun _ => by rfl).bind fun _ => ?_
  refine (checkpoint _).bind fun _ => ?_
  refine (modify_unsettled (fun _ => by rfl) fun _ => by rfl).bind fun _ => ?_
  refine (checkpoint _).bind fun _ => ?_
  exact removed _

/-- An uninit keeps the namespace coherent, wherever it stops. -/
theorem uninitIndexWith_coherent : Keeps (Coherent codec paths base) (uninitIndexWith codec paths fault) := by
  have lockedStop (error : LifecycleError) (state : Namespace) (inside : Locked codec paths base state) := inside.1
  have stopped (error : LifecycleError) (state : Namespace) := @Unsettled.coherent codec paths base .uninitialized state
  apply Establishes.reads
  intro seen
  refine (requireUninitable_keeps fun _ _ inside => inside).bind fun _ => ?_
  refine (acquireExclusiveExisting_keeps fun _ _ inside => inside).bind fun _ => ?_
  refine (uninitCheckpoint_establishes lockedStop).bind fun _ => ?_
  refine (authorizeUninit_keeps lockedStop).bind fun authorization => ?_
  refine (requireUninitAuthorization_keeps lockedStop).bind fun _ => ?_
  refine (publishPhase_unsettles (by decide)).bind fun _ => ?_
  refine (uninitCheckpoint_establishes stopped).bind fun _ => ?_
  refine (modify_unsettled (fun _ => by rfl) fun _ => by rfl).bind fun _ => ?_
  refine (uninitCheckpoint_establishes stopped).bind fun _ => ?_
  have drained : Establishes (Unsettled codec paths base .uninitialized)
      (.lift (fault.drain.mapError LifecycleError.daemonNotDrained))
      (fun _ => Unsettled codec paths base .uninitialized) (fun _ => Coherent codec paths base) :=
    .lift (fun _ _ _ inside => inside) fun error _ state inside => stopped error state inside
  refine drained.bind fun _ => ?_
  refine (uninitCheckpoint_establishes stopped).bind fun _ => ?_
  exact removeIndex_unsettled.consequence (fun _ inside => inside) (fun _ _ held => held.coherent)
    fun _ _ held => held

/-- Only a published current phase classifies as current. -/
theorem Recorded.newest_current {files : SlotFiles} (recorded : Recorded codec paths files)
    (current : (classify codec paths files.slots).status = .current) : files.published.head? = some .current := by
  rcases recorded with ⟨-, absent⟩ | ⟨index, sequence, phase, standing, newest, -⟩
  · rw [classify_empty absent] at current
    cases current
  · rw [standing.classify_eq] at current
    by_cases room : sequence = maxSequence
    · subst room
      have exhausted : standingStatus (authorityAt paths index
          (successorWire codec paths maxSequence phase).record) =
          .corrupt (.sequenceExhausted maxSequence) := if_pos rfl
      rw [exhausted] at current
      cases current
    · rw [standingStatus_successor room] at current
      cases phase <;> first | exact newest | cases current

theorem corroborate_unmarked {database : Database} {live : Bool}
    (corroborated : corroborateCurrentDatabaseOptions paths state false live = .ok database) :
    state.tombstone = false := by
  rcases marked : state.tombstone
  · rfl
  · simp [corroborateCurrentDatabaseOptions, marked] at corroborated

/-- Only a corroborated current namespace admits a writer of its database. -/
theorem admitPurpose_current {purpose : StoreWritePurpose} {status : ExtractionStatus}
    (opened : admitPurpose paths state purpose status false = .ok .current) :
    status = .current ∧ state.tombstone = false := by
  cases purpose <;> cases status <;> first | cases opened | skip
  all_goals
    delta admitPurpose at opened
    dsimp only at opened
    split at opened
    · cases opened
    · rename_i corroborated
      exact ⟨rfl, corroborate_unmarked corroborated⟩

/-- A writer of the current database entered through the corroborated gate. -/
theorem openForWrite_current {purpose : StoreWritePurpose}
    (opened : openForWrite codec paths (heldLease paths) state purpose = .ok .current) :
    state.status codec paths = .current ∧ state.tombstone = false := by
  simp only [openForWrite, openForWriteWithOptions] at opened
  split at opened
  · cases opened
  split at opened
  · cases opened
  · cases opened
  split at opened
  · cases opened
  exact admitPurpose_current opened

/-- The sidecars of a current namespace may change freely. -/
theorem Coherent.sidecars (coherent : Coherent codec paths base state)
    (current : state.status codec paths = .current) (sidecars : Sidecars) :
    Coherent codec paths base (setSidecars sidecars state) := by
  have newest := coherent.recorded.newest_current current
  refine ⟨coherent.recorded, coherent.grown, ?_, coherent.unlocked, coherent.finished⟩
  intro none_
  change state.files.published = [] at none_
  rw [none_] at newest
  cases newest

/-- A settled namespace is current and has no tombstone. -/
structure Settled (codec : Codec) (paths : IndexPaths) (base : List StatePhase)
    (state : Namespace) : Prop where
  coherent : Coherent codec paths base state
  current : state.status codec paths = .current
  unmarked : state.tombstone = false

theorem Settled.sidecars (settled : Settled codec paths base state)
    (sidecars : Sidecars) : Settled codec paths base (setSidecars sidecars state) :=
  ⟨settled.coherent.sidecars settled.current sidecars, settled.current, settled.unmarked⟩

/-- Folding the log of a finished database changes nothing. -/
theorem Settled.fold (settled : Settled codec paths base state) : state.database.map .fold = state.database := by
  obtain ⟨database, present, finished⟩ :=
    settled.coherent.finished (settled.coherent.recorded.newest_current settled.current)
  rw [present, Option.map_some, Database.fold, finished.logStamp]

theorem mutateCurrent_coherent :
    Establishes (Settled codec paths base) (mutateCurrent fault) (fun _ => Coherent codec paths base)
      (fun _ => Coherent codec paths base) := by
  intro state settled
  simp only [mutateCurrent, exec_bind, exec_modify]
  cases fault.sync with
  | finished => exact ((settled.sidecars _).sidecars _).coherent
  | failed => exact ((settled.sidecars _).sidecars _).coherent
  | killed => exact (settled.sidecars _).coherent

/-- Resuming a rebuild unsettles a locked namespace. -/
theorem resumeFullRebuildWith_unsettles {authorization : StoreWriteAuthorization} :
    Establishes (Locked codec paths base)
      (resumeFullRebuildWith codec paths fault authorization) (fun _ => Unsettled codec paths base .building)
      (fun _ => Coherent codec paths base) := by
  have begun : Establishes (Locked codec paths base)
      (refuseTombstonedNamespace paths >>= fun _ => beginFromAuthorization codec paths fault)
      (fun _ => Unsettled codec paths base .building) (fun _ => Coherent codec paths base) := by
    refine (refuseTombstonedNamespace_keeps fun _ _ inside => inside.1).bind fun _ => ?_
    exact beginFromAuthorization_unsettles.starting fun _ inside => inside.1
  apply Establishes.ite
  · intro _
    exact .throw _ fun _ inside => inside.1
  · intro _
    rcases authorization.status with _ | _ | _ | _ | _ | _ | _ <;>
      first | exact begun | exact .throw _ fun _ inside => inside.1

theorem incrementalSync_coherent : Keeps (Coherent codec paths base) (incrementalSync codec paths fault) := by
  refine acquireOrCreateExclusive_locks.bind fun _ => ?_
  apply Establishes.read
  intro seen
  refine (liftStore_establishes fun error state inside => inside.1.1).bind fun opened => ?_
  rcases opened with _ | authorization | authorization
  · refine mutateCurrent_coherent.starting ?_
    rintro state ⟨⟨⟨coherent, -⟩, rfl⟩, admitted⟩
    have entered := openForWrite_current admitted
    exact ⟨coherent, entered.1, entered.2⟩
  · exact (resumeFullRebuildWith_unsettles.bind fun _ => completeRebuild_coherent).starting fun _ inside => inside.1.1
  · exact .throw _ fun state inside => inside.1.1.1

/-- Folding the sidecars keeps the namespace coherent. -/
theorem foldSidecars_coherent :
    Establishes (Settled codec paths base) (foldSidecars paths fault) (fun _ => Coherent codec paths base)
      (fun _ => Coherent codec paths base) := by
  intro state settled
  have writing := settled.sidecars fault.writing
  simp only [foldSidecars, exec_bind, exec_modify]
  rcases fault.recoveryKilled
  · have folded := writing.fold
    simp only [Bool.false_eq_true, if_false, exec_bind, exec_modify, folded]
    have closed := writing.sidecars fault.closing
    simp only [removeCheckpointedSidecars, exec_bind, exec_get]
    rcases remaining : (setSidecars fault.closing (setSidecars fault.writing state)).wal with _ | (_ | bytes)
    · exact (closed.sidecars _).coherent
    · exact (closed.sidecars _).coherent
    · exact closed.coherent
  · exact writing.coherent

/-- A recovery keeps the namespace coherent. -/
theorem recoverStaleCurrentSidecars_coherent :
    Keeps (Coherent codec paths base) (recoverStaleCurrentSidecars codec paths fault) := by
  apply Establishes.read
  intro seen
  apply Establishes.ite
  · intro _
    exact .pure _ fun _ inside => inside.1
  intro _
  apply Establishes.ite
  · intro _
    exact .throw _ fun _ inside => inside.1
  intro _
  apply Establishes.ite
  · intro _
    exact .pure _ fun _ inside => inside.1
  intro _
  refine (liftStore_establishes fun error state inside => inside.1).bind fun opened => ?_
  rcases opened with _ | authorization | authorization
  · refine foldSidecars_coherent.starting ?_
    rintro state ⟨⟨coherent, rfl⟩, admitted⟩
    have entered := openForWrite_current admitted
    exact ⟨coherent, entered.1, entered.2⟩
  · exact .throw _ fun state inside => inside.1.1
  · exact .throw _ fun state inside => inside.1.1

theorem placeChild_coherent {child : RuntimeChild} {placed : ChildFile} :
    Keeps (Coherent codec paths base) (placeChild child placed) := by
  apply Establishes.modify
  intro state coherent
  split
  · exact coherent
  · exact ⟨coherent.recorded, coherent.grown, coherent.vacant, coherent.unlocked, coherent.finished⟩

/-- Every operation, interrupted anywhere, keeps a coherent namespace. -/
theorem Operation.coherent (operation : Operation) {state : Namespace} (coherent : Coherent codec paths base state) :
    Coherent codec paths base (operation.exec codec paths state) := by
  apply outcome_reached
  cases operation with
  | rebuild kind fault =>
    exact (beginFullRebuildWith_unsettles.bind fun _ => completeRebuild_coherent) state coherent
  | uninit fault => exact uninitIndexWith_coherent state coherent
  | sync fault => exact incrementalSync_coherent state coherent
  | recover fault =>
    exact (recoverStaleCurrentSidecars_coherent.bind fun _ => .skip _) state coherent
  | place child placed => exact placeChild_coherent state coherent

theorem operateAll_append (done later : List Operation) (state : Namespace) :
    operateAll codec paths (done ++ later) state =
      operateAll codec paths later (operateAll codec paths done state) := by
  simp only [operateAll, List.foldl_append]

/-- Every run of operations keeps a coherent namespace. -/
theorem operateAll_coherent (codec : Codec) (paths : IndexPaths) (operations : List Operation)
    (state : Namespace) (coherent : Coherent codec paths base state) :
    Coherent codec paths base (operateAll codec paths operations state) := by
  induction operations generalizing state with
  | nil => exact coherent
  | cons operation rest ih =>
    exact ih _ (operation.coherent coherent)

/-- A reader enters only through the corroborated main file of a current namespace. -/
theorem openForRead_entered {database : Database} (opened : openForRead codec paths state = .ok database) :
    state.root = .locked ∧ state.status codec paths = .current ∧ state.tombstone = false ∧
      state.wal = none ∧ state.shm = false ∧ state.database = some database := by
  simp only [openForRead] at opened
  split at opened
  · cases opened
  rename_i locked
  split at opened
  · cases opened
  split at opened
  · cases opened
  rename_i current
  have unmarked := corroborate_unmarked opened
  simp only [corroborateCurrentDatabaseOptions, unmarked, Bool.and_false, Bool.false_eq_true, if_false]
    at opened
  rcases present : state.database with _ | found
  · simp [present] at opened
  · simp only [present] at opened
    split at opened
    · cases opened
    rename_i sidecarFree
    split at opened
    · cases opened
    cases opened
    refine ⟨not_not.mp locked, not_not.mp current, unmarked, ?_⟩
    rcases log : state.wal with _ | bytes <;> rcases shared : state.shm <;>
      simp [firstExistingDatabaseSidecar, log, shared] at sidecarFree ⊢

/-- Whenever a reader succeeds after any run of interrupted operations, it opens the database of a finish
that completed after the last removal, beside no tombstone and no sidecar. In particular a namespace left
building or uninitialized is not readable again before a later finish publishes the current phase. -/
theorem readable_index_is_finished (codec : Codec) (paths : IndexPaths) (operations : List Operation) :
    (∀ database, openForRead codec paths (operateAll codec paths operations Namespace.absent) = .ok database →
      (operateAll codec paths operations Namespace.absent).database = some database ∧
      database.finalization = Finalization.complete ∧
      database.generation = (operateAll codec paths operations Namespace.absent).removals ∧
      (operateAll codec paths operations Namespace.absent).tombstone = false ∧
      (operateAll codec paths operations Namespace.absent).wal = none ∧
      (operateAll codec paths operations Namespace.absent).shm = false) ∧
    ∀ done later phase, operations = done ++ later →
      (operateAll codec paths done Namespace.absent).files.published.head? = some phase →
      phase ≠ .current →
      (∃ database, openForRead codec paths (operateAll codec paths operations Namespace.absent) = .ok database) →
      ∃ added, (operateAll codec paths operations Namespace.absent).files.published =
        added ++ (operateAll codec paths done Namespace.absent).files.published ∧ StatePhase.current ∈ added := by
  have newest {state : Namespace} {database : Database} (coherent : Coherent codec paths [] state)
      (opened : openForRead codec paths state = .ok database) :
      state.files.published.head? = some .current :=
    coherent.recorded.newest_current (openForRead_entered opened).2.1
  have reached := operateAll_coherent codec paths operations _ .absent
  constructor
  · intro database opened
    obtain ⟨-, current, unmarked, log, shared, present⟩ := openForRead_entered opened
    obtain ⟨found, stored, finished⟩ := reached.finished (newest reached opened)
    rw [present, Option.some.injEq] at stored
    subst stored
    exact ⟨present, finished.finalization, finished.generation, unmarked, log, shared⟩
  · rintro done later phase rfl interrupted pending ⟨database, opened⟩
    have middle := operateAll_coherent codec paths done _ .absent
    have rebased : Coherent codec paths (operateAll codec paths done .absent).files.published
        (operateAll codec paths done .absent) := { middle with grown := List.suffix_refl _ }
    have final := operateAll_coherent codec paths later _ rebased
    rw [← operateAll_append] at final
    obtain ⟨added, grown⟩ := final.grown
    refine ⟨added, grown.symm, ?_⟩
    have last := newest reached opened
    rw [← grown] at last
    rcases added with _ | ⟨first, rest⟩
    · rw [List.nil_append, interrupted] at last
      exact absurd (Option.some.inj last) pending
    · rw [List.cons_append, List.head?_cons, Option.some.injEq] at last
      exact last ▸ List.mem_cons_self

end Codegraph.Store
