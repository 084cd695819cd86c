import Codegraph.Store.Readability

/- This file shows that an explicit init recovers every reachable namespace while a sequence remains. -/

namespace Codegraph.Store
open Interruptible

variable {codec : Codec} {paths : IndexPaths} {fault : LifecycleFault} {settling : Settling} {count : Nat}
  {state : Namespace} {files : SlotFiles} {pre : Namespace → Prop}

/-- Below the last sequence, the newest published phase decides the status. -/
theorem Recorded.status_newest {phase : StatePhase} (recorded : Recorded codec paths files)
    (newest : files.published.head? = some phase) (room : files.published.length < UInt64.size) :
    (classify codec paths files.slots).status = phase.status := by
  rcases recorded with ⟨history, -⟩ | ⟨index, sequence, found, standing, last, counted⟩
  · rw [history] at newest
    cases newest
  · rw [newest, Option.some.injEq] at last
    subst last
    have below : sequence ≠ maxSequence := by
      rintro rfl
      have maximum : maxSequence.toNat = UInt64.size - 1 := by decide
      omega
    rw [standing.classify_eq, standingStatus_successor below]

theorem Recorded.status_empty (recorded : Recorded codec paths files)
    (history : files.published = []) : (classify codec paths files.slots).status = .missing := by
  rcases recorded with ⟨-, absent⟩ | ⟨index, sequence, phase, standing, newest, -⟩
  · rw [classify_empty absent]
  · rw [history] at newest
    cases newest

/-- A building phase may follow every publishable status. -/
theorem validateTransition_building {status : ExtractionStatus} (open_ : status.publishable = true) :
    validateTransition status .building = .ok () := by
  cases status <;> first | rfl | cases open_

theorem heldLease_valid : (heldLease paths).validateExclusive paths = .ok () := by
  simp [heldLease, IndexLease.validateExclusive]

/-- Without a fault, an allowed phase lands inside the namespace. -/
theorem publishPhase_completes {phase : StatePhase} {post : PublishedState → Namespace → Prop}
    (allowed : ∀ state, pre state → validateTransition (state.status codec paths) phase = .ok ())
    (landed : ∀ state files plan, pre state → Planned codec paths phase state.files.slots plan →
      state.files.Landed plan.target plan.bytes phase files →
      ∀ result, post result { state with files := files }) :
    Completes pre (publishPhase codec paths settling.fault phase) post := by
  apply Establishes.focus
  · intro state value part inside ended
    have finished := publishIndexStateWith_ended codec paths (heldLease paths) phase .none
      state.files
    rw [show settling.fault.publication phase = PublishFault.none from rfl] at ended
    rw [ended] at finished
    obtain ⟨plan, planned, moved, -⟩ := finished
    exact landed state part plan inside planned moved value
  · intro state error part inside ended
    obtain ⟨value, reached, completed, -⟩ :=
      (publishIndexStateWith_completes heldLease_valid (allowed state inside)).exec rfl
    rw [show settling.fault.publication phase = PublishFault.none from rfl, completed] at ended
    cases ended

theorem rebuildCheckpoint_none {point : RebuildCheckpoint} :
    Completes pre (rebuildCheckpoint settling.fault point) fun _ => pre :=
  .skip _

theorem rebuildStage_none {stage : RebuildStage} : Completes pre (rebuildStage settling.fault stage) fun _ => pre :=
  .skip _

/-- A ready namespace is coherent, counted, and free of sidecars when it is current. -/
structure Ready (codec : Codec) (paths : IndexPaths) (count : Nat) (state : Namespace) : Prop where
  coherent : Coherent codec paths [] state
  counted : state.files.published.length = count
  clear : state.files.published.head? = some .current → state.wal = none ∧ state.shm = false

def ReadyLocked (codec : Codec) (paths : IndexPaths) (count : Nat) (state : Namespace) : Prop :=
  Ready codec paths count state ∧ state.root = .locked

theorem validateExtractionStamp_current {path : String} :
    validateExtractionStamp path (some (toString currentExtractionVersion.toNat)) = .ok () := by
  have parsed : parseU64 (toString currentExtractionVersion.toNat) = some currentExtractionVersion.toNat := by
    decide
  simp only [validateExtractionStamp, parsed, ne_eq, not_true_eq_false, if_false]

/-- A finished database corroborates a current namespace. -/
theorem corroborate_finished {database : Database} {allowTombstone live : Bool}
    (present : state.database = some database) (finished : database.Finished state.removals)
    (unmarked : allowTombstone = true ∨ state.tombstone = false)
    (clear : live = true ∨ state.wal = none ∧ state.shm = false) :
    corroborateCurrentDatabaseOptions paths state allowTombstone live = .ok database := by
  have marked : (!allowTombstone && state.tombstone) = false := by
    rcases unmarked with allowed | unmarked
    · simp [allowed]
    · simp [unmarked]
  have sidecars : (if live then none else firstExistingDatabaseSidecar paths state) = none := by
    rcases clear with living | ⟨log, shared⟩
    · simp [living]
    · simp [firstExistingDatabaseSidecar, log, shared]
  simp only [corroborateCurrentDatabaseOptions, marked, present, sidecars, finished.mainStamp,
    validateExtractionStamp_current, Bool.false_eq_true, if_false]

/-- A finalized namespace is current and has a finished database and its lock, but no tombstone. -/
structure Finalized (codec : Codec) (paths : IndexPaths) (state : Namespace) : Prop where
  locked : state.root = .locked
  status : state.status codec paths = .current
  unmarked : state.tombstone = false
  finished : ∃ database, state.database = some database ∧ database.Finished state.removals

/-- Without sidecars a finalized namespace is readable. -/
theorem Finalized.opens (finalized : Finalized codec paths state) (clear : state.wal = none ∧ state.shm = false) :
    ∃ database, openForRead codec paths state = .ok database := by
  obtain ⟨database, present, finished⟩ := finalized.finished
  refine ⟨database, ?_⟩
  simp only [openForRead, finalized.locked, finalized.status, rejectMissingDatabaseArtifacts, ne_eq,
    not_true_eq_false, if_false]
  exact corroborate_finished present finished (.inr finalized.unmarked) (.inr clear)

/-- A building namespace has published `count` phases, and the last of them is building. -/
def Building (codec : Codec) (paths : IndexPaths) (count : Nat) (state : Namespace) : Prop :=
  Unsettled codec paths [] .building state ∧ state.files.published.length = count

theorem Building.status (building : Building codec paths count state)
    (room : count < UInt64.size) : state.status codec paths = .building currentExtractionVersion :=
  building.1.recorded.status_newest building.1.newest (building.2 ▸ room)

theorem Building.artifacts {changed : Namespace}
    (building : Building codec paths count state) (files : changed.files = state.files)
    (root : changed.root = state.root) : Building codec paths count changed :=
  ⟨building.1.artifacts files root, files ▸ building.2⟩

/-- A recovery of a finalized namespace removes its sidecars and changes nothing else. -/
theorem Finalized.recovers (finalized : Finalized codec paths state) :
    ∃ folded, Program.exec (recoverStaleCurrentSidecars codec paths settling.fault) state =
      (.ok folded, setSidecars Sidecars.none state) := by
  obtain ⟨database, present, finished⟩ := finalized.finished
  have current := finalized.status
  have unmarked := finalized.unmarked
  simp only [recoverStaleCurrentSidecars, exec_bind, exec_get]
  rcases decision : recoverable codec paths state
  · refine ⟨false, ?_⟩
    have clear : state.wal = none ∧ state.shm = false := by
      rcases log : state.wal with _ | bytes <;> rcases shared : state.shm <;>
        simp [recoverable, current, unmarked, firstExistingDatabaseSidecar, log, shared] at decision ⊢
    have same : setSidecars .none state = state := by
      rw [Sidecars.none, ← clear.1, ← clear.2]
      rfl
    rw [if_pos rfl, exec_pure, same]
  · have corroborated : corroborateCurrentDatabaseOptions paths state false true = .ok database :=
      corroborate_finished present finished (.inr unmarked) (.inl rfl)
    have admitted : openForWrite codec paths (heldLease paths) state .staleSidecarRecovery = .ok .current := by
      simp only [openForWrite, openForWriteWithOptions, heldLease_valid, current, rejectMissingDatabaseArtifacts,
        admitPurpose_recovery corroborated, Bool.false_eq_true, if_false]
    have still : state.database.map .fold = state.database := by
      rw [present, Option.map_some, Database.fold, finished.logStamp]
    have swept : Program.exec (removeCheckpointedSidecars paths) (setSidecars settling.closing state) =
        (.ok (), setSidecars Sidecars.none state) := by
      simp only [removeCheckpointedSidecars, exec_bind, exec_get, setSidecars]
      rcases left : settling.closing.wal with _ | (_ | bytes)
      · rfl
      · rfl
      · cases settling.folded _ left
    have settles : setSidecars settling.closing { setSidecars settling.writing state with
        database := (setSidecars settling.writing state).database.map .fold } =
          setSidecars settling.closing state := by
      simp only [setSidecars, still]
    have folds : Program.exec (foldSidecars paths settling.fault) state =
      (.ok true, setSidecars Sidecars.none state) := by
      simp only [foldSidecars, Settling.fault, LifecycleFault.none, exec_bind, exec_modify, Bool.false_eq_true,
        if_false, settles, swept, exec_pure]
    refine ⟨true, ?_⟩
    rw [if_neg Bool.noConfusion, if_neg (not_not.mpr finalized.locked), if_neg Bool.noConfusion]
    simp only [admitted, liftStore, Except.mapError, exec_bind, exec_lift_ok, folds]

/-- A namespace is stuck when it is current and has both its tombstone and a sidecar. -/
structure Stuck (codec : Codec) (paths : IndexPaths) (state : Namespace) : Prop where
  current : state.status codec paths = .current
  marked : state.tombstone = true
  sidecar : ¬ (state.wal = none ∧ state.shm = false)

theorem Coherent.finalized {base : List StatePhase} (coherent : Coherent codec paths base state)
    (current : state.status codec paths = .current) (unmarked : state.tombstone = false) :
    Finalized codec paths state := by
  have newest := coherent.recorded.newest_current current
  refine ⟨?_, current, unmarked, coherent.finished newest⟩
  by_contra open_
  rw [coherent.unlocked open_] at newest
  cases newest

/-- A recovery without a fault leaves every coherent namespace ready, unless the namespace is stuck. -/
theorem recoverStaleCurrentSidecars_ready (room : count < UInt64.size) :
    Completes (fun state => Coherent codec paths [] state ∧ state.files.published.length = count ∧
        ¬ Stuck codec paths state)
      (recoverStaleCurrentSidecars codec paths settling.fault) (fun _ => Ready codec paths count) := by
  rintro state ⟨coherent, counted, unstuck⟩
  by_cases finalized : Finalized codec paths state
  · obtain ⟨folded, recovering⟩ := @Finalized.recovers _ _ settling _ finalized
    rw [recovering, outcome_ok]
    exact ⟨coherent.sidecars finalized.status _, counted, fun _ => ⟨rfl, rfl⟩⟩
  · have kept : recoverable codec paths state = false := by
      by_contra decision
      simp only [recoverable, Bool.not_eq_false, Bool.and_eq_true, decide_eq_true_eq, Bool.not_eq_true'] at decision
      exact finalized (coherent.finalized decision.1.1 decision.1.2)
    simp only [recoverStaleCurrentSidecars, exec_bind, exec_get, kept, if_true, exec_pure, outcome_ok]
    refine ⟨coherent, counted, fun newest => ?_⟩
    have current : state.status codec paths = .current :=
      coherent.recorded.status_newest newest (counted ▸ room)
    by_contra sidecar
    rcases marked : state.tombstone
    · exact finalized (coherent.finalized current marked)
    · exact unstuck ⟨current, marked, sidecar⟩

theorem Ready.withRoot {root : Root} (ready : Ready codec paths count state)
    (fits : root = .locked ∨ state.root ≠ .locked) : Ready codec paths count { state with root := root } :=
  ⟨ready.coherent.withRoot fits, ready.counted, ready.clear⟩

/-- A ready namespace lets the lease be acquired. -/
theorem acquireOuterExclusive_ready :
    Completes (Ready codec paths count) (acquireOuterExclusive codec paths settling.fault)
      (fun _ => ReadyLocked codec paths count) := by
  intro state ready
  simp only [acquireOuterExclusive, exec_bind, exec_get]
  rcases held : state.root with _ | _ | _
  · simp only [reduceCtorEq, false_and, if_false, acquireOrCreateExclusive, exec_bind, exec_get, held]
    exact ⟨ready.withRoot (.inl rfl), rfl⟩
  · have unlocked : state.root ≠ .locked := by rw [held]; decide
    have missing : state.status codec paths = .missing :=
      ready.coherent.recorded.status_empty (ready.coherent.unlocked unlocked)
    simp only [missing, and_self, if_true]
    exact ⟨ready.withRoot (.inl rfl), rfl⟩
  · simp only [reduceCtorEq, false_and, if_false, acquireOrCreateExclusive, exec_bind, exec_get, held]
    exact ⟨ready, held⟩

/-- Below the last sequence, a ready namespace is missing or has the status of its newest phase. -/
theorem Ready.status (ready : Ready codec paths count state) (room : count < UInt64.size) :
    state.status codec paths = .missing ∨
      ∃ phase, state.files.published.head? = some phase ∧ state.status codec paths = phase.status := by
  rcases history : state.files.published with _ | ⟨phase, older⟩
  · exact .inl (ready.coherent.recorded.status_empty history)
  · have newest : state.files.published.head? = some phase := by rw [history]; rfl
    exact .inr ⟨phase, rfl, ready.coherent.recorded.status_newest newest (ready.counted ▸ room)⟩

/-- An explicit init is authorized over every ready namespace. -/
theorem Ready.authorized (ready : Ready codec paths count state) (room : count < UInt64.size) :
    openForWriteWithOptions codec paths (heldLease paths) state .fullRebuild true true =
      .ok (.fullRebuildRequired ⟨state.status codec paths, .fullRebuild⟩) := by
  rcases ready.status room with missing | ⟨phase, newest, status⟩
  · simp only [openForWriteWithOptions, heldLease_valid, missing, if_true]
    exact admitPurpose_rebuild (by decide)
  · cases phase with
    | current =>
      obtain ⟨database, present, finished⟩ := ready.coherent.finished newest
      have corroborated : corroborateCurrentDatabaseOptions paths state true false = .ok database :=
        corroborate_finished present finished (.inl rfl) (.inr (ready.clear newest))
      simp only [openForWriteWithOptions, heldLease_valid, status, StatePhase.status, if_true]
      exact admitPurpose_rebuildCurrent corroborated
    | building =>
      simp only [openForWriteWithOptions, heldLease_valid, status, StatePhase.status, if_true]
      exact admitPurpose_rebuild (by simp)
    | uninitialized =>
      simp only [openForWriteWithOptions, heldLease_valid, status, StatePhase.status, if_true]
      exact admitPurpose_rebuild (by simp)

theorem Ready.publishable (ready : Ready codec paths count state)
    (room : count < UInt64.size) : (state.status codec paths).publishable = true := by
  rcases ready.status room with missing | ⟨phase, -, status⟩
  · rw [missing]
    rfl
  · rw [status]
    cases phase <;> rfl

theorem authorizeRebuild_ready (room : count < UInt64.size) : Completes (ReadyLocked codec paths count)
      (authorizeRebuild codec paths .explicitInit)
      (fun _ => ReadyLocked codec paths count) := by
  rintro state ⟨ready, locked⟩
  simp only [authorizeRebuild, exec_bind, exec_get, decide_true, ready.authorized room, liftStore,
    Except.mapError, exec_lift_ok, exec_pure, outcome_ok]
  exact ⟨ready, locked⟩

/-- The building phase lands and the database files go. -/
theorem beginFromAuthorization_builds (room : count < UInt64.size) : Completes (ReadyLocked codec paths count)
      (beginFromAuthorization codec paths settling.fault)
      (fun _ => Building codec paths (count + 1)) := by
  have published : Completes (ReadyLocked codec paths count)
      (publishPhase codec paths settling.fault .building) (fun _ => Building codec paths (count + 1)) := by
    apply publishPhase_completes
    · exact fun state inside => validateTransition_building (inside.1.publishable room)
    · rintro state files plan ⟨ready, locked⟩ planned moved result
      refine ⟨⟨ready.coherent.recorded.step (.landed plan planned moved), List.nil_suffix, ?_, by decide,
        locked⟩, ?_⟩
      · change files.published.head? = _
        rw [moved.2]
        rfl
      · change files.published.length = _
        rw [moved.2, List.length_cons, ready.counted]
  have removed : Completes (Building codec paths (count + 1)) removeDatabaseFiles
      (fun _ => Building codec paths (count + 1)) :=
    .modify _ fun state building => building.artifacts rfl rfl
  refine published.bind fun _ => ?_
  refine rebuildCheckpoint_none.bind fun _ => ?_
  refine rebuildCheckpoint_none.bind fun _ => ?_
  exact removed.bind fun _ => rebuildCheckpoint_none

/-- From a ready namespace an init reaches the building phase. -/
theorem beginFullRebuildWith_builds (room : count < UInt64.size) :
    Completes (Ready codec paths count) (beginFullRebuildWith codec paths settling.fault .explicitInit)
      (fun _ => Building codec paths (count + 1)) := by
  refine acquireOuterExclusive_ready.bind fun _ => ?_
  refine rebuildCheckpoint_none.bind fun _ => ?_
  refine (normalizeOwner_keeps fun _ inside => inside.1.coherent.recorded).bind fun _ => ?_
  refine (authorizeRebuild_ready room).bind fun authorization => ?_
  have explicit : Completes (ReadyLocked codec paths count)
      (requireExplicitInit paths .explicitInit authorization)
      (fun _ => ReadyLocked codec paths count) :=
    .pure _ fun _ inside => inside
  exact explicit.bind fun _ => beginFromAuthorization_builds room

/-- A closed database is finished, and its sidecars are those that closing it left. -/
structure Closed (codec : Codec) (paths : IndexPaths) (closing : Sidecars) (count : Nat) (state : Namespace) :
    Prop where
  building : Building codec paths count state
  left : state.wal = closing.wal ∧ state.shm = closing.shm
  finished : ∃ database, state.database = some database ∧ database.Finished state.removals

/-- A finalized namespace beside what closing its database left. -/
def Completed (codec : Codec) (paths : IndexPaths) (closing : Sidecars) (state : Namespace) : Prop :=
  Finalized codec paths state ∧ state.wal = closing.wal ∧ state.shm = closing.shm

/-- The database of a building namespace has gone through every step but its last connection. -/
def Stamped (codec : Codec) (paths : IndexPaths) (count : Nat) (state : Namespace) : Prop :=
  Building codec paths count state ∧ state.database =
    some ⟨state.removals, some (toString currentExtractionVersion.toNat), none, ⟨true, true, true, true, false⟩⟩

/-- Without a fault, an opened database runs every step up to its last connection. -/
theorem finishOpenDatabase_none (state : Namespace) : Program.exec (Program.onError (finishOpenDatabase settling.fault)
      (emergencyCleanup settling.fault)) state =
      (.ok (), { state with
        database := ((((state.database.map Database.restoreDefaultPragmas).map Database.compact).map
          Database.stampExtractionVersion).map Database.checkpointWalTruncate) }) := rfl

theorem finishOpenDatabase_builds : Completes (fun state => Building codec paths count state ∧
        state.database = some (Database.fresh state.removals))
      (Program.onError (finishOpenDatabase settling.fault) (emergencyCleanup settling.fault))
      (fun _ => Stamped codec paths count) := by
  rintro state ⟨building, created⟩
  rw [finishOpenDatabase_none, outcome_ok]
  refine ⟨building.artifacts rfl rfl, ?_⟩
  rw [created]
  rfl

/-- Closing the last connection finishes the database, and the current phase lands over it. -/
theorem finishClosedDatabase_finalizes (room : count + 1 < UInt64.size) : Completes (Stamped codec paths count)
      (finishClosedDatabase codec paths settling.fault .explicitInit)
      (fun _ => Completed codec paths settling.closing) := by
  let complete (state : Namespace) : Prop := Building codec paths count state ∧
    ∃ database, state.database = some database ∧ database.Finished state.removals
  let landed (state : Namespace) : Prop := state.root = .locked ∧ state.status codec paths = .current ∧
    (state.wal = settling.closing.wal ∧ state.shm = settling.closing.shm) ∧
    ∃ database, state.database = some database ∧ database.Finished state.removals
  have closed : Completes (Stamped codec paths count) (finalizeDatabase .close) (fun _ => complete) := by
    refine .modify _ ?_
    rintro state ⟨building, filled⟩
    refine ⟨building.artifacts rfl rfl, ?_⟩
    simp only [filled, Option.map_some, Option.some.injEq, exists_eq_left']
    exact ⟨rfl, rfl, rfl, rfl⟩
  have swept : Completes complete (modify (setSidecars settling.closing) : Lifecycle Unit)
      (fun _ => Closed codec paths settling.closing count) :=
    .modify _ fun state inside => ⟨inside.1.artifacts rfl rfl, ⟨rfl, rfl⟩, inside.2⟩
  have published : Completes (Closed codec paths settling.closing count)
    (publishPhase codec paths settling.fault .current)
      (fun _ => landed) := by
    apply publishPhase_completes
    · intro state closed
      rw [closed.building.status (by omega)]
      rfl
    · intro state files plan closed planned moved result
      have recorded := closed.building.1.recorded.step (.landed plan planned moved)
      have newest : files.published.head? = some .current := by rw [moved.2]; rfl
      have counted : files.published.length = count + 1 := by
        rw [moved.2, List.length_cons, closed.building.2]
      exact ⟨closed.building.1.locked, recorded.status_newest newest (counted ▸ room), closed.left,
        closed.finished⟩
  have removed : Completes landed (removeTombstone settling.fault .explicitInit)
      (fun _ => Completed codec paths settling.closing) := by
    refine rebuildCheckpoint_none.bind fun _ => ?_
    refine .modify _ ?_
    rintro state ⟨locked, status, left, finished⟩
    exact ⟨⟨locked, status, rfl, finished⟩, left⟩
  refine closed.bind fun _ => ?_
  refine swept.bind fun _ => ?_
  refine rebuildCheckpoint_none.bind fun _ => ?_
  refine rebuildCheckpoint_none.bind fun _ => ?_
  refine published.bind fun _ => ?_
  refine rebuildCheckpoint_none.bind fun _ => ?_
  exact removed.bind fun _ => rebuildCheckpoint_none

/-- Completing a begun rebuild yields a readable namespace. -/
theorem completeRebuild_finalizes (room : count + 1 < UInt64.size) :
    Completes (Building codec paths count) (completeRebuild codec paths settling.fault .explicitInit)
      (fun _ => Completed codec paths settling.closing) := by
  have created : Completes (Building codec paths count) (openStore settling.fault)
      (fun _ state => Building codec paths count state ∧
        state.database = some (.fresh state.removals)) := by
    refine rebuildStage_none.bind fun _ => ?_
    exact .modify _ fun state building => ⟨building.artifacts rfl rfl, rfl⟩
  refine created.bind fun _ => ?_
  exact finishOpenDatabase_builds.bind fun _ => finishClosedDatabase_finalizes room

/-- An init abandoned before it opens its database. -/
def abandonedInit : Operation :=
  .rebuild .explicitInit { LifecycleFault.none with stage := fun _ => some .fault }

/-- A building namespace is ready for another init. -/
theorem Building.ready (building : Building codec paths count state) : Ready codec paths count state := by
  refine ⟨building.1.coherent, building.2, fun newest => ?_⟩
  rw [building.1.newest] at newest
  cases newest

/-- The environment in which closing a database leaves no sidecar at all. -/
def Settling.tidy : Settling := ⟨⟨some 4096, true⟩, Sidecars.none, fun _ none => by cases none⟩

/-- The abandoned init ends where its beginning ends. -/
theorem abandonedInit_begins (ready : Ready codec paths count state) (room : count < UInt64.size) :
    Program.exec (beginFullRebuildWith codec paths Settling.tidy.fault .explicitInit) state =
      (.ok (), abandonedInit.exec codec paths state) := by
  obtain ⟨⟨⟩, begun, beginning, -⟩ := (@beginFullRebuildWith_builds _ _ .tidy _ room).exec ready
  have same : beginFullRebuildWith codec paths
      { LifecycleFault.none with stage := fun _ => some .fault } .explicitInit =
        beginFullRebuildWith codec paths Settling.tidy.fault .explicitInit := rfl
  simp only [Operation.exec, Operation.program, abandonedInit, fullRebuild, exec_bind, same, beginning]
  rfl

theorem abandonedInit_builds (ready : Ready codec paths count state) (room : count < UInt64.size) :
    Building codec paths (count + 1) (abandonedInit.exec codec paths state) := by
  have building := @beginFullRebuildWith_builds _ _ .tidy _ room state ready
  rw [abandonedInit_begins ready room] at building
  exact building

/-- Every abandoned init uses up one sequence. -/
theorem abandonedInits_build (count : Nat) (room : count ≤ UInt64.size) :
    Ready codec paths count (operateAll codec paths (List.replicate count abandonedInit) Namespace.absent) := by
  induction count with
  | zero => exact ⟨.absent, rfl, fun newest => by cases newest⟩
  | succ count ih =>
    have before := ih (by omega)
    rw [List.replicate_succ', operateAll_append]
    exact (abandonedInit_builds before (by omega)).ready

/-- After any run of interrupted operations that leaves two sequences and no stuck namespace, a recovery and an explicit
init without a fault reach the building phase, and completing the rebuild yields a namespace that a reader opens, at
once where closing the database left no sidecar, and otherwise after another recovery. -/
theorem reachable_index_recovers (codec : Codec) (paths : IndexPaths) (operations : List Operation)
    (recovery rebuild later : Settling)
    (room : (operateAll codec paths operations Namespace.absent).files.published.length + 2 < UInt64.size)
    (unstuck : ¬ Stuck codec paths (operateAll codec paths operations Namespace.absent)) :
    ∃ folded recovered begun done,
      Program.exec (recoverStaleCurrentSidecars codec paths recovery.fault)
        (operateAll codec paths operations Namespace.absent) = (.ok folded, recovered) ∧
      Program.exec (beginFullRebuildWith codec paths rebuild.fault .explicitInit) recovered = (.ok (), begun) ∧
      begun.status codec paths = .building currentExtractionVersion ∧
      Program.exec (completeRebuild codec paths rebuild.fault .explicitInit) begun = (.ok (), done) ∧
      (rebuild.closing = Sidecars.none → ∃ database, openForRead codec paths done = .ok database) ∧
      ∃ swept again database,
        Program.exec (recoverStaleCurrentSidecars codec paths later.fault) done = (.ok swept, again) ∧
        openForRead codec paths again = .ok database := by
  have coherent := operateAll_coherent codec paths operations _ .absent
  obtain ⟨folded, recovered, recovering, ready⟩ :=
    (recoverStaleCurrentSidecars_ready (by omega)).exec ⟨coherent, rfl, unstuck⟩
  obtain ⟨⟨⟩, begun, beginning, building⟩ := (beginFullRebuildWith_builds (by omega)).exec ready
  obtain ⟨⟨⟩, done, completing, finalized, left⟩ := (completeRebuild_finalizes room).exec building
  refine ⟨folded, recovered, begun, done, recovering, beginning, building.status (by omega), completing, ?_, ?_⟩
  · intro none_
    rw [none_] at left
    exact finalized.opens left
  · obtain ⟨swept, recovers⟩ := finalized.recovers
    have again : Finalized codec paths (setSidecars .none done) :=
      ⟨finalized.locked, finalized.status, finalized.unmarked, finalized.finished⟩
    obtain ⟨database, opened⟩ := again.opens ⟨rfl, rfl⟩
    exact ⟨swept, _, database, recovers, opened⟩

/-- Closing leaves an emptied log and its index. -/
def Settling.emptied : Settling := ⟨⟨some 4096, true⟩, ⟨some 0, true⟩, fun _ log => (Option.some.inj log).symm⟩

/-- An init that was abandoned recovers. -/
theorem reachable_index_recovers_abandoned :
    (operateAll referenceCodec referencePaths [abandonedInit] Namespace.absent).files.published.length + 2 <
      UInt64.size ∧
    ¬ Stuck referenceCodec referencePaths (operateAll referenceCodec referencePaths [abandonedInit] Namespace.absent) ∧
    ∃ folded recovered begun done,
      Program.exec (recoverStaleCurrentSidecars referenceCodec referencePaths Settling.tidy.fault)
        (operateAll referenceCodec referencePaths [abandonedInit] Namespace.absent) = (.ok folded, recovered) ∧
      Program.exec (beginFullRebuildWith referenceCodec referencePaths Settling.emptied.fault .explicitInit) recovered =
        (.ok (), begun) ∧
      begun.status referenceCodec referencePaths = .building currentExtractionVersion ∧
      Program.exec (completeRebuild referenceCodec referencePaths Settling.emptied.fault .explicitInit) begun =
        (.ok (), done) ∧
      (Settling.emptied.closing = Sidecars.none →
        ∃ database, openForRead referenceCodec referencePaths done = .ok database) ∧
      ∃ swept again database,
        Program.exec (recoverStaleCurrentSidecars referenceCodec referencePaths Settling.tidy.fault) done =
          (.ok swept, again) ∧
        openForRead referenceCodec referencePaths again = .ok database := by
  have building : Building referenceCodec referencePaths 1
      (operateAll referenceCodec referencePaths [abandonedInit] .absent) :=
    abandonedInit_builds (abandonedInits_build 0 (by decide)) (by decide)
  have room : (operateAll referenceCodec referencePaths [abandonedInit] .absent).files.published.length + 2 <
      UInt64.size := by
    rw [building.2]
    decide
  have unstuck : ¬ Stuck referenceCodec referencePaths
      (operateAll referenceCodec referencePaths [abandonedInit] .absent) := by
    intro stuck
    have current := stuck.current
    rw [building.status (by decide)] at current
    cases current
  exact ⟨room, unstuck, reachable_index_recovers referenceCodec referencePaths [abandonedInit] .tidy .emptied .tidy room
    unstuck⟩

/-- A namespace that has used all sequences is corrupt. -/
theorem Recorded.status_exhausted (recorded : Recorded codec paths files)
    (full : files.published.length = UInt64.size) :
    (classify codec paths files.slots).status = .corrupt (.sequenceExhausted maxSequence) := by
  rcases recorded with ⟨history, -⟩ | ⟨index, sequence, phase, standing, -, counted⟩
  · rw [history] at full
    cases full
  · have last : sequence = maxSequence := by
      apply UInt64.toNat_inj.mp
      have maximum : maxSequence.toNat = UInt64.size - 1 := by decide
      omega
    subst last
    have exhausted : standingStatus (authorityAt paths index
        (successorWire codec paths maxSequence phase).record) =
        .corrupt (.sequenceExhausted maxSequence) := if_pos rfl
    rw [standing.classify_eq, exhausted]

/-- An exhausted namespace stopped at its last sequence. -/
def Exhausted (codec : Codec) (paths : IndexPaths) (state : Namespace) : Prop :=
  Recorded codec paths state.files ∧ state.root = .locked ∧ state.files.published.length = UInt64.size

theorem Exhausted.status (exhausted : Exhausted codec paths state) :
    state.status codec paths = .corrupt (.sequenceExhausted maxSequence) :=
  exhausted.1.status_exhausted exhausted.2.2

/-- No purpose passes the write gate of a barred namespace, and a recovery has nothing to do in it. -/
structure Barred (codec : Codec) (paths : IndexPaths) (state : Namespace) : Prop where
  recorded : Recorded codec paths state.files
  idle : recoverable codec paths state = false
  refused : ∀ purpose allowTombstone allowArtifacts opened,
    openForWriteWithOptions codec paths (heldLease paths) state purpose allowTombstone allowArtifacts ≠ .ok opened

/-- The gates read the slots and the artifacts, and not the root. -/
theorem Barred.withRoot (barred : Barred codec paths state) (root : Root) :
    Barred codec paths { state with root := root } :=
  ⟨barred.recorded, barred.idle, barred.refused⟩

/-- A barred namespace lets a recovery pass by and refuses every rebuild, uninit and sync, whatever their environment.
-/
structure RefusesAll (codec : Codec) (paths : IndexPaths) (state : Namespace) : Prop where
  passes : ∀ fault, Program.exec (recoverStaleCurrentSidecars codec paths fault) state = (.ok false, state)
  rebuilds : ∀ fault kind, (Program.exec (beginFullRebuildWith codec paths fault kind) state).1 ≠ .ok ()
  uninits : ∀ fault, (Program.exec (uninitIndexWith codec paths fault) state).1 ≠ .ok ()
  syncs : ∀ fault, (Program.exec (incrementalSync codec paths fault) state).1 ≠ .ok ()

/-- Every way to go on refuses a barred namespace. -/
theorem Barred.refusesAll (barred : Barred codec paths state) : RefusesAll codec paths state := by
  have stops {program : Lifecycle Unit}
    (refused : Establishes (Barred codec paths) program (fun _ _ => False) fun _ _ => True) :
      (Program.exec program state).1 ≠ .ok () := by
    have ended := refused state barred
    intro completed
    rcases result : Program.exec program state with ⟨outcome, reached⟩
    rw [result] at ended completed
    cases completed
    exact ended
  have free {pre : Namespace → Prop} (error : LifecycleError) (state : Namespace) : pre state → True := fun _ => trivial
  refine ⟨fun fault => ?_, fun fault kind => stops ?_, fun fault => stops ?_, fun fault => stops ?_⟩
  · simp only [recoverStaleCurrentSidecars, exec_bind, exec_get, barred.idle, if_true, exec_pure]
  · have acquired : Keeps (Barred codec paths) (acquireOuterExclusive codec paths fault) :=
      acquireOuterExclusive_keeps fun _ root inside => inside.withRoot root
    refine (acquired.consequence (fun _ inside => inside) (fun _ _ held => held) free).bind fun _ => ?_
    refine (rebuildCheckpoint_establishes free).bind fun _ => ?_
    refine (normalizeOwner_keeps fun _ inside => inside.recorded).bind fun _ => ?_
    refine (authorizeRebuild_keeps free).bind fun authorization => ?_
    exact fun state admitted => absurd admitted.2 (admitted.1.refused _ _ _ _)
  · apply Establishes.reads
    intro seen
    refine (requireUninitable_keeps free).bind fun _ => ?_
    refine (acquireExclusiveExisting_keeps free).bind fun _ => ?_
    refine (uninitCheckpoint_establishes free).bind fun _ => ?_
    have refused : Establishes (fun state => Barred codec paths state ∧ state.root = .locked)
        (authorizeUninit codec paths) (fun _ _ => False) fun _ _ => True := by
      apply Establishes.read
      intro seen
      refine (liftStore_establishes free).bind fun opened => ?_
      rintro state ⟨⟨⟨inside, -⟩, rfl⟩, admitted⟩
      exact absurd admitted (inside.refused _ _ _ _)
    exact refused.bind fun _ _ impossible => impossible.elim
  · have acquired : Keeps (Barred codec paths) (acquireOrCreateExclusive paths fault) :=
      acquireOrCreateExclusive_keeps fun _ root inside => inside.withRoot root
    refine (acquired.consequence (fun _ inside => inside) (fun _ _ held => held) free).bind fun _ => ?_
    apply Establishes.read
    intro seen
    refine (liftStore_establishes free).bind fun opened => ?_
    rintro state ⟨⟨inside, rfl⟩, admitted⟩
    exact absurd admitted (inside.refused _ _ _ _)

theorem Exhausted.barred (exhausted : Exhausted codec paths state) : Barred codec paths state := by
  refine ⟨exhausted.1, ?_, fun purpose allowTombstone allowArtifacts opened admitted => ?_⟩
  · simp only [recoverable, exhausted.status, reduceCtorEq, decide_false, Bool.false_and]
  · simp only [openForWriteWithOptions, heldLease_valid, exhausted.status, reduceCtorEq] at admitted

/-- The tombstone bars every purpose but a rebuild, and the sidecar bars the rebuild. -/
theorem Stuck.barred (stuck : Stuck codec paths state) (recorded : Recorded codec paths state.files) :
    Barred codec paths state := by
  have sidecar : firstExistingDatabaseSidecar paths state ≠ none := by
    have left := stuck.sidecar
    rcases log : state.wal <;> rcases shared : state.shm <;> simp_all [firstExistingDatabaseSidecar]
  have corroborated {allowTombstone allowLive : Bool} {database : Database}
      (either : allowTombstone = false ∨ allowLive = false) :
      corroborateCurrentDatabaseOptions paths state allowTombstone allowLive ≠ .ok database := by
    intro found
    simp only [corroborateCurrentDatabaseOptions, stuck.marked, Bool.and_true] at found
    rcases either with rfl | rfl
    · simp at found
    · rcases allowTombstone <;> rcases present : state.database <;>
        rcases named : firstExistingDatabaseSidecar paths state <;> simp_all
  refine ⟨recorded, ?_, fun purpose allowTombstone allowArtifacts opened admitted => ?_⟩
  · simp only [recoverable, stuck.marked, Bool.not_true, Bool.and_false, Bool.false_and]
  · simp only [openForWriteWithOptions, heldLease_valid, stuck.current] at admitted
    split at admitted
    · cases admitted
    · cases purpose <;> delta admitPurpose at admitted <;> dsimp only at admitted <;> split at admitted <;>
        first | (rename_i found; exact corroborated (by simp) found) | cases admitted

/-- A ready namespace that published every sequence is exhausted. -/
theorem Ready.exhausted (ready : Ready codec paths count state)
    (full : count = UInt64.size) : Exhausted codec paths state := by
  refine ⟨ready.coherent.recorded, ?_, ready.counted.trans full⟩
  by_contra open_
  have counted := ready.counted
  rw [ready.coherent.unlocked open_, full] at counted
  cases counted

end Codegraph.Store
