import Codegraph.Store.Recovery

/- This file shows what any run of interrupted operations leaves, and from where an uninit removes all of it. -/

namespace Codegraph.Store
open Interruptible

variable {codec : Codec} {paths : IndexPaths} {count : Nat} {state : Namespace}
  {status : ExtractionStatus} {phase : StatePhase} {done : Namespace}

/-- While a sequence remains, no interruption of any operation changes the status from what the newest published phase
says. -/
theorem interrupted_index_keeps_status (codec : Codec) (paths : IndexPaths) (operations : List Operation)
    (room : (operateAll codec paths operations Namespace.absent).files.published.length < UInt64.size) :
    (operateAll codec paths operations Namespace.absent).status codec paths =
      match (operateAll codec paths operations Namespace.absent).files.published.head? with
      | none => .missing
      | some phase => phase.status := by
  have recorded := (operateAll_coherent codec paths operations _ Coherent.absent).recorded
  split
  · rename_i history
    exact recorded.status_empty (List.head?_eq_none_iff.mp history)
  · rename_i phase newest
    exact recorded.status_newest newest room

/-- An abandoned init stays building. -/
theorem interrupted_index_keeps_status_building :
    (operateAll referenceCodec referencePaths [abandonedInit] Namespace.absent).files.published.length < UInt64.size ∧
    (operateAll referenceCodec referencePaths [abandonedInit] Namespace.absent).status referenceCodec referencePaths =
      match (operateAll referenceCodec referencePaths [abandonedInit] Namespace.absent).files.published.head? with
      | none => .missing
      | some phase => phase.status := by
  have ready : Ready referenceCodec referencePaths 1
      (operateAll referenceCodec referencePaths [abandonedInit] Namespace.absent) := abandonedInits_build 1 (by decide)
  have room : (operateAll referenceCodec referencePaths [abandonedInit] Namespace.absent).files.published.length <
    UInt64.size := by
    rw [ready.counted]
    decide
  exact ⟨room, interrupted_index_keeps_status referenceCodec referencePaths [abandonedInit] room⟩

/-- An uninit may remove a namespace with a published phase, unless a current one still has its tombstone or a
directory stands at the place of a child. -/
def Namespace.Removable (state : Namespace) : Prop :=
  state.files.published ≠ [] ∧ (state.files.published.head? = some .current → state.tombstone = false) ∧
    ∀ child, state.children child ≠ .directory

/-- Nothing of the index is left but its lock, its state slots and the tombstone. -/
structure Removed (codec : Codec) (paths : IndexPaths) (state : Namespace) : Prop where
  status : state.status codec paths = .uninitialized
  tombstone : state.tombstone = true
  database : state.database = none
  sidecars : state.wal = none ∧ state.shm = false
  children : ∀ child, state.children child = .absent

theorem Coherent.locked {base : List StatePhase} (coherent : Coherent codec paths base state)
    (nonempty : state.files.published ≠ []) : state.root = .locked :=
  not_not.mp fun unlocked => nonempty (coherent.unlocked unlocked)

/-- Every phase lets an uninit start. -/
theorem StatePhase.status_uninitable (phase : StatePhase) : phase.status.uninitable = true := by
  cases phase <;> rfl

theorem validateTransition_uninitialized (open_ : status.uninitable = true) :
    validateTransition status .uninitialized = .ok () := by
  cases status <;> first | rfl | cases open_

theorem admitPurpose_uninit {allowTombstone : Bool} (open_ : status.uninitable = true) (different : status ≠ .current) :
    admitPurpose paths state .uninitContinuation status allowTombstone =
      .ok (.uninitContinuation ⟨status, .uninitContinuation⟩) := by
  cases status <;> first | exact absurd rfl different | rfl | cases open_

/-- A current namespace is corroborated first, whatever its log still holds. -/
theorem admitPurpose_uninitCurrent {allowTombstone : Bool} :
    admitPurpose paths state .uninitContinuation .current allowTombstone =
      match corroborateCurrentDatabaseOptions paths state false true with
      | .error error => .error error
      | .ok _ => .ok (.uninitContinuation ⟨.current, .uninitContinuation⟩) := by
  delta admitPurpose
  rfl

theorem openForWrite_uninit (known : state.status codec paths = status) (open_ : status.uninitable = true) :
    openForWrite codec paths (heldLease paths) state .uninitContinuation =
      admitPurpose paths state .uninitContinuation status false := by
  simp only [openForWrite, openForWriteWithOptions, heldLease_valid, known]
  cases status <;> first | rfl | cases open_

/-- A coherent namespace of a phase lets an uninit go on. -/
theorem Coherent.authorizesUninit {base : List StatePhase}
    (coherent : Coherent codec paths base state) (newest : state.files.published.head? = some phase)
    (status : state.status codec paths = phase.status) (unmarked : phase = .current → state.tombstone = false) :
    openForWrite codec paths (heldLease paths) state .uninitContinuation =
      .ok (.uninitContinuation ⟨phase.status, .uninitContinuation⟩) := by
  rw [openForWrite_uninit status phase.status_uninitable]
  cases phase with
  | building => exact admitPurpose_uninit rfl ExtractionStatus.noConfusion
  | uninitialized => exact admitPurpose_uninit rfl ExtractionStatus.noConfusion
  | current =>
    obtain ⟨database, present, finished⟩ := coherent.finished newest
    have corroborated : corroborateCurrentDatabaseOptions paths state false true = .ok database :=
      corroborate_finished present finished (.inr (unmarked rfl)) (.inl rfl)
    exact admitPurpose_uninitCurrent.trans (by simp only [corroborated, StatePhase.status])

theorem uninitCheckpoint_none (point : UninitCheckpoint) : uninitCheckpoint LifecycleFault.none point = pure () := rfl

theorem acquireExclusiveExisting_none (locked : state.root = .locked) :
    Program.exec (acquireExclusiveExisting paths LifecycleFault.none) state = (.ok (), state) := by
  simp [acquireExclusiveExisting, exec_bind, exec_get, locked, LifecycleFault.none]

/-- Without a fault, the removal of the children stops only at a directory. -/
theorem removeChildren_none (children : List RuntimeChild) (state : Namespace)
    (files : ∀ child ∈ children, state.children child ≠ .directory) :
    Program.exec (removeChildren LifecycleFault.none children) state =
      (.ok (), { state with children := fun child => if child ∈ children then .absent else state.children child }) := by
  induction children generalizing state with
  | nil => simp [removeChildren]
  | cons child rest ih =>
    have first := files child List.mem_cons_self
    simp only [removeChildren, removeChild, exec_bind, exec_get, first, if_false, exec_modify, uninitCheckpoint_none,
      exec_pure]
    rw [ih]
    · simp only [Prod.mk.injEq, true_and, and_true, Namespace.mk.injEq, List.mem_cons]
      funext other
      by_cases same : other = child
      · simp [same]
      · simp [same]
    · intro other member
      by_cases same : other = child
      · simp [same]
      · simpa [same] using files other (List.mem_cons_of_mem child member)

/-- A directory among the children stops the removal. -/
theorem removeChildren_directory {children : List RuntimeChild} {blocked : RuntimeChild}
    (member : blocked ∈ children) (directory : state.children blocked = .directory) :
    Program.exec (removeChildren LifecycleFault.none children) state ≠ (.ok (), done) := by
  induction children generalizing state with
  | nil => cases member
  | cons child rest ih =>
    simp only [removeChildren, removeChild, exec_bind, exec_get]
    by_cases first : state.children child = .directory
    · simp [first]
    · have different : blocked ≠ child := fun same => first (same ▸ directory)
      simp only [first, if_false, exec_modify, uninitCheckpoint_none, exec_pure]
      exact ih ((List.mem_cons.mp member).resolve_left different) (by simp [different, directory])

/-- Without faults the uninitialized phase lands. -/
theorem publishUninitialized_lands (coherent : Coherent codec paths [] state)
    (known : state.status codec paths = status) (open_ : status.uninitable = true)
    (room : state.files.published.length + 1 < UInt64.size) :
    ∃ published files, Program.exec (publishPhase codec paths LifecycleFault.none .uninitialized) state =
        (.ok published, { state with files := files }) ∧ (classify codec paths files.slots).status = .uninitialized ∧
      files.published = .uninitialized :: state.files.published := by
  have landed : Completes (fun before => before = state) (publishPhase codec paths Settling.tidy.fault .uninitialized)
      (fun _ after => ∃ files, after = { state with files := files } ∧
        (classify codec paths files.slots).status = .uninitialized ∧
        files.published = .uninitialized :: state.files.published) := by
    apply publishPhase_completes
    · rintro before rfl
      rw [known]
      exact validateTransition_uninitialized open_
    · rintro before files plan rfl planned moved result
      have recorded := coherent.recorded.step (.landed plan planned moved)
      have newest : files.published.head? = some .uninitialized := by
        rw [moved.2]
        rfl
      have below : files.published.length < UInt64.size := by
        rw [moved.2, List.length_cons]
        exact room
      exact ⟨files, rfl, recorded.status_newest newest below, moved.2⟩
  obtain ⟨published, after, ended, files, rfl, status, history⟩ := landed.exec rfl
  exact ⟨published, files, ended, status, history⟩

/-- The phase lands first, then the tombstone, and once the database is gone only the children remain. -/
theorem Coherent.uninit_reaches (coherent : Coherent codec paths [] state)
    (newest : state.files.published.head? = some phase) (unmarked : phase = .current → state.tombstone = false)
    (room : state.files.published.length + 1 < UInt64.size) :
    ∃ files, (classify codec paths files.slots).status = .uninitialized ∧
      files.published = .uninitialized :: state.files.published ∧
      Program.exec (uninitIndexWith codec paths LifecycleFault.none) state =
        Program.exec (removeChildren LifecycleFault.none RuntimeChild.all)
          { state with files := files, tombstone := true, database := none, wal := none, shm := false } := by
  have nonempty : state.files.published ≠ [] := fun history => by
    rw [history] at newest
    cases newest
  have status : state.status codec paths = phase.status :=
    coherent.recorded.status_newest newest (Nat.lt_of_succ_lt room)
  have admitted := coherent.authorizesUninit newest status unmarked
  obtain ⟨published, files, lands, ended, history⟩ :=
    publishUninitialized_lands coherent status phase.status_uninitable room
  refine ⟨files, ended, history, ?_⟩
  simp only [uninitIndexWith, removeIndex, exec_bind, exec_get, status, requireUninitable, phase.status_uninitable,
    if_true, exec_pure, acquireExclusiveExisting_none (coherent.locked nonempty), uninitCheckpoint_none,
    authorizeUninit, admitted, liftStore, Except.mapError, exec_lift_ok, requireUninitAuthorization, and_self, lands,
    exec_modify]
  rfl

theorem RuntimeChild.mem_all (child : RuntimeChild) : child ∈ RuntimeChild.all := by
  cases child <;> decide

/-- Without faults and directories in its place an uninit removes the index. -/
theorem Coherent.uninit_removes (coherent : Coherent codec paths [] state)
    (newest : state.files.published.head? = some phase) (unmarked : phase = .current → state.tombstone = false)
    (files : ∀ child, state.children child ≠ .directory) (room : state.files.published.length + 1 < UInt64.size) :
    ∃ done, Program.exec (uninitIndexWith codec paths LifecycleFault.none) state = (.ok (), done) ∧
      Removed codec paths done ∧ done.files.published = .uninitialized :: state.files.published := by
  obtain ⟨slots, status, history, reaches⟩ := coherent.uninit_reaches newest unmarked room
  have removes := removeChildren_none RuntimeChild.all
    { state with files := slots, tombstone := true, database := none, wal := none, shm := false } fun child _ =>
      files child
  rw [reaches, removes]
  exact ⟨_, rfl, ⟨status, rfl, rfl, ⟨rfl, rfl⟩, fun child => if_pos child.mem_all⟩, history⟩

/-- An uninit refuses a namespace without state and a current one beside its tombstone, and it stops at a directory. -/
theorem Coherent.removable (coherent : Coherent codec paths [] state)
    (room : state.files.published.length + 1 < UInt64.size)
    (ended : Program.exec (uninitIndexWith codec paths LifecycleFault.none) state = (.ok (), done)) :
    state.Removable := by
  have nonempty : state.files.published ≠ [] := by
    intro history
    simp only [uninitIndexWith, exec_bind, exec_get, Namespace.status, coherent.recorded.status_empty history,
      requireUninitable, show ExtractionStatus.missing.uninitable = false from rfl, Bool.false_eq_true, if_false,
      exec_throw] at ended
    cases ended
  have unmarked (newest : state.files.published.head? = some .current) : state.tombstone = false := by
    by_contra marked
    have status : state.status codec paths = StatePhase.current.status :=
      coherent.recorded.status_newest newest (Nat.lt_of_succ_lt room)
    have refused : openForWrite codec paths (heldLease paths) state .uninitContinuation =
        .error (.currentTombstoned paths.tombstone) := by
      refine (openForWrite_uninit status rfl).trans (admitPurpose_uninitCurrent.trans ?_)
      simp [corroborateCurrentDatabaseOptions, eq_true_of_ne_false marked]
    simp only [uninitIndexWith, exec_bind, exec_get, status, requireUninitable, StatePhase.current.status_uninitable,
      if_true, exec_pure, acquireExclusiveExisting_none (coherent.locked nonempty), uninitCheckpoint_none,
      authorizeUninit, refused, liftStore, Except.mapError, exec_lift_error] at ended
    cases ended
  refine ⟨nonempty, unmarked, fun child directory => ?_⟩
  cases newest : state.files.published.head? with
  | none => exact nonempty (List.head?_eq_none_iff.mp newest)
  | some phase =>
    obtain ⟨slots, -, -, reaches⟩ := coherent.uninit_reaches newest (fun current => unmarked (current ▸ newest)) room
    rw [reaches] at ended
    have same : ({ state with
        files := slots, tombstone := true, database := none, wal := none, shm := false } : Namespace).children child =
        .directory := directory
    exact removeChildren_directory child.mem_all same ended

/-- From every namespace that any run of interrupted operations leaves, a fault-free uninit completes exactly when
the namespace is removable, and whenever it completes, nothing of the index is left. -/
theorem uninit_removes_iff (codec : Codec) (paths : IndexPaths) (operations : List Operation)
    (room : (operateAll codec paths operations Namespace.absent).files.published.length + 1 < UInt64.size) :
    ((∃ done, Program.exec (uninitIndexWith codec paths LifecycleFault.none)
        (operateAll codec paths operations Namespace.absent) = (.ok (), done)) ↔
      (operateAll codec paths operations Namespace.absent).Removable) ∧
    ∀ done, Program.exec (uninitIndexWith codec paths LifecycleFault.none)
        (operateAll codec paths operations Namespace.absent) = (.ok (), done) → Removed codec paths done := by
  have coherent := operateAll_coherent codec paths operations _ Coherent.absent
  have removes (removable : (operateAll codec paths operations Namespace.absent).Removable) :
      ∃ done, Program.exec (uninitIndexWith codec paths LifecycleFault.none)
        (operateAll codec paths operations Namespace.absent) = (.ok (), done) ∧ Removed codec paths done := by
    cases newest : (operateAll codec paths operations Namespace.absent).files.published.head? with
    | none => exact absurd (List.head?_eq_none_iff.mp newest) removable.1
    | some phase =>
      obtain ⟨done, ended, removed, -⟩ :=
        coherent.uninit_removes newest (fun current => removable.2.1 (current ▸ newest)) removable.2.2 room
      exact ⟨done, ended, removed⟩
  constructor
  · constructor
    · rintro ⟨done, ended⟩
      exact coherent.removable room ended
    · intro removable
      obtain ⟨done, ended, -⟩ := removes removable
      exact ⟨done, ended⟩
  · intro done ended
    obtain ⟨other, same, removed⟩ := removes (coherent.removable room ended)
    rw [ended] at same
    cases same
    exact removed

/-- What a rebuild leaves alone until it removes the tombstone. -/
def Kept (seen state : Namespace) : Prop := state.tombstone = seen.tombstone ∧ state.children = seen.children

theorem modify_kept {seen : Namespace} {update : Namespace → Namespace}
    (tombstone : ∀ state, (update state).tombstone = state.tombstone)
    (children : ∀ state, (update state).children = state.children) :
    Keeps (Kept seen) (modify update : Lifecycle Unit) :=
  Establishes.modify _ fun state kept => ⟨(tombstone state).trans kept.1, (children state).trans kept.2⟩

theorem publishPhase_kept {fault : LifecycleFault} {seen : Namespace} {phase : StatePhase} :
    Keeps (Kept seen) (publishPhase codec paths fault phase) := by
  apply publishPhase_establishes
  · exact fun _ _ _ kept _ _ => kept
  · exact fun _ _ _ kept _ _ => ⟨fun _ => kept, fun _ => kept⟩

/-- Beginning an init changes neither the tombstone nor the children. -/
theorem beginFullRebuildWith_kept {fault : LifecycleFault} {seen : Namespace} :
    Keeps (Kept seen) (beginFullRebuildWith codec paths fault .explicitInit) := by
  have stopped (error : LifecycleError) (state : Namespace) (kept : Kept seen state) := kept
  refine (acquireOuterExclusive_keeps fun _ _ kept => kept).bind fun _ => ?_
  refine (rebuildCheckpoint_establishes stopped).bind fun _ => ?_
  have normalized : Keeps (Kept seen) (normalizeOwner codec paths .explicitInit) :=
    modify_kept (fun _ => rfl) fun _ => rfl
  refine normalized.bind fun _ => ?_
  refine (authorizeRebuild_keeps stopped).bind fun authorization => ?_
  refine (requireExplicitInit_keeps fun _ _ inside => inside.1).bind fun _ => ?_
  refine Establishes.bind (publishPhase_kept.starting fun _ inside => inside.1.1) fun _ => ?_
  refine (rebuildCheckpoint_establishes stopped).bind fun _ => ?_
  refine (rebuildCheckpoint_establishes stopped).bind fun _ => ?_
  have removed : Keeps (Kept seen) removeDatabaseFiles := modify_kept (fun _ => rfl) fun _ => rfl
  exact removed.bind fun _ => rebuildCheckpoint_establishes stopped

theorem abandonedInit_kept (ready : Ready codec paths count state) (room : count < UInt64.size) :
    Kept state (abandonedInit.exec codec paths state) := by
  have kept := @beginFullRebuildWith_kept codec paths Settling.tidy.fault state state ⟨rfl, rfl⟩
  rw [abandonedInit_begins ready room] at kept
  exact kept

/-- A daemon's file stands beside an abandoned init. -/
def abandonedBesideDaemon : List Operation := [abandonedInit, .place .daemonPid .file]

/-- An abandoned init is removed beside the files of a daemon. -/
theorem uninit_removes_building :
    (operateAll referenceCodec referencePaths abandonedBesideDaemon Namespace.absent).files.published.length + 1 <
      UInt64.size ∧
    ∃ done, Program.exec (uninitIndexWith referenceCodec referencePaths LifecycleFault.none)
        (operateAll referenceCodec referencePaths abandonedBesideDaemon Namespace.absent) = (.ok (), done) ∧
      Removed referenceCodec referencePaths done := by
  have absent : Ready referenceCodec referencePaths 0 Namespace.absent := abandonedInits_build 0 (by decide)
  have building := abandonedInit_builds absent (by decide)
  have placed : operateAll referenceCodec referencePaths abandonedBesideDaemon Namespace.absent =
      { abandonedInit.exec referenceCodec referencePaths Namespace.absent with
        children := Function.update (abandonedInit.exec referenceCodec referencePaths Namespace.absent).children
          .daemonPid .file } := by
    simp only [operateAll, abandonedBesideDaemon, List.foldl_cons, List.foldl_nil]
    rw [Operation.exec, Operation.program, placeChild, exec_modify, building.1.locked, if_neg (by decide)]
  have room : (operateAll referenceCodec referencePaths abandonedBesideDaemon
    Namespace.absent).files.published.length + 1 <
      UInt64.size := by
    rw [placed]
    change (abandonedInit.exec referenceCodec referencePaths Namespace.absent).files.published.length + 1 < _
    rw [building.2]
    decide
  have removable : (operateAll referenceCodec referencePaths abandonedBesideDaemon Namespace.absent).Removable := by
    rw [placed]
    refine ⟨fun history => ?_, fun newest => ?_, fun child => ?_⟩
    · have counted := building.2
      rw [history] at counted
      cases counted
    · have pending := building.1.newest
      rw [newest] at pending
      cases pending
    · have kept := (abandonedInit_kept absent (by decide)).2
      rw [kept]
      cases child <;> decide
  have removes := uninit_removes_iff referenceCodec referencePaths abandonedBesideDaemon room
  obtain ⟨done, ended⟩ := removes.1.mpr removable
  exact ⟨room, done, ended, removes.2 done ended⟩

/-- The environment whose closing leaves an emptied pair, and whose init is killed before it removes the tombstone. -/
def LifecycleFault.cutBeforeTombstone : LifecycleFault :=
  { Settling.emptied.fault with
    rebuild := fun
      | .beforeTombstoneRemoval => some .kill
      | _ => Option.none }

/-- The cut init ends where the finished one has only its tombstone left to remove. -/
theorem finishClosedDatabase_cut
    (finishing : Program.exec (finishClosedDatabase codec paths Settling.emptied.fault .explicitInit) state =
      (.ok (), done)) :
    ∃ stopped, Program.exec (finishClosedDatabase codec paths LifecycleFault.cutBeforeTombstone .explicitInit) state =
        (.error .killed, stopped) ∧ done = { stopped with tombstone := false } ∧
          stopped.tombstone = state.tombstone := by
  have passed (point : RebuildCheckpoint) : rebuildCheckpoint Settling.emptied.fault point = pure () := rfl
  have same : publishPhase codec paths LifecycleFault.cutBeforeTombstone .current =
      publishPhase codec paths Settling.emptied.fault .current := rfl
  have closing : LifecycleFault.cutBeforeTombstone.closing = Settling.emptied.fault.closing := rfl
  simp only [finishClosedDatabase, finalizeDatabase, removeTombstone, exec_bind, exec_modify, passed, exec_pure,
    if_true] at finishing
  simp only [finishClosedDatabase, finalizeDatabase, removeTombstone, exec_bind, exec_modify, if_true, closing, same]
  have published := @publishPhase_kept codec paths Settling.emptied.fault state .current
    (setSidecars Settling.emptied.fault.closing { state with database := state.database.map Database.close }) ⟨rfl, rfl⟩
  split at finishing
  · rename_i value landed landing
    rw [landing] at published
    cases finishing
    rw [show rebuildCheckpoint LifecycleFault.cutBeforeTombstone .connectionClosed = pure () from rfl,
      show rebuildCheckpoint LifecycleFault.cutBeforeTombstone .beforeCurrentPublication = pure () from rfl,
      show rebuildCheckpoint LifecycleFault.cutBeforeTombstone .currentPublished = pure () from rfl,
      show rebuildCheckpoint LifecycleFault.cutBeforeTombstone .beforeTombstoneRemoval = throw .killed from rfl]
    simp only [exec_pure, landing, exec_throw]
    exact ⟨landed, rfl, rfl, published.1⟩
  · cases finishing

/-- A rebuild that is cut before the tombstone goes differs from a complete one by the tombstone. -/
theorem completeRebuild_cut
    (completing : Program.exec (completeRebuild codec paths Settling.emptied.fault .explicitInit) state =
      (.ok (), done)) :
    ∃ stopped, Program.exec (completeRebuild codec paths LifecycleFault.cutBeforeTombstone .explicitInit) state =
        (.error .killed, stopped) ∧ done = { stopped with tombstone := false } ∧
          stopped.tombstone = state.tombstone := by
  have opens : openStore LifecycleFault.cutBeforeTombstone = openStore Settling.emptied.fault := rfl
  have fills : Program.onError (finishOpenDatabase LifecycleFault.cutBeforeTombstone)
      (emergencyCleanup LifecycleFault.cutBeforeTombstone) =
        Program.onError (finishOpenDatabase Settling.emptied.fault) (emergencyCleanup Settling.emptied.fault) := rfl
  have begun : rebuildStage Settling.emptied.fault .begun = pure () := rfl
  rw [completeRebuild, opens]
  simp only [completeRebuild, exec_bind, fills, openStore, begun, exec_pure, exec_modify, finishOpenDatabase_none]
    at completing ⊢
  exact finishClosedDatabase_cut completing

/-- An abandoned init, an uninit, and an init that is killed before it removes the tombstone. -/
def cutInits : List Operation :=
  [abandonedInit, .uninit .none, .rebuild .explicitInit .cutBeforeTombstone]

/-- The killed init leaves a current namespace beside its tombstone and an emptied pair. -/
theorem cutInits_stick : Stuck codec paths (operateAll codec paths cutInits Namespace.absent) := by
  have absent : Ready codec paths 0 Namespace.absent := abandonedInits_build 0 (by decide)
  have building := abandonedInit_builds absent (by decide)
  have kept := abandonedInit_kept absent (by decide)
  obtain ⟨removed, removing, marks, history⟩ := building.1.coherent.uninit_removes building.1.newest
    (fun current => absurd current (by decide)) (fun child => kept.2 ▸ ChildFile.noConfusion)
      (by rw [building.2]; decide)
  have newest : removed.files.published.head? = some .uninitialized := by rw [history]; rfl
  have second : operateAll codec paths [abandonedInit, .uninit .none] Namespace.absent = removed := by
    simp only [operateAll, List.foldl_cons, List.foldl_nil]
    exact congrArg Prod.snd removing
  have ready : Ready codec paths 2 removed := by
    refine ⟨second ▸ operateAll_coherent codec paths _ _ Coherent.absent, ?_, fun current => ?_⟩
    · rw [history, List.length_cons, building.2]
    · rw [newest] at current
      cases current
  obtain ⟨⟨⟩, begun, beginning, rebuilding⟩ := (@beginFullRebuildWith_builds _ _ .emptied _ (by decide)).exec ready
  have marked := @beginFullRebuildWith_kept codec paths Settling.emptied.fault removed removed ⟨rfl, rfl⟩
  rw [beginning] at marked
  obtain ⟨⟨⟩, done, completing, finalized, left⟩ :=
    (@completeRebuild_finalizes _ _ .emptied _ (by decide)).exec rebuilding
  obtain ⟨stopped, cutting, rfl, tombstone⟩ := completeRebuild_cut completing
  have begins : Program.exec (beginFullRebuildWith codec paths .cutBeforeTombstone .explicitInit) removed =
    (.ok (), begun) :=
    beginning
  have third : operateAll codec paths cutInits Namespace.absent = stopped := by
    change (Operation.rebuild .explicitInit .cutBeforeTombstone).exec codec paths
      (operateAll codec paths [abandonedInit, .uninit .none] Namespace.absent) = stopped
    rw [second]
    simp only [Operation.exec, Operation.program, fullRebuild, exec_bind, begins, cutting]
  rw [third]
  exact ⟨finalized.status, tombstone.trans (marked.1.trans marks.tombstone), fun clear => by
    cases left.1.symm.trans clear.1⟩

/-- Every operation refuses the namespace that has used up its sequences, and the one that an init was killed in before
it removed the tombstone. And a rebuild that closes beside an emptied pair completes and is not readable. -/
theorem recovery_has_gaps : RefusesAll referenceCodec referencePaths
      (operateAll referenceCodec referencePaths (List.replicate UInt64.size abandonedInit) Namespace.absent) ∧
    RefusesAll referenceCodec referencePaths (operateAll referenceCodec referencePaths cutInits Namespace.absent) ∧
    ∃ folded begun done,
      Program.exec (recoverStaleCurrentSidecars referenceCodec referencePaths Settling.emptied.fault) Namespace.absent =
        (.ok folded, Namespace.absent) ∧
      Program.exec (beginFullRebuildWith referenceCodec referencePaths Settling.emptied.fault .explicitInit)
        Namespace.absent = (.ok (), begun) ∧
      Program.exec (completeRebuild referenceCodec referencePaths Settling.emptied.fault .explicitInit) begun =
        (.ok (), done) ∧
      ∀ database, openForRead referenceCodec referencePaths done ≠ .ok database := by
  refine ⟨?_, ?_, ?_⟩
  · exact ((abandonedInits_build UInt64.size le_rfl).exhausted rfl).barred.refusesAll
  · have coherent := operateAll_coherent referenceCodec referencePaths cutInits _ Coherent.absent
    exact (cutInits_stick.barred coherent.recorded).refusesAll
  · have absent : Ready referenceCodec referencePaths 0 Namespace.absent := abandonedInits_build 0 (by decide)
    obtain ⟨⟨⟩, begun, beginning, building⟩ := (@beginFullRebuildWith_builds _ _ .emptied _ (by decide)).exec absent
    obtain ⟨⟨⟩, done, completing, -, left⟩ := (@completeRebuild_finalizes _ _ .emptied _ (by decide)).exec building
    refine ⟨false, begun, done, ?_, beginning, completing, fun database opened => ?_⟩
    · have idle : recoverable referenceCodec referencePaths Namespace.absent = false := by
        simp [recoverable, Namespace.absent, firstExistingDatabaseSidecar]
      simp only [recoverStaleCurrentSidecars, exec_bind, exec_get, idle, if_true, exec_pure]
    · have clear := (openForRead_entered opened).2.2.2.1
      cases left.1.symm.trans clear

end Codegraph.Store
