import Codegraph.Store.LeaseAcquisition
import Codegraph.Store.ReferenceCodec

/- This file proves that a lease which validates is the only one on the file that the lock path names. -/

namespace Codegraph.Store.Lease
open Codegraph.Store

/-- From the moment of the kernel lock on, the file is locked in the mode of the call. -/
def Attempt.Sound : Attempt → Prop
  | .locked pending file => file.held = some pending.mode
  | .corroborated pending file => file.held = some pending.mode
  | .leased lease _ => lease.file.held = some lease.mode
  | _ => True

/-- What every step of a process keeps of the leases and their files. -/
structure LeaseWorld.Invariant (world : LeaseWorld) : Prop where
  distinct : ∀ first second, world.Alive first → world.Alive second → first.identity = second.identity → first = second
  compatible : AdvisoryLocks.Compatible world.locks
  sound : ∀ caller, (world.attempts caller).Sound

/-- What a call may do with its file: it has none, or one on a live object, with a lock that the kernel grants. -/
structure LeaseWorld.Allows (world : LeaseWorld) (caller : Nat) (attempt : Attempt) : Prop where
  sound : attempt.Sound
  alive : ∀ file, attempt.file? = some file → world.Alive file.object
  granted : ∀ file mode, attempt.file? = some file → file.held = some mode →
    AdvisoryLocks.Grants world.locks caller file.object (decide (mode = .exclusive))

section Steps

variable {world next : LeaseWorld} {caller : Nat} {attempt : Attempt} {path : String} {entry : Entry}
  {object : FileObject} {file : OpenFile}

theorem LeaseWorld.IsOpen.of_put (opened : (world.put caller attempt).IsOpen object) :
    world.IsOpen object ∨ ∃ file, attempt.file? = some file ∧ file.object = object := by
  obtain ⟨other, file, has, same⟩ := opened
  rcases eq_or_ne other caller with rfl | distinct
  · exact .inr ⟨file, by simpa [LeaseWorld.put] using has, same⟩
  · exact .inl ⟨other, file, by simpa [LeaseWorld.put, Function.update_of_ne distinct] using has, same⟩

theorem LeaseWorld.Alive.of_put (alive : (world.put caller attempt).Alive object)
    (files : ∀ file, attempt.file? = some file → world.Alive file.object) : world.Alive object := by
  rcases alive with linked | opened
  · exact .inl linked
  · rcases opened.of_put with before | ⟨file, has, rfl⟩
    · exact .inr before
    · exact files file has

theorem LeaseWorld.locks_put : (world.put caller attempt).locks = Function.update world.locks caller
      (attempt.file?.bind fun file => file.held.map fun mode => (file.object, decide (mode = .exclusive))) := by
  funext other
  rcases eq_or_ne other caller with rfl | distinct
  · simp [LeaseWorld.locks, LeaseWorld.put]
  · simp [LeaseWorld.locks, LeaseWorld.put, Function.update_of_ne distinct]

/-- An allowed attempt keeps the invariant. -/
theorem LeaseWorld.Invariant.put (holds : world.Invariant) (allows : world.Allows caller attempt) :
    (world.put caller attempt).Invariant where
  distinct first second firstAlive secondAlive same :=
    holds.distinct first second (firstAlive.of_put allows.alive) (secondAlive.of_put allows.alive) same
  compatible := by
    rw [LeaseWorld.locks_put]
    refine holds.compatible.update _ fun object mode found => ?_
    obtain ⟨file, has, found⟩ := Option.bind_eq_some_iff.mp found
    obtain ⟨held, taken, found⟩ := Option.map_eq_some_iff.mp found
    obtain ⟨rfl, rfl⟩ := Prod.mk.inj found
    exact allows.granted file held has taken
  sound other := by
    rcases eq_or_ne other caller with rfl | distinct
    · simpa [LeaseWorld.put] using allows.sound
    · simpa [LeaseWorld.put, Function.update_of_ne distinct] using holds.sound other

theorem LeaseWorld.Alive.of_name (alive : (world.name path entry).Alive object) :
    world.Alive object ∨ entry = .object object := by
  rcases alive with ⟨other, names⟩ | opened
  · rcases eq_or_ne other path with rfl | distinct
    · exact .inr (by simpa [LeaseWorld.name] using names)
    · exact .inl (.inl ⟨other, by simpa [LeaseWorld.name, Function.update_of_ne distinct] using names⟩)
  · exact .inl (.inr opened)

/-- Since no inode is reused while its object is alive, a changed path keeps the inodes apart. -/
theorem LeaseWorld.Invariant.name (holds : world.Invariant)
    (allowed : ∀ object, entry = .object object → world.Alive object ∨ world.Fresh object) :
    (world.name path entry).Invariant where
  distinct first second firstAlive secondAlive same := by
    have known {object : FileObject} (alive : (world.name path entry).Alive object) :
        world.Alive object ∨ entry = .object object ∧ world.Fresh object := by
      rcases alive.of_name with before | named
      · exact .inl before
      · exact (allowed object named).imp_right fun fresh => ⟨named, fresh⟩
    rcases known firstAlive with firstBefore | ⟨firstNamed, firstFresh⟩
    · rcases known secondAlive with secondBefore | ⟨-, secondFresh⟩
      · exact holds.distinct first second firstBefore secondBefore same
      · exact absurd same (secondFresh first firstBefore)
    · rcases known secondAlive with secondBefore | ⟨secondNamed, -⟩
      · exact absurd same.symm (firstFresh second secondBefore)
      · exact Entry.object.inj (firstNamed.symm.trans secondNamed)
  compatible := holds.compatible
  sound := holds.sound

theorem LeaseWorld.name_alive (path : String) (object : FileObject) : (world.name path (.object object)).Alive object :=
  .inl ⟨path, by simp [LeaseWorld.name]⟩

/-- A call without a file is always allowed. -/
theorem LeaseWorld.Allows.without (sound : attempt.Sound) (none : attempt.file? = none) :
    world.Allows caller attempt where
  sound := sound
  alive file has := by simp [none] at has
  granted file mode has := by simp [none] at has

theorem LeaseWorld.Allows.ended (error : Option IndexLeaseError) : world.Allows caller (.ended error) :=
  .without trivial rfl

/-- A call may open a live object without a lock. -/
theorem LeaseWorld.Allows.unlocked (sound : attempt.Sound) (alive : world.Alive object)
    (has : attempt.file? = some ⟨object, none⟩) : world.Allows caller attempt where
  sound := sound
  alive file found := by
    obtain rfl := Option.some.inj (has.symm.trans found)
    exact alive
  granted file mode found held := by
    obtain rfl := Option.some.inj (has.symm.trans found)
    cases held

theorem LeaseWorld.alive_of_file (has : (world.attempts caller).file? = some file) : world.Alive file.object :=
  .inr ⟨caller, file, has, rfl⟩

/-- A call may keep the file that it has. -/
theorem LeaseWorld.Invariant.keeps (holds : world.Invariant) (sound : attempt.Sound)
    (has : (world.attempts caller).file? = some file) (same : attempt.file? = some file) :
    world.Allows caller attempt where
  sound := sound
  alive other found := by
    obtain rfl := Option.some.inj (same.symm.trans found)
    exact LeaseWorld.alive_of_file has
  granted other mode found held := by
    obtain rfl := Option.some.inj (same.symm.trans found)
    refine holds.compatible.grants ?_
    simp [LeaseWorld.locks, has, held]

theorem resolve_linked {limit : Nat} (found : resolve world.entries limit path = some object) :
    world.Linked object := by
  induction limit generalizing path with
  | zero => cases found
  | succ limit ih =>
    rw [resolve] at found
    split at found
    · cases found
    · rename_i named
      obtain rfl := Option.some.inj found
      exact ⟨path, named⟩
    · exact ih found

end Steps

section Calls

variable {world next : LeaseWorld} {entries : String → Entry} {caller limit owners : Nat} {request : Request}
  {pending : PendingAcquisition} {initial : Metadata} {observed : Option Metadata} {file : OpenFile}
  {lease : LeaseInner} {poll after : Poll} {faulty granted : Bool} {root : String}

theorem Request.examine_without (request : Request) (poll : Poll) (faulty : Bool) (root : String) :
    (request.examine entries faulty poll root).Sound ∧ (request.examine entries faulty poll root).file? = none := by
  unfold Request.examine
  repeat' split
  all_goals exact ⟨trivial, rfl⟩

theorem Request.openRoot_without (request : Request) (faulty : Bool) (root : String) :
    (request.openRoot entries faulty root).Sound ∧ (request.openRoot entries faulty root).file? = none := by
  unfold Request.openRoot
  repeat' split
  all_goals exact ⟨trivial, rfl⟩

theorem Request.openLock_allowed (request : Request) (faulty : Bool) (initial : Metadata) (limit : Nat) :
    world.Allows caller (request.openLock world.entries faulty initial limit) := by
  unfold Request.openLock
  dsimp only
  split
  · exact .ended _
  · split
    · exact .ended _
    · rename_i found
      exact .unlocked trivial (.inl (resolve_linked found)) rfl

theorem LeaseWorld.Invariant.identify (holds : world.Invariant)
    (stands : world.attempts caller = .opened request file observed) :
    world.Allows caller (request.identify faulty file observed) := by
  unfold Request.identify
  dsimp only
  split
  · exact .ended _
  · split
    · exact .ended _
    · exact holds.keeps trivial (by rw [stands]; rfl) rfl

/-- A turn of the loop takes the lock exactly when the kernel grants it. -/
theorem LeaseWorld.Invariant.tryLock (holds : world.Invariant) (stands : world.attempts caller = .waiting pending file)
    (kernel : granted = true →
      AdvisoryLocks.Grants world.locks caller file.object (decide (pending.mode = .exclusive))) :
    world.Allows caller (pending.tryLock faulty file poll after granted) := by
  have has : (world.attempts caller).file? = some file := by rw [stands]; rfl
  unfold PendingAcquisition.tryLock
  split
  · exact .ended _
  split
  · exact .ended _
  split
  · rename_i grant
    refine ⟨rfl, fun other found => ?_, fun other mode found held => ?_⟩
    · obtain rfl := Option.some.inj found
      show world.Alive file.object
      exact LeaseWorld.alive_of_file has
    · obtain rfl := Option.some.inj found
      obtain rfl := Option.some.inj held
      exact kernel grant
  · split
    · exact .ended _
    · exact holds.keeps trivial has rfl

theorem LeaseWorld.Invariant.matchIdentity (holds : world.Invariant)
    (stands : world.attempts caller = .locked pending file) :
    world.Allows caller (pending.matchIdentity entries faulty file) := by
  have sound : file.held = some pending.mode := by simpa [stands, Attempt.Sound] using holds.sound caller
  unfold PendingAcquisition.matchIdentity
  split
  · exact holds.keeps sound (by rw [stands]; rfl) rfl
  · exact .ended _

theorem LeaseWorld.Invariant.matchFile (holds : world.Invariant)
    (stands : world.attempts caller = .corroborated pending file) :
    world.Allows caller (pending.matchFile entries faulty file) := by
  have sound : file.held = some pending.mode := by simpa [stands, Attempt.Sound] using holds.sound caller
  unfold PendingAcquisition.matchFile
  split
  · exact holds.keeps sound (by rw [stands]; rfl) rfl
  · exact .ended _

theorem LeaseWorld.Invariant.dropOwner (holds : world.Invariant)
    (stands : world.attempts caller = .leased lease owners) : world.Allows caller (lease.dropOwner owners) := by
  have has : (world.attempts caller).file? = some lease.file := by rw [stands]; rfl
  have sound : lease.file.held = some lease.mode := by simpa [stands, Attempt.Sound] using holds.sound caller
  unfold LeaseInner.dropOwner
  split
  · exact holds.keeps sound has rfl
  · exact .unlocked trivial (LeaseWorld.alive_of_file has) rfl

/-- Every step keeps the invariant. -/
theorem LeaseStep.keeps (step : LeaseStep world next) (holds : world.Invariant) : next.Invariant := by
  have newObject {path : String} {object : FileObject} (fresh : world.Fresh object) :
      (world.name path (.object object)).Invariant :=
    holds.name fun other named => .inr (Entry.object.inj named ▸ fresh)
  cases step with
  | start caller request _ => exact holds.put (.without trivial rfl)
  | examine caller request poll faulty root _ _ =>
    obtain ⟨sound, none⟩ := request.examine_without poll faulty root
    exact holds.put (.without sound none)
  | makeRoot caller request root object _ _ _ _ fresh => exact (newObject fresh).put (.without trivial rfl)
  | refuseRoot caller request source _ => exact holds.put (.ended _)
  | openRoot caller request faulty root _ _ =>
    obtain ⟨sound, none⟩ := request.openRoot_without faulty root
    exact holds.put (.without sound none)
  | createLock caller request place object _ _ _ _ fresh =>
    exact (newObject fresh).put (.unlocked trivial (LeaseWorld.name_alive place object) rfl)
  | refuseLock caller request faulty source _ => exact holds.put (.ended _)
  | openLock caller request initial faulty limit _ => exact holds.put (request.openLock_allowed faulty initial limit)
  | identify caller request file initial faulty stands => exact holds.put (holds.identify stands)
  | tryLock caller pending file before after faulty granted stands kernel =>
    exact holds.put (holds.tryLock stands kernel.mp)
  | matchIdentity caller pending file faulty stands => exact holds.put (holds.matchIdentity stands)
  | matchFile caller pending file faulty stands => exact holds.put (holds.matchFile stands)
  | clone caller lease owners stands =>
    have sound : lease.file.held = some lease.mode := by simpa [stands, Attempt.Sound] using holds.sound caller
    exact holds.put (holds.keeps sound (by rw [stands]; rfl) rfl)
  | dropOwner caller lease owners stands => exact holds.put (holds.dropOwner stands)
  | close caller file _ => exact holds.put (.ended _)
  | crash caller => exact holds.put (.ended _)
  | replace path entry allowed => exact holds.name allowed

theorem LeaseWorld.Initial.invariant (initial : world.Initial) : world.Invariant where
  distinct first second firstAlive secondAlive same := by
    have linked {object : FileObject} (alive : world.Alive object) : world.Linked object := by
      rcases alive with linked | ⟨caller, file, has, -⟩
      · exact linked
      · simp [initial.idle caller, Attempt.file?] at has
    exact initial.distinct first second (linked firstAlive) (linked secondAlive) same
  compatible first second object firstMode secondMode _ held _ := by
    simp [LeaseWorld.locks, initial.idle first, Attempt.file?] at held
  sound caller := by
    rw [initial.idle caller]
    trivial

theorem LeaseWorld.Reachable.invariant (reached : world.Reachable) : world.Invariant := by
  induction reached with
  | initial initial => exact initial.invariant
  | step _ step holds => exact step.keeps holds

end Calls

section Validation

variable {world : LeaseWorld} {paths : IndexPaths} {caller owners : Nat} {lease : LeaseInner} {faulty : Bool}

/-- A path that still names a file names an object with the inode of the file. -/
theorem pathStillNamesFile_true (faulty : Bool) {entries : String → Entry} {path : String} {file : OpenFile}
    (names : pathStillNamesFile entries faulty path file = .ok true) :
    ∃ object, entries path = .object object ∧ object.identity = file.object.identity := by
  simp only [pathStillNamesFile, pathStillNamesIdentity, symlinkMetadata] at names
  cases faulty
  · cases named : entries path with
    | absent => simp [named, bind, Except.bind] at names
    | link identity target => simp [named, bind, Except.bind, pure, Except.pure, isRegular] at names
    | object object =>
      refine ⟨object, rfl, ?_⟩
      simp only [named, bind, Except.bind, pure, Except.pure, Bool.false_eq_true, if_false] at names
      split at names
      · cases names
      · exact of_decide_eq_true (Except.ok.inj names)
  · simp [bind, Except.bind] at names

theorem LeaseInner.validateExclusive_ok {entries : String → Entry}
    (valid : lease.validateExclusive entries faulty paths = .ok ()) : lease.mode = .exclusive ∧
      ∃ object, entries paths.permanentLock = .object object ∧ object.identity = lease.file.object.identity := by
  unfold LeaseInner.validateExclusive IndexLease.validateExclusive at valid
  split_ifs at valid with mode parent names
  simp only [LeaseInner.observed, not_or, not_not, Bool.not_eq_false] at mode names
  obtain ⟨path, still⟩ := names
  refine ⟨mode, path ▸ pathStillNamesFile_true faulty ?_⟩
  split at still
  · cases still
  · rename_i observed found
    rw [found, still]

/-- A lease that validates has the exclusive lock of the very object that the lock path names. -/
theorem LeaseWorld.Invariant.validates (holds : world.Invariant) (valid : world.Validates paths caller) :
    ∃ object, world.entries paths.permanentLock = .object object ∧ world.locks caller = some (object, true) := by
  obtain ⟨lease, owners, faulty, stands, valid⟩ := valid
  obtain ⟨mode, object, named, same⟩ := lease.validateExclusive_ok valid
  have has : (world.attempts caller).file? = some lease.file := by rw [stands]; rfl
  have sound : lease.file.held = some lease.mode := by simpa [stands, Attempt.Sound] using holds.sound caller
  obtain rfl := holds.distinct object lease.file.object (.inl ⟨_, named⟩) (LeaseWorld.alive_of_file has) same
  exact ⟨_, named, by simp [LeaseWorld.locks, has, sound, mode]⟩

theorem LeaseWorld.Invariant.shared_lock (holds : world.Invariant)
    (stands : world.attempts caller = .leased lease owners) :
    world.locks caller = some (lease.file.object, decide (lease.mode = .exclusive)) := by
  have has : (world.attempts caller).file? = some lease.file := by rw [stands]; rfl
  have sound : lease.file.held = some lease.mode := by simpa [stands, Attempt.Sound] using holds.sound caller
  simp [LeaseWorld.locks, has, sound]

/-- At every moment of every run at most one live lease validates for a namespace, and while one does no live shared
lease holds the file that the lock path names. -/
theorem validating_lease_alone (reached : world.Reachable) (paths : IndexPaths) :
    (∀ first second, world.Validates paths first → world.Validates paths second → first = second) ∧
      ∀ writer, world.Validates paths writer → ∀ reader lease owners, world.attempts reader = .leased lease owners →
        lease.mode = .shared → world.entries paths.permanentLock ≠ .object lease.file.object := by
  have holds := reached.invariant
  constructor
  · intro first second firstValid secondValid
    obtain ⟨object, named, held⟩ := holds.validates firstValid
    obtain ⟨other, otherNamed, taken⟩ := holds.validates secondValid
    obtain rfl := Entry.object.inj (named.symm.trans otherNamed)
    exact holds.compatible.exclusive_alone held taken
  · intro writer valid reader lease owners stands shared named
    obtain ⟨object, writerNamed, held⟩ := holds.validates valid
    obtain rfl := Entry.object.inj (named.symm.trans writerNamed)
    have taken := holds.shared_lock stands
    obtain rfl := holds.compatible.exclusive_alone held taken
    rw [held, shared] at taken
    cases taken

end Validation

section Undisturbed

variable {world : LeaseWorld} {caller : Nat} {before after : Attempt} {paths : IndexPaths} {object : FileObject}
  {mode : LeaseMode}

theorem LeaseWorld.Reachable.advance {result : Attempt} (reached : (world.put caller before).Reachable)
    (step : LeaseStep (world.put caller before) ((world.put caller before).put caller result)) (same : result = after) :
    (world.put caller after).Reachable := by
  have next := reached.step step
  simpa [LeaseWorld.put, same] using next

@[simp] theorem LeaseWorld.put_entries : (world.put caller after).entries = world.entries := rfl

@[simp] theorem LeaseWorld.put_attempts : (world.put caller after).attempts caller = after := Function.update_self ..

theorem LeaseWorld.grants_put {exclusive : Bool} :
    AdvisoryLocks.Grants (world.put caller after).locks caller object exclusive ↔
      AdvisoryLocks.Grants world.locks caller object exclusive := by
  refine forall₂_congr fun other mode => imp_congr_right fun distinct => ?_
  rw [LeaseWorld.locks_put, Function.update_of_ne distinct]

/-- A call that nobody disturbs gets the lease when the kernel grants the lock. -/
theorem LeaseWorld.Reachable.acquire (reached : world.Reachable) (idle : world.attempts caller = .idle)
    (named : world.entries paths.permanentLock = .object object) (regular : object.fileType = .file)
    (grants : AdvisoryLocks.Grants world.locks caller object (decide (mode = .exclusive))) : (world.put caller
      (.leased ⟨⟨object, some mode⟩, mode, paths.currentRoot, paths.permanentLock⟩ 1)).Reachable := by
  let request : Request := ⟨paths, .acquireExisting mode⟩
  let initial : Metadata := ⟨.file, object.identity⟩
  have metadata : symlinkMetadata world.entries false paths.permanentLock = .ok initial := by
    simp [symlinkMetadata, named, regular, initial]
  have started := reached.step (.start caller request idle)
  have validated : (world.put caller (.validated request initial)).Reachable :=
    started.advance (.examine caller request ⟨false, false⟩ false _ LeaseWorld.put_attempts (.inr rfl)) (by
      simp [Request.examine, Poll.stops, validatedPathMetadata, metadata, isAlias, isRegular, request, initial])
  have opened : (world.put caller (.opened request ⟨object, none⟩ (some initial))).Reachable :=
    validated.advance (.openLock caller request initial false 1 LeaseWorld.put_attempts) (by
      simp [Request.openLock, resolve, named, request])
  have waiting : (world.put caller (.waiting (request.pending object.identity) ⟨object, none⟩)).Reachable :=
    opened.advance (.identify caller request _ _ false LeaseWorld.put_attempts) (by
      simp [Request.identify, openedIdentity, OpenFile.metadata, isRegular, isAlias, regular,
        metadataObservationMatches,
        identityForFile, identityForValidatedPath, initial])
  have locked : (world.put caller (.locked (request.pending object.identity) ⟨object, some mode⟩)).Reachable :=
    waiting.advance
      (.tryLock caller _ _ ⟨false, false⟩ ⟨false, false⟩ false true LeaseWorld.put_attempts
        (iff_of_true rfl (LeaseWorld.grants_put.mpr grants)))
      (by simp [PendingAcquisition.tryLock, Poll.stops, Request.pending, Request.mode, request])
  have corroborated :
    (world.put caller (.corroborated (request.pending object.identity) ⟨object, some mode⟩)).Reachable :=
    locked.advance (.matchIdentity caller _ _ false LeaseWorld.put_attempts) (by
      simp [PendingAcquisition.matchIdentity, finalPathIdentityMatches, metadata, Request.pending, isRegular, isAlias,
        identityForValidatedPath, initial, request])
  exact corroborated.advance (.matchFile caller _ _ false LeaseWorld.put_attempts) (by
    simp [PendingAcquisition.matchFile, pathStillNamesFile, pathStillNamesIdentity, metadata, Request.pending,
      Request.mode, bind, Except.bind, pure, Except.pure, isRegular, isAlias, identityForValidatedPath, identityForFile,
      OpenFile.metadata, initial, request])

end Undisturbed

section Replacement

def lockObject (serial : Nat) : FileObject := ⟨serial, ⟨1, serial⟩, .file⟩

/-- A namespace whose lock file nobody has opened. -/
def unopenedLock : LeaseWorld where
  entries path := if path = referencePaths.permanentLock then .object (lockObject 0) else .absent
  attempts _ := .idle

def exclusiveLease (serial : Nat) : LeaseInner :=
  ⟨⟨lockObject serial, some .exclusive⟩, .exclusive, referencePaths.currentRoot, referencePaths.permanentLock⟩

def leasedLock : LeaseWorld := unopenedLock.put 0 (.leased (exclusiveLease 0) 1)

def replacedLock : LeaseWorld := leasedLock.name referencePaths.permanentLock (.object (lockObject 1))

theorem unopenedLock_initial : unopenedLock.Initial where
  idle _ := rfl
  distinct first second := by
    have only {object : FileObject} (linked : unopenedLock.Linked object) : object = lockObject 0 := by
      obtain ⟨path, names⟩ := linked
      simp only [unopenedLock] at names
      split at names
      · exact (Entry.object.inj names).symm
      · cases names
    intro firstLinked secondLinked _
    rw [only firstLinked, only secondLinked]

theorem leasedLock_reachable : leasedLock.Reachable := by
  have named : unopenedLock.entries referencePaths.permanentLock = .object (lockObject 0) := by
    simp [unopenedLock]
  refine (LeaseWorld.Reachable.initial unopenedLock_initial).acquire rfl named rfl fun other mode _ held => ?_
  cases held

/-- The world with a replaced lock is reachable. -/
theorem replacedLock_reachable : replacedLock.Reachable := by
  refine leasedLock_reachable.step (.replace _ _ fun object named => .inr fun other alive => ?_)
  obtain rfl := Entry.object.inj named
  have opened : ∀ file, (Attempt.leased (exclusiveLease 0) 1).file? = some file → unopenedLock.Alive file.object := by
    intro file has
    obtain rfl := Option.some.inj has
    exact .inl ⟨referencePaths.permanentLock, by simp [unopenedLock, exclusiveLease]⟩
  have only : other = lockObject 0 := by
    rcases LeaseWorld.Alive.of_put alive opened with ⟨path, names⟩ | ⟨caller, file, has, -⟩
    · simp only [unopenedLock] at names
      split at names
      · exact (Entry.object.inj names).symm
      · cases names
    · cases has
  rw [only]
  decide

/-- After a replacement of the lock file a second call gets a lease, and of the two only the second validates. -/
theorem replaced_lock_leaves_one :
    ∃ world : LeaseWorld, world.Reachable ∧ world.attempts 0 = .leased (exclusiveLease 0) 1 ∧
      world.Validates referencePaths 1 ∧ ¬ world.Validates referencePaths 0 := by
  have grants : AdvisoryLocks.Grants replacedLock.locks 1 (lockObject 1) true := by
    intro other mode distinct held
    rcases eq_or_ne other 0 with rfl | idle
    · have same : lockObject 0 = lockObject 1 := congrArg Prod.fst (Option.some.inj held)
      exact absurd same (by decide)
    · simp [LeaseWorld.locks, replacedLock, leasedLock, LeaseWorld.name, LeaseWorld.put, unopenedLock,
        Function.update_of_ne idle, Attempt.file?] at held
  have named : replacedLock.entries referencePaths.permanentLock = .object (lockObject 1) := by
    simp [replacedLock, LeaseWorld.name]
  have reached : (replacedLock.put 1 (.leased (exclusiveLease 1) 1)).Reachable :=
    replacedLock_reachable.acquire rfl named rfl grants
  have valid : (replacedLock.put 1 (.leased (exclusiveLease 1) 1)).Validates referencePaths 1 := by
    refine ⟨exclusiveLease 1, 1, false, LeaseWorld.put_attempts, ?_⟩
    simp [LeaseInner.validateExclusive, IndexLease.validateExclusive, LeaseInner.observed, exclusiveLease,
      pathStillNamesFile, pathStillNamesIdentity, symlinkMetadata, named, bind, Except.bind, pure, Except.pure,
      isRegular, isAlias, lockObject, identityForValidatedPath, identityForFile, OpenFile.metadata]
  refine ⟨_, reached, rfl, valid, fun other => ?_⟩
  exact absurd ((validating_lease_alone reached referencePaths).1 0 1 other valid) (by decide)

end Replacement

end Codegraph.Store.Lease
