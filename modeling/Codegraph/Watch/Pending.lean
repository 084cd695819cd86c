import Codegraph.Watch.EventLoop

/- This file shows that the event loop loses no accepted change. -/

namespace Codegraph.Watch
open Interruptible List

/-- An accepted path is outstanding until an attempt that covers it is done. -/
def outstanding (path : String) : List JournalEntry → Bool
  | [] => false
  | .accepted accepted :: earlier => decide (accepted = path) || outstanding path earlier
  | .owed :: earlier => outstanding path earlier
  | .attempted paths fullSync done :: earlier =>
    !(done && (fullSync || decide (path ∈ paths))) && outstanding path earlier

/-- An owed full sync is outstanding until a full sync is done. -/
def fullSyncOutstanding : List JournalEntry → Bool
  | [] => false
  | .accepted _ :: earlier => fullSyncOutstanding earlier
  | .owed :: _ => true
  | .attempted _ fullSync done :: earlier => !(done && fullSync) && fullSyncOutstanding earlier

/-- What the loop still holds of the changes it accepted. -/
structure Held (state : LoopState) : Prop where
  paths : ∀ path, outstanding path state.journal = true → path ∈ state.pending.map Prod.fst
  owing : fullSyncOutstanding state.journal = true → state.fullSyncPending = true
  recovering : state.degraded.recovering = true → state.fullSyncPending = true ∧ state.deadline.isSome = true

/-- While a message is handled, an owed full sync has a deadline or a pending path that will set one. -/
structure Backed (state : LoopState) : Prop extends Held state where
  backed : state.fullSyncPending = true → state.deadline.isSome = true ∨ state.pending ≠ []

/-- Between messages, every pending change has a deadline. -/
structure Armed (state : LoopState) : Prop extends Held state where
  armed : state.pending ≠ [] ∨ state.fullSyncPending = true → state.deadline.isSome = true

theorem Armed.toBacked {state : LoopState} (armed : Armed state) : Backed state :=
  ⟨armed.toHeld, fun owed => .inl (armed.armed (.inr owed))⟩

variable {state reached : LoopState}
  {now : Nat} {paths : List String} {reason projectRoot : String} {normalized : List NormalizedPath}
  {config : WatchConfig} {registrations : List Registration}

/-- Only these five fields matter to what the loop holds. -/
structure SameCore (state reached : LoopState) : Prop where
  journal : reached.journal = state.journal
  pending : reached.pending = state.pending
  fullSyncPending : reached.fullSyncPending = state.fullSyncPending
  degraded : reached.degraded = state.degraded
  deadline : reached.deadline = state.deadline

theorem Held.core (held : Held state) (same : SameCore state reached) : Held reached := by
  refine ⟨?_, ?_, ?_⟩
  · rw [same.journal, same.pending]
    exact held.paths
  · rw [same.journal, same.fullSyncPending]
    exact held.owing
  · rw [same.degraded, same.fullSyncPending, same.deadline]
    exact held.recovering

theorem Backed.core (backed : Backed state) (same : SameCore state reached) : Backed reached := by
  refine ⟨backed.toHeld.core same, ?_⟩
  rw [same.fullSyncPending, same.deadline, same.pending]
  exact backed.backed

/-- A sighted path is pending, and every path that was pending stays so. -/
theorem mem_sight {pending : List (String × PendingInfo)} {path other : String} :
    other ∈ (sight pending path now).map Prod.fst ↔ other = path ∨ other ∈ pending.map Prod.fst := by
  unfold sight
  split
  · rename_i known
    have keys : (pending.map fun entry => if entry.1 = path then (path, { entry.2 with lastSeenMs := now })
        else entry).map Prod.fst = pending.map Prod.fst := by
      rw [map_map]
      apply map_congr_left
      intro entry _
      by_cases same : entry.1 = path
      · simp [same]
      · simp [same]
    rw [keys]
    obtain ⟨entry, member, found⟩ := any_eq_true.mp known
    have present : path ∈ pending.map Prod.fst :=
      mem_map.mpr ⟨entry, member, of_decide_eq_true found⟩
    constructor
    · exact .inr
    · intro either
      rcases either with rfl | already
      · exact present
      · exact already
  · simp only [map_append, mem_append, map_cons, map_nil, mem_singleton]
    exact or_comm

theorem sight_ne_nil (pending : List (String × PendingInfo)) (path : String) (now : Nat) :
    sight pending path now ≠ [] := by
  intro none_
  have member : path ∈ (sight pending path now).map Prod.fst := mem_sight.mpr (.inl rfl)
  rw [none_] at member
  cases member

/-- An accepted path joins what the loop holds. -/
theorem Held.accept (held : Held state) (path : String) (now : Nat) :
    Held { state with pending := sight state.pending path now, journal := .accepted path :: state.journal } := by
  refine ⟨?_, held.owing, held.recovering⟩
  intro other open_
  apply mem_sight.mpr
  simp only [outstanding, Bool.or_eq_true, decide_eq_true_eq] at open_
  rcases open_ with same | earlier
  · exact .inl same.symm
  · exact .inr (held.paths other earlier)

/-- A noted change has left a pending path behind. -/
structure Noted (changed : Bool) (state : LoopState) : Prop extends Backed state where
  noted : changed = true → state.pending ≠ []

theorem Noted.core {changed : Bool} (noted : Noted changed state) (same : SameCore state reached) :
    Noted changed reached := by
  refine ⟨noted.toBacked.core same, ?_⟩
  rw [same.pending]
  exact noted.noted

/-- A held state with a pending path notes any change. -/
theorem Held.loaded (held : Held state) (nonempty : state.pending ≠ []) (changed : Bool) : Noted changed state :=
  ⟨⟨held, fun _ => .inr nonempty⟩, fun _ => nonempty⟩

variable {ended : LoopEnd → LoopState → Prop} {changed : Bool}

theorem accept_notes {path : String} : Establishes Held (accept now path) (fun _ => Noted true) ended := by
  apply Establishes.modify
  intro state held
  exact (held.accept path now).loaded (sight_ne_nil state.pending path now) true

/-- A state that notes a change notes whatever else is asked of it. -/
theorem Noted.weaken (noted : Noted true state) : Noted changed state :=
  noted.toHeld.loaded (noted.noted rfl) changed

theorem acceptAll_keeps : Establishes (Noted changed) (acceptAll now paths) (fun _ => Noted changed) ended := by
  induction paths with
  | nil => exact .skip _
  | cons path rest ih =>
    have first : Establishes (Noted changed) (accept now path) (fun _ => Noted changed) ended :=
      accept_notes.consequence (fun state noted => noted.toHeld) (fun _ state noted => noted.weaken)
        fun _ _ cut => cut
    exact first.bind fun _ => ih

/-- Accepting at least one path notes the change. -/
theorem acceptAll_notes (nonempty : paths ≠ []) :
    Establishes Held (acceptAll now paths) (fun _ => Noted true) ended := by
  cases paths with
  | nil => exact absurd rfl nonempty
  | cons path rest => exact accept_notes.bind fun _ => acceptAll_keeps

theorem oweFullSync_holds : Establishes Held oweFullSync (fun _ => Held) ended := by
  apply Establishes.modify
  intro state held
  exact ⟨held.paths, fun _ => rfl, fun recovering => ⟨rfl, (held.recovering recovering).2⟩⟩

theorem oweFullSync_notes : Establishes (Noted true) oweFullSync (fun _ => Noted true) ended := by
  intro state noted
  have held : Outcome (fun _ => Held) ended (Program.exec oweFullSync state) := oweFullSync_holds state noted.toHeld
  exact Held.loaded held (noted.noted rfl) true

/-- Changes outside the core keep what is noted. -/
theorem modify_core {update : LoopState → LoopState} (same : ∀ state, SameCore state (update state)) :
    Establishes (Noted changed) (modify update : Loop Unit) (fun _ => Noted changed) ended :=
  .modify _ fun state noted => noted.core (same state)

theorem notify_keeps {notice : Notice} : Establishes (Noted changed) (notify notice) (fun _ => Noted changed) ended :=
  modify_core fun _ => ⟨rfl, rfl, rfl, rfl, rfl⟩

/-- A watch error that does not end the loop only warns. -/
theorem registerWatches_keeps {pre : LoopState → Prop} (errors : List NotifyError)
    (framed : ∀ state reached, pre state → SameCore state reached → pre reached) :
    Establishes pre (registerWatches errors) (fun _ => pre) (fun _ _ => True) := by
  induction errors with
  | nil => exact .skip _
  | cons error rest ih =>
    have handled : Establishes pre (handleWatchError error)
        (fun class_ reached => class_ = .degrade ∨ pre reached) (fun _ _ => True) := by
      intro state inside
      simp only [handleWatchError, exec_bind, exec_modify, exec_pure, outcome_ok]
      by_cases degrading : classifyNotifyError error = .degrade
      · exact .inl degrading
      · refine .inr (framed state _ inside ?_)
        simp only [noteWatchError, degrading, if_false]
        exact ⟨rfl, rfl, rfl, rfl, rfl⟩
    refine handled.bind fun class_ => ?_
    apply Establishes.ite
    · intro _
      exact .throw _ fun _ _ => trivial
    · intro milder
      exact ih.starting fun _ either => either.resolve_left milder

/-- A counted control change came from a control file of the batch. -/
theorem normalizeAll_controls {view : EventView} {scope : RuntimeWatchScope} {files : ControlFiles}
    {changes : ControlChanges} (counted : (normalizeAll view scope files paths changes).2.any = true) :
    changes.any = true ∨ ∃ entry ∈ (normalizeAll view scope files paths changes).1, entry.isControl = true := by
  induction paths generalizing changes with
  | nil => exact .inl counted
  | cons path rest ih =>
    unfold normalizeAll at counted ⊢
    cases relative : scope.policy.normalizeRelative (view.logicalPath path) with
    | none =>
      simp only [relative] at counted ⊢
      exact ih counted
    | some relative_ =>
      simp only [relative] at counted ⊢
      rcases ih counted with classified | ⟨entry, member, control⟩
      · by_cases control : (files.classify relative_ changes).1 = true
        · exact .inr ⟨_, mem_cons_self, control⟩
        · left
          have plain : (files.classify relative_ changes).2 = changes := by
            unfold ControlFiles.classify at control ⊢
            split at control
            · exact absurd rfl control
            split at control
            · exact absurd rfl control
            split at control
            · exact absurd rfl control
            rename_i first second third
            rw [if_neg first, if_neg second, if_neg third]
          rw [plain] at classified
          exact classified
      · exact .inr ⟨entry, mem_cons_of_mem _ member, control⟩

variable {view : EventView} {path relative : String}

theorem reportReload_keeps {reason : Option String} :
    Establishes (Noted changed) (reportReload reason) (fun _ => Noted changed) ended := by
  cases reason with
  | none => exact .skip _
  | some text => exact notify_keeps

/-- A reload owes a full sync and leaves its control file pending. -/
theorem applyReload_notes {next : RuntimeWatchScope} (control : ∃ entry ∈ normalized, entry.isControl = true) :
    Establishes (Noted changed) (applyReload view normalized next) (fun _ => Noted true) (fun _ _ => True) := by
  have present : (normalized.filter NormalizedPath.isControl).map NormalizedPath.relative ≠ [] := by
    obtain ⟨entry, member, marked⟩ := control
    exact ne_nil_of_mem (mem_map_of_mem (mem_filter.mpr ⟨member, marked⟩))
  have owed : Establishes (Noted changed) oweFullSync (fun _ => Held) (fun _ _ => True) :=
    oweFullSync_holds.starting fun _ noted => noted.toHeld
  refine (registerWatches_keeps _ fun _ _ noted same => noted.core same).bind fun _ => ?_
  refine Establishes.bind (modify_core fun _ => ⟨rfl, rfl, rfl, rfl, rfl⟩) fun _ => ?_
  exact owed.bind fun _ => acceptAll_notes present

theorem handleControlChanges_notes {changes : ControlChanges}
    (controls : changes.any = true → ∃ entry ∈ normalized, entry.isControl = true) :
    Establishes (Noted false) (handleControlChanges view normalized changes) (fun reloaded => Noted reloaded)
      (fun _ _ => True) := by
  apply Establishes.reads
  intro seen
  apply Establishes.ite
  · intro counted
    refine reportReload_keeps.bind fun _ => ?_
    apply Establishes.ite
    · intro _
      refine (applyReload_notes (controls counted)).bind fun _ => ?_
      exact .pure _ fun _ noted => noted
    · intro _
      exact .pure _ fun _ noted => noted
  · intro _
    exact .pure _ fun _ noted => noted

theorem handleRemovedDirectory_keeps :
    Establishes (Noted changed) (handleRemovedDirectory view relative) (fun _ => Noted changed) ended := by
  have owed : Establishes (Noted changed) oweFullSync (fun _ => Held) ended :=
    oweFullSync_holds.starting fun _ noted => noted.toHeld
  have accepted : Establishes Held (accept view.now relative) (fun _ => Noted changed) ended :=
    accept_notes.consequence (fun _ held => held) (fun _ _ noted => noted.weaken) fun _ _ cut => cut
  apply Establishes.reads
  intro seen
  apply Establishes.ite
  · intro _
    exact owed.bind fun _ => accepted
  · intro _
    apply Establishes.ite
    · intro _
      exact acceptAll_keeps
    · intro _
      exact .skip _

theorem handleMarkerDirectory_keeps :
    Establishes (Noted changed) (handleMarkerDirectory view path relative) (fun _ => Noted changed) ended := by
  apply Establishes.reads
  intro seen
  apply Establishes.ite
  · intro _
    exact .bind (modify_core fun _ => ⟨rfl, rfl, rfl, rfl, rfl⟩) fun _ => acceptAll_keeps
  · intro _
    exact .skip _

/-- A new directory is noted with its links. -/
theorem handleNewDirectory_notes : Establishes (Noted changed) (handleNewDirectory view path relative)
      (fun sawLink => Noted (changed || sawLink)) ended := by
  have unchanged : Establishes (Noted changed) (pure false : Loop Bool)
      (fun sawLink => Noted (changed || sawLink)) ended :=
    .pure _ fun state noted => by rw [Bool.or_false]; exact noted
  have linked : Establishes (Noted changed) (accept view.now relative >>= fun _ => pure true)
      (fun sawLink => Noted (changed || sawLink)) ended := by
    have accepted : Establishes (Noted changed) (accept view.now relative) (fun _ => Noted true) ended :=
      accept_notes.starting fun _ noted => noted.toHeld
    refine accepted.bind fun _ => ?_
    exact .pure _ fun _ noted => noted.weaken
  apply Establishes.reads
  intro seen
  apply Establishes.ite
  · intro _
    refine .bind (modify_core fun _ => ⟨rfl, rfl, rfl, rfl, rfl⟩) fun _ => ?_
    exact .ite (fun _ => linked) fun _ => unchanged
  · intro _
    exact unchanged

theorem handleFile_keeps :
    Establishes (Noted changed) (handleFile view path relative) (fun _ => Noted changed) ended := by
  apply Establishes.reads
  intro seen
  apply Establishes.ite
  · intro _
    exact acceptAll_keeps
  · intro _
    exact .skip _

theorem handlePresentPath_notes : Establishes (Noted changed) (handlePresentPath view path relative)
      (fun sawLink => Noted (changed || sawLink)) ended := by
  refine handleMarkerDirectory_keeps.bind fun _ => ?_
  refine handleNewDirectory_notes.bind fun sawLink => ?_
  refine handleFile_keeps.bind fun _ => ?_
  exact .pure _ fun _ noted => noted

/-- A path that changed the links is still pending. -/
theorem handlePath_notes {removal : RemovalHint} {normalized : NormalizedPath} :
    Establishes (Noted changed) (handlePath view removal normalized)
      (fun first => Noted (changed || first)) ended := by
  apply Establishes.reads
  intro seen
  apply Establishes.ite
  · intro _
    exact .pure _ fun state noted => by rw [Bool.or_false]; exact noted
  · intro _
    generalize seen.links.isTopologyEvent view.disk normalized.path normalized.relative = topology
    have noticed : Establishes (Noted changed)
        (if topology = true then accept view.now normalized.relative else pure ())
        (fun _ => Noted (changed || topology)) ended := by
      apply Establishes.ite
      · rintro rfl
        rw [Bool.or_true]
        exact accept_notes.starting fun _ noted => noted.toHeld
      · intro plain
        rw [Bool.not_eq_true] at plain
        rw [plain, Bool.or_false]
        exact .skip _
    refine noticed.bind fun _ => ?_
    refine .bind (modify_core fun _ => ⟨rfl, rfl, rfl, rfl, rfl⟩) fun _ => ?_
    apply Establishes.ite
    · intro _
      refine handleRemovedDirectory_keeps.bind fun _ => ?_
      exact .pure _ fun _ noted => noted
    · intro _
      refine handlePresentPath_notes.bind fun sawLink => ?_
      exact .pure _ fun _ noted => by rw [← Bool.or_assoc]; exact noted

theorem handlePaths_notes {removal : RemovalHint} (paths : List NormalizedPath) :
    Establishes (Noted changed) (handlePaths view removal paths)
      (fun later => Noted (changed || later)) ended := by
  induction paths generalizing changed with
  | nil => exact .pure _ fun state noted => by rw [Bool.or_false]; exact noted
  | cons path rest ih =>
    refine handlePath_notes.bind fun first => ?_
    refine ih.bind fun later => ?_
    exact .pure _ fun _ noted => by rw [← Bool.or_assoc]; exact noted

/-- A changed topology finds a pending path, so the full sync it owes is backed. -/
theorem handleTopology_backs :
    Establishes (Noted changed) (handleTopology view changed) (fun _ => Backed) (fun _ _ => True) := by
  apply Establishes.reads
  intro seen
  apply Establishes.ite
  · intro active
    rw [Bool.and_eq_true] at active
    obtain ⟨rfl, -⟩ := active
    refine (registerWatches_keeps _ fun _ _ noted same => noted.core same).bind fun _ => ?_
    refine .bind (modify_core fun _ => ⟨rfl, rfl, rfl, rfl, rfl⟩) fun _ => ?_
    exact oweFullSync_notes.consequence (fun _ noted => noted) (fun _ _ noted => noted.toBacked) fun _ _ cut => cut
  · intro _
    exact .pure _ fun _ noted => noted.toBacked

/-- A possible loss of events owes a full sync with its own deadline. -/
theorem oweRecovery_backs {delay : Nat} {cause : String} :
    Establishes Held (oweFullSync >>= fun _ => beginLostEventRecovery now delay cause)
      (fun _ reached => Held reached ∧ reached.fullSyncPending = true ∧ reached.deadline.isSome = true) ended := by
  intro state held
  have owed : Held { state with fullSyncPending := true, journal := .owed :: state.journal } :=
    ⟨held.paths, fun _ => rfl, fun recovering => ⟨rfl, (held.recovering recovering).2⟩⟩
  simp only [exec_bind, oweFullSync, exec_modify, beginLostEventRecovery, exec_get]
  by_cases recovering : state.degraded.recovering = true
  · simp only [recovering, if_true, exec_pure, outcome_ok]
    exact ⟨owed, trivial, (held.recovering recovering).2⟩
  · simp only [recovering, if_false, Bool.false_eq_true, exec_modify, outcome_ok]
    exact ⟨⟨owed.paths, owed.owing, fun _ => ⟨rfl, rfl⟩⟩, trivial, rfl⟩

theorem handleRescan_backs {rescan : Bool} : Establishes Backed (handleRescan view rescan) (fun _ => Backed) ended := by
  apply Establishes.reads
  intro seen
  apply Establishes.ite
  · intro _
    exact oweRecovery_backs.consequence (fun _ backed => backed.toHeld)
      (fun _ _ owed => ⟨owed.1, fun _ => .inl owed.2.2⟩) fun _ _ cut => cut
  · intro _
    exact .skip _

/-- The debounce gives every pending change its deadline. -/
theorem rearmDebounce_arms {view : EventView} : Establishes Backed (rearmDebounce view) (fun _ => Armed) ended := by
  intro state backed
  simp only [rearmDebounce, exec_bind, exec_get]
  by_cases recovering : state.degraded.recovering = true
  · simp only [recovering, Bool.true_eq_false, and_false, if_false, exec_pure, outcome_ok]
    exact ⟨backed.toHeld, fun _ => (backed.recovering recovering).2⟩
  · by_cases nonempty : state.pending = []
    · simp only [nonempty, ne_eq, not_true_eq_false, false_and, if_false, exec_pure, outcome_ok]
      refine ⟨backed.toHeld, ?_⟩
      intro either
      rcases either with filled | owed
      · exact absurd nonempty filled
      · exact (backed.backed owed).resolve_right (fun filled => filled nonempty)
    · rw [Bool.not_eq_true] at recovering
      simp only [nonempty, recovering, ne_eq, not_false_eq_true, and_self, if_true, exec_modify, outcome_ok]
      refine ⟨⟨backed.paths, backed.owing, ?_⟩, fun _ => rfl⟩
      intro paused
      exact ⟨(backed.recovering paused).1, rfl⟩

/-- A batch of events notes its changes. -/
theorem handleBatch_notes {batch : WatchEventBatch} {view : EventView} :
    Establishes Armed (handleBatch batch view) (fun changed => Noted changed) (fun _ _ => True) := by
  apply Establishes.reads
  intro seen
  have controls : (normalizeAll view seen.scope seen.controlFiles batch.paths .none).2.any = true →
      ∃ entry ∈ (normalizeAll view seen.scope seen.controlFiles batch.paths .none).1,
        entry.isControl = true := by
    intro counted
    exact (normalizeAll_controls counted).resolve_left (by decide)
  have reloaded : Establishes Armed
      (handleControlChanges view
        (normalizeAll view seen.scope seen.controlFiles batch.paths .none).1
        (normalizeAll view seen.scope seen.controlFiles batch.paths .none).2)
      (fun reloaded => Noted reloaded) (fun _ _ => True) :=
    (handleControlChanges_notes controls).starting fun _ armed =>
      ⟨armed.toBacked, fun impossible => by cases impossible⟩
  refine reloaded.bind fun reloaded => ?_
  refine (handlePaths_notes _).bind fun changed => ?_
  exact .pure _ fun _ noted => noted

theorem handleEvent_arms {batch : WatchEventBatch} {view : EventView} :
    Establishes Armed (handleEvent batch view) (fun _ => Armed) (fun _ _ => True) := by
  refine handleBatch_notes.bind fun changed => ?_
  refine handleTopology_backs.bind fun _ => ?_
  exact handleRescan_backs.bind fun _ => rearmDebounce_arms

theorem Armed.core (armed : Armed state) (same : SameCore state reached) : Armed reached := by
  refine ⟨armed.toHeld.core same, ?_⟩
  rw [same.pending, same.fullSyncPending, same.deadline]
  exact armed.armed

/-- A tick of the sentinels leaves the loop armed. -/
theorem sentinelTick_arms {view : TickView} : Establishes Armed (sentinelTick config view) (fun _ => Armed) ended := by
  have idle {update : LoopState → LoopState} (same : ∀ state, SameCore state (update state)) :
      Establishes Armed (modify update : Loop Unit) (fun _ => Armed) ended :=
    .modify _ fun state armed => armed.core (same state)
  refine .bind (idle fun _ => by exact ⟨rfl, rfl, rfl, rfl, rfl⟩) fun _ => ?_
  apply Establishes.reads
  intro seen
  apply Establishes.ite
  · intro _
    exact .skip _
  · intro _
    rcases view.drift with text | (_ | detail)
    · have told : Establishes Armed
          (if (!seen.driftErrorReported) = true then notify (.syncError ("watch drift check failed: " ++ text))
            else pure ()) (fun _ => Armed) ended :=
        .ite (fun _ => idle fun _ => ⟨rfl, rfl, rfl, rfl, rfl⟩)
          fun _ => .skip _
      exact told.bind fun _ => idle fun _ => ⟨rfl, rfl, rfl, rfl, rfl⟩
    · exact .skip _
    · have rewatched : Establishes Armed (rewatchRoot config.projectRoot view.rewatchFailure) (fun _ => Armed)
          ended := by
        cases view.rewatchFailure with
        | none => exact .skip _
        | some error => exact idle fun _ => ⟨rfl, rfl, rfl, rfl, rfl⟩
      refine rewatched.bind fun _ => ?_
      exact oweRecovery_backs.consequence (fun _ armed => armed.toHeld)
        (fun _ _ owed => ⟨owed.1, fun _ => owed.2.2⟩) fun _ _ cut => cut

/-- While an attempt runs, its batch holds every outstanding path. -/
structure Taken (batch : List (String × PendingInfo)) (fullSync done : Bool) (state : LoopState) : Prop where
  paths : ∀ path, outstanding path state.journal = true → done = false ∧ path ∈ batch.map Prod.fst
  owing : fullSyncOutstanding state.journal = true → done = false ∧ fullSync = true
  recovering : state.degraded.recovering = true → fullSync = true
  pending : state.pending = []
  fullSyncPending : state.fullSyncPending = false

/-- The batch of an attempt takes over what the loop held. -/
theorem Armed.taken (armed : Armed state) (config : WatchConfig) (view : TickView) (done : Bool) :
    Taken state.pending state.syncsWhole done (state.takeBatch config view done) := by
  refine ⟨?_, ?_, ?_, rfl, rfl⟩
  · intro path open_
    simp only [LoopState.takeBatch, outstanding, Bool.and_eq_true] at open_
    have present := armed.paths path open_.2
    refine ⟨?_, present⟩
    cases done with
    | false => rfl
    | true => simp [present] at open_
  · intro open_
    simp only [LoopState.takeBatch, fullSyncOutstanding, Bool.and_eq_true] at open_
    have whole : state.syncsWhole = true := by rw [LoopState.syncsWhole, armed.owing open_.2, Bool.true_or]
    rw [whole] at open_
    refine ⟨?_, whole⟩
    cases done with
    | false => rfl
    | true => simp at open_
  · intro paused
    by_cases burst : state.isBurst = true
    · rw [LoopState.syncsWhole, burst, Bool.or_true]
    · rw [Bool.not_eq_true] at burst
      simp only [LoopState.takeBatch, burst, Bool.false_and, Bool.false_eq_true, if_false] at paused
      rw [LoopState.syncsWhole, (armed.recovering paused).1, Bool.true_or]

variable {batch : List (String × PendingInfo)} {fullSync : Bool}

/-- Finishing an attempt leaves the loop armed. -/
theorem finishAttempt_arms {controlPaths : Option RecordedInputs} :
    Establishes (Taken batch fullSync true) (finishAttempt (batch.map Prod.fst) fullSync controlPaths)
      (fun _ => Armed) ended := by
  intro state taken
  simp only [finishAttempt, notify, exec_bind, exec_modify, outcome_ok]
  refine ⟨⟨?_, ?_, ?_⟩, ?_⟩
  · intro path open_
    cases (taken.paths path open_).1
  · intro open_
    cases (taken.owing open_).1
  · intro paused
    cases fullSync with
    | true =>
      simp only [if_true, DegradedState.recover] at paused
      split at paused
      · cases paused
      · rename_i healthy
        exact absurd paused healthy
    | false => cases taken.recovering paused
  · intro either
    rcases either with filled | owed
    · exact absurd taken.pending filled
    · rw [taken.fullSyncPending] at owed
      cases owed

theorem restoreBatch_arms {view : TickView} :
    Establishes (Taken batch fullSync false) (restoreBatch view batch fullSync reason) (fun _ => Armed) ended := by
  intro state taken
  simp only [restoreBatch, notify, exec_bind, exec_modify, outcome_ok]
  refine ⟨⟨fun path open_ => (taken.paths path open_).2, ?_, ?_⟩, fun _ => rfl⟩
  · intro open_
    change (state.fullSyncPending || fullSync) = true
    rw [(taken.owing open_).2, Bool.or_true]
  · intro paused
    refine ⟨?_, rfl⟩
    change (state.fullSyncPending || fullSync) = true
    rw [taken.recovering paused, Bool.or_true]

/-- A pause for contention takes the batch back and leaves the loop armed. -/
theorem pauseForContention_arms {view : TickView} :
    Establishes (Taken batch fullSync false) (pauseForContention config view batch reason)
      (fun _ => Armed) ended := by
  have paused : Establishes (Taken batch fullSync false)
      (modify fun state =>
        { state with
          degraded := state.degraded.markRecovering reason
          pending := batch
          fullSyncPending := true
          deadline := some (view.finishedAt + config.lockRecoveryInterval) } : Loop Unit)
      (fun _ => Armed) ended := by
    apply Establishes.modify
    intro state taken
    exact ⟨⟨fun path open_ => (taken.paths path open_).2, fun _ => rfl, fun _ => ⟨rfl, rfl⟩⟩, fun _ => rfl⟩
  apply Establishes.reads
  intro seen
  have told : Establishes (Taken batch fullSync false)
      (if (!seen.degraded.recovering) = true then
        notify (.syncError ("auto-sync paused: " ++ reason ++ "; retrying a full reconcile every " ++
          toString (config.lockRecoveryInterval / 1000) ++ "s"))
        else pure ())
      (fun _ => Taken batch fullSync false) ended := by
    apply Establishes.ite
    · intro _
      exact .modify _ fun state taken =>
        ⟨taken.paths, taken.owing, taken.recovering, taken.pending, taken.fullSyncPending⟩
    · intro _
      exact .skip _
  exact told.bind fun _ => paused

theorem disableSync_ends {pre : LoopState → Prop} :
    Establishes pre (disableSync reason) (fun _ => Armed) (fun _ _ => True) := by
  intro state _
  simp only [disableSync, exec_bind, exec_modify, exec_throw, outcome_error]

/-- Every outcome of an attempt leaves the loop armed. -/
theorem settleAttempt_arms {view : TickView} {attempt : SyncAttempt} :
    Establishes (Taken batch fullSync attempt.isDone) (settleAttempt config view batch fullSync attempt)
      (fun _ => Armed) (fun _ _ => True) := by
  apply Establishes.reads
  intro seen
  have counted {errors : Nat} : Establishes (Taken batch fullSync attempt.isDone)
      (modify fun state => { state with consecutiveSyncErrors := errors } : Loop Unit)
      (fun _ => Taken batch fullSync attempt.isDone) (fun _ _ => True) :=
    .modify _ fun state taken =>
      ⟨taken.paths, taken.owing, taken.recovering, taken.pending, taken.fullSyncPending⟩
  refine counted.bind fun _ => ?_
  cases attempt with
  | done controlPaths =>
    exact finishAttempt_arms.bind fun _ => .skip _
  | degraded reason =>
    have skipped : Establishes (Taken batch fullSync false) (pure () : Loop Unit)
        (fun _ => Taken batch fullSync false) (fun _ _ => True) := .skip _
    exact skipped.bind fun _ => pauseForContention_arms
  | error reason =>
    refine restoreBatch_arms.bind fun _ => ?_
    unfold classifyPersistentFailure
    split
    · cases ‹SyncAttempt.error reason = _›
    · cases ‹SyncAttempt.error reason = _›
    · split
      · exact disableSync_ends
      · exact .skip _

theorem attemptSync_arms {view : TickView} :
    Establishes Armed (attemptSync config view) (fun _ => Armed) (fun _ _ => True) := by
  intro state armed
  have taken := armed.taken config view (state.attempt config view).isDone
  simp only [attemptSync, exec_bind, exec_get, exec_modify]
  exact settleAttempt_arms _ taken

/-- Every message leaves the loop armed while it runs. -/
theorem step_arms (message : LoopMessage) :
    Establishes Armed (step config message) (fun _ => Armed) (fun _ _ => True) := by
  cases message with
  | event batch view => exact handleEvent_arms
  | watchError error =>
    exact registerWatches_keeps [error] fun _ _ armed same => armed.core same
  | snapshot => exact .skip _
  | stop => exact .throw _ fun _ _ => trivial
  | timeout view =>
    apply Establishes.reads
    intro seen
    apply Establishes.ite
    · intro _
      exact attemptSync_arms
    · intro _
      apply Establishes.ite
      · intro _
        exact sentinelTick_arms
      · intro _
        exact .skip _

/-- A run that has not ended is armed. -/
theorem eventLoop_arms (messages : List LoopMessage) (armed : Armed state)
    (running : eventLoop config messages state = (none, reached)) : Armed reached := by
  induction messages generalizing state with
  | nil =>
    cases running
    exact armed
  | cons message rest ih =>
    have stepped : Outcome (fun _ => Armed) (fun _ _ => True) (Program.exec (step config message) state) :=
      step_arms message state armed
    unfold eventLoop at running
    rcases ended : Program.exec (step config message) state with ⟨error | ⟨⟩, middle⟩
    · rw [ended] at running
      cases running
    · rw [ended] at running stepped
      exact ih stepped running

/-- A fresh loop holds nothing and owes nothing. -/
def Fresh (state : LoopState) : Prop :=
  state.pending = [] ∧ state.fullSyncPending = false ∧ state.journal = [] ∧ state.degraded.recovering = false

theorem register_fresh {registration : Registration} (fresh : Fresh state)
    (registered : register projectRoot state registration = .ok reached) : Fresh reached := by
  obtain ⟨pending, owed, journal, recovering⟩ := fresh
  unfold register at registered
  split at registered
  · cases registered
    exact ⟨pending, owed, journal, recovering⟩
  · split at registered
    · dsimp only at registered
      split at registered <;> cases registered
      · exact ⟨pending, owed, journal, recovering⟩
      · exact ⟨pending, owed, journal, rfl⟩
    · cases registered
      exact ⟨pending, owed, journal, recovering⟩
    · split at registered <;> cases registered
      exact ⟨pending, owed, journal, recovering⟩

theorem registerAll_fresh (fresh : Fresh state)
    (registered : registerAll projectRoot state registrations = .ok reached) : Fresh reached := by
  induction registrations generalizing state with
  | nil =>
    cases registered
    exact fresh
  | cons registration rest ih =>
    rw [registerAll, foldlM_cons] at registered
    cases first : register projectRoot state registration with
    | error error =>
      rw [first] at registered
      cases registered
    | ok middle =>
      rw [first] at registered
      exact ih (register_fresh fresh first) registered

/-- A start reports a partial failure after every watch was tried. -/
theorem start_registered (started : start projectRoot state registrations = .ok reached) :
    ∃ middle, registerAll projectRoot state registrations = .ok middle ∧
      reached = warnPartial registrations middle := by
  unfold start at started
  cases registered : registerAll projectRoot state registrations with
  | error error =>
    rw [registered] at started
    cases started
  | ok middle =>
    rw [registered] at started
    cases started
    exact ⟨middle, rfl, rfl⟩

theorem start_fresh (fresh : Fresh state)
    (started : start projectRoot state registrations = .ok reached) : Fresh reached := by
  obtain ⟨middle, registered, rfl⟩ := start_registered started
  obtain ⟨pending, owed, journal, recovering⟩ := registerAll_fresh fresh registered
  unfold warnPartial
  split
  · exact ⟨pending, owed, journal, recovering⟩
  · exact ⟨pending, owed, journal, recovering⟩

theorem Fresh.armed (fresh : Fresh state) : Armed state := by
  obtain ⟨pending, owed, journal, recovering⟩ := fresh
  refine ⟨⟨?_, ?_, ?_⟩, ?_⟩
  · intro path open_
    rw [journal] at open_
    cases open_
  · intro open_
    rw [journal] at open_
    cases open_
  · intro paused
    rw [recovering] at paused
    cases paused
  · intro either
    rcases either with filled | full
    · exact absurd pending filled
    · rw [owed] at full
      cases full

/-- Between any two messages of a running loop, every pending path and every owed full sync has a deadline,
every accepted path is pending until an attempt that covers it is done, an owed full sync stays owed until one
is done, and a recovering watcher owes one. -/
theorem accepted_changes_are_kept (config : WatchConfig) (controlFiles : ControlFiles)
    (scope : RuntimeWatchScope) (knownDirs : List String) (links : LinkState) (controlPaths : RecordedInputs)
    (sentinelDue : Option Nat) (registrations : List Registration) (messages : List LoopMessage)
    (started reached : LoopState) (begun : start config.projectRoot
      (initialLoop controlFiles scope knownDirs links controlPaths sentinelDue) registrations = .ok started)
    (running : eventLoop config messages started = (none, reached)) :
    (reached.pending ≠ [] ∨ reached.fullSyncPending = true → reached.deadline.isSome = true) ∧
    (∀ path, outstanding path reached.journal = true → path ∈ reached.pending.map Prod.fst) ∧
    (fullSyncOutstanding reached.journal = true → reached.fullSyncPending = true) ∧
    (reached.degraded.health.isRecovering = true → reached.fullSyncPending = true) := by
  have fresh : Fresh started := start_fresh ⟨rfl, rfl, rfl, rfl⟩ begun
  have armed := eventLoop_arms messages fresh.armed running
  refine ⟨armed.armed, armed.paths, armed.owing, ?_⟩
  intro paused
  rw [DegradedState.health_isRecovering, Bool.and_eq_true] at paused
  exact (armed.recovering paused.2).1

/-- A project whose every path is watched. -/
def openPolicy : WatchPolicy where
  normalizeRelative := some
  shouldWatchDir := fun _ => true
  watchesForThemeMarkers := fun _ => false
  mayMarkATheme := fun _ => false
  shouldHandleFile := fun _ => true
  allowsFilePath := fun _ => true
  isProjectControlFile := fun _ => false

def openLoop : LoopState :=
  initialLoop ⟨".codegraph/config.toml", "codegraph.json", ".gitignore", ".git/info/exclude"⟩
    ⟨openPolicy, 500, true⟩ [] ⟨[], [], []⟩ ⟨[], []⟩ none

/-- The loop sees plain files and every watch registers. -/
def plainView (now : Nat) : EventView where
  now := now
  logicalPath := id
  reload := ⟨.ok (500, true), openPolicy⟩
  knownDirectoryPaths := []
  reconcileErrors := []
  disk := ⟨fun _ => false, fun _ => false, fun _ => [], fun _ => [], fun _ => false⟩
  themeMarkers := fun _ => []
  isMaybeDeletedSource := fun _ => false
  nextLinks := ⟨[], [], []⟩
  relinkErrors := []

def openConfig : WatchConfig := ⟨"/project", 30000, 60000, none⟩

/-- One saved file is pending with a deadline. -/
theorem saved_file_is_kept :
    ∃ reached, eventLoop openConfig [.event ⟨["src/lib.rs"], .none, false⟩ (plainView 1000)] openLoop =
        (none, reached) ∧
      outstanding "src/lib.rs" reached.journal = true ∧ "src/lib.rs" ∈ reached.pending.map Prod.fst ∧
      reached.deadline.isSome = true := by
  have kept := accepted_changes_are_kept openConfig
    ⟨".codegraph/config.toml", "codegraph.json", ".gitignore", ".git/info/exclude"⟩
    ⟨openPolicy, 500, true⟩ [] ⟨[], [], []⟩ ⟨[], []⟩ none []
    [.event ⟨["src/lib.rs"], .none, false⟩ (plainView 1000)] openLoop _ rfl rfl
  have pending : "src/lib.rs" ∈ _ := kept.2.1 "src/lib.rs" rfl
  refine ⟨_, rfl, rfl, pending, kept.1 (.inl ?_)⟩
  exact ne_nil_of_length_pos (by decide)

end Codegraph.Watch
