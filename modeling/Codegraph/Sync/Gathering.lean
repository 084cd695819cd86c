import Codegraph.Sync.Tracking

/- This file follows the references from the looked-at paths to the dependents that a sync refreshes. -/

namespace Codegraph.Sync
open Codegraph.Core Interruptible List
open Store (ReferenceSite)

section Preparing
variable {call : SyncCall} {start : SyncStore}

/-- The lanes that are rebuilt with their marker in place withdraw it, and the moved themes are stored. -/
def prepared (call : SyncCall) (start : SyncStore) : SyncStore :=
  { start with
    markers := start.markers.filter fun marker =>
      marker ∉ [Marker.luaModules, .dartHeads, .dartLibraries].filter fun marker => marker ∈ call.missing start
    pendingThemes := call.themes start }

/-- A prepared store has scanned nothing yet. -/
theorem prepared_scanned : Scanned call start (prepared call start) .fresh := by
  have tracked : Tracked call start (prepared call start) .fresh := by
    constructor
    case bare => exact fun dirty => by cases dirty
    case clean => exact fun _ => ⟨rfl, rfl, rfl, rfl, rfl⟩
    case rebuilt =>
      intro marker present missing
      obtain ⟨held, kept⟩ := mem_filter.mp present
      have bootstrap := missing_iff.mp missing
      simp only [SyncCall.needsBootstrap, held, not_true_eq_false, decide_false, Bool.false_or, Bool.and_eq_true,
        decide_eq_true_eq] at bootstrap
      simp only [mem_filter, decide_eq_true_eq] at kept
      exact kept ⟨bootstrap.1, missing⟩
    case themes => rfl
    case frameworks => exact .inl rfl
    case fresh => exact fun _ _ reindexed => by cases reindexed
    case origin => exact fun _ stored _ => .inl stored
    case files => rfl
  constructor
  case tracked => exact tracked
  case moved => exact fun dirty => by cases dirty
  case handed => exact fun _ seen => by cases seen
  case found => exact fun _ reindexed => by cases reindexed
  case looked => exact fun _ seen => by cases seen

theorem withdrawRebuilt_runs (recovers : start.Recovers) :
    Runs (fun store notes => store = start ∧ notes = .fresh) (withdrawRebuilt (call.missing start)) fun _ store notes =>
      store = { prepared call start with pendingThemes := start.pendingThemes } ∧ notes = .fresh := by
  apply Runs.writeAll
  · intro store notes ⟨sameStore, _⟩
    rw [sameStore]
    exact along_withdraw _ recovers
  · intro store notes ⟨sameStore, sameNotes⟩
    rw [foldl_withdraw, sameStore]
    exact ⟨rfl, sameNotes⟩

/-- Storing the themes prepares the scan. -/
theorem storeThemes_runs (recovers : start.Recovers) :
    Runs (fun store notes => store = { prepared call start with pendingThemes := start.pendingThemes } ∧ notes = .fresh)
      (storeThemes (call.themes start)) fun _ store notes =>
        Scanned call start store notes ∧ ∀ path ∈ [], path ∈ notes.seen := by
  apply Runs.read
  intro before ⟨beforeStore, beforeNotes⟩
  rw [beforeStore, beforeNotes]
  apply Runs.ite
  · intro same
    apply Runs.pure
    intro store notes ⟨sameStore, sameNotes⟩
    have stored : store = prepared call start := by
      rw [sameStore, prepared, same]
    rw [stored, sameNotes]
    exact ⟨prepared_scanned, fun _ none => by cases none⟩
  · intro _
    apply Runs.write
    · intro store notes ⟨sameStore, _⟩
      rw [sameStore]
      exact recovers.mono rfl (fun row stored due => ⟨row, stored, due, rfl⟩)
        (fun _ present => (mem_filter.mp present).1) fun _ listed => listed
    · intro store notes ⟨sameStore, sameNotes⟩
      rw [sameStore, sameNotes]
      exact ⟨prepared_scanned, fun _ none => by cases none⟩

end Preparing

section Conditions
variable (call : SyncCall) (start : SyncStore)

/-- The reference is due, or the sync is about to delete the edge it has. -/
def SyncCall.exposes (call : SyncCall) (store : SyncStore) (row : RefRow) : Bool :=
  row.due || match row.state with
    | .resolved target _ => decide (target ∈ call.handed) && call.finds store target
    | _ => false

/-- The frameworks moved, or every exposed reference stands in a file that the sync looks at or finds on disk, and every
due reference stands in a file that the sync extracts again or that has a marker. -/
def Covered : Prop :=
  start.frameworks ≠ some call.detected ∨
    ∀ row ∈ start.refs, start.indexed row.filePath = true → call.exposes start row = true →
      (row.filePath ∈ call.handed ∨ (call.disk row.filePath).isSome = true) ∧
        (row.due = true → row.filePath ∈ call.handed ∧ call.finds start row.filePath = true ∨
          ∃ file ∈ start.files, file.path = row.filePath ∧ ∃ marker ∈ Marker.all, marker.rereads file = true)

instance : Decidable (Covered call start) := by
  unfold Covered
  infer_instance

/-- Once the handed paths were looked at, the reindexed ones are those that were found changed. -/
structure Swept (store : SyncStore) (notes : ChangedNotes) : Prop where
  tracked : Tracked call start store notes
  quiet : notes.dirty = false → call.controls (call.missing start) = []
  found : ∀ path ∈ notes.reindexed, path ∈ call.handed ∧ call.finds start path = true
  looked : ∀ path ∈ call.handed, path ∉ notes.reindexed → start.indexed path = true →
    (call.disk path).isSome = true ∧ call.finds start path = false

/-- A moved framework reindexes every file. -/
structure Framed (store : SyncStore) (notes : ChangedNotes) : Prop where
  tracked : Tracked call start store notes
  quiet : notes.dirty = false → call.controls (call.missing start) = []
  framed : start.frameworks = some call.detected ∧ Swept call start store notes ∨
    ∀ path, start.indexed path = true → path ∈ notes.reindexed

/-- Every due reference of an indexed file waits in a reindexed file or is about to be refreshed. -/
structure Gathered (store : SyncStore) (notes : ChangedNotes) : Prop where
  recovers : store.Recovers
  bare : notes.dirty = true → store.markers = []
  known : ∀ row ∈ store.refs, row.due = true → store.indexed row.filePath = true →
    row.filePath ∈ notes.reindexed ∧ row.state = .pending ∨
      row.filePath ∉ notes.reindexed ∧ notes.Covers row ∧ (call.disk row.filePath).isSome = true
  quiet : notes.dirty = false → notes.sites = [] ∧ notes.reindexed = [] ∧
    ∀ path ∈ notes.fallbacks, ∃ file ∈ store.files, file.path = path ∧ store.Rereads file

/-- A missing marker or a stored theme selects the file. -/
def Selects (file : FileRow) : Prop :=
  (∃ marker ∈ call.missing start, marker.rereads file = true) ∨
    (file.language = .liquid ∧ ∃ theme ∈ call.themes start, isUnder file.path theme = true)

end Conditions

section Selecting
variable {call : SyncCall} {start store : SyncStore} {notes : ChangedNotes} {work : Work} {file : FileRow}

/-- A stored file that a selection takes is extracted as a whole. -/
theorem selected_whole (selects : Selects call start file) (stored : file ∈ work.store.files)
    (outside : file.path ∉ work.notes.reindexed) :
    file.path ∈ wholeFiles call (call.missing start) (call.themes start) (call.controls (call.missing start)) work := by
  unfold wholeFiles
  rcases selects with ⟨marker, missing, rereads⟩ | ⟨liquid, theme, listed, under⟩
  · have kinds : marker ∈ Marker.lanes ∨ marker = .shopifyThemes ∨ marker = .controlInputs ∨
      marker = .resolvedRefs := by
      cases marker <;> decide
    rcases kinds with lane | shopify | control | stored
    · apply mem_append_left
      apply mem_append_left
      apply mem_flatMap.mpr
      refine ⟨marker, lane, ?_⟩
      rw [laneFiles, if_pos missing]
      exact mem_map.mpr ⟨file, mem_filter.mpr ⟨stored, by simp [rereads, outside]⟩, rfl⟩
    · rw [shopify] at missing rereads
      have liquid : file.language = .liquid := by simpa [Marker.rereads] using rereads
      apply mem_append_left
      apply mem_append_right
      exact mem_map.mpr ⟨file, mem_filter.mpr ⟨stored, by simp [liquid, missing, outside]⟩, rfl⟩
    · rw [control] at missing rereads
      apply mem_append_right
      rw [SyncCall.controls, if_pos missing]
      apply mem_map.mpr
      refine ⟨file, mem_filter.mpr ⟨stored, ?_⟩, rfl⟩
      rw [Bool.and_eq_true]
      exact ⟨rereads, decide_eq_true outside⟩
    · rw [stored] at rereads
      cases rereads
  · apply mem_append_left
    apply mem_append_right
    apply mem_map.mpr
    refine ⟨file, mem_filter.mpr ⟨stored, ?_⟩, rfl⟩
    have some : (call.themes start).any (isUnder file.path) = true := any_eq_true.mpr ⟨theme, listed, under⟩
    simp [liquid, some, outside]

/-- Without a mutation only missing markers and stored themes select files. -/
theorem whole_selected {path : String} (clean : work.notes.dirty = false)
    (calm : call.controls (call.missing start) = []) (listed : path ∈
      wholeFiles call (call.missing start) (call.themes start) (call.controls (call.missing start)) work) :
    ∃ file ∈ work.store.files, file.path = path ∧ Selects call start file := by
  rw [wholeFiles, calm] at listed
  rcases mem_append.mp listed with earlier | control
  · rcases mem_append.mp earlier with lanes | liquid
    · obtain ⟨marker, _, laned⟩ := mem_flatMap.mp lanes
      unfold laneFiles at laned
      split at laned
      next missing =>
        obtain ⟨file, kept, named⟩ := mem_map.mp laned
        obtain ⟨stored, chosen⟩ := mem_filter.mp kept
        rw [Bool.and_eq_true] at chosen
        exact ⟨file, stored, named, .inl ⟨marker, missing, chosen.1⟩⟩
      next =>
        rw [clean] at laned
        cases laned
    · obtain ⟨file, kept, named⟩ := mem_map.mp liquid
      obtain ⟨stored, chosen⟩ := mem_filter.mp kept
      simp only [Bool.and_eq_true, Bool.or_eq_true, decide_eq_true_eq, any_eq_true] at chosen
      obtain ⟨⟨language, missing | themed⟩, _⟩ := chosen
      · exact ⟨file, stored, named, .inl ⟨.shopifyThemes, missing, by simp [Marker.rereads, language]⟩⟩
      · exact ⟨file, stored, named, .inr ⟨language, themed⟩⟩
  · simp [controlFiles] at control

theorem Tracked.rereads (tracked : Tracked call start store notes) (selects : Selects call start file) :
    store.Rereads file := by
  rcases selects with ⟨marker, missing, rereads⟩ | ⟨liquid, themed⟩
  · exact .inl ⟨marker, fun present => tracked.rebuilt marker present missing, rereads⟩
  · exact .inr ⟨liquid, tracked.themes ▸ themed⟩

theorem missing_of_absent {marker : Marker} (absent : marker ∉ start.markers) : marker ∈ call.missing start :=
  missing_iff.mpr (by simp [SyncCall.needsBootstrap, absent])

theorem selects_of_rereads (rereads : start.Rereads file) : Selects call start file := by
  rcases rereads with ⟨marker, absent, reads⟩ | ⟨liquid, theme, listed, under⟩
  · exact .inl ⟨marker, missing_of_absent absent, reads⟩
  · exact .inr ⟨liquid, theme, mem_append_left _ listed, under⟩

end Selecting

section Framing
variable {call : SyncCall} {start : SyncStore}

/-- Without a call to reconcile, the sync has changed nothing and nothing was due. -/
theorem uncalled_settled {work : Work} (recovers : start.Recovers) (tracked : Tracked call start work.store work.notes)
    (still : work.notes.dirty = true → work.notes.reindexed ≠ [] ∨ call.controls (call.missing start) ≠ [] ∨
      call.pubspecsMoved = true)
    (uncalled : call.calls (call.missing start) (call.themes start) (call.controls (call.missing start)) work = false) :
    work.store.Settled := by
  simp only [SyncCall.calls, Bool.or_eq_false_iff, Bool.not_eq_false', List.isEmpty_iff, List.any_eq_false,
    Bool.and_eq_true, decide_eq_true_eq, not_and_or, not_not] at uncalled
  obtain ⟨⟨⟨⟨⟨reindexed, missing⟩, themes⟩, controls⟩, pubspecs⟩, _⟩ := uncalled
  have clean : work.notes.dirty = false := by
    by_contra dirty
    rcases still (Bool.eq_true_of_not_eq_false dirty) with moved | moved | moved
    · exact moved reindexed
    · exact moved controls
    · rw [pubspecs] at moved
      cases moved
  obtain ⟨files, refs, _⟩ := tracked.clean clean
  intro row stored indexed
  by_contra notDue
  have due : row.due = true := Bool.eq_true_of_not_eq_false notDue
  have before : start.indexed row.filePath = true := by
    rw [SyncStore.indexed, ← files]
    exact indexed
  rcases recovers row (refs ▸ stored) due before with bare | ⟨file, _, _, rereads⟩
  · have absent : .moduleSurface ∈ call.missing start := missing_of_absent (by simp [bare])
    rcases missing _ absent with impossible | impossible <;> cases impossible
  · have selects : Selects call start file := selects_of_rereads rereads
    rcases selects with ⟨marker, absent, reads⟩ | ⟨_, theme, listed, _⟩
    · rcases missing marker absent with control | stored
      · rw [control] at absent
        rw [SyncCall.controls, if_pos absent] at controls
        cases controls
      · rw [stored] at reads
        cases reads
    · rw [themes] at listed
      cases listed

/-- Moving the control files sweeps what was scanned. -/
theorem moveControls_runs (recovers : start.Recovers) :
    Runs (fun store notes => Scanned call start store notes ∧ ∀ path ∈ call.handed, path ∈ notes.seen)
      (moveControls call (call.controls (call.missing start))) fun _ store notes => Swept call start store notes ∧
        (notes.dirty = true →
          notes.reindexed ≠ [] ∨ call.controls (call.missing start) ≠ [] ∨ call.pubspecsMoved = true) := by
  have swept {store : SyncStore} {notes : ChangedNotes} (scanned : Scanned call start store notes)
      (all : ∀ path ∈ call.handed, path ∈ notes.seen) {later : SyncStore} {noted : ChangedNotes}
      (tracked : Tracked call start later noted) (same : noted.reindexed = notes.reindexed)
      (quiet : noted.dirty = false → call.controls (call.missing start) = []) : Swept call start later noted := by
    constructor
    case tracked => exact tracked
    case quiet => exact quiet
    case found =>
      rw [same]
      intro path reindexed
      exact ⟨scanned.handed path (scanned.found path reindexed).1, (scanned.found path reindexed).2⟩
    case looked =>
      rw [same]
      exact fun path handed outside indexed => scanned.looked path (all path handed) outside indexed
  apply Runs.each
  intro store notes ⟨scanned, all⟩
  apply Runs.ite
  · intro calm
    simp only [Bool.and_eq_true, List.isEmpty_iff] at calm
    apply Runs.pure
    intro later noted ⟨sameStore, sameNotes⟩
    rw [sameStore, sameNotes]
    exact ⟨swept scanned all scanned.tracked rfl fun _ => calm.1, fun dirty => .inl (scanned.moved dirty)⟩
  · intro moved
    apply (beginMutation_runs recovers scanned.tracked).weaken fun _ _ inside => inside
    intro _ later noted ⟨sameStore, sameNotes⟩
    rw [sameStore, sameNotes]
    refine ⟨swept scanned all scanned.tracked.begun rfl (fun clean => by cases clean), fun _ => .inr ?_⟩
    simp only [Bool.and_eq_true, List.isEmpty_iff, Bool.not_eq_true', not_and_or, Bool.not_eq_false] at moved
    exact moved

/-- Every file of the start is extracted again, unless the sync has just done so. -/
theorem reextractAll_runs (recovers : start.Recovers) (files : List FileRow) :
    Runs (fun store notes => Tracked call start store notes ∧ notes.dirty = true ∧
        ∀ path, start.indexed path = true → path ∈ notes.reindexed ∨ path ∈ files.map FileRow.path)
      (reextractAll call files) fun _ store notes => Tracked call start store notes ∧ notes.dirty = true ∧
        ∀ path, start.indexed path = true → path ∈ notes.reindexed := by
  induction files with
  | nil =>
    exact .pure fun _ _ ⟨tracked, dirty, all⟩ =>
      ⟨tracked, dirty, fun path indexed => by simpa using all path indexed⟩
  | cons file rest ih =>
    have one : Runs (fun store notes => Tracked call start store notes ∧ notes.dirty = true ∧
        ∀ path, start.indexed path = true → path ∈ notes.reindexed ∨ path ∈ (file :: rest).map FileRow.path)
        (reextractOther call file.path) fun _ store notes => Tracked call start store notes ∧ notes.dirty = true ∧
          ∀ path, start.indexed path = true → path ∈ notes.reindexed ∨ path ∈ rest.map FileRow.path := by
      apply Runs.read
      intro before ⟨tracked, dirty, all⟩
      apply Runs.ite
      · intro reindexed
        apply Runs.pure
        intro store notes ⟨sameStore, sameNotes⟩
        rw [sameStore, sameNotes]
        refine ⟨tracked, dirty, fun path indexed => ?_⟩
        rcases all path indexed with earlier | later
        · exact .inl earlier
        · rcases mem_cons.mp later with same | other
          · exact .inl (same ▸ reindexed)
          · exact .inr other
      · intro outside
        apply (syncOne_runs recovers tracked false true).weaken fun _ _ inside => inside
        intro _ store notes ⟨later, outcome⟩
        rcases outcome with ⟨⟨stillDirty, _, reindexed⟩, _⟩ | ⟨sameStore, sameNotes, unmoved⟩
        · refine ⟨later, stillDirty, fun path indexed => ?_⟩
          rw [reindexed]
          rcases all path indexed with earlier | listed
          · exact .inl (mem_cons_of_mem file.path earlier)
          · rcases mem_cons.mp listed with same | other
            · exact .inl (same ▸ mem_cons_self)
            · exact .inr other
        · rw [sameNotes]
          refine ⟨sameNotes ▸ later, dirty, fun path indexed => ?_⟩
          have gone : start.indexed file.path = false := by
            rw [← tracked.indexed outside]
            rcases unmoved with absent | ⟨unforced, _⟩
            · exact absent
            · cases unforced
          rcases all path indexed with earlier | listed
          · exact .inl earlier
          · rcases mem_cons.mp listed with same | other
            · rw [same, gone] at indexed
              cases indexed
            · exact .inr other
    exact one.bind fun _ => ih

/-- A change of the frameworks is applied to what was swept. -/
theorem applyFrameworkChange_runs (recovers : start.Recovers) :
    Runs (Swept call start) (applyFrameworkChange call) fun _ => Framed call start := by
  apply Runs.read
  intro before swept
  apply Runs.ite
  · intro unmoved
    apply Runs.pure
    intro store notes ⟨sameStore, sameNotes⟩
    rw [sameStore, sameNotes]
    refine ⟨swept.tracked, swept.quiet, Or.inl ⟨?_, swept⟩⟩
    rcases swept.tracked.frameworks with same | ⟨none, _⟩
    · exact same ▸ unmoved
    · rw [none] at unmoved
      cases unmoved
  · intro moved
    have changed : start.frameworks ≠ some call.detected := by
      rcases swept.tracked.frameworks with same | ⟨_, changed⟩
      · exact same ▸ moved
      · exact changed
    apply (beginMutation_runs recovers swept.tracked).bind
    intro _
    have written : Runs (fun current noted => current = { before.store with markers := [] } ∧
        noted = { before.notes with dirty := true }) (Sync.write fun store => { store with frameworks := none })
          fun _ store notes => Tracked call start store notes ∧ notes.dirty = true := by
      apply Runs.write
      · intro store notes ⟨sameStore, _⟩
        rw [sameStore]
        exact recovers_of_bare rfl
      · intro store notes ⟨sameStore, sameNotes⟩
        rw [sameStore, sameNotes]
        have begun := swept.tracked.begun
        exact ⟨⟨begun.bare, begun.clean, begun.rebuilt, begun.themes, Or.inr ⟨rfl, changed⟩, begun.fresh, begun.origin,
          begun.files⟩, rfl⟩
    apply written.bind
    intro _
    apply Runs.read
    intro later ⟨tracked, dirty⟩
    apply (reextractAll_runs recovers later.store.files).weaken
    · intro store notes ⟨sameStore, sameNotes⟩
      rw [sameStore, sameNotes]
      refine ⟨tracked, dirty, fun path indexed => ?_⟩
      by_cases reindexed : path ∈ later.notes.reindexed
      · exact Or.inl reindexed
      · rw [← tracked.indexed reindexed] at indexed
        obtain ⟨file, stored, named⟩ := any_eq_true.mp indexed
        exact Or.inr (mem_map.mpr ⟨file, stored, of_decide_eq_true named⟩)
    · intro _ store notes ⟨held, stillDirty, every⟩
      refine ⟨held, fun clean => ?_, Or.inr every⟩
      rw [stillDirty] at clean
      cases clean

end Framing

section Gathering
variable {call : SyncCall} {start store : SyncStore} {notes : ChangedNotes}

/-- A reference that was due at the start is found again by a lane. -/
theorem Swept.due_selected {row : RefRow} (swept : Swept call start store notes) (recovers : start.Recovers)
    (covered : Covered call start) (unmoved : start.frameworks = some call.detected) (begun : row ∈ start.refs)
    (due : row.due = true) (indexed : start.indexed row.filePath = true) (outside : row.filePath ∉ notes.reindexed) :
    ∃ file ∈ start.files, file.path = row.filePath ∧ Selects call start file := by
  rcases recovers row begun due indexed with bare | ⟨file, listed, named, rereads⟩
  · have exposed : call.exposes start row = true := by simp [SyncCall.exposes, due]
    have laned := ((covered.resolve_left fun moved => moved unmoved) row begun indexed exposed).2 due
    rcases laned with ⟨handed, found⟩ | ⟨file, listed, named, marker, _, reads⟩
    · rw [(swept.looked row.filePath handed outside indexed).2] at found
      cases found
    · exact ⟨file, listed, named, .inl ⟨marker, missing_of_absent (by simp [bare]), reads⟩⟩
  · exact ⟨file, listed, named, selects_of_rereads rereads⟩

theorem Swept.on_disk {row : RefRow} (swept : Swept call start store notes) (covered : Covered call start)
    (unmoved : start.frameworks = some call.detected) (begun : row ∈ start.refs)
    (exposed : call.exposes start row = true)
    (indexed : start.indexed row.filePath = true) (outside : row.filePath ∉ notes.reindexed) :
    (call.disk row.filePath).isSome = true := by
  rcases ((covered.resolve_left fun moved => moved unmoved) row begun indexed exposed).1 with handed | present
  · exact (swept.looked row.filePath handed outside indexed).1
  · exact present

/-- A row that is due in a file that stays indexed is covered or its file is selected. -/
theorem Framed.known (framed : Framed call start store notes) (recovers : start.Recovers) (covered : Covered call start)
    {row : RefRow} (stored : row ∈ store.refs) (due : row.due = true) (indexed : store.indexed row.filePath = true)
    (outside : row.filePath ∉ notes.reindexed) : (call.disk row.filePath).isSome = true ∧
      (notes.Covers row ∨ ∃ file ∈ store.files, file.path = row.filePath ∧ Selects call start file) := by
  have before : start.indexed row.filePath = true := framed.tracked.indexed outside ▸ indexed
  rcases framed.framed with ⟨unmoved, swept⟩ | every
  · rcases swept.tracked.origin row stored outside with begun | ⟨target, located, begun, _, moved, covers⟩
    · obtain ⟨file, listed, named, selects⟩ := swept.due_selected recovers covered unmoved begun due before outside
      have exposed : call.exposes start row = true := by simp [SyncCall.exposes, due]
      refine ⟨swept.on_disk covered unmoved begun exposed before outside, .inr ⟨file, ?_, named, selects⟩⟩
      exact (framed.tracked.mem_files (named ▸ outside)).mpr listed
    · have exposed : call.exposes start { row with state := .resolved target located } = true := by
        simp [SyncCall.exposes, swept.found target moved]
      have present := @Swept.on_disk _ _ _ _ { row with state := .resolved target located } swept covered unmoved begun
        exposed before outside
      exact ⟨present, .inl covers⟩
  · exact absurd (every row.filePath before) outside

/-- The files that go whole are those of before and the listed ones. -/
theorem goWhole_only (paths : List String) : (paths.foldl goWhole notes).sites ⊆ notes.sites ∧
    ∀ path ∈ (paths.foldl goWhole notes).fallbacks, path ∈ notes.fallbacks ∨ path ∈ paths := by
  induction paths generalizing notes with
  | nil => exact ⟨fun _ noted => noted, fun _ noted => .inl noted⟩
  | cons first rest ih =>
    obtain ⟨sites, fallbacks⟩ := @ih (goWhole notes first)
    constructor
    · exact fun _ noted => (mem_filter.mp (sites noted)).1
    · intro path noted
      rcases fallbacks path noted with earlier | later
      · rcases mem_cons.mp earlier with same | before
        · exact .inr (same ▸ mem_cons_self)
        · exact .inl before
      · exact .inr (mem_cons_of_mem first later)

/-- Everything that the lanes and the changed names call for. -/
def laneEntries (call : SyncCall) (start : SyncStore) (work : Work) : List (String × Option ReferenceSite) :=
  ((wholeFiles call (call.missing start) (call.themes start) (call.controls (call.missing start)) work).map
      fun path => (path, none)) ++
    (if work.notes.dirty then call.namedSites else []) ++
      (if work.notes.dirty then call.retriedFiles else []).map fun path => (path, none)

theorem noteLanes_merges {before : SyncStore → ChangedNotes → Prop} {after : SyncStore → ChangedNotes → Prop}
    (holds : ∀ work : Work, before work.store work.notes →
      after work.store ((laneEntries call start work).foldl mergeDependentSite work.notes)) :
    Runs before (noteLanes call (call.missing start) (call.themes start) (call.controls (call.missing start)))
      fun _ => after := by
  apply Runs.read
  intro work inside
  apply Runs.note
  intro store notes ⟨sameStore, sameNotes⟩
  rw [sameStore, sameNotes]
  have merged := holds work inside
  rw [laneEntries, foldl_append, foldl_append, ← goWhole_foldl, ← goWhole_foldl] at merged
  exact merged

/-- The lanes note all that has to be gathered. -/
theorem noteLanes_runs (recovers : start.Recovers) (covered : Covered call start) : Runs (Framed call start)
      (noteLanes call (call.missing start) (call.themes start) (call.controls (call.missing start)))
      fun _ => Gathered call := by
  apply noteLanes_merges
  intro work framed
  obtain ⟨sameDirty, _, sameReindexed⟩ := @merges_rest work.notes (laneEntries call start work)
  constructor
  case recovers => exact framed.tracked.recovers recovers
  case bare =>
    rw [sameDirty]
    exact framed.tracked.bare
  case known =>
    rw [sameReindexed]
    intro row stored due indexed
    by_cases reindexed : row.filePath ∈ work.notes.reindexed
    · exact .inl ⟨reindexed, framed.tracked.fresh row stored reindexed⟩
    · obtain ⟨present, covers | ⟨file, listed, named, selects⟩⟩ :=
        framed.known recovers covered stored due indexed reindexed
      · exact .inr ⟨reindexed, covers.merges _, present⟩
      · refine .inr ⟨reindexed, ?_, present⟩
        have whole := selected_whole selects listed (named ▸ reindexed)
        have entered : (row.filePath, none) ∈ laneEntries call start work :=
          mem_append_left _ (mem_append_left _ (mem_map.mpr ⟨row.filePath, named ▸ whole, rfl⟩))
        exact covers_merges entered rfl fun _ located => by cases located
  case quiet =>
    rw [sameDirty, sameReindexed]
    intro clean
    obtain ⟨_, _, reindexed, sites, fallbacks⟩ := framed.tracked.clean clean
    have entries : laneEntries call start work = (wholeFiles call (call.missing start) (call.themes start)
        (call.controls (call.missing start)) work).map fun path => (path, none) := by
      simp [laneEntries, clean]
    rw [entries, ← goWhole_foldl]
    obtain ⟨noSites, only⟩ := @goWhole_only work.notes (wholeFiles call (call.missing start) (call.themes start)
      (call.controls (call.missing start)) work)
    rw [sites] at noSites
    refine ⟨eq_nil_of_subset_nil noSites, reindexed, ?_⟩
    intro path noted
    rcases only path noted with earlier | whole
    · rw [fallbacks] at earlier
      cases earlier
    · obtain ⟨file, stored, named, selects⟩ := whole_selected clean (framed.quiet clean) whole
      exact ⟨file, stored, named, framed.tracked.rereads selects⟩

end Gathering

end Codegraph.Sync
