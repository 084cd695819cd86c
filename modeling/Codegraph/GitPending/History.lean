import Codegraph.GitPending.FastPath

/- This file follows the record over the builds, the syncs, and the changes of the world. -/

namespace Codegraph.GitPending

section Conditions
variable (rules : Rules) (trees : String → Tree)

/-- The index holds the path, the scope could keep it, or it marks a theme. -/
def Relevant (scope : String) (store : Store) (path : ProjectPath) : Prop :=
  store.fileByPath path ≠ none ∨ rules.admits scope true path = true ∨ rules.admits scope false path = true ∨
    isShopifyThemeMarker path = true

/-- A step of a full build or sync meets the commit that the build began with, sees every relevant change, and reads
no row of another scope, and while its rows are checked no path outside the dirty ones moves. An incremental sync
leaves the hash of every row that was not requested. -/
def Undisturbed (state : State) (action : Action) : Prop :=
  match state.phase, action with
  | .building (some capture) _ _, .beginRecord =>
    ∀ head, state.world.repo = some head → trees head = trees capture.commit ∧
      ∀ path, Relevant rules capture.scope state.store path → path ∉ statusPaths trees state.world head →
        state.world.object path = (trees head).at path
  | .checking _ _ dirty _, .change later => ∀ path ∉ dirty, later.entry path = state.world.entry path
  | .checking capture _ _ _, .checkRow path =>
    ∀ file, state.store.fileByPath path = some file → ∀ version, state.world.versionAt path = some version →
      file.unchanged version = true → rules.sourceHash capture.scope path version.content = some file.contentHash
  | .checking capture links _ _, .writeRecord =>
    state.world.scope = capture.scope ∧ (links = false → linkedFiles rules state.world = ∅)
  | .incremental scope requested, .syncOne path absent forced =>
    path ∈ requested ∨
      ((syncOne rules state.world scope false path absent forced state.store).fileByPath path).map
        StoredFile.contentHash =
        (state.store.fileByPath path).map StoredFile.contentHash
  | _, _ => True

/-- Git lists no directory that is the whole project, and the scan follows a link only when the build did. -/
def Visible (state : State) : Prop :=
  [] ∉ state.world.ignoredDirectories ∧
    ∀ record, state.store.record = some record → record.links = false → linkedFiles rules state.world = ∅

/-- Undisturbed steps follow one another. -/
inductive Reached (start : State) : State → Prop where
  | start : Reached start start
  | step {state next : State} (action : Action) (earlier : Reached start state)
      (undisturbed : Undisturbed rules trees state action) (taken : step rules trees state action = some next) :
      Reached start next

end Conditions

section Rows
variable {rules : Rules} {trees : String → Tree} {world : World} {store later : Store} {record : Record}
  {path : ProjectPath}

/-- Only the hashes of the rows outside the dirty paths count. -/
theorem Faithful.congr (faithful : Faithful rules trees record store)
    (same : ∀ path ∉ record.dirty, (later.fileByPath path).map StoredFile.contentHash =
      (store.fileByPath path).map StoredFile.contentHash) : Faithful rules trees record later := by
  intro links markers path clean
  obtain ⟨stored, missing⟩ := faithful links markers path clean
  constructor
  · intro file row
    have hashes := same path clean
    rw [row] at hashes
    obtain ⟨old, oldRow, oldHash⟩ := Option.map_eq_some_iff.mp hashes.symm
    obtain ⟨content, blob, hash, admits⟩ := stored old oldRow
    exact ⟨content, blob, oldHash ▸ hash, admits⟩
  · intro row
    have hashes := same path clean
    rw [row] at hashes
    exact missing (Option.map_eq_none_iff.mp hashes.symm)

/-- More dirty paths leave less to hold. -/
theorem Faithful.extend (faithful : Faithful rules trees record store) (requested : Finset ProjectPath) :
    Faithful rules trees { record with dirty := record.dirty ∪ requested } store := by
  intro links markers path clean
  exact faithful links (fun path dirty => markers path (Finset.mem_union_left _ dirty)) path fun dirty =>
    clean (Finset.mem_union_left _ dirty)

theorem syncOne_record (scope : String) (full absent forced : Bool) :
    (syncOne rules world scope full path absent forced store).record = store.record := by
  unfold syncOne
  simp only
  split
  · split
    · rfl
    · split
      · rfl
      · split <;> rfl
  · rfl

/-- Only the row of the path itself moves. -/
theorem syncOne_other {other : ProjectPath} (scope : String) (full absent forced : Bool) (differs : other ≠ path) :
    (syncOne rules world scope full path absent forced store).fileByPath other = store.fileByPath other := by
  unfold syncOne
  simp only
  split
  · split
    · rfl
    · split
      · exact Finmap.lookup_erase_ne differs
      · split
        · rfl
        · exact Finmap.lookup_insert_of_ne _ differs
  · exact Finmap.lookup_erase_ne differs

end Rows

section Checking
variable {rules : Rules} {trees : String → Tree} {world : World} {store : Store} {capture : GitIndexCapture}
  {links : Bool} {dirty unchecked : Finset ProjectPath} {path : ProjectPath}

/-- Outside the dirty paths the disk holds the captured commit, and every checked row holds what the scope reads
there. -/
structure Checking (rules : Rules) (trees : String → Tree) (world : World) (store : Store) (capture : GitIndexCapture)
    (dirty unchecked : Finset ProjectPath) : Prop where
  forgotten : store.record = none
  seen : ∀ path ∉ dirty, Relevant rules capture.scope store path →
    world.object path = (trees capture.commit).at path
  read : ∀ path ∉ dirty, path ∉ unchecked → ∀ file, store.fileByPath path = some file → ∀ version,
    world.entry path = some (.file version) →
      rules.sourceHash capture.scope path version.content = some file.contentHash

theorem Checking.change {later : World} (checking : Checking rules trees world store capture dirty unchecked)
    (still : ∀ path ∉ dirty, later.entry path = world.entry path) :
    Checking rules trees later store capture dirty unchecked := by
  constructor
  case forgotten => exact checking.forgotten
  case seen =>
    intro path clean relevant
    rw [World.object, still path clean]
    exact checking.seen path clean relevant
  case read =>
    intro path clean done file row version entry
    rw [still path clean] at entry
    exact checking.read path clean done file row version entry

theorem checkRow_subset : dirty ⊆ checkRow world store path dirty := by
  unfold checkRow
  split
  · exact Finset.Subset.refl dirty
  · exact Finset.subset_insert path dirty

/-- A row that stays clean is the file's. -/
theorem Checking.check (checking : Checking rules trees world store capture dirty unchecked)
    (hashed : ∀ file, store.fileByPath path = some file → ∀ version, world.versionAt path = some version →
      file.unchanged version = true → rules.sourceHash capture.scope path version.content = some file.contentHash) :
    Checking rules trees world store capture (checkRow world store path dirty) (unchecked.erase path) := by
  constructor
  case forgotten => exact checking.forgotten
  case seen => exact fun path clean relevant =>
    checking.seen path (fun listed => clean (checkRow_subset listed)) relevant
  case read =>
    intro other clean done file row version entry
    by_cases same : other = path
    · rw [same] at clean row entry ⊢
      have unchanged : file.unchanged version = true := by
        by_contra moved
        apply clean
        rw [checkRow, row, if_neg (by simpa [versionAt_file entry] using moved)]
        exact Finset.mem_insert_self path dirty
      exact hashed file row version (versionAt_file entry) unchanged
    · exact checking.read other (fun listed => clean (checkRow_subset listed))
        (fun listed => done (Finset.mem_erase.mpr ⟨same, listed⟩)) file row version entry

/-- The written record leaves out only paths whose rows are those of the captured commit. -/
theorem Checking.written (checking : Checking rules trees world store capture dirty ∅)
    (scope : world.scope = capture.scope) (plain : links = false → linkedFiles rules world = ∅) :
    Faithful rules trees (recordOf rules capture links dirty world store) store := by
  intro noLinks markers path clean
  have scanned := @mem_scanProject rules world path (plain noLinks)
  simp only [recordOf, Finset.mem_union, Finset.mem_sdiff, not_or, not_and, not_not] at clean markers
  obtain ⟨outside, added, removed⟩ := clean
  have stored : path ∈ store.files.keys ↔ store.fileByPath path ≠ none := by
    rw [Finmap.mem_keys, ← Finmap.lookup_isSome, Option.isSome_iff_ne_none]
    rfl
  -- the markers on disk are those of the captured commit
  have themed : isShopifyLiquidJson path world.present = themedIn (trees capture.commit) path := by
    apply themed_congr
    intro index _ _ contained marker known
    have marks := @marker_is_marker path index marker contained known
    have unlisted : path.take index ++ [marker.1, marker.2] ∉ dirty := by
      intro listed
      rw [markers _ (Or.inl listed)] at marks
      cases marks
    rw [present_eq_isSome, checking.seen _ unlisted (Or.inr (Or.inr (Or.inr marks)))]
  constructor
  · intro file row
    have admitted := scanned.mp (removed (stored.mpr (by simp [row])))
    obtain ⟨version, entry⟩ := scanMembership_admitted admitted
    refine ⟨version.content, ?_, checking.read path outside (Finset.notMem_empty path) file row version entry, ?_⟩
    · rw [recordOf, ← checking.seen path outside (Or.inl (by simp [row])), World.object, entry]
      rfl
    · rw [scanMembership_file entry, themed, scope] at admitted
      by_contra denied
      rw [recordOf] at denied
      rw [if_neg denied] at admitted
      cases admitted
  · intro row content blob
    by_contra notDenied
    have admits : rules.admits capture.scope (themedIn (trees capture.commit) path) path = true :=
      Bool.eq_true_of_not_eq_false notDenied
    have relevant : Relevant rules capture.scope store path := by
      cases known : themedIn (trees capture.commit) path with
      | true => exact .inr (.inl (known ▸ admits))
      | false => exact .inr (.inr (.inl (known ▸ admits)))
    have here := checking.seen path outside relevant
    rw [recordOf] at blob
    obtain ⟨version, entry, _⟩ := object_blob (here.trans blob)
    have admitted : scanMembership rules world path false = .admitted := by
      rw [scanMembership_file entry, themed, scope, admits]
      rfl
    exact stored.mp (added (scanned.mpr admitted)) row

end Checking

section Histories
variable {rules : Rules} {trees : String → Tree} {start state next : State} {store : Store}

/-- The record is faithful to the rows, and a writer keeps what it relies on. -/
structure Sound (rules : Rules) (trees : String → Tree) (state : State) : Prop where
  faithful : ∀ record, state.store.record = some record → Faithful rules trees record state.store
  writer : match state.phase with
    | .idle => True
    | .building _ _ _ => state.store.record = none
    | .checking capture _ dirty unchecked => Checking rules trees state.world state.store capture dirty unchecked
    | .incremental _ requested => ∀ record, state.store.record = some record → requested ⊆ record.dirty

theorem unrecorded_faithful (forgotten : store.record = none) :
    ∀ record, store.record = some record → Faithful rules trees record store := by
  intro record kept
  rw [forgotten] at kept
  cases kept

theorem Sound.change (sound : Sound rules trees state) (later : World)
    (undisturbed : Undisturbed rules trees state (.change later)) :
    Sound rules trees { state with world := later } := by
  refine ⟨sound.faithful, ?_⟩
  have writer := sound.writer
  obtain ⟨world, store, phase⟩ := state
  cases phase with
  | idle => trivial
  | building capture scope links => exact writer
  | checking capture links dirty unchecked => exact .change writer undisturbed
  | incremental scope requested => exact writer

/-- The record of a finished build begins where its statuses saw every relevant change. -/
theorem Sound.beginRecord {world : World} {capture : Option GitIndexCapture} {scope : String} {links : Bool}
    (sound : Sound rules trees ⟨world, store, .building capture scope links⟩)
    (undisturbed : Undisturbed rules trees ⟨world, store, .building capture scope links⟩ .beginRecord)
    (taken : step rules trees ⟨world, store, .building capture scope links⟩ .beginRecord = some next) :
    Sound rules trees next := by
  have forgotten : store.record = none := sound.writer
  cases capture with
  | none =>
    cases taken
    exact ⟨sound.faithful, trivial⟩
  | some capture =>
    simp only [step] at taken
    split at taken
    next head repo =>
      cases taken
      refine ⟨sound.faithful, forgotten, ?_, ?_⟩
      · intro path clean relevant
        have answered : world.repo = some head := by
          by_contra none
          split at repo
          · exact none repo
          · cases repo
        obtain ⟨tree, seen⟩ := undisturbed head answered
        rw [← tree]
        apply seen path relevant
        exact fun listed => clean (Finset.mem_union_right _ (Finset.mem_union_left _ listed))
      · intro path clean unchecked file row
        have stored : path ∈ store.files.keys := Finmap.mem_keys.mpr (Finmap.mem_of_lookup_eq_some row)
        exact absurd stored unchecked
    next =>
      cases taken
      exact ⟨unrecorded_faithful rfl, trivial⟩

theorem Sound.incremental {world : World} (sound : Sound rules trees ⟨world, store, .idle⟩)
    (requested : Finset ProjectPath) : Sound rules trees
      ⟨world, extendForIncremental world requested store, .incremental world.scope requested⟩ := by
  unfold extendForIncremental
  cases kept : store.record with
  | none => exact ⟨unrecorded_faithful rfl, fun _ none => by cases none⟩
  | some record =>
    simp only
    split
    · constructor
      · intro later same
        cases same
        exact ((sound.faithful record kept).extend requested).congr fun _ _ => rfl
      · intro later same
        cases same
        exact Finset.subset_union_right
    · exact ⟨unrecorded_faithful rfl, fun _ none => by cases none⟩

/-- An incremental sync moves the hash of a requested row only. -/
theorem Sound.syncRow {world : World} {scope : String} {requested : Finset ProjectPath}
    {path : ProjectPath} {absent forced : Bool} (sound : Sound rules trees ⟨world, store, .incremental scope requested⟩)
    (undisturbed : path ∈ requested ∨
      ((syncOne rules world scope false path absent forced store).fileByPath path).map StoredFile.contentHash =
        (store.fileByPath path).map StoredFile.contentHash) : Sound rules trees
      ⟨world, syncOne rules world scope false path absent forced store, .incremental scope requested⟩ := by
  have writer : ∀ record, store.record = some record → requested ⊆ record.dirty := sound.writer
  have same := @syncOne_record rules world store path scope false absent forced
  constructor
  · intro record kept
    rw [same] at kept
    apply (sound.faithful record kept).congr
    intro other clean
    by_cases here : other = path
    · rcases undisturbed with listed | hashes
      · exact absurd (writer record kept (here ▸ listed)) clean
      · rw [here]
        exact hashes
    · rw [syncOne_other scope false absent forced here]
  · show ∀ record, (syncOne rules world scope false path absent forced store).record = some record →
      requested ⊆ record.dirty
    rw [same]
    exact writer

/-- A step that disturbs nothing keeps the record sound. -/
theorem Sound.step {action : Action} (sound : Sound rules trees state)
    (undisturbed : Undisturbed rules trees state action)
    (taken : step rules trees state action = some next) : Sound rules trees next := by
  obtain ⟨world, store, phase⟩ := state
  cases action with
  | change later =>
    cases phase <;> cases taken <;> exact sound.change later undisturbed
  | beginSync =>
    cases phase <;> cases taken
    exact ⟨unrecorded_faithful rfl, rfl⟩
  | beginBuild =>
    cases phase <;> cases taken
    exact ⟨unrecorded_faithful rfl, rfl⟩
  | scan =>
    cases phase <;> cases taken
    exact ⟨sound.faithful, sound.writer⟩
  | syncOne path absent forced =>
    cases phase with
    | idle => cases taken
    | checking capture links dirty unchecked => cases taken
    | building capture scope links =>
      cases taken
      have forgotten := (@syncOne_record rules world store path scope true absent forced).trans sound.writer
      exact ⟨unrecorded_faithful forgotten, forgotten⟩
    | incremental scope requested =>
      cases taken
      exact sound.syncRow undisturbed
  | writeThemes themes =>
    cases phase <;> cases taken <;>
      exact ⟨fun record kept => (sound.faithful record kept).congr fun _ _ => rfl, sound.writer⟩
  | beginRecord =>
    cases phase with
    | idle => cases taken
    | checking capture links dirty unchecked => cases taken
    | incremental scope requested => cases taken
    | building capture scope links => exact sound.beginRecord undisturbed taken
  | checkRow path =>
    cases phase with
    | idle => cases taken
    | building capture scope links => cases taken
    | incremental scope requested => cases taken
    | checking capture links dirty unchecked =>
      simp only [GitPending.step] at taken
      split at taken
      · cases taken
        exact ⟨sound.faithful, .check sound.writer undisturbed⟩
      · cases taken
  | writeRecord =>
    cases phase with
    | idle => cases taken
    | building capture scope links => cases taken
    | incremental scope requested => cases taken
    | checking capture links dirty unchecked =>
      simp only [GitPending.step] at taken
      split at taken
      next done =>
        cases taken
        cases done
        refine ⟨fun record written => ?_, trivial⟩
        cases written
        exact (Checking.written sound.writer undisturbed.1 undisturbed.2).congr fun _ _ => rfl
      next => cases taken
  | beginIncremental requested =>
    cases phase <;> cases taken
    exact sound.incremental requested
  | finish =>
    cases phase <;> cases taken
    exact ⟨sound.faithful, trivial⟩
  | interrupt =>
    cases phase <;> cases taken <;> exact ⟨sound.faithful, trivial⟩

theorem Reached.sound (fresh : start.store.record = none) (idle : start.phase = .idle)
    (reached : Reached rules trees start state) : Sound rules trees state := by
  induction reached with
  | start =>
    refine ⟨unrecorded_faithful fresh, ?_⟩
    rw [idle]
    trivial
  | step action _ undisturbed taken ih => exact ih.step undisturbed taken

/-- On an undisturbed run the answer from git is the answer of the full inventory. -/
theorem fastPending_eq_fullInventory (fresh : start.store.record = none) (idle : start.phase = .idle)
    (reached : Reached rules trees start state) (visible : Visible rules state) {fast : PendingChanges}
    (answer : gitFastPending rules trees state.world state.store = some fast) :
    fast = fullInventory rules state.world state.store := by
  obtain ⟨record, head, answered, same⟩ := gitFastPending_some answer
  obtain ⟨rooted, plain⟩ := visible
  rw [same]
  exact answered.agrees rooted (plain record answered.kept answered.links)
    ((reached.sound fresh idle).faithful record answered.kept)

end Histories

section Examples

/-- Every file is kept, and its content is its hash. -/
def plainRules : Rules := ⟨fun _ _ => true, fun _ _ _ => true, fun _ _ content => some content⟩

def oneTree (path : ProjectPath) (content : String) : Tree := Finmap.singleton path (.blob content)

/-- Two commits hold two contents of one file, and any other commit holds none. -/
def twoCommits (commit : String) : Tree :=
  if commit = "old" then oneTree ["a.ts"] "a" else if commit = "new" then oneTree ["a.ts"] "b" else ∅

/-- One file on disk under one commit. -/
def oneWorld (head : String) (path : ProjectPath) (version : Version) (ignored : Finset ProjectPath) : World where
  disk := Finmap.singleton path (.file version)
  followed := ∅
  relinked := ∅
  head := some head
  objects := {"old", "new", "empty"}
  staged := ∅
  hidden := ∅
  converted := ∅
  conversion := false
  submodules := false
  nested := ∅
  ignoredFiles := ∅
  ignoredDirectories := ignored
  answers := true
  scope := "scope"
  nestless := by
    intro path listed above _ present
    rw [Finmap.keys_singleton, Finset.mem_singleton] at listed present
    exact present.trans listed.symm

def bareWorld (head : String) : World :=
  { oneWorld head [] ⟨"", 0⟩ ∅ with
    disk := ∅
    nestless := by
      intro path listed
      rw [Finmap.keys_empty] at listed
      cases listed }

def runs (start : State) (actions : List Action) : Option State := actions.foldlM (step plainRules twoCommits) start

def unindexed (world : World) : State := ⟨world, ⟨∅, none, ∅⟩, .idle⟩

/-- A full sync of one file that nothing disturbs. -/
def syncOf (path : ProjectPath) : List Action :=
  [.beginSync, .scan, .syncOne path false false, .beginRecord, .checkRow path, .writeRecord]

def answersAfter (start : State) (actions : List Action) : Option (Option PendingChanges × PendingChanges) :=
  (runs start actions).map fun state =>
    (gitFastPending plainRules twoCommits state.world state.store, fullInventory plainRules state.world state.store)

/-- The state that an undisturbed full sync of the committed file leaves. -/
def syncedOld : State :=
  ⟨oneWorld "old" ["a.ts"] ⟨"a", 1⟩ ∅,
    ⟨Finmap.singleton ["a.ts"] ⟨1, 1, "a"⟩, some ⟨1, "old", ∅, "scope", false, false⟩, ∅⟩, .idle⟩

theorem oneWorld_object (path : ProjectPath) :
    (oneWorld "old" ["a.ts"] ⟨"a", 1⟩ ∅).object path = (twoCommits "old").at path := by
  by_cases same : path = ["a.ts"]
  · rw [same]
    rfl
  · have absent : path ∉ (oneWorld "old" ["a.ts"] ⟨"a", 1⟩ ∅).disk := by
      simpa [oneWorld] using same
    have untracked : path ∉ twoCommits "old" := by
      simpa [twoCommits, oneTree] using same
    rw [World.object, World.entry, Tree.at, Finmap.lookup_eq_none.mpr absent, Finmap.lookup_eq_none.mpr untracked]
    rfl

/-- The sync of the committed file before and after its statuses are taken. -/
def readingOld (phase : Phase) : State :=
  { syncedOld with store := { syncedOld.store with record := none }, phase := phase }

/-- An index of the old commit is reached by a full index and a record of it. -/
theorem syncedOld_reached :
    Reached plainRules twoCommits (unindexed (oneWorld "old" ["a.ts"] ⟨"a", 1⟩ ∅)) syncedOld := by
  let capture : GitIndexCapture := ⟨"old", ∅, false, "scope"⟩
  have read : Reached plainRules twoCommits (unindexed (oneWorld "old" ["a.ts"] ⟨"a", 1⟩ ∅))
      (readingOld (.building (some capture) "scope" false)) := by
    have begun : Reached plainRules twoCommits (unindexed (oneWorld "old" ["a.ts"] ⟨"a", 1⟩ ∅))
        ⟨oneWorld "old" ["a.ts"] ⟨"a", 1⟩ ∅, ⟨∅, none, ∅⟩, .building (some capture) "scope" false⟩ := by
      apply Reached.start.step .beginSync
      · trivial
      · rfl
    apply begun.step (.syncOne ["a.ts"] false false)
    · trivial
    · rfl
  have checking : Reached plainRules twoCommits (unindexed (oneWorld "old" ["a.ts"] ⟨"a", 1⟩ ∅))
      (readingOld (.checking capture false ∅ {["a.ts"]})) := by
    apply read.step .beginRecord
    · intro head repo
      cases repo
      exact ⟨rfl, fun path _ _ => oneWorld_object path⟩
    · rfl
  have checked : Reached plainRules twoCommits (unindexed (oneWorld "old" ["a.ts"] ⟨"a", 1⟩ ∅))
      (readingOld (.checking capture false ∅ ∅)) := by
    apply checking.step (.checkRow ["a.ts"])
    · intro file row version located _
      have stored : (readingOld (.checking capture false ∅ {["a.ts"]})).store.fileByPath ["a.ts"] =
          some ⟨1, 1, "a"⟩ := rfl
      have here : (readingOld (.checking capture false ∅ {["a.ts"]})).world.versionAt ["a.ts"] = some ⟨"a", 1⟩ := by
        rfl
      rw [← Option.some.inj (stored.symm.trans row), ← Option.some.inj (here.symm.trans located)]
      rfl
    · rfl
  apply checked.step .writeRecord
  · exact ⟨rfl, fun _ => rfl⟩
  · rfl

/-- An edited file is pending for the fast path and for the full one. -/
theorem edited_file_agrees : ∃ fast,
    gitFastPending plainRules twoCommits (oneWorld "old" ["a.ts"] ⟨"b", 2⟩ ∅) syncedOld.store = some fast ∧
      fast = fullInventory plainRules (oneWorld "old" ["a.ts"] ⟨"b", 2⟩ ∅) syncedOld.store := by
  have answer : gitFastPending plainRules twoCommits (oneWorld "old" ["a.ts"] ⟨"b", 2⟩ ∅) syncedOld.store =
      some ⟨∅, {["a.ts"]}, ∅⟩ := rfl
  have reached : Reached plainRules twoCommits (unindexed (oneWorld "old" ["a.ts"] ⟨"a", 1⟩ ∅))
      { syncedOld with world := oneWorld "old" ["a.ts"] ⟨"b", 2⟩ ∅ } :=
    syncedOld_reached.step (.change (oneWorld "old" ["a.ts"] ⟨"b", 2⟩ ∅)) trivial rfl
  have visible : Visible plainRules { syncedOld with world := oneWorld "old" ["a.ts"] ⟨"b", 2⟩ ∅ } :=
    ⟨by decide, fun _ _ _ => rfl⟩
  exact ⟨_, answer, fastPending_eq_fullInventory rfl rfl reached visible answer⟩

/-- Only the full inventory sees a removed file that git ignored, a file whose commit came and went while it was read,
and a file that a sync of another path extracted again while it was edited. -/
theorem fast_path_misses_changes : answersAfter (unindexed (oneWorld "empty" ["gen", "out.ts"] ⟨"a", 1⟩ {["gen"]}))
        (syncOf ["gen", "out.ts"] ++ [.change (bareWorld "empty")]) =
      some (some ⟨∅, ∅, ∅⟩, ⟨∅, ∅, {["gen", "out.ts"]}⟩) ∧
    answersAfter (unindexed (oneWorld "old" ["a.ts"] ⟨"a", 1⟩ ∅))
        ([.beginSync, .change (oneWorld "new" ["a.ts"] ⟨"b", 2⟩ ∅), .scan, .syncOne ["a.ts"] false false, .beginRecord,
          .checkRow ["a.ts"], .writeRecord, .change (oneWorld "old" ["a.ts"] ⟨"a", 3⟩ ∅)]) =
      some (some ⟨∅, ∅, ∅⟩, ⟨∅, {["a.ts"]}, ∅⟩) ∧
    answersAfter (unindexed (oneWorld "old" ["a.ts"] ⟨"a", 1⟩ ∅))
        (syncOf ["a.ts"] ++ [.change (oneWorld "old" ["a.ts"] ⟨"b", 2⟩ ∅), .beginIncremental {["package.json"]},
          .syncOne ["a.ts"] false true, .finish, .change (oneWorld "old" ["a.ts"] ⟨"a", 3⟩ ∅)]) =
      some (some ⟨∅, ∅, ∅⟩, ⟨∅, {["a.ts"]}, ∅⟩) := by
  decide

end Examples

end Codegraph.GitPending
