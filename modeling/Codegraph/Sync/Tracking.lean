import Codegraph.Sync.Incremental

/- This file follows the references while a sync that may stop looks at its paths. -/

namespace Codegraph.Sync
open Codegraph.Core Interruptible List
open Store (ReferenceSite)

section Conditions

/-- A missing marker, or a theme that a sync left unfinished, makes the next sync read the file's references again. -/
def SyncStore.Rereads (store : SyncStore) (file : FileRow) : Prop :=
  (∃ marker, marker ∉ store.markers ∧ marker.rereads file = true) ∨
    (file.language = .liquid ∧ ∃ theme ∈ store.pendingThemes, isUnder file.path theme = true)

/-- A due reference of an indexed file is one that the next sync can know of. -/
def SyncStore.Recovers (store : SyncStore) : Prop :=
  ∀ row ∈ store.refs, row.due = true → store.indexed row.filePath = true →
    store.markers = [] ∨ ∃ file ∈ store.files, file.path = row.filePath ∧ store.Rereads file

/-- Every reference of every indexed file was given to the resolver. -/
def SyncStore.Settled (store : SyncStore) : Prop :=
  ∀ row ∈ store.refs, store.indexed row.filePath = true → row.due = false

theorem SyncStore.Settled.recovers {store : SyncStore} (settled : store.Settled) : store.Recovers := by
  intro row stored due indexed
  rw [settled row stored indexed] at due
  cases due

theorem recovers_of_bare {store : SyncStore} (bare : store.markers = []) : store.Recovers :=
  fun _ _ _ _ => .inl bare

/-- Fewer due references and fewer markers stay recoverable. -/
theorem SyncStore.Recovers.mono {before after : SyncStore} (recovers : before.Recovers)
    (files : after.files = before.files)
    (refs : ∀ row ∈ after.refs, row.due = true → ∃ old ∈ before.refs, old.due = true ∧ old.filePath = row.filePath)
    (markers : ∀ marker ∈ after.markers, marker ∈ before.markers)
    (themes : ∀ theme ∈ before.pendingThemes, theme ∈ after.pendingThemes) : after.Recovers := by
  intro row stored due indexed
  obtain ⟨old, known, oldDue, same⟩ := refs row stored due
  have oldIndexed : before.indexed old.filePath = true := by
    rw [same, SyncStore.indexed, ← files]
    exact indexed
  rcases recovers old known oldDue oldIndexed with bare | ⟨file, listed, named, reread⟩
  · left
    apply eq_nil_iff_forall_not_mem.mpr
    intro marker present
    have absent := markers marker present
    rw [bare] at absent
    cases absent
  · right
    refine ⟨file, files ▸ listed, named.trans same, ?_⟩
    rcases reread with ⟨marker, absent, reads⟩ | ⟨liquid, theme, listedTheme, under⟩
    · exact .inl ⟨marker, fun present => absent (markers marker present), reads⟩
    · exact .inr ⟨liquid, theme, themes theme listedTheme, under⟩

end Conditions

section Rules

/-- A part of a sync keeps every state in which it may stop recoverable. -/
def Runs {α : Type} (before : SyncStore → ChangedNotes → Prop) (program : SyncM α)
    (after : α → SyncStore → ChangedNotes → Prop) : Prop :=
  Establishes (fun work => before work.store work.notes) program (fun value work => after value work.store work.notes)
    fun _ work => work.store.Recovers

variable {α β : Type} {before middle : SyncStore → ChangedNotes → Prop} {after : α → SyncStore → ChangedNotes → Prop}
  {program : SyncM α} {ending : SyncStore → ChangedNotes → Prop} {updates : List (SyncStore → SyncStore)}

theorem Runs.bind {next : α → SyncM β} {ending : β → SyncStore → ChangedNotes → Prop}
    (first : Runs before program after) (rest : ∀ value, Runs (after value) (next value) ending) :
    Runs before (program >>= next) ending := Establishes.bind first rest

theorem Runs.pure {value : α} (holds : ∀ store notes, before store notes → after value store notes) :
    Runs before (pure value) after := Establishes.pure value fun work inside => holds work.store work.notes inside

theorem Runs.ite {condition : Prop} [Decidable condition] {yes no : SyncM α} (taken : condition → Runs before yes after)
    (skipped : ¬ condition → Runs before no after) : Runs before (if condition then yes else no) after :=
  Establishes.ite taken skipped

theorem Runs.weaken {stronger : SyncStore → ChangedNotes → Prop} {weaker : α → SyncStore → ChangedNotes → Prop}
    (runs : Runs before program after) (enter : ∀ store notes, stronger store notes → before store notes)
    (leave : ∀ value store notes, after value store notes → weaker value store notes) : Runs stronger program weaker :=
  .consequence runs (fun work inside => enter work.store work.notes inside)
    (fun value work inside => leave value work.store work.notes inside) fun _ _ cut => cut

/-- Reading the state fixes the store and the notes for what follows. -/
theorem Runs.read {next : Work → SyncM α} (rest : ∀ seen : Work, before seen.store seen.notes →
      Runs (fun store notes => store = seen.store ∧ notes = seen.notes) (next seen) after) :
    Runs before (get >>= next) after := by
  apply Establishes.read
  intro seen work inside
  obtain ⟨held, same⟩ := inside
  subst same
  exact rest work held work ⟨rfl, rfl⟩

/-- It is enough to run from each single state. -/
theorem Runs.each (rest : ∀ store notes, before store notes →
      Runs (fun current noted => current = store ∧ noted = notes) program after) :
    Runs before program after := fun work inside => rest work.store work.notes inside work ⟨rfl, rfl⟩

theorem Runs.note {update : ChangedNotes → ChangedNotes}
    (holds : ∀ store notes, before store notes → ending store (update notes)) :
    Runs before (note update) fun _ => ending :=
  .modify _ fun work inside => holds work.store work.notes inside

theorem tick_runs (safe : ∀ store notes, before store notes → store.Recovers) : Runs before tick fun _ => before := by
  intro work inside
  rw [tick, exec_bind, exec_get]
  cases left : work.budget with
  | none =>
    simp only [left]
    exact inside
  | some count =>
    cases count with
    | zero =>
      simp only [left]
      exact safe work.store work.notes inside
    | succ rest =>
      simp only [left]
      exact inside

theorem Runs.write {update : SyncStore → SyncStore} (safe : ∀ store notes, before store notes → store.Recovers)
    (holds : ∀ store notes, before store notes → ending (update store) notes) :
    Runs before (write update) fun _ => ending := by
  apply (tick_runs safe).bind
  intro _
  exact .modify _ fun work inside => holds work.store work.notes inside

/-- A row of writes stays recoverable before each of them. -/
def Along : List (SyncStore → SyncStore) → SyncStore → Prop
  | [], _ => True
  | update :: rest, store => store.Recovers ∧ Along rest (update store)

/-- Updates are written in turn as long as each may follow. -/
theorem Runs.writeAll (safe : ∀ store notes, before store notes → Along updates store)
    (holds : ∀ store notes, before store notes →
      ending (updates.foldl (fun store update => update store) store) notes) :
    Runs before (writeAll updates) fun _ => ending := by
  induction updates generalizing before with
  | nil => exact .pure holds
  | cons update rest ih =>
    have first : Runs before (Sync.write update) fun _ store notes =>
        ∃ earlier, before earlier notes ∧ store = update earlier :=
      Runs.write (fun store notes inside => (safe store notes inside).1) fun store notes inside =>
        ⟨store, inside, rfl⟩
    apply first.bind
    intro _
    apply ih
    · rintro store notes ⟨earlier, inside, same⟩
      rw [same]
      exact (safe earlier notes inside).2
    · rintro store notes ⟨earlier, inside, same⟩
      rw [same]
      exact holds earlier notes inside

/-- Writes that leave the markers withdrawn may stop anywhere. -/
theorem along_bare {store : SyncStore} (bare : store.markers = [])
    (kept : ∀ update ∈ updates, ∀ store : SyncStore, (update store).markers = store.markers) : Along updates store := by
  induction updates generalizing store with
  | nil => trivial
  | cons update rest ih =>
    refine ⟨recovers_of_bare bare, ih ?_ fun other member => kept other (mem_cons_of_mem update member)⟩
    rw [kept update mem_cons_self]
    exact bare

end Rules

section Notes
variable {notes : ChangedNotes} {row : RefRow} {path : String}

/-- The file of the row goes whole, or the row's own site is refreshed. -/
def ChangedNotes.Covers (notes : ChangedNotes) (row : RefRow) : Prop :=
  row.filePath ∈ notes.fallbacks ∨ (row.filePath, row.site) ∈ notes.sites

theorem mergeDependentSite_some (other : String) (site : ReferenceSite) : mergeDependentSite notes (other, some site) =
      if other ∈ notes.fallbacks then notes else { notes with sites := (other, site) :: notes.sites } := rfl

theorem ChangedNotes.Covers.merge (covers : notes.Covers row) (entry : String × Option ReferenceSite) :
    (mergeDependentSite notes entry).Covers row := by
  obtain ⟨other, site⟩ := entry
  cases site with
  | some site =>
    rw [mergeDependentSite_some]
    split
    · exact covers
    · exact covers.imp id fun noted => mem_cons_of_mem _ noted
  | none =>
    by_cases same : row.filePath = other
    · exact .inl (same ▸ mem_cons_self)
    · rcases covers with whole | noted
      · exact .inl (mem_cons_of_mem _ whole)
      · exact .inr (mem_filter.mpr ⟨noted, by simpa using same⟩)

theorem ChangedNotes.Covers.merges (covers : notes.Covers row) (entries : List (String × Option ReferenceSite)) :
    (entries.foldl mergeDependentSite notes).Covers row := by
  induction entries generalizing notes with
  | nil => exact covers
  | cons entry rest ih => exact ih (covers.merge entry)

/-- A merged entry covers the rows of its site. -/
theorem covers_merged (entry : String × Option ReferenceSite) (named : entry.1 = row.filePath)
    (here : ∀ site, entry.2 = some site → site = row.site) : (mergeDependentSite notes entry).Covers row := by
  obtain ⟨other, site⟩ := entry
  cases site with
  | some site =>
    cases here site rfl
    cases named
    rw [mergeDependentSite_some]
    split
    next whole => exact .inl whole
    next => exact .inr mem_cons_self
  | none => exact .inl (named ▸ mem_cons_self)

theorem covers_merges {entries : List (String × Option ReferenceSite)} {entry : String × Option ReferenceSite}
    (listed : entry ∈ entries) (named : entry.1 = row.filePath) (here : ∀ site, entry.2 = some site → site = row.site) :
    (entries.foldl mergeDependentSite notes).Covers row := by
  induction entries generalizing notes with
  | nil => cases listed
  | cons first rest ih =>
    rcases mem_cons.mp listed with same | later
    · exact (covers_merged first (same ▸ named) (same ▸ here)).merges rest
    · exact ih later

theorem goWhole_foldl (paths : List String) :
    paths.foldl goWhole notes = (paths.map fun path => (path, none)).foldl mergeDependentSite notes := by
  rw [foldl_map]
  rfl

/-- Merging changes nothing but the sites and the files that go whole. -/
theorem merges_rest (entries : List (String × Option ReferenceSite)) :
    (entries.foldl mergeDependentSite notes).dirty = notes.dirty ∧
      (entries.foldl mergeDependentSite notes).seen = notes.seen ∧
      (entries.foldl mergeDependentSite notes).reindexed = notes.reindexed := by
  induction entries generalizing notes with
  | nil => exact ⟨rfl, rfl, rfl⟩
  | cons entry rest ih =>
    obtain ⟨dirty, seen, reindexed⟩ := @ih (mergeDependentSite notes entry)
    have kept : (mergeDependentSite notes entry).dirty = notes.dirty ∧
      (mergeDependentSite notes entry).seen = notes.seen ∧
        (mergeDependentSite notes entry).reindexed = notes.reindexed := by
      obtain ⟨other, site⟩ := entry
      cases site with
      | some site =>
        rw [mergeDependentSite_some]
        split <;> exact ⟨rfl, rfl, rfl⟩
      | none => exact ⟨rfl, rfl, rfl⟩
    exact ⟨dirty.trans kept.1, seen.trans kept.2.1, reindexed.trans kept.2.2⟩

end Notes

section Tracking
variable (call : SyncCall) (start : SyncStore)

def SyncCall.handed (call : SyncCall) : List String := call.paths ++ call.themePaths

/-- A file is found changed when neither its size and time nor its content are the stored ones. -/
def SyncCall.changedIn (call : SyncCall) (stored : Option FileRow) : Option DiskEntry → Bool
  | some (.file content) =>
    !call.skips stored content &&
      match content.source with
      | some (.text contentHash _ _) => !stored.any fun file => file.contentHash = contentHash
      | _ => true
  | _ => true

/-- The sync finds the handed file changed, gone, or out of scope. -/
def SyncCall.finds (call : SyncCall) (store : SyncStore) (path : String) : Bool :=
  call.changedIn (store.fileByPath path) (if call.inScope path then call.disk path else none)

/-- The references of the other files are those of the start, except for edges that fell with a reindexed file. -/
structure Tracked (store : SyncStore) (notes : ChangedNotes) : Prop where
  bare : notes.dirty = true → store.markers = []
  clean : notes.dirty = false → store.files = start.files ∧ store.refs = start.refs ∧
    notes.reindexed = [] ∧ notes.sites = [] ∧ notes.fallbacks = []
  rebuilt : ∀ marker ∈ store.markers, marker ∉ call.missing start
  themes : store.pendingThemes = call.themes start
  frameworks : store.frameworks = start.frameworks ∨ store.frameworks = none ∧ start.frameworks ≠ some call.detected
  fresh : ∀ row ∈ store.refs, row.filePath ∈ notes.reindexed → row.state = .pending
  origin : ∀ row ∈ store.refs, row.filePath ∉ notes.reindexed → row ∈ start.refs ∨
    ∃ target located, { row with state := .resolved target located } ∈ start.refs ∧ row.state = .lost ∧
      target ∈ notes.reindexed ∧ notes.Covers row
  files : store.files.filter (fun file => file.path ∉ notes.reindexed) =
    start.files.filter fun file => file.path ∉ notes.reindexed

/-- The paths that were looked at are reindexed exactly when the sync found them changed. -/
structure Scanned (store : SyncStore) (notes : ChangedNotes) : Prop where
  tracked : Tracked call start store notes
  moved : notes.dirty = true → notes.reindexed ≠ []
  handed : ∀ path ∈ notes.seen, path ∈ call.handed
  found : ∀ path ∈ notes.reindexed, path ∈ notes.seen ∧ call.finds start path = true
  looked : ∀ path ∈ notes.seen, path ∉ notes.reindexed → start.indexed path = true →
    (call.disk path).isSome = true ∧ call.finds start path = false

variable {call start}

theorem missing_iff {marker : Marker} : marker ∈ call.missing start ↔ call.needsBootstrap start marker = true := by
  have listed : marker ∈ Marker.all := by cases marker <;> decide
  simp [SyncCall.missing, listed]

theorem mem_markers_of_not_missing {marker : Marker} (present : marker ∉ call.missing start) :
    marker ∈ start.markers := by
  by_contra absent
  exact present (missing_iff.mpr (by simp [SyncCall.needsBootstrap, absent]))

theorem Tracked.recovers {store : SyncStore} {notes : ChangedNotes} (tracked : Tracked call start store notes)
    (recovers : start.Recovers) : store.Recovers := by
  cases dirty : notes.dirty with
  | true => exact recovers_of_bare (tracked.bare dirty)
  | false =>
    obtain ⟨files, refs, _⟩ := tracked.clean dirty
    apply recovers.mono files
    · intro row stored due
      exact ⟨row, refs ▸ stored, due, rfl⟩
    · intro marker present
      exact mem_markers_of_not_missing (tracked.rebuilt marker present)
    · intro theme listed
      rw [tracked.themes]
      exact mem_append_left _ listed

variable {store : SyncStore} {notes : ChangedNotes} {path : String}

/-- A file that was not reindexed is stored as it was at the start. -/
theorem Tracked.mem_files {file : FileRow} (tracked : Tracked call start store notes)
    (other : file.path ∉ notes.reindexed) : file ∈ store.files ↔ file ∈ start.files := by
  have same : file ∈ store.files.filter (fun file => file.path ∉ notes.reindexed) ↔
      file ∈ start.files.filter fun file => file.path ∉ notes.reindexed := by rw [tracked.files]
  simpa [other] using same

/-- A file that was not indexed again keeps its row. -/
theorem Tracked.fileByPath (tracked : Tracked call start store notes) (other : path ∉ notes.reindexed) :
    store.fileByPath path = start.fileByPath path := by
  have same : (store.files.filter fun file => file.path ∉ notes.reindexed).find? (fun file => file.path = path) =
      (start.files.filter fun file => file.path ∉ notes.reindexed).find? fun file => file.path = path := by
    rw [tracked.files]
  have skips (files : List FileRow) : (files.filter fun file => file.path ∉ notes.reindexed).find?
      (fun file => decide (file.path = path)) = files.find? fun file => decide (file.path = path) := by
    rw [find?_filter]
    congr 1
    funext file
    by_cases named : file.path = path
    · simp [named, other]
    · simp [named]
  rw [skips, skips] at same
  exact same

theorem indexed_eq_isSome (store : SyncStore) (path : String) :
    store.indexed path = (store.fileByPath path).isSome := by
  rw [SyncStore.indexed, SyncStore.fileByPath, isSome_find?]

theorem Tracked.indexed (tracked : Tracked call start store notes) (other : path ∉ notes.reindexed) :
    store.indexed path = start.indexed path := by
  rw [indexed_eq_isSome, indexed_eq_isSome, tracked.fileByPath other]

/-- A sync that has withdrawn its markers carries the rest of the tracking over a change of files and references. -/
theorem Tracked.carry {after : SyncStore} {later : ChangedNotes} (tracked : Tracked call start store notes)
    (dirty : notes.dirty = true) (stays : later.dirty = true)
    (kept : after.markers = store.markers ∧ after.pendingThemes = store.pendingThemes ∧
      after.frameworks = store.frameworks)
    (fresh : ∀ row ∈ after.refs, row.filePath ∈ later.reindexed → row.state = .pending)
    (origin : ∀ row ∈ after.refs, row.filePath ∉ later.reindexed → row ∈ start.refs ∨
      ∃ target located, { row with state := .resolved target located } ∈ start.refs ∧ row.state = .lost ∧
        target ∈ later.reindexed ∧ later.Covers row)
    (files : after.files.filter (fun file => file.path ∉ later.reindexed) =
      start.files.filter fun file => file.path ∉ later.reindexed) : Tracked call start after later := by
  obtain ⟨markers, themes, frameworks⟩ := kept
  constructor
  case bare => exact fun _ => markers ▸ tracked.bare dirty
  case clean =>
    intro clean
    rw [stays] at clean
    cases clean
  case rebuilt => exact markers ▸ tracked.rebuilt
  case themes => exact themes ▸ tracked.themes
  case frameworks => exact frameworks ▸ tracked.frameworks
  case fresh => exact fresh
  case origin => exact origin
  case files => exact files

/-- Noted dependents change nothing but what is refreshed. -/
theorem Tracked.merges (tracked : Tracked call start store notes) (dirty : notes.dirty = true)
    (entries : List (String × Option ReferenceSite)) :
    Tracked call start store (entries.foldl mergeDependentSite notes) := by
  obtain ⟨sameDirty, _, sameReindexed⟩ := @merges_rest notes entries
  refine tracked.carry dirty (sameDirty.trans dirty) ⟨rfl, rfl, rfl⟩ ?fresh ?origin ?files
  case fresh =>
    rw [sameReindexed]
    exact tracked.fresh
  case origin =>
    rw [sameReindexed]
    intro row stored other
    rcases tracked.origin row stored other with known | ⟨target, located, known, lost, moved, covers⟩
    · exact .inl known
    · exact .inr ⟨target, located, known, lost, moved, covers.merges entries⟩
  case files =>
    rw [sameReindexed]
    exact tracked.files

theorem loseTarget_cases (path : String) (row : RefRow) : row.loseTarget path = row ∨
    ∃ located, row.state = .resolved path located ∧ row.loseTarget path = { row with state := .lost } := by
  unfold RefRow.loseTarget
  split
  next target located resolved =>
    by_cases same : target = path
    · rw [if_pos same]
      exact .inr ⟨located, same ▸ resolved, rfl⟩
    · rw [if_neg same]
      exact .inl rfl
  next => exact .inl rfl

/-- Deleting a file counts it as reindexed once the edges into it are noted. -/
theorem Tracked.drop (tracked : Tracked call start store notes) (dirty : notes.dirty = true)
    (noted : ∀ row ∈ store.refs, ∀ located, row.filePath ≠ path → row.state = .resolved path located →
      notes.Covers row) :
    Tracked call start (deleteFileRecord path store) { notes with reindexed := path :: notes.reindexed } := by
  refine tracked.carry dirty dirty ⟨rfl, rfl, rfl⟩ ?fresh ?origin ?files
  case fresh =>
    intro row stored reindexed
    obtain ⟨old, kept, fell⟩ := mem_map.mp stored
    have known := (mem_filter.mp kept).1
    have other : old.filePath ≠ path := by simpa using (mem_filter.mp kept).2
    rcases loseTarget_cases path old with same | ⟨located, resolved, lost⟩
    · rw [← fell, same] at reindexed ⊢
      exact tracked.fresh old known ((mem_cons.mp reindexed).resolve_left other)
    · rw [← fell, lost] at reindexed
      have pending := tracked.fresh old known ((mem_cons.mp reindexed).resolve_left other)
      rw [resolved] at pending
      cases pending
  case origin =>
    intro row stored outside
    obtain ⟨old, kept, fell⟩ := mem_map.mp stored
    have known := (mem_filter.mp kept).1
    have other : old.filePath ≠ path := by simpa using (mem_filter.mp kept).2
    have samePath : row.filePath = old.filePath := by
      rcases loseTarget_cases path old with same | ⟨located, resolved, lost⟩
      · rw [← fell, same]
      · rw [← fell, lost]
    have earlier : old.filePath ∉ notes.reindexed := fun listed =>
      outside (samePath ▸ mem_cons_of_mem path listed)
    rcases loseTarget_cases path old with same | ⟨located, resolved, lost⟩
    · rw [← fell, same]
      rcases tracked.origin old known earlier with begun | ⟨target, located, begun, lost, moved, covers⟩
      · exact .inl begun
      · exact .inr ⟨target, located, begun, lost, mem_cons_of_mem path moved, covers⟩
    · rcases tracked.origin old known earlier with begun | ⟨target, _, begun, fallen, moved, covers⟩
      · rw [← fell, lost]
        refine .inr ⟨path, located, ?_, rfl, mem_cons_self, noted old known located other resolved⟩
        rw [← resolved]
        exact begun
      · rw [resolved] at fallen
        cases fallen
  case files =>
    have split (files : List FileRow) : files.filter (fun file => file.path ∉ path :: notes.reindexed) =
        (files.filter fun file => file.path ∉ notes.reindexed).filter fun file => file.path ≠ path := by
      rw [filter_filter]
      congr 1
      funext file
      simp
    show ((store.files.filter fun file => file.path ≠ path).filter fun file => file.path ∉ path :: notes.reindexed) =
      start.files.filter fun file => file.path ∉ path :: notes.reindexed
    rw [split, split, ← tracked.files, filter_filter, filter_filter, filter_filter]
    congr 1
    funext file
    by_cases same : file.path = path
    · simp [same]
    · simp [same]

/-- The references of a reindexed file wait for the resolver. -/
theorem Tracked.insert (tracked : Tracked call start store notes) (dirty : notes.dirty = true)
    (reindexed : path ∈ notes.reindexed) (sites : List ReferenceSite) :
    Tracked call start (insertUnresolvedRefs path sites store) notes := by
  have added {row : RefRow} (stored : row ∈ (insertUnresolvedRefs path sites store).refs) :
      row ∈ store.refs ∨ row.filePath = path ∧ row.state = .pending := by
    rcases mem_append.mp stored with old | fresh
    · exact .inl old
    · obtain ⟨site, _, same⟩ := mem_map.mp fresh
      rw [← same]
      exact .inr ⟨rfl, rfl⟩
  refine tracked.carry dirty dirty ⟨rfl, rfl, rfl⟩ ?fresh ?origin ?files
  case fresh =>
    intro row stored listed
    rcases added stored with old | ⟨_, pending⟩
    · exact tracked.fresh row old listed
    · exact pending
  case origin =>
    intro row stored outside
    rcases added stored with old | ⟨named, _⟩
    · exact tracked.origin row old outside
    · exact absurd (named ▸ reindexed) outside
  case files => exact tracked.files

/-- Writing a row of an indexed file stays tracked. -/
theorem Tracked.upsert {file : FileRow} (tracked : Tracked call start store notes) (dirty : notes.dirty = true)
    (reindexed : file.path ∈ notes.reindexed) : Tracked call start (upsertFile file store) notes := by
  refine tracked.carry dirty dirty ⟨rfl, rfl, rfl⟩ ?fresh ?origin ?files
  · exact tracked.fresh
  · exact tracked.origin
  · show (store.files.filter (fun row => row.path ≠ file.path) ++ [file]).filter
      (fun row => row.path ∉ notes.reindexed) =
      start.files.filter fun row => row.path ∉ notes.reindexed
    rw [← tracked.files, filter_append, filter_filter]
    have none : [file].filter (fun row => decide (row.path ∉ notes.reindexed)) = [] := by simp [reindexed]
    rw [none, append_nil]
    apply filter_congr
    intro row _
    by_cases same : row.path = file.path
    · simp [same, reindexed]
    · simp [same]

end Tracking

section Mutating
variable {call : SyncCall} {start store : SyncStore} {notes : ChangedNotes} {path : String}

theorem withdrawn_recovers {marker : Marker} (recovers : store.Recovers) : (withdraw marker store).Recovers :=
  recovers.mono rfl (fun row stored due => ⟨row, stored, due, rfl⟩) (fun _ present => (mem_filter.mp present).1)
    fun _ listed => listed

theorem along_withdraw (markers : List Marker) (recovers : store.Recovers) : Along (markers.map withdraw) store := by
  induction markers generalizing store with
  | nil => trivial
  | cons marker rest ih => exact ⟨recovers, ih (withdrawn_recovers recovers)⟩

theorem foldl_withdraw (markers : List Marker) : (markers.map withdraw).foldl (fun store update => update store) store =
      { store with markers := store.markers.filter fun present => present ∉ markers } := by
  induction markers generalizing store with
  | nil => simp
  | cons marker rest ih =>
    rw [map_cons, foldl_cons, ih]
    simp [withdraw, filter_filter, Bool.and_comm]

theorem Tracked.begun (tracked : Tracked call start store notes) :
    Tracked call start { store with markers := [] } { notes with dirty := true } := by
  constructor
  case bare => exact fun _ => rfl
  case clean => exact fun clean => by cases clean
  case rebuilt => exact fun _ present => by cases present
  case themes => exact tracked.themes
  case frameworks => exact tracked.frameworks
  case fresh => exact tracked.fresh
  case origin => exact tracked.origin
  case files => exact tracked.files

/-- The markers are gone before the first mutation, whether or not this sync had withdrawn them. -/
theorem beginMutation_runs (recovers : start.Recovers) (tracked : Tracked call start store notes) :
    Runs (fun current noted => current = store ∧ noted = notes) beginMutation fun _ current noted =>
      current = { store with markers := [] } ∧ noted = { notes with dirty := true } := by
  apply Runs.read
  rintro seen ⟨sameStore, sameNotes⟩
  rw [sameStore, sameNotes]
  apply Runs.ite
  · intro dirty
    apply Runs.pure
    rintro current noted ⟨sameStore, sameNotes⟩
    rw [sameStore, sameNotes, ← tracked.bare dirty, ← dirty]
    exact ⟨rfl, rfl⟩
  · intro _
    have withdrawn : Runs (fun current noted => current = store ∧ noted = notes) (writeAll (Marker.all.map withdraw))
        fun _ current noted => current = { store with markers := [] } ∧ noted = notes := by
      apply Runs.writeAll
      · rintro current noted ⟨sameStore, _⟩
        rw [sameStore]
        exact along_withdraw Marker.all (tracked.recovers recovers)
      · rintro current noted ⟨sameStore, sameNotes⟩
        have every : ∀ marker : Marker, marker ∈ Marker.all := by
          intro marker
          cases marker <;> decide
        rw [foldl_withdraw, sameStore, sameNotes]
        simp [every]
    apply withdrawn.bind
    intro _
    apply Runs.note
    rintro current noted ⟨sameStore, sameNotes⟩
    rw [sameStore, sameNotes]
    exact ⟨rfl, rfl⟩

/-- Every edge of another file into the file is noted. -/
theorem dependents_noted {row : RefRow} {located : Bool} (stored : row ∈ store.refs) (other : row.filePath ≠ path)
    (resolved : row.state = .resolved path located) :
    ((store.dependentsOf path).foldl mergeDependentSite notes).Covers row := by
  have listed : (row.filePath, if located then some row.site else none) ∈ store.dependentsOf path := by
    apply mem_filterMap.mpr
    refine ⟨row, stored, ?_⟩
    rw [resolved]
    simp [other]
  apply covers_merges listed rfl
  intro site named
  cases located with
  | true => simpa using named.symm
  | false => simp at named

theorem deleteFileRecord_absorbs : deleteFileRecord path (deleteUnresolvedRefs path (deleteResolvedRefs path store)) =
      deleteFileRecord path store := by
  have rows : ((store.refs.filter fun row => row.filePath ≠ path || row.unresolved).filter fun row =>
      row.filePath ≠ path || !row.unresolved).filter (fun row => decide (row.filePath ≠ path)) =
      store.refs.filter fun row => decide (row.filePath ≠ path) := by
    rw [filter_filter, filter_filter]
    apply filter_congr
    intro row _
    by_cases other : row.filePath = path
    · simp [other]
    · simp [other]
  show { store with files := _, refs := (filter _ (filter _ (filter _ store.refs))).map _ } = _
  rw [rows]
  rfl

/-- The notes of a sync that has just dropped or extracted the path. -/
def ChangedNotes.reindexes (earlier : ChangedNotes) (path : String) (notes : ChangedNotes) : Prop :=
  notes.dirty = true ∧ notes.seen = earlier.seen ∧ notes.reindexed = path :: earlier.reindexed

/-- A file is dropped, and what else the writes put in its place keeps the tracking. -/
theorem dropping_runs {others : List (SyncStore → SyncStore)} (recovers : start.Recovers)
    (tracked : Tracked call start store notes)
    (kept : ∀ update ∈ others, ∀ store : SyncStore, (update store).markers = store.markers)
    (carried : ∀ current noted, noted.dirty = true → path ∈ noted.reindexed → Tracked call start current noted →
      Tracked call start (others.foldl (fun store update => update store) current) noted) :
    Runs (fun current noted => current = store ∧ noted = notes)
      (do
        beginMutation
        noteDependents path
        writeAll ([deleteResolvedRefs path, deleteUnresolvedRefs path, deleteFileRecord path] ++ others)
        noteReindexed path)
      fun _ current noted => Tracked call start current noted ∧ notes.reindexes path noted := by
  apply (beginMutation_runs recovers tracked).bind
  intro _
  let merged := (SyncStore.dependentsOf { store with markers := [] } path).foldl mergeDependentSite
    { notes with dirty := true }
  obtain ⟨sameDirty, sameSeen, sameReindexed⟩ := @merges_rest { notes with dirty := true }
    (SyncStore.dependentsOf { store with markers := [] } path)
  have noted : Runs (fun current noted => current = { store with markers := [] } ∧ noted = { notes with dirty := true })
      (noteDependents path) fun _ current noted => current = { store with markers := [] } ∧ noted = merged := by
    apply Runs.read
    rintro seen ⟨sameStore, _⟩
    apply Runs.note
    rintro current noted ⟨laterStore, laterNotes⟩
    rw [laterStore, laterNotes]
    simp_all [merged]
  apply noted.bind
  intro _
  have written : Runs (fun current noted => current = { store with markers := [] } ∧ noted = merged)
      (writeAll ([deleteResolvedRefs path, deleteUnresolvedRefs path, deleteFileRecord path] ++ others))
        fun _ current noted =>
        Tracked call start current { noted with reindexed := path :: noted.reindexed } ∧ noted = merged := by
    apply Runs.writeAll
    · rintro current noted ⟨sameStore, _⟩
      apply along_bare
      · rw [sameStore]
      · intro update listed
        rcases mem_append.mp listed with first | other
        · simp only [mem_cons, not_mem_nil, or_false] at first
          rcases first with rfl | rfl | rfl <;> exact fun _ => rfl
        · exact kept update other
    · rintro current noted ⟨sameStore, sameNotes⟩
      rw [foldl_append, sameStore, sameNotes]
      refine ⟨carried _ _ sameDirty mem_cons_self ?_, rfl⟩
      show Tracked call start (deleteFileRecord path (deleteUnresolvedRefs path (deleteResolvedRefs path _))) _
      rw [deleteFileRecord_absorbs]
      apply (tracked.begun.merges rfl _).drop sameDirty
      intro row stored located other resolved
      exact dependents_noted stored other resolved
  apply written.bind
  intro _
  apply Runs.note
  rintro current noted ⟨held, sameNotes⟩
  rw [sameNotes] at held ⊢
  exact ⟨held, sameDirty, sameSeen, congrArg _ sameReindexed⟩

/-- A removed file is no longer indexed, or it is reindexed. -/
theorem removeTrackedFile_runs (recovers : start.Recovers) (tracked : Tracked call start store notes) :
    Runs (fun current noted => current = store ∧ noted = notes) (removeTrackedFile path) fun _ current noted =>
      Tracked call start current noted ∧ (notes.reindexes path noted ∨
        current = store ∧ noted = notes ∧ store.indexed path = false) := by
  apply Runs.read
  rintro seen ⟨sameStore, sameNotes⟩
  rw [sameStore, sameNotes]
  apply Runs.ite
  · intro _
    have dropped := @dropping_runs call start store notes path [] recovers tracked (fun _ listed => by cases listed)
      fun _ _ _ _ held => held
    exact dropped.weaken (fun _ _ inside => inside) fun _ _ _ held => ⟨held.1, .inl held.2⟩
  · intro absent
    apply Runs.pure
    rintro current noted ⟨laterStore, laterNotes⟩
    rw [laterStore, laterNotes]
    exact ⟨tracked, .inr ⟨rfl, rfl, by simpa using absent⟩⟩

theorem reextract_runs (recovers : start.Recovers) (tracked : Tracked call start store notes) (file : FileRow)
    (sites : List ReferenceSite) :
    Runs (fun current noted => current = store ∧ noted = notes) (reextract file sites) fun _ current noted =>
      Tracked call start current noted ∧ notes.reindexes file.path noted := by
  apply @dropping_runs call start store notes file.path [id, id, insertUnresolvedRefs file.path sites, upsertFile file]
    recovers tracked
  · intro update listed
    simp only [mem_cons, not_mem_nil, or_false] at listed
    rcases listed with rfl | rfl | rfl | rfl <;> exact fun _ => rfl
  · intro current noted dirty reindexed held
    exact (held.insert dirty reindexed sites).upsert dirty reindexed

/-- A path that was looked at is reindexed, is not indexed, or was found unchanged. -/
def Looked (call : SyncCall) (start store : SyncStore) (notes : ChangedNotes) (path : String) (absent forced : Bool)
    (current : SyncStore) (noted : ChangedNotes) : Prop :=
  Tracked call start current noted ∧
    (notes.reindexes path noted ∧
        (forced = true ∨ call.changedIn (store.fileByPath path) (if absent then none else call.disk path) = true) ∨
      current = store ∧ noted = notes ∧ (store.indexed path = false ∨ forced = false ∧ (call.disk path).isSome = true ∧
        call.changedIn (store.fileByPath path) (if absent then none else call.disk path) = false))

/-- Looking at one path tracks what has changed there. -/
theorem syncOne_runs (recovers : start.Recovers) (tracked : Tracked call start store notes) (absent forced : Bool) :
    Runs (fun current noted => current = store ∧ noted = notes) (syncOne call path absent forced) fun _ =>
      Looked call start store notes path absent forced := by
  have removed (gone : forced = true ∨
      call.changedIn (store.fileByPath path) (if absent then none else call.disk path) = true) :
      Runs (fun current noted => current = store ∧ noted = notes) (removeTrackedFile path) fun _ =>
        Looked call start store notes path absent forced := by
    apply (removeTrackedFile_runs recovers tracked).weaken fun _ _ inside => inside
    rintro _ current noted ⟨held, outcome⟩
    refine ⟨held, outcome.imp (fun moved => ⟨moved, gone⟩) fun unmoved => ?_⟩
    exact ⟨unmoved.1, unmoved.2.1, .inl unmoved.2.2⟩
  have unchanged (unforced : forced = false) (present : (call.disk path).isSome = true)
      (same : call.changedIn (store.fileByPath path) (if absent then none else call.disk path) = false) :
      Runs (fun current noted => current = store ∧ noted = notes) (pure ()) fun _ =>
        Looked call start store notes path absent forced := by
    apply Runs.pure
    rintro current noted ⟨sameStore, sameNotes⟩
    rw [sameStore, sameNotes]
    exact ⟨tracked, .inr ⟨rfl, rfl, .inr ⟨unforced, present, same⟩⟩⟩
  unfold syncOne
  split
  next content entry =>
    have present : (call.disk path).isSome = true := by
      by_cases gone : absent = true
      · simp [gone] at entry
      · simp only [gone, Bool.false_eq_true, if_false] at entry
        rw [entry]
        rfl
    rw [entry] at removed unchanged
    apply Runs.read
    rintro seen ⟨sameStore, sameNotes⟩
    rw [sameStore, sameNotes]
    apply Runs.ite
    · intro skipped
      simp only [Bool.and_eq_true, Bool.not_eq_true'] at skipped
      exact unchanged skipped.1 present (by simp [SyncCall.changedIn, skipped.2])
    · intro judged
      have moved : forced = true ∨ call.skips (store.fileByPath path) content = false := by
        cases forced with
        | true => exact .inl rfl
        | false => exact .inr (by simpa using judged)
      split
      next source => exact .throw _ fun work inside => inside.1 ▸ tracked.recovers recovers
      next source =>
        apply removed
        exact moved.imp id fun differs => by simp [SyncCall.changedIn, differs, source]
      next contentHash language sites source =>
        apply Runs.ite
        · intro skipped
          simp only [Bool.and_eq_true, Bool.not_eq_true'] at skipped
          exact unchanged skipped.1 present (by simp [SyncCall.changedIn, source, skipped.2])
        · intro differs
          apply (reextract_runs recovers tracked _ sites).weaken fun _ _ inside => inside
          rintro _ current noted ⟨held, reindexes⟩
          refine ⟨held, .inl ⟨reindexes, ?_⟩⟩
          cases forced with
          | true => exact .inl rfl
          | false =>
            right
            rw [entry]
            simp_all [SyncCall.changedIn]
  next other =>
    apply removed
    right
    unfold SyncCall.changedIn
    split
    next content entry => exact absurd entry (other content)
    next => rfl

theorem Tracked.sees (tracked : Tracked call start store notes) (seen : List String) :
    Tracked call start store { notes with seen := seen } :=
  ⟨tracked.bare, tracked.clean, tracked.rebuilt, tracked.themes, tracked.frameworks, tracked.fresh, tracked.origin,
    tracked.files⟩

/-- A look at a new path joins it to the scanned ones. -/
theorem Scanned.look {current : SyncStore} {noted : ChangedNotes} (scanned : Scanned call start store notes)
    (unseen : path ∉ notes.seen) (listed : path ∈ call.handed)
    (looked : Looked call start store { notes with seen := path :: notes.seen } path
      (!call.inScope path) false current noted) :
    Scanned call start current noted ∧ noted.seen = path :: notes.seen := by
  have other : path ∉ notes.reindexed := fun reindexed => unseen (scanned.found path reindexed).1
  have judged : call.changedIn (store.fileByPath path) (if !call.inScope path then none else call.disk path) =
      call.finds start path := by
    rw [SyncCall.finds, scanned.tracked.fileByPath other]
    cases call.inScope path <;> rfl
  obtain ⟨tracked, outcome⟩ := looked
  rcases outcome with ⟨⟨dirty, seen, reindexed⟩, changed⟩ | ⟨sameStore, sameNotes, unmoved⟩
  · have found : call.finds start path = true := judged ▸ changed.resolve_left (by decide)
    refine ⟨⟨tracked, fun _ => ?_, ?_, ?_, ?_⟩, seen⟩
    · rw [reindexed]
      exact cons_ne_nil path _
    · rw [seen]
      intro some member
      rcases mem_cons.mp member with same | earlier
      · exact same ▸ listed
      · exact scanned.handed some earlier
    · rw [seen, reindexed]
      intro some member
      rcases mem_cons.mp member with same | earlier
      · exact ⟨same ▸ mem_cons_self, same ▸ found⟩
      · exact ⟨mem_cons_of_mem path (scanned.found some earlier).1, (scanned.found some earlier).2⟩
    · rw [seen, reindexed]
      intro some member outside indexed
      rcases mem_cons.mp member with same | earlier
      · exact absurd (same ▸ mem_cons_self) outside
      · exact scanned.looked some earlier (fun listed => outside (mem_cons_of_mem path listed)) indexed
  · rw [sameStore, sameNotes]
    refine ⟨⟨scanned.tracked.sees _, scanned.moved, ?_, ?_, ?_⟩, rfl⟩
    · intro some member
      rcases mem_cons.mp member with same | earlier
      · exact same ▸ listed
      · exact scanned.handed some earlier
    · intro some member
      exact ⟨mem_cons_of_mem path (scanned.found some member).1, (scanned.found some member).2⟩
    · intro some member outside indexed
      rcases mem_cons.mp member with same | earlier
      · rw [same] at indexed ⊢
        rcases unmoved with absent | ⟨_, present, unchanged⟩
        · rw [← scanned.tracked.indexed other, absent] at indexed
          cases indexed
        · exact ⟨present, judged ▸ unchanged⟩
      · exact scanned.looked some earlier outside indexed

/-- A path that is handed over is seen when it was synced. -/
theorem syncPath_runs (recovers : start.Recovers) (listed : path ∈ call.handed) (done : List String) :
    Runs (fun current noted => Scanned call start current noted ∧ ∀ earlier ∈ done, earlier ∈ noted.seen)
      (syncPath call path) fun _ current noted =>
        Scanned call start current noted ∧ ∀ earlier ∈ path :: done, earlier ∈ noted.seen := by
  apply Runs.read
  rintro before ⟨scanned, earlier⟩
  apply Runs.ite
  · intro seen
    apply Runs.pure
    rintro current noted ⟨sameStore, sameNotes⟩
    rw [sameStore, sameNotes]
    exact ⟨scanned, forall_mem_cons.mpr ⟨seen, earlier⟩⟩
  · intro unseen
    have noted : Runs (fun current noted => current = before.store ∧ noted = before.notes)
        (Sync.note fun notes => { notes with seen := path :: notes.seen }) fun _ current noted =>
          current = before.store ∧ noted = { before.notes with seen := path :: before.notes.seen } := by
      apply Runs.note
      rintro current noted ⟨sameStore, sameNotes⟩
      rw [sameStore, sameNotes]
      exact ⟨rfl, rfl⟩
    have joined {current : SyncStore} {noted : ChangedNotes} (looked : Looked call start before.store
        { before.notes with seen := path :: before.notes.seen } path (!call.inScope path) false current noted) :
        Scanned call start current noted ∧ ∀ earlier ∈ path :: done, earlier ∈ noted.seen := by
      obtain ⟨later, seen⟩ := scanned.look unseen listed looked
      rw [seen]
      exact ⟨later, forall_mem_cons.mpr
        ⟨mem_cons_self, fun some member => mem_cons_of_mem path (earlier some member)⟩⟩
    apply noted.bind
    intro _
    have tracked := scanned.tracked.sees (path :: before.notes.seen)
    apply Runs.ite
    · intro outside
      apply Runs.pure
      rintro current noted ⟨sameStore, sameNotes⟩
      rw [sameStore, sameNotes]
      have absent : before.store.indexed path = false := by
        simp only [Bool.and_eq_true, Bool.not_eq_true'] at outside
        exact outside.2
      exact joined ⟨tracked, Or.inr ⟨rfl, rfl, Or.inl absent⟩⟩
    · intro _
      apply (syncOne_runs recovers tracked _ false).weaken fun _ _ inside => inside
      intro _ current noted looked
      exact joined looked

/-- Every handed path is looked at. -/
theorem syncPaths_runs (recovers : start.Recovers) {paths : List String} (listed : ∀ path ∈ paths, path ∈ call.handed)
    (done : List String) :
    Runs (fun current noted => Scanned call start current noted ∧ ∀ earlier ∈ done, earlier ∈ noted.seen)
      (syncPaths call paths) fun _ current noted =>
        Scanned call start current noted ∧ ∀ path ∈ paths ++ done, path ∈ noted.seen := by
  induction paths generalizing done with
  | nil => exact .pure fun _ _ inside => inside
  | cons path rest ih =>
    obtain ⟨first, later⟩ := forall_mem_cons.mp listed
    apply (syncPath_runs recovers first done).bind
    intro _
    apply (ih later (path :: done)).weaken fun _ _ inside => inside
    rintro _ current noted ⟨scanned, seen⟩
    refine ⟨scanned, fun some member => seen some ?_⟩
    simp only [cons_append, mem_cons, mem_append] at member ⊢
    tauto

end Mutating

end Codegraph.Sync
