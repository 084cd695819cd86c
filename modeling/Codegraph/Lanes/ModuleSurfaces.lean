import Codegraph.Library.Saturation
import Codegraph.Resolve.Context

/- This file models what a sync re-resolves when the surfaces of JavaScript modules move. -/

namespace Codegraph.Lanes.Surfaces
open List

open Codegraph.Core (Edge Language Node)

def resolutionLanguages : List Language := [.typeScript, .tsx, .javaScript, .jsx, .vue, .svelte, .astro, .arkTs]

def hasModuleSurface (filePath : String) (language : Language) : Bool :=
  Resolve.isJsFamilyPath filePath ||
    [.typeScript, .javaScript, .tsx, .jsx, .arkTs, .vue, .svelte, .astro].contains language

structure ModuleSurface where
  digest : String
  sources : List String
  deriving DecidableEq

/-- A row holds the project files that its sources resolved to. Without sources there are none. -/
structure SurfaceRow where
  digest : String
  sources : List String
  targets : List String
  grounded : sources = [] → targets = []
  deriving DecidableEq

inductive OldRow where
  | default
  | stored (row : SurfaceRow)
  | unreadable
  deriving DecidableEq

def OldRow.digest : OldRow → Option String
  | .stored row => some row.digest
  | _ => none

def OldRow.targets : OldRow → List String
  | .stored row => row.targets
  | _ => []

/-- What a sync recorded of a changed file. -/
structure SurfaceChange where
  old : OldRow
  new : Option ModuleSurface
  added : Bool
  removed : Bool
  importers : List String
  names : List String

def SurfaceChange.seeds (change : SurfaceChange) : Bool :=
  change.added || change.removed || change.old = .unreadable || change.old.digest ≠ change.new.map ModuleSurface.digest

/-- What the store and the disk hold. A row that cannot be read has no value, and imports resolve by a function of the
project. -/
structure Project where
  allFiles : List (String × Language)
  rows : List (String × Option SurfaceRow)
  distinct : (rows.map Prod.fst).Nodup
  surfaceOnDisk : String → Option ModuleSurface
  nodes : List Node
  edges : List Edge
  resolveImportPath : String → String → Language → Option String

/-- The changed files of a sync. -/
structure Changes where
  entries : List (String × SurfaceChange)
  distinct : (entries.map Prod.fst).Nodup

def Changes.get (changes : Changes) (path : String) : Option SurfaceChange := changes.entries.lookup path

structure SurfaceRefresh where
  files : List String
  names : List String
  rows : List (String × Option SurfaceRow)
  rebuilt : Bool

structure Barrel where
  path : String
  recorded : List String
  now : List String

section Lane

variable (project : Project) (changes : Changes) (reindexed : List String) (fileSetChanged : Bool)

/-- The project files that the sources of a file resolve to in some language, sorted. -/
def resolveTargets (filePath : String) (sources : List String) : List String :=
  (sources.flatMap fun source =>
    resolutionLanguages.filterMap (project.resolveImportPath source filePath)).dedup.mergeSort

theorem resolveTargets_nil (filePath : String) : resolveTargets project filePath [] = [] := by
  simp [resolveTargets]

def SurfaceRow.resolved (filePath : String) (surface : ModuleSurface) : SurfaceRow where
  digest := surface.digest
  sources := surface.sources
  targets := resolveTargets project filePath surface.sources
  grounded none := by rw [none, resolveTargets_nil]

/-- Every file is reconciled when the rows cannot be trusted. -/
def bootstrapRefresh : SurfaceRefresh :=
  let files := project.allFiles.filter fun (path, language) => hasModuleSurface path language
  let surface (path : String) : Option ModuleSurface :=
    match changes.get path with
    | some change => change.new
    | none => project.surfaceOnDisk path
  { files := (files.map Prod.fst).filter (· ∉ reindexed)
    names := []
    rows := files.map fun (path, _) => (path, (surface path).map (SurfaceRow.resolved project path))
    rebuilt := true }

def changedRow (path : String) (change : SurfaceChange) : Option SurfaceRow :=
  change.new.map (SurfaceRow.resolved project path)

def changedNow (path : String) (change : SurfaceChange) : List String :=
  ((changedRow project path change).map SurfaceRow.targets).getD []

def changedBarrel (path : String) (change : SurfaceChange) : Option Barrel :=
  if change.old.targets ≠ [] ∨
    changedNow project path change ≠ [] then some ⟨path, change.old.targets, changedNow project path change⟩ else none

/-- What the row of a file that did not change calls for. -/
structure RowReading where
  seeds : Bool
  writes : Option (Option SurfaceRow)
  barrel : Option Barrel

def readRow (path : String) : Option SurfaceRow → RowReading
  | none =>
    { seeds := true, writes := some ((project.surfaceOnDisk path).map (SurfaceRow.resolved project path)), barrel :=
      none }
  | some row =>
    if some_ : row.sources = [] then { seeds := false, writes := none, barrel := none }
    else
      let now := if fileSetChanged then resolveTargets project path row.sources else row.targets
      { seeds := now ≠ row.targets
        writes := if now ≠ row.targets then
          some (some { row with targets := now, grounded := fun none => absurd none some_ }) else none
        barrel := some ⟨path, row.targets, now⟩ }

/-- The files whose surfaces moved, and the files that came or went. -/
def movedPaths : List String := (changes.entries.filter fun entry => entry.2.seeds).map Prod.fst

def unchangedRows : List (String × Option SurfaceRow) := project.rows.filter fun entry => (changes.get entry.1).isNone

def firstSeeds : List String :=
  movedPaths changes ++ ((unchangedRows project changes).filter fun entry =>
    (readRow project fileSetChanged entry.1 entry.2).seeds).map Prod.fst

def barrels : List Barrel :=
  (changes.entries.filterMap fun entry => changedBarrel project entry.1 entry.2) ++
    (unchangedRows project changes).filterMap fun entry => (readRow project fileSetChanged entry.1 entry.2).barrel

/-- A sync that moved no surface and kept the files reads nothing. -/
def readsRows : Bool := !(movedPaths changes).isEmpty || fileSetChanged

/-- The moved modules and all barrels that forward them, by what they recorded or what they resolve to now. -/
def closure : List String :=
  if readsRows changes fileSetChanged then
    Saturation.saturate
      ((barrels project changes fileSetChanged).map fun barrel => ⟨barrel.path, barrel.recorded ++ barrel.now⟩)
      (firstSeeds project changes fileSetChanged)
  else []

/-- The files of the sites that refer to nodes of a file from elsewhere. -/
def referenceSitesDependentOnFile (filePath : String) : List String :=
  (project.edges.filter (·.kind ≠ .contains)).flatMap fun edge =>
    (project.nodes.filter fun tgt => tgt.id = edge.target ∧ tgt.filePath = filePath).flatMap fun _ =>
      (project.nodes.filter fun src => src.id = edge.source ∧ src.filePath ≠ filePath).map Node.filePath

def importersOf (member : String) : List String :=
  match changes.get member with
  | some change => change.importers
  | none => referenceSitesDependentOnFile project member

def noteSurfaceChanges (bootstrap : Bool) : SurfaceRefresh :=
  if bootstrap then bootstrapRefresh project changes reindexed
  else
    { files := ((closure project changes fileSetChanged).flatMap (importersOf project changes)).filter (· ∉ reindexed)
      names := (changes.entries.filter fun entry => entry.2.seeds && !entry.2.added && !entry.2.removed).flatMap
        fun entry => entry.2.names
      rows :=
        if readsRows changes fileSetChanged then
          (changes.entries.map fun entry => (entry.1, changedRow project entry.1 entry.2)) ++
            (unchangedRows project changes).filterMap fun entry =>
              (readRow project fileSetChanged entry.1 entry.2).writes.map fun row => (entry.1, row)
        else []
      rebuilt := false }

end Lane

section Forwarding

variable (project : Project) (changes : Changes) (fileSetChanged : Bool)

/-- What the row of a module recorded that it forwards. -/
def recordedTargets (path : String) : List String :=
  match changes.get path with
  | some change => change.old.targets
  | none => (((project.rows.lookup path).join).map SurfaceRow.targets).getD []

/-- What a module forwards now. -/
def targetsNow (path : String) : List String :=
  match changes.get path with
  | some change => ((change.new.map ModuleSurface.sources).map (resolveTargets project path)).getD []
  | none =>
    match project.rows.lookup path with
    | none => []
    | some none =>
      (((project.surfaceOnDisk path).map ModuleSurface.sources).map (resolveTargets project path)).getD []
    | some (some row) => resolveTargets project path row.sources

def Forwards (path target : String) : Prop :=
  target ∈ recordedTargets project changes path ∨ target ∈ targetsNow project changes path

/-- A module whose surface moved, that came or went, or that forwards other targets than its row recorded. -/
def Moved (path : String) : Prop :=
  (∃ change, changes.get path = some change ∧
      (change.old.digest ≠ change.new.map ModuleSurface.digest ∨ change.added ∨ change.removed ∨
        recordedTargets project changes path ≠ targetsNow project changes path)) ∨
    changes.get path = none ∧ ∃ row, project.rows.lookup path = some (some row) ∧
      row.targets ≠ targetsNow project changes path

/-- A module that the closure starts with: a changed one that seeds, or an unchanged one whose targets moved or whose
row cannot be read. -/
def Seed (path : String) : Prop :=
  (∃ change, changes.get path = some change ∧ change.seeds) ∨
    changes.get path = none ∧
      (project.rows.lookup path = some none ∨
        ∃ row, project.rows.lookup path = some (some row) ∧ row.targets ≠ targetsNow project changes path)

/-- A changed module that forwards other targets while its surface stayed. -/
def Overlooked (path : String) : Prop :=
  ∃ change, changes.get path = some change ∧ change.seeds = false ∧
    recordedTargets project changes path ≠ targetsNow project changes path

/-- A file depends on a changed member by an edge of before the change, and on any other by an edge of the store. -/
def DependsOn (file member : String) : Prop :=
  (∃ change, changes.get member = some change ∧ file ∈ change.importers) ∨
    changes.get member = none ∧ file ≠ member ∧ ∃ edge ∈ project.edges, edge.kind ≠ .contains ∧
      (∃ tgt ∈ project.nodes, tgt.id = edge.target ∧ tgt.filePath = member) ∧
        ∃ src ∈ project.nodes, src.id = edge.source ∧ src.filePath = file

/-- The closure has all moved modules and the barrels above them, and their dependents are re-resolved. -/
def Complete (reindexed : List String) : Prop :=
  (∀ path moved, Moved project changes moved → Relation.ReflTransGen (Forwards project changes) path moved →
      path ∈ closure project changes fileSetChanged) ∧
    ∀ member ∈ closure project changes fileSetChanged, ∀ file, DependsOn project changes file member →
      file ∉ reindexed →
      file ∈ (noteSurfaceChanges project changes reindexed fileSetChanged false).files

/-- Unless the files or the aliases changed, the rows of unchanged files record what their sources resolve to. -/
def Kept : Prop :=
  fileSetChanged = false → ∀ path row, changes.get path = none → project.rows.lookup path = some (some row) →
    row.targets = resolveTargets project path row.sources

end Forwarding

section Lookups

variable {project : Project} {changes : Changes} {path file member : String} {change : SurfaceChange}
  {row : Option SurfaceRow}

theorem get_iff : changes.get path = some change ↔ (path, change) ∈ changes.entries :=
  Caching.lookup_iff_mem changes.distinct

theorem row_iff : project.rows.lookup path = some row ↔ (path, row) ∈ project.rows :=
  Caching.lookup_iff_mem project.distinct

theorem mem_movedPaths : path ∈ movedPaths changes ↔ ∃ change, changes.get path = some change ∧ change.seeds := by
  simp only [movedPaths, mem_map, mem_filter, Prod.exists, exists_and_right, exists_eq_right, get_iff]

theorem mem_unchangedRows :
    (path, row) ∈ unchangedRows project changes ↔ changes.get path = none ∧ project.rows.lookup path = some row := by
  rw [unchangedRows, mem_filter, Option.isNone_iff_eq_none, row_iff, and_comm]

/-- The importers of a member are the files that depend on it. -/
theorem mem_importersOf : file ∈ importersOf project changes member ↔ DependsOn project changes file member := by
  cases found : changes.get member with
  | some change => simp [importersOf, DependsOn, found]
  | none =>
    simp only [importersOf, DependsOn, found, referenceSitesDependentOnFile, mem_flatMap, mem_filter,
      mem_map, decide_eq_true_eq, reduceCtorEq, false_and, exists_false, false_or, true_and]
    constructor
    · rintro ⟨edge, ⟨edges, kind⟩, tgt, ⟨inside, ends, here⟩, src, ⟨stored, starts, elsewhere⟩, rfl⟩
      exact ⟨elsewhere, edge, edges, kind, ⟨tgt, inside, ends, here⟩, src, stored, starts, rfl⟩
    · rintro ⟨elsewhere, edge, edges, kind, ⟨tgt, inside, ends, here⟩, src, stored, starts, rfl⟩
      exact ⟨edge, ⟨edges, kind⟩, tgt, ⟨inside, ends, here⟩, src, ⟨stored, starts, elsewhere⟩, rfl⟩

end Lookups

section Closure

variable {project : Project} {changes : Changes} {fileSetChanged : Bool} {path target : String} {row : SurfaceRow}

/-- The row of an unchanged file is read with the targets that its sources resolve to now. -/
theorem Kept.reads (kept : Kept project changes fileSetChanged) (unchanged : changes.get path = none)
    (stored : project.rows.lookup path = some (some row)) :
    (if fileSetChanged then resolveTargets project path row.sources else row.targets) =
      targetsNow project changes path := by
  simp only [targetsNow, unchanged, stored]
  cases moved : fileSetChanged with
  | true => rfl
  | false => exact kept moved path row unchanged stored

theorem seeds_readRow (kept : Kept project changes fileSetChanged) (unchanged : changes.get path = none)
    (stored : project.rows.lookup path = some (some row)) :
    (readRow project fileSetChanged path (some row)).seeds ↔ row.targets ≠ targetsNow project changes path := by
  have reads := kept.reads unchanged stored
  rw [readRow]
  split
  · rename_i sourceless
    have still : targetsNow project changes path = [] := by
      simp only [targetsNow, unchanged, stored, sourceless, resolveTargets_nil]
    simp [still, row.grounded sourceless]
  · simp only [reads, decide_eq_true_eq]
    exact ne_comm

/-- The closure starts with the seeds. -/
theorem mem_firstSeeds (kept : Kept project changes fileSetChanged) :
    path ∈ firstSeeds project changes fileSetChanged ↔ Seed project changes path := by
  rw [firstSeeds, mem_append, mem_movedPaths, Seed]
  refine or_congr_right ?_
  simp only [mem_map, mem_filter, Prod.exists, exists_and_right, exists_eq_right, mem_unchangedRows]
  constructor
  · rintro ⟨row, ⟨unchanged, stored⟩, seeds⟩
    cases row with
    | none => exact ⟨unchanged, .inl stored⟩
    | some row => exact ⟨unchanged, .inr ⟨row, stored, (seeds_readRow kept unchanged stored).mp seeds⟩⟩
  · rintro ⟨unchanged, unreadable | ⟨row, stored, moved⟩⟩
    · exact ⟨none, ⟨unchanged, unreadable⟩, rfl⟩
    · exact ⟨some row, ⟨unchanged, stored⟩, (seeds_readRow kept unchanged stored).mpr moved⟩

/-- The edges that the closure follows. -/
def Follows (project : Project) (changes : Changes) (fileSetChanged : Bool) (path target : String) : Prop :=
  ∃ barrel ∈ barrels project changes fileSetChanged, barrel.path = path ∧ target ∈ barrel.recorded ++ barrel.now

/-- The closure holds what follows a seed. -/
theorem mem_closure : path ∈ closure project changes fileSetChanged ↔
    readsRows changes fileSetChanged ∧ ∃ start ∈ firstSeeds project changes fileSetChanged,
      Relation.ReflTransGen (Follows project changes fileSetChanged) path start := by
  rw [closure]
  split
  · rename_i reads
    rw [Saturation.mem_saturate_iff]
    have same : Saturation.RestsOn ((barrels project changes fileSetChanged).map fun barrel =>
        (⟨barrel.path, barrel.recorded ++ barrel.now⟩ : Saturation.Rule String)) =
          Follows project changes fileSetChanged := by
      funext path target
      simp only [Saturation.RestsOn, Follows, mem_map, exists_exists_and_eq_and]
    rw [same]
    exact (and_iff_right reads).symm
  · rename_i still
    simp [still]

/-- The barrels are those of the changed files and of the stored rows. -/
theorem mem_barrels {barrel : Barrel} : barrel ∈ barrels project changes fileSetChanged ↔
    (∃ change, changes.get barrel.path = some change ∧ changedBarrel project barrel.path change = some barrel) ∨
      changes.get barrel.path = none ∧ ∃ row, project.rows.lookup barrel.path = some (some row) ∧
        (readRow project fileSetChanged barrel.path (some row)).barrel = some barrel := by
  simp only [barrels, mem_append, mem_filterMap, Prod.exists, ← get_iff, mem_unchangedRows]
  constructor
  · rintro (⟨path, change, found, built⟩ | ⟨path, row, ⟨unchanged, stored⟩, built⟩)
    · have named : path = barrel.path := by
        rw [changedBarrel] at built
        split at built
        · cases built
          rfl
        · cases built
      rw [named] at found built
      exact .inl ⟨change, found, built⟩
    · cases row with
      | none => cases built
      | some row =>
        have named : path = barrel.path := by
          rw [readRow] at built
          split at built
          · cases built
          · cases built
            rfl
        rw [named] at unchanged stored built
        exact .inr ⟨unchanged, row, stored, built⟩
  · rintro (⟨change, found, built⟩ | ⟨unchanged, row, stored, built⟩)
    · exact .inl ⟨_, change, found, built⟩
    · exact .inr ⟨_, some row, ⟨unchanged, stored⟩, built⟩

theorem targetsNow_changed {change : SurfaceChange} (found : changes.get path = some change) :
    targetsNow project changes path = changedNow project path change := by
  simp only [targetsNow, found, changedNow, changedRow, Option.map_map]
  rfl

/-- Every edge of the closure forwards. -/
theorem Follows.forwards (kept : Kept project changes fileSetChanged)
    (follows : Follows project changes fileSetChanged path target) : Forwards project changes path target := by
  obtain ⟨barrel, member, rfl, inside⟩ := follows
  rw [mem_append] at inside
  rcases mem_barrels.mp member with ⟨change, found, built⟩ | ⟨unchanged, row, stored, built⟩
  · rw [changedBarrel] at built
    split at built
    · obtain ⟨path, recorded, now⟩ := barrel
      simp only [Option.some.injEq, Barrel.mk.injEq, true_and] at built
      rw [Forwards, targetsNow_changed found]
      simp only [recordedTargets, found, built]
      exact inside
    · cases built
  · have reads := kept.reads unchanged stored
    rw [readRow] at built
    split at built
    · cases built
    · obtain ⟨path, recorded, now⟩ := barrel
      simp only [Option.some.injEq, Barrel.mk.injEq, true_and, reads] at built
      simp only [Forwards, recordedTargets, unchanged, stored, Option.join_some, Option.map_some, Option.getD_some,
        built]
      exact inside

/-- Every forwarding is an edge of the closure, unless the row of its module cannot be read. -/
theorem Forwards.follows (kept : Kept project changes fileSetChanged) (forwards : Forwards project changes path target)
    (readable : ¬ (changes.get path = none ∧ project.rows.lookup path = some none)) :
    Follows project changes fileSetChanged path target := by
  cases found : changes.get path with
  | some change =>
    rw [Forwards, targetsNow_changed found] at forwards
    simp only [recordedTargets, found] at forwards
    have some_ : change.old.targets ≠ [] ∨ changedNow project path change ≠ [] :=
      forwards.imp ne_nil_of_mem ne_nil_of_mem
    refine ⟨⟨path, change.old.targets, changedNow project path change⟩, mem_barrels.mpr (.inl ⟨change, found, ?_⟩),
      rfl, ?_⟩
    · exact if_pos some_
    · exact mem_append.mpr forwards
  | none =>
    cases stored : project.rows.lookup path with
    | none => simp [Forwards, recordedTargets, targetsNow, found, stored] at forwards
    | some row =>
      cases row with
      | none => exact absurd ⟨found, stored⟩ readable
      | some row =>
        have reads := kept.reads found stored
        by_cases sourceless : row.sources = []
        · simp [Forwards, recordedTargets, targetsNow, found, stored, sourceless, row.grounded sourceless,
            resolveTargets_nil] at forwards
        · refine ⟨⟨path, row.targets, targetsNow project changes path⟩,
            mem_barrels.mpr (.inr ⟨found, row, stored, ?_⟩), rfl, ?_⟩
          · simp only [readRow, dif_neg sourceless, reads]
          · rw [mem_append]
            simpa only [Forwards, recordedTargets, found, stored, Option.join_some, Option.map_some,
              Option.getD_some] using forwards

/-- The closure holds what forwards to a seed. A module whose row cannot be read is a seed itself. -/
theorem mem_closure_iff (kept : Kept project changes fileSetChanged) : path ∈ closure project changes fileSetChanged ↔
    readsRows changes fileSetChanged ∧ ∃ seed, Seed project changes seed ∧
      Relation.ReflTransGen (Forwards project changes) path seed := by
  rw [mem_closure]
  refine and_congr_right fun _ => ⟨?_, ?_⟩
  · rintro ⟨start, first, route⟩
    exact ⟨start, (mem_firstSeeds kept).mp first,
      Relation.ReflTransGen.mono (fun _ _ => Follows.forwards kept) _ _ route⟩
  · rintro ⟨seed, isSeed, route⟩
    induction route using Relation.ReflTransGen.head_induction_on with
    | refl => exact ⟨seed, (mem_firstSeeds kept).mpr isSeed, .refl⟩
    | @head path next forwards _ ih =>
      by_cases unreadable : changes.get path = none ∧ project.rows.lookup path = some none
      · exact ⟨path, (mem_firstSeeds kept).mpr (.inr ⟨unreadable.1, .inl unreadable.2⟩), .refl⟩
      · obtain ⟨start, first, route⟩ := ih
        exact ⟨start, first, .head (forwards.follows kept unreadable) route⟩

theorem readsRows_of_seeds {change : SurfaceChange} (found : changes.get path = some change) (seeds : change.seeds) :
    readsRows changes fileSetChanged := by
  have moved : movedPaths changes ≠ [] := ne_nil_of_mem (mem_movedPaths.mpr ⟨change, found, seeds⟩)
  simp [readsRows, moved]

/-- A moved module is a seed that the sync reads, or it is overlooked. -/
theorem Moved.seed (kept : Kept project changes fileSetChanged) (moved : Moved project changes path) :
    readsRows changes fileSetChanged ∧ Seed project changes path ∨ Overlooked project changes path := by
  rcases moved with ⟨change, found, moved⟩ | ⟨unchanged, row, stored, moved⟩
  · by_cases seeds : change.seeds
    · exact .inl ⟨readsRows_of_seeds found seeds, .inl ⟨change, found, seeds⟩⟩
    · refine .inr ⟨change, found, Bool.not_eq_true _ ▸ seeds, ?_⟩
      simp only [SurfaceChange.seeds, Bool.or_eq_true, decide_eq_true_eq, not_or] at seeds
      exact ((moved.resolve_left seeds.2).resolve_left seeds.1.1.1).resolve_left seeds.1.1.2
  · refine .inl ⟨?_, .inr ⟨unchanged, .inr ⟨row, stored, moved⟩⟩⟩
    cases files : fileSetChanged with
    | true => simp [readsRows]
    | false =>
      refine absurd ?_ moved
      simp only [targetsNow, unchanged, stored]
      exact kept files path row unchanged stored

/-- The closure is complete exactly when a changed module that forwards other targets behind an unmoved surface
forwards to a seed anyway. -/
theorem surface_closure_complete (project : Project) (changes : Changes) (reindexed : List String)
    (fileSetChanged : Bool) (kept : Kept project changes fileSetChanged) :
    Complete project changes fileSetChanged reindexed ↔
      ∀ path, Overlooked project changes path →
        readsRows changes fileSetChanged ∧
          ∃ seed, Seed project changes seed ∧ Relation.ReflTransGen (Forwards project changes) path seed := by
  constructor
  · intro complete path overlooked
    obtain ⟨change, found, -, moved⟩ := overlooked
    have isMoved : Moved project changes path := .inl ⟨change, found, .inr (.inr (.inr moved))⟩
    exact (mem_closure_iff kept).mp (complete.1 path path isMoved .refl)
  · intro seen
    refine ⟨fun path moved isMoved route => (mem_closure_iff kept).mpr ?_, fun member inside file depends fresh => ?_⟩
    · rcases isMoved.seed kept with ⟨reads, isSeed⟩ | overlooked
      · exact ⟨reads, moved, isSeed, route⟩
      · obtain ⟨reads, seed, isSeed, more⟩ := seen moved overlooked
        exact ⟨reads, seed, isSeed, route.trans more⟩
    · simp only [noteSurfaceChanges, Bool.false_eq_true, if_false, mem_filter, mem_flatMap, decide_eq_true_eq]
      exact ⟨⟨member, inside, mem_importersOf.mpr depends⟩, fresh⟩

/-- A barrel that forwards one module under an alias. The alias is read as the module it names. -/
def aliased (target : String) : Project where
  allFiles := [("src/index.ts", .typeScript), ("src/a.ts", .typeScript), ("src/b.ts", .typeScript),
    ("src/app.ts", .typeScript)]
  rows := [("src/index.ts", some ⟨"export * from", ["@lib"], ["src/a.ts"], by simp⟩)]
  distinct := by simp
  surfaceOnDisk _ := none
  nodes := []
  edges := []
  resolveImportPath source _ _ := if source = "@lib" then some target else none

theorem targets_aliased (target filePath : String) : resolveTargets (aliased target) filePath ["@lib"] = [target] := by
  have found : (["@lib"].flatMap fun source =>
    resolutionLanguages.filterMap ((aliased target).resolveImportPath source filePath)) =
      replicate 8 target := by
    simp [resolutionLanguages, aliased, replicate]
  rw [resolveTargets, found, replicate_dedup (by decide), mergeSort_singleton]

/-- The forwarded module gets another export. -/
def memberEdited : Changes where
  entries := [("src/a.ts", ⟨.default, some ⟨"exports x", []⟩, false, false, [], ["x"]⟩)]
  distinct := by simp

/-- The barrel gets another body, and its surface stays. -/
def barrelEdited : Changes where
  entries := [("src/index.ts",
    ⟨.stored ⟨"export * from", ["@lib"], ["src/a.ts"], by simp⟩, some ⟨"export * from", ["@lib"]⟩, false, false,
    ["src/app.ts"], []⟩)]
  distinct := by simp

/-- A forwarded member that changes. -/
theorem surface_closure_complete_member : Complete (aliased "src/a.ts") memberEdited false [] := by
  have kept : Kept (aliased "src/a.ts") memberEdited false := by
    intro _ path row _ stored
    have member := row_iff.mp stored
    simp only [aliased, mem_singleton, Prod.mk.injEq, Option.some.injEq] at member
    obtain ⟨rfl, rfl⟩ := member
    exact (targets_aliased ..).symm
  refine (surface_closure_complete (aliased "src/a.ts") memberEdited [] false kept).mpr ?_
  rintro path ⟨change, found, still, -⟩
  have member := get_iff.mp found
  simp only [memberEdited, mem_singleton, Prod.mk.injEq] at member
  obtain ⟨rfl, rfl⟩ := member
  exact absurd still (by decide)

/-- The alias of the barrel names another module now, the barrel's body changed with it, and the importers of the
barrel stay as they are. -/
theorem edited_barrel_is_overlooked : ¬ Complete (aliased "src/b.ts") barrelEdited true [] := by
  intro complete
  have moved : Moved (aliased "src/b.ts") barrelEdited "src/index.ts" := by
    refine .inl ⟨_, rfl, .inr (.inr (.inr ?_))⟩
    have now : targetsNow (aliased "src/b.ts") barrelEdited "src/index.ts" = ["src/b.ts"] := targets_aliased ..
    rw [now]
    decide
  obtain ⟨-, start, first, -⟩ := mem_closure.mp (complete.1 _ _ moved .refl)
  exact absurd first (by decide +revert)

end Closure

end Codegraph.Lanes.Surfaces
