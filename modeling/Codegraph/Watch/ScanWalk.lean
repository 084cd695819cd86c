import Codegraph.Library.FileTrees
import Codegraph.Watch.ScopeParity
import Mathlib.Data.Char
import Mathlib.Data.List.Lex

/- This file models the project scan: the walk of the real tree, and the links that it follows afterwards. -/

namespace Codegraph.Watch.Scope.Scan
open FileTrees List

/-- The disk that a scan reads, and the path that leads to the project. -/
structure Disk where
  root : FileTree Text
  formed : root.WellFormed IsSegment
  followLimit : Nat
  project : List (Step Text)

section Reading

variable (disk : Disk)

/-- The real path of a path in the project. -/
def Disk.canonicalize (path : List Text) : Option (List Text) :=
  disk.root.resolve disk.followLimit [] (disk.project ++ path.map .into)

/-- What a path leads to, behind its links. -/
def Disk.metadata (path : List Text) : Option (FileTree Text) := (disk.canonicalize path).bind disk.root.at

/-- What a path names, a link at its end included. -/
def Disk.symlinkMetadata (path : List Text) : Option (FileTree Text) :=
  (disk.canonicalize path.dropLast).bind fun dir => disk.root.at (dir ++ path.getLast?.toList)

def Disk.readDir (path : List Text) : Option (Forest Text) :=
  match disk.metadata path with
  | some (.directory true entries) => some entries
  | _ => none

def kindOf : Option (FileTree Text) → EntryKind
  | none => .missing
  | some .file => .file
  | some (.directory ..) => .directory
  | some (.symlink ..) => .symlink
  | some .other => .other

end Reading

/-- A project on a disk, with what the scan's rules read. -/
structure Checkout where
  disk : Disk
  gitignore : RootGitignore
  indexRoot : Option Text
  extractable : Text → Bool

def Checkout.project (checkout : Checkout) : Project where
  gitignore := checkout.gitignore
  indexRoot := checkout.indexRoot
  extractable := checkout.extractable
  tree relative := kindOf (checkout.disk.symlinkMetadata relative.segments)

/-- The directories that no link may lead into. -/
def Checkout.blocked (checkout : Checkout) : List (List Text) :=
  [".git".toList] :: checkout.project.reservedRoots.map Text.segments

/-- The value of a key changes in its place, and a new key goes to its place in the order. -/
def alter {κ V : Type} [DecidableEq κ] (less : κ → κ → Bool) (key : κ) (change : Option V → V) :
    List (κ × V) → List (κ × V)
  | [] => [(key, change none)]
  | (first, value) :: rest =>
    if key = first then (first, change (some value)) :: rest
    else if less key first then (key, change none) :: (first, value) :: rest
    else (first, value) :: alter less key change rest

def textLess (first second : Text) : Bool := Decidable.decide (first < second)

/-- Fewer hops first, then by the logical path. -/
def hopLess (first second : Nat × Text) : Bool :=
  Decidable.decide (first.1 < second.1) || Decidable.decide (first.1 = second.1) && textLess first.2 second.2

structure LinkedDir where
  hops : Nat
  relative : Text
  path : List Text
  canonical : List Text
  state : GitignoreAncestry

structure LinkWalk where
  canonicalRoot : Option (List Text)
  blocked : List (List Text)
  scanned : List (List Text × Text)
  queue : List ((Nat × Text) × List Text × GitignoreAncestry)

section Links

variable (disk : Disk) (links : LinkWalk)

def LinkWalk.new (blocked : List (List Text)) : LinkWalk where
  canonicalRoot := disk.canonicalize []
  blocked := blocked.filterMap disk.canonicalize
  scanned := []
  queue := []

def LinkWalk.isBlocked (canonical : List Text) : Bool :=
  links.blocked.any fun blocked => Decidable.decide (blocked <+: canonical)

/-- A directory is recorded unless it was scanned or lies in a blocked one. -/
def LinkWalk.enter (canonical : List Text) (relative : Text) : Option LinkWalk :=
  if links.isBlocked canonical then none
  else if canonical ∈ links.scanned.map Prod.fst then none
  else some { links with scanned := links.scanned ++ [(canonical, relative)] }

def LinkWalk.enqueue (hops : Nat) (relative : Text) (path : List Text) (state : GitignoreAncestry) : LinkWalk :=
  { links with queue := alter hopLess (hops, relative) (·.getD (path, state)) links.queue }

def LinkWalk.nextFrom (root : List Text) :
    List ((Nat × Text) × List Text × GitignoreAncestry) → Option (LinkedDir × LinkWalk)
  | [] => none
  | ((hops, relative), path, state) :: rest =>
    match disk.canonicalize path with
    | none => LinkWalk.nextFrom root rest
    | some canonical =>
      if canonical <+: root ∨ (disk.readDir path).isNone then LinkWalk.nextFrom root rest
      else
        match ({ links with queue := rest } : LinkWalk).enter canonical relative with
        | none => LinkWalk.nextFrom root rest
        | some links => some (⟨hops, relative, path, canonical, state⟩, links)

/-- The next queued directory to follow, which is never the project root or one above it. -/
def LinkWalk.next : Option (LinkedDir × LinkWalk) :=
  links.canonicalRoot.bind fun root => links.nextFrom disk root links.queue

/-- The target of a link to a file, unless it lies in a blocked directory. -/
def LinkWalk.fileTarget (path : List Text) : Option (List Text) :=
  links.canonicalRoot.bind fun _ => (disk.canonicalize path).filter fun canonical => !links.isBlocked canonical

def LinkWalk.logicalDir (canonical : List Text) : Option Text := links.scanned.lookup canonical

end Links

inductive LinkKind where
  | file
  | dir
  deriving DecidableEq

structure FollowedLink where
  relative : Text
  canonical : List Text
  kind : LinkKind

structure ScanWalk where
  links : LinkWalk
  files : List Text
  unsupportedByExtension : List (Text × Nat)
  followed : List FollowedLink
  linkedDirs : List Text
  fileLinks : List (Text × List Text)

structure ScanProjectResult where
  files : List Text
  unsupportedByExtension : List (Text × Nat)
  links : List FollowedLink
  linkedDirs : List Text
  fileAliases : List (Text × List Text)

/-- What follows the last dot of a file's name. A name that only begins with a dot has no extension. -/
def unsupportedExtension (relative : Text) : Option Text :=
  let name := relative.segments.getLastD []
  let stem := name.rdropWhile (· ≠ '.')
  let extension := name.drop stem.length
  if stem.length ≤ 1 ∨ extension = [] then none else some ('.' :: extension.map Char.toLower)

/-- A file that the rules admit is kept, or its extension is counted. -/
def ScanWalk.admitFile (state : ScanWalk) (relative : Text) (target : Option (List Text)) (extractable : Bool) :
    ScanWalk :=
  if extractable then
    { state with
      followed := state.followed ++ (target.map fun target => ⟨relative, target, .file⟩).toList
      fileLinks := state.fileLinks ++ (target.map fun target => (relative, target)).toList
      files := state.files ++ [relative] }
  else
    match unsupportedExtension relative with
    | some extension =>
      { state with
        unsupportedByExtension :=
          alter textLess extension (fun count => count.getD 0 + 1) state.unsupportedByExtension }
    | none => state

def readError (path : List Text) : Text := "read dir ".toList ++ joinSegments path

section Walk

variable (config : ScopeConfig) (checkout : Checkout)

def Checkout.resolvesToDir (checkout : Checkout) (path : List Text) : FileTree Text → Bool
  | .directory .. => true
  | .symlink .. => kindOf (checkout.disk.metadata path) = .directory
  | _ => false

/-- A link is judged at its logical path by what it resolves to. A directory behind it waits for the next hop level. -/
def scanLink (path : List Text) (above : GitignoreAncestry) (hops : Nat) (state : ScanWalk) : ScanWalk :=
  match kindOf (checkout.disk.metadata path) with
  | .directory =>
    match decide config checkout.project (joinSegments path) true above with
    | .descend next => { state with links := state.links.enqueue (hops + 1) (joinSegments path) path next }
    | _ => state
  | .file =>
    match decide config checkout.project (joinSegments path) false above with
    | .file extractable =>
      match state.links.fileTarget checkout.disk path with
      | some target => state.admitFile (joinSegments path) (some target) extractable
      | none => state
    | _ => state
  | _ => state

mutual

/-- One entry of a directory that the scan reads. -/
def scanEntry (name : Text) (tree : FileTree Text) (dir canonicalDir : List Text) (above : GitignoreAncestry)
    (hops : Nat)
    (state : ScanWalk) : Except Text ScanWalk :=
  let path := dir ++ [name]
  let relative := joinSegments path
  if prunesByName config checkout.project dir name relative (checkout.resolvesToDir path tree) then .ok state
  else
    match tree with
    | .symlink .. => .ok (scanLink config checkout path above hops state)
    | .directory readable entries =>
      match decide config checkout.project relative true above with
      | .descend next =>
        match state.links.enter (canonicalDir ++ [name]) relative with
        | none => .ok state
        | some links =>
          let state := { state with links, linkedDirs :=
            if hops > 0 then state.linkedDirs ++ [relative] else state.linkedDirs }
          if readable then scanEntries entries path (canonicalDir ++ [name]) next hops state
            else .error (readError path)
      | _ => .ok state
    | .file =>
      match decide config checkout.project relative false above with
      | .file extractable => .ok (state.admitFile relative none extractable)
      | _ => .ok state
    | .other => .ok state

/-- The entries of a directory, one after the other. -/
def scanEntries (entries : Forest Text) (dir canonicalDir : List Text) (above : GitignoreAncestry) (hops : Nat)
    (state : ScanWalk) : Except Text ScanWalk :=
  match entries with
  | .nil => .ok state
  | .cons name tree rest =>
    (scanEntry name tree dir canonicalDir above hops state).bind (scanEntries rest dir canonicalDir above hops)

end

end Walk

/-- What lies below a tree at some names goes through a link. -/
def Through (tree : FileTree Text) (names : List Text) : Prop :=
  ∃ front, front <+: names ∧ ∃ found, tree.at front = some found ∧ found.isSymlink = true

/-- What a part of a scan adds: directories and files at names below its directory, and links to follow later. -/
structure Adds (dir canonicalDir : List Text) (may linked : List Text → Prop) (before after : ScanWalk) : Prop where
  canonicalRoot : after.links.canonicalRoot = before.links.canonicalRoot
  blocked : after.links.blocked = before.links.blocked
  keepsScanned : before.links.scanned ⊆ after.links.scanned
  keepsFiles : before.files ⊆ after.files
  scanned : ∀ pair ∈ after.links.scanned,
    pair ∈ before.links.scanned ∨ ∃ names, may names ∧ pair = (canonicalDir ++ names, joinSegments (dir ++ names))
  files : ∀ file ∈ after.files, file ∈ before.files ∨ ∃ names, may names ∧ file = joinSegments (dir ++ names)
  queue : ∀ entry ∈ after.links.queue,
    entry ∈ before.links.queue ∨
      ∃ names, linked names ∧ entry.1.2 = joinSegments (dir ++ names) ∧ entry.2.1 = dir ++ names

/-- The names that an entry may add: its own and what lies below it. -/
def EntryMay (name : Text) (names : List Text) : Prop :=
  ∃ rest, names = name :: rest ∧ ∀ segment ∈ names, IsSegment segment

def EntryLinked (name : Text) (tree : FileTree Text) (names : List Text) : Prop :=
  EntryMay name names ∧ Through tree names.tail

def EntriesMay (entries : Forest Text) (names : List Text) : Prop := ∃ name ∈ entries.names, EntryMay name names

def EntriesLinked (entries : Forest Text) (names : List Text) : Prop :=
  EntriesMay entries names ∧ Through (.directory true entries) names

section Additions

variable {dir canonicalDir : List Text} {may wider linked widerLinked : List Text → Prop}
  {before middle after : ScanWalk} {name : Text} {tree : FileTree Text} {entries rest : Forest Text} {names : List Text}

theorem Adds.refl : Adds dir canonicalDir may linked before before where
  canonicalRoot := rfl
  blocked := rfl
  keepsScanned := .refl _
  keepsFiles := .refl _
  scanned _ := .inl
  files _ := .inl
  queue _ := .inl

theorem Adds.trans (first : Adds dir canonicalDir may linked before middle)
    (second : Adds dir canonicalDir may linked middle after) : Adds dir canonicalDir may linked before after where
  canonicalRoot := second.canonicalRoot.trans first.canonicalRoot
  blocked := second.blocked.trans first.blocked
  keepsScanned := List.Subset.trans first.keepsScanned second.keepsScanned
  keepsFiles := List.Subset.trans first.keepsFiles second.keepsFiles
  scanned pair member := (second.scanned pair member).elim (first.scanned pair) .inr
  files file member := (second.files file member).elim (first.files file) .inr
  queue entry member := (second.queue entry member).elim (first.queue entry) .inr

/-- What is added below an inner directory is added below the outer one. -/
theorem Adds.lift (inner : List Text) (adds : Adds (dir ++ inner) (canonicalDir ++ inner) may linked before after)
    (wide : ∀ names, may names → wider (inner ++ names))
    (wideLinked : ∀ names, linked names → widerLinked (inner ++ names)) :
    Adds dir canonicalDir wider widerLinked before after where
  canonicalRoot := adds.canonicalRoot
  blocked := adds.blocked
  keepsScanned := adds.keepsScanned
  keepsFiles := adds.keepsFiles
  scanned pair member := by
    refine (adds.scanned pair member).imp_right ?_
    rintro ⟨names, inside, rfl⟩
    exact ⟨inner ++ names, wide names inside, by rw [← append_assoc, ← append_assoc]⟩
  files file member := by
    refine (adds.files file member).imp_right ?_
    rintro ⟨names, inside, rfl⟩
    exact ⟨inner ++ names, wide names inside, by rw [← append_assoc]⟩
  queue entry member := by
    refine (adds.queue entry member).imp_right ?_
    rintro ⟨names, inside, relative, path⟩
    exact ⟨inner ++ names, wideLinked names inside, by
      rw [← append_assoc, relative], by rw [← append_assoc, path]⟩

theorem Adds.mono (adds : Adds dir canonicalDir may linked before after) (wide : ∀ names, may names → wider names)
    (wideLinked : ∀ names, linked names → widerLinked names) : Adds dir canonicalDir wider widerLinked before after :=
  .lift [] (by simpa using adds) wide wideLinked

theorem enter_eq_some {links entered : LinkWalk} {canonical : List Text} {relative : Text} :
    links.enter canonical relative = some entered ↔
      links.isBlocked canonical = false ∧ canonical ∉ links.scanned.map Prod.fst ∧
        { links with scanned := links.scanned ++ [(canonical, relative)] } = entered := by
  rw [LinkWalk.enter]
  split
  · simp [*]
  · split
    · simp [*]
    · simp [*]

theorem Adds.enter {links : LinkWalk} {linkedDirs : List Text}
    (entered : before.links.enter (canonicalDir ++ names) (joinSegments (dir ++ names)) = some links)
    (inside : may names) : Adds dir canonicalDir may linked before { before with links, linkedDirs } := by
  obtain ⟨-, -, rfl⟩ := enter_eq_some.mp entered
  refine ⟨rfl, rfl, subset_append_left .., .refl _, fun pair member => ?_, fun _ => .inl, fun _ => .inl⟩
  exact (mem_append.mp member).imp_right fun last => ⟨names, inside, mem_singleton.mp last⟩

theorem Adds.admitFile (inside : may names) {target : Option (List Text)} {extractable : Bool} :
    Adds dir canonicalDir may linked before (before.admitFile (joinSegments (dir ++ names)) target extractable) := by
  rw [ScanWalk.admitFile]
  split
  · refine ⟨rfl, rfl, .refl _, subset_append_left ..,
      fun _ => .inl, fun file member => ?_, fun _ => .inl⟩
    exact (mem_append.mp member).imp_right fun last => ⟨names, inside, mem_singleton.mp last⟩
  · split
    · exact ⟨rfl, rfl, .refl _, .refl _, fun _ => .inl, fun _ => .inl, fun _ => .inl⟩
    · exact .refl

theorem mem_alter {κ V : Type} [DecidableEq κ] {less : κ → κ → Bool} {key : κ} {value : V} {table : List (κ × V)}
    {entry : κ × V} (member : entry ∈ alter less key (·.getD value) table) : entry ∈ table ∨ entry = (key, value) := by
  induction table with
  | nil => exact .inr (mem_singleton.mp member)
  | cons first rest ih =>
    obtain ⟨place, old⟩ := first
    rw [alter] at member
    split at member
    · exact .inl (by simpa using member)
    · split at member
      · rcases mem_cons.mp member with rfl | later
        · exact .inr rfl
        · exact .inl later
      · rcases mem_cons.mp member with rfl | later
        · exact .inl (mem_cons_self ..)
        · exact (ih later).imp_left (mem_cons_of_mem _)

theorem Adds.enqueue (inside : linked names) {hops : Nat} {state : GitignoreAncestry} :
    Adds dir canonicalDir may linked before
      { before with links := before.links.enqueue hops (joinSegments (dir ++ names)) (dir ++ names) state } := by
  refine ⟨rfl, rfl, .refl _, .refl _, fun _ => .inl, fun _ => .inl, fun entry member => ?_⟩
  refine (mem_alter member).imp_right ?_
  rintro rfl
  exact ⟨names, inside, rfl, rfl⟩

theorem through_symlink {absolute : Bool} {target : List (Step Text)} : Through (.symlink absolute target) names :=
  ⟨[], nil_prefix, _, rfl, rfl⟩

theorem Through.below {readable : Bool} (through : Through (.directory true entries) names) :
    Through (.directory readable entries) names := by
  obtain ⟨front, starts, found, looked, link⟩ := through
  cases front with
  | nil =>
    cases looked
    cases link
  | cons first front => exact ⟨first :: front, starts, found, looked, link⟩

theorem through_head (through : Through tree names) : Through (.directory true (.cons name tree rest))
    (name :: names) := by
  obtain ⟨front, starts, found, looked, link⟩ := through
  refine ⟨name :: front, cons_prefix_cons.mpr ⟨rfl, starts⟩, found, ?_, link⟩
  rw [FileTree.at, Forest.find?, if_pos rfl]
  exact looked

theorem through_rest {first : Text} (other : first ≠ name) (through : Through (.directory true rest) (name :: names)) :
    Through (.directory true (.cons first tree rest)) (name :: names) := by
  obtain ⟨front, starts, found, looked, link⟩ := through
  cases front with
  | nil =>
    cases looked
    cases link
  | cons head front =>
    obtain ⟨rfl, below⟩ := cons_prefix_cons.mp starts
    refine ⟨head :: front, starts, found, ?_, link⟩
    rw [FileTree.at, Forest.find?, if_neg other]
    exact looked

end Additions

section Growth

variable {config : ScopeConfig} {checkout : Checkout}

theorem scanEntries_cons {name : Text} {tree : FileTree Text} {rest : Forest Text} {dir canonicalDir : List Text}
    {above : GitignoreAncestry} {hops : Nat} {before after : ScanWalk}
    (scanned : scanEntries config checkout (.cons name tree rest) dir canonicalDir above hops before = .ok after) :
    ∃ middle, scanEntry config checkout name tree dir canonicalDir above hops before = .ok middle ∧
      scanEntries config checkout rest dir canonicalDir above hops middle = .ok after := by
  rw [scanEntries] at scanned
  cases first : scanEntry config checkout name tree dir canonicalDir above hops before with
  | error text =>
    rw [first] at scanned
    cases scanned
  | ok middle =>
    rw [first] at scanned
    exact ⟨middle, rfl, scanned⟩

mutual

/-- A scan of an entry adds only what lies below it. -/
theorem scanEntry_adds {name : Text} {tree : FileTree Text} {dir canonicalDir : List Text} {above : GitignoreAncestry}
    {hops : Nat} {before after : ScanWalk} (good : IsSegment name) (formed : tree.WellFormed IsSegment)
    (scanned : scanEntry config checkout name tree dir canonicalDir above hops before = .ok after) :
    Adds dir canonicalDir (EntryMay name) (EntryLinked name tree) before after := by
  have own : EntryMay name [name] := ⟨[], rfl, by simpa using good⟩
  rw [scanEntry.eq_def] at scanned
  simp only at scanned
  split at scanned
  · cases scanned
    exact .refl
  · split at scanned
    · rename_i absolute target
      cases scanned
      rw [scanLink]
      split
      · split
        · exact .enqueue ⟨own, through_symlink⟩
        · exact .refl
      · split
        · split
          · exact .admitFile own
          · exact .refl
        · exact .refl
      · exact .refl
    · rename_i readable entries
      split at scanned
      · split at scanned
        · cases scanned
          exact .refl
        · rename_i links entered
          split at scanned
          · rw [FileTree.WellFormed] at formed
            refine (Adds.enter entered own).trans ((scanEntries_adds formed scanned).lift [name] ?_ ?_)
            · rintro names ⟨first, -, rest, rfl, segments⟩
              exact ⟨first :: rest, rfl, forall_mem_cons.mpr ⟨good, segments⟩⟩
            · rintro names ⟨⟨first, -, rest, rfl, segments⟩, through⟩
              exact ⟨⟨first :: rest, rfl, forall_mem_cons.mpr ⟨good, segments⟩⟩, through.below⟩
          · cases scanned
      · cases scanned
        exact .refl
    · split at scanned
      · cases scanned
        exact .admitFile own
      · cases scanned
        exact .refl
    · cases scanned
      exact .refl

/-- A scan of entries adds only what lies below them. -/
theorem scanEntries_adds {entries : Forest Text} {dir canonicalDir : List Text} {above : GitignoreAncestry} {hops : Nat}
    {before after : ScanWalk} (formed : entries.WellFormed IsSegment)
    (scanned : scanEntries config checkout entries dir canonicalDir above hops before = .ok after) :
    Adds dir canonicalDir (EntriesMay entries) (EntriesLinked entries) before after := by
  cases entries with
  | nil =>
    cases scanned
    exact .refl
  | cons name tree rest =>
    obtain ⟨middle, first, second⟩ := scanEntries_cons scanned
    rw [Forest.WellFormed] at formed
    obtain ⟨good, fresh, formedTree, formedRest⟩ := formed
    refine ((scanEntry_adds good formedTree first).mono ?_ ?_).trans ((scanEntries_adds formedRest second).mono ?_ ?_)
    · exact fun names own => ⟨name, mem_cons_self .., own⟩
    · rintro names ⟨own, through⟩
      obtain ⟨below, rfl, -⟩ := id own
      exact ⟨⟨name, mem_cons_self .., own⟩, through_head through⟩
    · rintro names ⟨other, member, own⟩
      exact ⟨other, mem_cons_of_mem _ member, own⟩
    · rintro names ⟨⟨other, member, own⟩, through⟩
      obtain ⟨below, rfl, -⟩ := id own
      exact ⟨⟨other, mem_cons_of_mem _ member, own⟩, through_rest (fun same => fresh (same ▸ member)) through⟩

end

end Growth

section Following

variable (config : ScopeConfig) (checkout : Checkout)

def scanDir (dir canonicalDir : List Text) (above : GitignoreAncestry) (hops : Nat) (state : ScanWalk) :
    Except Text ScanWalk :=
  match checkout.disk.readDir dir with
  | none => .error (readError dir)
  | some entries => scanEntries config checkout entries dir canonicalDir above hops state

variable {config checkout} {dir canonicalDir root : List Text} {above : GitignoreAncestry} {hops : Nat}
  {before after : ScanWalk}
  {links entered : LinkWalk} {linked : LinkedDir} {queue : List ((Nat × Text) × List Text × GitignoreAncestry)}

theorem readDir_eq_some {disk : Disk} {path : List Text} {entries : Forest Text}
    (read : disk.readDir path = some entries) :
    ∃ canonical, disk.canonicalize path = some canonical ∧ disk.root.at canonical = some (.directory true entries) := by
  rw [Disk.readDir] at read
  split at read
  · rename_i forest found
    cases read
    exact Option.bind_eq_some_iff.mp found
  · cases read

theorem readDir_formed {disk : Disk} {path : List Text} {entries : Forest Text}
    (read : disk.readDir path = some entries) : entries.WellFormed IsSegment := by
  obtain ⟨canonical, -, found⟩ := readDir_eq_some read
  exact disk.formed.at found

theorem scanDir_adds (scanned : scanDir config checkout dir canonicalDir above hops before = .ok after) :
    ∃ entries, checkout.disk.readDir dir = some entries ∧
      Adds dir canonicalDir (EntriesMay entries) (EntriesLinked entries) before after := by
  rw [scanDir] at scanned
  split at scanned
  · cases scanned
  · rename_i entries read
    exact ⟨entries, read, scanEntries_adds (readDir_formed read) scanned⟩

/-- A directory to follow was queued, can be read, and was not scanned before. -/
theorem nextFrom_eq_some {disk : Disk} (popped : links.nextFrom disk root queue = some (linked, entered)) :
    ((linked.hops, linked.relative), linked.path, linked.state) ∈ queue ∧
      (∃ entries, disk.readDir linked.path = some entries) ∧
      disk.canonicalize linked.path = some linked.canonical ∧
      ∃ rest ⊆ queue,
        ({ links with queue := rest } : LinkWalk).enter linked.canonical linked.relative = some entered := by
  induction queue with
  | nil => cases popped
  | cons first queue ih =>
    obtain ⟨⟨hops, relative⟩, path, state⟩ := first
    have skip (popped : links.nextFrom disk root queue = some (linked, entered)) :
        ((linked.hops, linked.relative), linked.path, linked.state) ∈ ((hops, relative), path, state) :: queue ∧
          (∃ entries, disk.readDir linked.path = some entries) ∧
            disk.canonicalize linked.path = some linked.canonical ∧
          ∃ rest ⊆ ((hops, relative), path, state) :: queue,
            ({ links with queue := rest } : LinkWalk).enter linked.canonical linked.relative = some entered := by
      obtain ⟨member, read, real, rest, inside, enters⟩ := ih popped
      exact ⟨mem_cons_of_mem _ member, read, real, rest, subset_cons_of_subset _ inside, enters⟩
    rw [LinkWalk.nextFrom] at popped
    split at popped
    · exact skip popped
    · rename_i canonical real
      split at popped
      · exact skip popped
      · rename_i open_
        split at popped
        · exact skip popped
        · rename_i links enters
          cases popped
          simp only [not_or, Option.isNone_iff_eq_none, ← Option.ne_none_iff_exists'] at open_ ⊢
          exact ⟨mem_cons_self .., open_.2, real, queue, subset_cons_self .., enters⟩

/-- The directories of the disk that are still to be scanned. -/
def unscanned (checkout : Checkout) (links : LinkWalk) : Nat :=
  (checkout.disk.root.directories.filter fun dir => dir ∉ links.scanned.map Prod.fst).length

/-- The walk as it is before the next directory behind a link is scanned. -/
def ScanWalk.follow (state : ScanWalk) (linked : LinkedDir) (links : LinkWalk) : ScanWalk :=
  { state with
    links
    followed := state.followed ++ [⟨linked.relative, linked.canonical, .dir⟩]
    linkedDirs := state.linkedDirs ++ [linked.relative] }

/-- Following a link leaves fewer directories unscanned. -/
theorem unscanned_next (popped : before.links.next checkout.disk = some (linked, links))
    (scanned : scanDir config checkout linked.path linked.canonical linked.state linked.hops
      (before.follow linked links) = .ok after) : unscanned checkout after.links < unscanned checkout before.links := by
  obtain ⟨root, -, popped⟩ := Option.bind_eq_some_iff.mp popped
  obtain ⟨-, ⟨entries, read⟩, real, rest, -, enters⟩ := nextFrom_eq_some popped
  obtain ⟨-, fresh, rfl⟩ := enter_eq_some.mp enters
  obtain ⟨_, -, adds⟩ := scanDir_adds scanned
  have here : linked.canonical ∈ checkout.disk.root.directories := by
    obtain ⟨canonical, same, found⟩ := readDir_eq_some read
    rw [real] at same
    cases same
    exact FileTree.mem_directories found
  have now : linked.canonical ∈ after.links.scanned.map Prod.fst :=
    mem_map_of_mem (adds.keepsScanned (mem_append_right _ (mem_singleton_self _)))
  have grows : ∀ dir ∈ before.links.scanned.map Prod.fst, dir ∈ after.links.scanned.map Prod.fst := by
    intro dir member
    obtain ⟨pair, inside, rfl⟩ := mem_map.mp member
    exact mem_map_of_mem (adds.keepsScanned (mem_append_left _ inside))
  have kept : (checkout.disk.root.directories.filter fun dir => dir ∉ after.links.scanned.map Prod.fst) =
      (checkout.disk.root.directories.filter fun dir => dir ∉ before.links.scanned.map Prod.fst).filter
        fun dir => dir ∉ after.links.scanned.map Prod.fst := by
    rw [filter_filter]
    refine filter_congr fun dir _ => ?_
    by_cases later : dir ∈ after.links.scanned.map Prod.fst
    · simp [later]
    · have earlier : dir ∉ before.links.scanned.map Prod.fst := fun inside => later (grows dir inside)
      simp only [later, earlier, not_false_eq_true, decide_true, Bool.and_self]
  rw [unscanned, kept, unscanned]
  refine length_filter_lt_length_iff_exists.mpr
    ⟨linked.canonical, mem_filter.mpr ⟨here, decide_eq_true fresh⟩, ?_⟩
  simpa using now

variable (config checkout)

/-- The directories behind links, fewest hops first. -/
def followLinks (state : ScanWalk) : Except Text ScanWalk :=
  match _ : state.links.next checkout.disk with
  | none => .ok state
  | some (linked, links) =>
    match _ :
        scanDir config checkout linked.path linked.canonical linked.state linked.hops (state.follow linked links) with
    | .error text => .error text
    | .ok after => followLinks after
termination_by unscanned checkout state.links
decreasing_by exact unscanned_next ‹_› ‹_›

def emptyWalk (checkout : Checkout) : ScanWalk where
  links := .new checkout.disk checkout.blocked
  files := []
  unsupportedByExtension := []
  followed := []
  linkedDirs := []
  fileLinks := []

/-- The walk with its root recorded. A root that cannot be resolved cannot be read either. -/
def startWalk (checkout : Checkout) : ScanWalk :=
  let links := (emptyWalk checkout).links
  { emptyWalk checkout with links := (links.enter (links.canonicalRoot.getD []) []).getD links }

def scanWalk : Except Text ScanWalk :=
  (scanDir config checkout [] ((startWalk checkout).links.canonicalRoot.getD []) .root 0 (startWalk checkout)).bind
    (followLinks config checkout)

/-- A file link is an alias of its target where a directory with the target was scanned. -/
def ScanWalk.fileAliases (state : ScanWalk) : List (Text × List Text) :=
  let aliases := state.fileLinks.foldl
    (fun aliases (link, target) =>
      match target.getLast?, state.links.logicalDir target.dropLast with
      | some name, some dir =>
        alter textLess (if dir = [] then name else dir ++ '/' :: name) (fun old => old.getD [] ++ [link]) aliases
      | _, _ => aliases) []
  aliases.map fun (primary, links) => (primary, links.mergeSort)

def ScanWalk.finish (state : ScanWalk) : ScanProjectResult where
  files := state.files.mergeSort
  unsupportedByExtension := state.unsupportedByExtension
  links := state.followed.mergeSort fun left right => Decidable.decide (left.relative ≤ right.relative)
  linkedDirs := state.linkedDirs.mergeSort
  fileAliases := state.fileAliases

def scanProjectWithStats : Except Text ScanProjectResult := (scanWalk config checkout).map ScanWalk.finish

end Following

end Codegraph.Watch.Scope.Scan
