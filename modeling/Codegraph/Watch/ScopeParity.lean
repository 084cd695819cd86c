import Codegraph.Watch.Scope

/- This file shows for which files the watcher's scope is the scan's scope. -/

namespace Codegraph.Watch.Scope
open List

/-- A name inside a directory is not empty, has no slash, and points at neither its own directory nor the one above. -/
def IsSegment (segment : Text) : Prop :=
  segment ≠ [] ∧ '/' ∉ segment ∧ segment ≠ ".".toList ∧ segment ≠ "..".toList

instance (segment : Text) : Decidable (IsSegment segment) := inferInstanceAs (Decidable (_ ∧ _ ∧ _ ∧ _))

/-- The directories that lead to a path, from the root down, each with the directories above it. -/
def walk : List Text → List Text → List (List Text × Text)
  | _, [] => []
  | parent, name :: rest => (parent, name) :: walk (parent ++ [name]) rest

/-- The path of one directory of a walk. -/
def visited (visit : List Text × Text) : Text := joinSegments (visit.1 ++ [visit.2])

/-- An existing regular file that the scan can extract, with no link on its path. -/
structure SourceFile (project : Scan.Project) where
  directories : List Text
  name : Text
  segments : ∀ segment ∈ directories ++ [name], IsSegment segment
  above : ∀ visit ∈ walk [] directories, project.tree (visited visit) = .directory
  regular : project.tree (joinSegments (directories ++ [name])) = .file
  extractable : project.extractable (joinSegments (directories ++ [name])) = true

section Conditions

variable (config : ScopeConfig) {project : Scan.Project} (file : SourceFile project)

def SourceFile.path : Text := joinSegments (file.directories ++ [file.name])

def SourceFile.first : Text := (file.directories ++ [file.name]).headD []

/-- The first segment is one of the data directories that the watcher leaves alone. -/
def SourceFile.reserved : Prop :=
  file.first = ".git".toList ∨ file.first = ".codegraph".toList ∨ file.first.startsWith ".codegraph-".toList = true

def SourceFile.watchOnly : Prop := ∃ dir ∈ file.directories, dir ∈ Policy.watchOnlyDefaultIgnoreDirs

/-- The watcher and the scan agree on one file and on the directories above it. -/
def ScopesAgree : Prop :=
  (Policy.allowsFilePath config project.gitignore file.path = true →
    Scan.scanMembership config project file.path false = .admitted) ∧
  (Scan.scanMembership config project file.path false = .admitted → ¬ file.reserved → ¬ file.watchOnly →
    Policy.allowsFilePath config project.gitignore file.path = true ∧
      ∀ visit ∈ walk [] file.directories, Policy.shouldWatchDir config project.gitignore (visited visit) = true)

/-- What the patterns and the rules of git say about one path. -/
def streamIgnores (config : ScopeConfig) (gitignore : RootGitignore) (relative : Text) (isDir : Bool) : Bool :=
  Scan.isPathIgnored relative [config.ignorePaths, config.excludePatterns] (gitignore.verdict relative isDir)

/-- A directory above the file has an ignored name and is no package of the JVM languages. -/
def SourceFile.belowNamed : Prop :=
  ∃ visit ∈ walk [] file.directories, visit.2 ∈ config.ignoreDirs ∧
    ¬ (visit.2 = "build".toList ∧ isJvmSourceBuildDir (visited visit) = true)

/-- The patterns ignore the file itself, and no include pattern takes it back. -/
def SourceFile.dropped : Prop :=
  streamIgnores config project.gitignore file.path false = true ∧ Scan.forces config file.path = false

/-- The patterns ignore a directory above the file, and no include pattern lets the scan enter it. -/
def SourceFile.hidden : Prop :=
  ∃ visit ∈ walk [] file.directories, streamIgnores config project.gitignore (visited visit) true = true ∧
    Scan.wantsDescend config (visited visit) = false

/-- The file is, or lies below, the configured index root. -/
def SourceFile.insideIndexRoot : Prop :=
  ∃ visit ∈ walk [] (file.directories ++ [file.name]), project.indexRoot = some (visited visit)

/-- The rules that only the scan applies to the file. -/
def SourceFile.scanOnly : Prop :=
  file.name ∈ config.ignoreDirs ∨ file.insideIndexRoot ∨ file.hidden config

/-- The directory rules that are not the name of one directory. -/
def oddRules : List Text :=
  ((config.ignoreDirs.filter fun dir => dir = [] || '/' ∈ dir).map (· ++ "/".toList)) ++ Policy.toolForms

/-- The rules that only the watcher applies to the file. -/
def SourceFile.policyOnly : Prop :=
  ∃ pattern ∈ oddRules config, Policy.ruleMatches pattern file.path false = true

end Conditions

section Paths

variable {segments parent : List Text} {name next : Text}

theorem joinSegments_single : joinSegments [name] = name := by
  simp [joinSegments, intercalate]

theorem joinSegments_both {first second : List Text} (nonempty : first ≠ []) (more : second ≠ []) :
    joinSegments (first ++ second) = joinSegments first ++ '/' :: joinSegments second := by
  induction first with
  | nil => exact (nonempty rfl).elim
  | cons head tail ih =>
    cases tail with
    | nil =>
      obtain ⟨next, rest, rfl⟩ := exists_cons_of_ne_nil more
      simp [joinSegments, intercalate]
    | cons next rest =>
      have later := ih (by simp)
      simp only [joinSegments, cons_append, intercalate_cons_cons] at later ⊢
      rw [later]
      simp

theorem joinSegments_append (nonempty : parent ≠ []) :
    joinSegments (parent ++ [name]) = joinSegments parent ++ '/' :: name := by
  rw [joinSegments_both nonempty (by simp), joinSegments_single]

/-- The ancestry at one more component carries the directory before it. -/
theorem above_extend (gitignore : RootGitignore) (nextFree : '/' ∉ next) (nonempty : parent ≠ []) :
    gitignore.above (joinSegments (parent ++ [next])) =
      (gitignore.above (joinSegments parent)).child (gitignore.matched (joinSegments parent) true) := by
  rw [joinSegments_append nonempty, RootGitignore.above, SeparatedText.heads_extend nextFree, foldl_append]
  rfl

theorem above_first (gitignore : RootGitignore) (nextFree : '/' ∉ next) :
    gitignore.above (joinSegments ([] ++ [next])) = .root := by
  rw [nil_append, joinSegments_single, RootGitignore.above, SeparatedText.heads_free nextFree]
  rfl

theorem walk_append (parent first second : List Text) :
    walk parent (first ++ second) = walk parent first ++ walk (parent ++ first) second := by
  induction first generalizing parent with
  | nil => simp [walk]
  | cons head tail ih => simp [walk, ih]

/-- The walk visits each segment below those in front of it. -/
theorem walk_mem_iff {visit : List Text × Text} : visit ∈ walk parent segments ↔
      ∃ index, segments[index]? = some visit.2 ∧ visit.1 = parent ++ segments.take index := by
  induction segments generalizing parent with
  | nil => simp [walk]
  | cons head tail ih =>
    rw [walk, mem_cons, ih]
    constructor
    · rintro (rfl | ⟨index, found, before⟩)
      · exact ⟨0, rfl, by simp⟩
      · exact ⟨index + 1, by simpa using found, by simp [before]⟩
    · rintro ⟨index, found, before⟩
      cases index with
      | zero =>
        left
        obtain ⟨above, name⟩ := visit
        simp only [getElem?_cons_zero, Option.some.injEq] at found
        simp only [take_zero, append_nil] at before
        rw [found, before]
      | succ index => exact .inr ⟨index, by simpa using found, by simpa using before⟩

/-- A directory of the walk begins the directories. -/
theorem walk_starts {visit : List Text × Text} (member : visit ∈ walk [] segments) :
    visit.1 ++ [visit.2] <+: segments := by
  obtain ⟨index, found, before⟩ := walk_mem_iff.mp member
  have shape : visit.1 ++ [visit.2] = segments.take (index + 1) := by
    rw [before, nil_append, take_add_one, found]
    rfl
  rw [shape]
  exact take_prefix _ _

end Paths

section Scanning

variable {config : ScopeConfig} {project : Scan.Project} {parent directories : List Text} {name : Text}
  {above : GitignoreAncestry}

/-- The scan keeps a file that no name and no pattern drops. -/
def Scan.keepsFile (config : ScopeConfig) (project : Scan.Project) (parent : List Text) (name : Text) : Prop :=
  Scan.prunesByName config project parent name (visited (parent, name)) false = false ∧
    (streamIgnores config project.gitignore (visited (parent, name)) false = true →
      Scan.forces config (visited (parent, name)) = true)

/-- The scan enters a directory that no name prunes and no pattern hides. -/
def Scan.entersDirectory (config : ScopeConfig) (project : Scan.Project) (visit : List Text × Text) : Prop :=
  Scan.prunesByName config project visit.1 visit.2 (visited visit) true = false ∧
    (streamIgnores config project.gitignore (visited visit) true = true →
      Scan.wantsDescend config (visited visit) = true)

/-- The decider keeps a file that is not ignored or is forced. -/
theorem decide_file (judged : above = project.gitignore.above (visited (parent, name)))
    (extractable : project.extractable (visited (parent, name)) = true) :
    (match Scan.decide config project (visited (parent, name)) false above with
      | .file true => Scan.Membership.admitted
      | _ => .rejected) = .admitted ↔
      (streamIgnores config project.gitignore (visited (parent, name)) false = true →
        Scan.forces config (visited (parent, name)) = true) := by
  subst judged
  change (match (if (!streamIgnores config project.gitignore (visited (parent, name)) false ||
      Scan.forces config (visited (parent, name))) = true then
        Scan.EntryDecision.file (project.extractable (visited (parent, name))) else .skip) with
      | .file true => Scan.Membership.admitted
      | _ => .rejected) = .admitted ↔ _
  rw [extractable]
  cases streamIgnores config project.gitignore (visited (parent, name)) false <;>
    cases Scan.forces config (visited (parent, name)) <;> simp

/-- A directory is entered with the ancestry that its own verdict extends. -/
theorem decide_directory (judged : above = project.gitignore.above (visited (parent, name))) :
    Scan.decide config project (visited (parent, name)) true above =
      if streamIgnores config project.gitignore (visited (parent, name)) true = true ∧
        Scan.wantsDescend config (visited (parent, name)) = false then .skip
      else .descend (above.child (project.gitignore.matched (visited (parent, name)) true)) := by
  subst judged
  change (if (streamIgnores config project.gitignore (visited (parent, name)) true &&
    !Scan.wantsDescend config (visited (parent, name))) = true then _ else _) = _
  simp only [Bool.and_eq_true, Bool.not_eq_true']

theorem membershipFrom_file (regular : project.tree (visited (parent, name)) = .file) :
    Scan.membershipFrom config project false parent above [name] =
      if Scan.prunesByName config project parent name (visited (parent, name)) false = true then .rejected
      else
        match Scan.decide config project (visited (parent, name)) false above with
        | .file true => .admitted
        | _ => .rejected := by
  have kind : project.tree (joinSegments (parent ++ [name])) = .file := regular
  simp only [Scan.membershipFrom, kind, visited]
  rfl

theorem membershipFrom_directory {dir : Text} {rest : List Text} (more : rest ≠ [])
    (entry : project.tree (visited (parent, dir)) = .directory) :
    Scan.membershipFrom config project false parent above (dir :: rest) =
      if Scan.prunesByName config project parent dir (visited (parent, dir)) true = true then .rejected
      else
        match Scan.decide config project (visited (parent, dir)) true above with
        | .descend next => Scan.membershipFrom config project false (parent ++ [dir]) next rest
        | _ => .rejected := by
  have kind : project.tree (joinSegments (parent ++ [dir])) = .directory := entry
  simp only [Scan.membershipFrom, kind, more, visited]
  rfl

/-- A file is admitted exactly when all directories above it are entered and it is kept. -/
theorem membershipFrom_admitted_iff (nameFree : '/' ∉ name) (free : ∀ dir ∈ directories, '/' ∉ dir)
    (judged : ∀ next, '/' ∉ next → above = project.gitignore.above (joinSegments (parent ++ [next])))
    (entries : ∀ visit ∈ walk parent directories, project.tree (visited visit) = .directory)
    (regular : project.tree (visited (parent ++ directories, name)) = .file)
    (extractable : project.extractable (visited (parent ++ directories, name)) = true) :
    Scan.membershipFrom config project false parent above (directories ++ [name]) = .admitted ↔
      (∀ visit ∈ walk parent directories, Scan.entersDirectory config project visit) ∧
        Scan.keepsFile config project (parent ++ directories) name := by
  induction directories generalizing parent above with
  | nil =>
    rw [append_nil] at regular extractable ⊢
    have decision := @decide_file config project parent name above (judged name nameFree) extractable
    rw [nil_append, membershipFrom_file regular, Scan.keepsFile, ← decision]
    cases Scan.prunesByName config project parent name (visited (parent, name)) false <;> simp [walk]
  | cons dir rest ih =>
    have decision := @decide_directory config project parent dir above (judged dir (free dir mem_cons_self))
    have later := @ih (parent ++ [dir]) (above.child (project.gitignore.matched (visited (parent, dir)) true))
      (fun other member => free other (mem_cons_of_mem _ member)) ?_
      (fun visit member => entries visit (mem_cons_of_mem _ member)) (by simpa using regular)
      (by simpa using extractable)
    · rw [cons_append, membershipFrom_directory (by simp) (entries (parent, dir) mem_cons_self), decision,
        walk]
      simp only [mem_cons, forall_eq_or_imp]
      rw [show parent ++ dir :: rest = parent ++ [dir] ++ rest by simp, and_assoc, ← later, Scan.entersDirectory]
      cases Scan.prunesByName config project parent dir (visited (parent, dir)) true <;>
        cases streamIgnores config project.gitignore (visited (parent, dir)) true <;>
        cases Scan.wantsDescend config (visited (parent, dir)) <;> simp
    · intro next nextFree
      rw [above_extend project.gitignore nextFree (by simp), judged dir (free dir mem_cons_self)]
      rfl

/-- A source file is admitted exactly when all directories above it are entered and it is kept. -/
theorem scanMembership_admitted_iff (file : SourceFile project) :
    Scan.scanMembership config project file.path false = .admitted ↔
      (∀ visit ∈ walk [] file.directories, Scan.entersDirectory config project visit) ∧
        Scan.keepsFile config project file.directories file.name := by
  have free : ∀ segment ∈ file.directories ++ [file.name], '/' ∉ segment :=
    fun segment member => (file.segments segment member).2.1
  have components : file.path.segments.filter (· ≠ []) = file.directories ++ [file.name] := by
    rw [SourceFile.path, segments_joinSegments (by simp) free, filter_eq_self]
    intro segment member
    simpa using (file.segments segment member).1
  have plain : ¬ (file.directories ++ [file.name] = [] ∨ ".".toList ∈ file.directories ++ [file.name] ∨
      "..".toList ∈ file.directories ++ [file.name]) := by
    rintro (empty | dot | dots)
    · simp at empty
    · exact (file.segments _ dot).2.2.1 rfl
    · exact (file.segments _ dots).2.2.2 rfl
  rw [Scan.scanMembership, components, if_neg plain]
  exact membershipFrom_admitted_iff (free _ (by simp)) (fun dir member => free dir (mem_append_left _ member))
    (fun next nextFree => (above_first project.gitignore nextFree).symm) file.above file.regular file.extractable

end Scanning

section Structural

variable {segments directories parent : List Text} {name entry : Text} {pattern : Text} {visit : List Text × Text}

theorem visited_eq_append (parent : List Text) (name : Text) :
    ∃ start, joinSegments (parent ++ [name]) = start ++ name := by
  by_cases empty : parent = []
  · exact ⟨[], by rw [empty, nil_append, joinSegments_single]; rfl⟩
  · exact ⟨joinSegments parent ++ ['/'], by rw [joinSegments_append empty]; simp⟩

/-- A path whose last name is a segment ends in no slash. -/
theorem trimEndSlashes_joinSegments (segment : IsSegment name) :
    Text.trimEndSlashes (joinSegments (parent ++ [name])) = joinSegments (parent ++ [name]) := by
  obtain ⟨start, shape⟩ := visited_eq_append parent name
  rw [shape, Text.trimEndSlashes, rdropWhile_eq_self_iff]
  intro nonempty
  rw [getLast_append_of_ne_nil _ segment.1]
  simp only [decide_eq_true_eq]
  intro slash
  exact segment.2.1 (slash ▸ getLast_mem segment.1)

theorem stripSuffix_slash (text : Text) : Text.stripSuffix (text ++ "/".toList) "/".toList = some text := by
  have ends : Text.endsWith (text ++ "/".toList) "/".toList = true := by
    simp [Text.endsWith]
  rw [Text.stripSuffix, if_pos ends]
  simp

theorem dropWhile_slash (plain : entry ≠ [] ∧ '/' ∉ entry) :
    (entry ++ "/".toList).dropWhile (· = '/') = entry ++ "/".toList := by
  obtain ⟨nonempty, free⟩ := plain
  cases entry with
  | nil => exact (nonempty rfl).elim
  | cons head tail =>
    have other : head ≠ '/' := fun same => free (same ▸ mem_cons_self)
    simp [other]

/-- A rule that names one directory matches exactly the paths below a directory of that name. -/
theorem ruleMatches_named_iff (plain : entry ≠ [] ∧ '/' ∉ entry) (free : ∀ dir ∈ directories, '/' ∉ dir)
    (nameFree : '/' ∉ name) :
    Policy.ruleMatches (entry ++ "/".toList) (joinSegments (directories ++ [name])) false = true ↔
      entry ∈ directories := by
  have enclosed := SeparatedText.enclosed_iff plain.2 free nameFree
  rw [← SeparatedText.framed_eq, infix_cons_iff, cons_prefix_cons] at enclosed
  rw [← enclosed]
  simp only [Policy.ruleMatches, dropWhile_slash plain, stripSuffix_slash, Bool.or_eq_true, decide_eq_true_eq,
    Text.startsWith, Text.contains, Bool.false_eq_true, if_false]
  change (_ ∨ entry ++ ['/'] <+: joinSegments (directories ++ [name])) ∨
    '/' :: (entry ++ ['/']) <:+: joinSegments (directories ++ [name]) ↔
      (True ∧ entry ++ ['/'] <+: joinSegments (directories ++ [name])) ∨
        '/' :: (entry ++ ['/']) <:+: joinSegments (directories ++ [name])
  constructor
  · rintro ((same | starts) | inside)
    · exact .inl ⟨trivial, same ▸ prefix_rfl⟩
    · exact .inl ⟨trivial, starts⟩
    · exact .inr inside
  · rintro (⟨-, starts⟩ | inside)
    · exact .inl (.inr starts)
    · exact .inr inside

theorem suffix_slash (rest : pattern <:+ entry ++ "/".toList) : pattern = [] ∨ ∃ dir, pattern = dir ++ "/".toList := by
  rcases eq_nil_or_concat pattern with empty | ⟨dir, mark, shape⟩
  · exact .inl empty
  · obtain ⟨start, whole⟩ := rest
    rw [shape, concat_eq_append, ← append_assoc] at whole
    have same := append_inj_right' whole rfl
    exact .inr ⟨dir, by rw [shape, concat_eq_append, same]⟩

/-- A directory rule that matches a directory matches everything below it. -/
theorem ruleMatches_below {path : Text} (segment : IsSegment name)
    (below : joinSegments (parent ++ [name]) ++ "/".toList <+: path)
    (hit : Policy.ruleMatches (entry ++ "/".toList) (joinSegments (parent ++ [name])) true = true) :
    Policy.ruleMatches (entry ++ "/".toList) path false = true := by
  unfold Policy.ruleMatches at hit ⊢
  rw [trimEndSlashes_joinSegments segment] at hit
  have rest := @dropWhile_suffix _ (entry ++ "/".toList) (fun mark => decide (mark = '/'))
  rcases suffix_slash rest with empty | ⟨dir, shape⟩
  · -- A rule of slashes alone would have to end the path.
    simp only [empty] at hit
    obtain ⟨start, whole⟩ := visited_eq_append parent name
    have noSlash : ¬ ['/'] <:+ start ++ name := by
      intro ends
      have last := ends.getLast (by simp)
      rw [getLast_append_of_ne_nil _ segment.1, getLast_singleton] at last
      exact segment.2.1 (last ▸ getLast_mem segment.1)
    have full : start ++ name ≠ [] := by simp [segment.1]
    rw [whole] at hit
    simp [Text.stripSuffix, Text.endsWith, Text.splitOnce, full, noSlash] at hit
  · simp only [shape, stripSuffix_slash, if_true, Bool.or_eq_true, decide_eq_true_eq, Text.startsWith, Text.contains,
      Bool.false_eq_true, if_false] at hit ⊢
    rcases hit with (same | starts) | inside
    · exact .inl (.inr (same ▸ below))
    · exact .inl (.inr (starts.trans below))
    · exact .inr (inside.trans below.isInfix)

/-- A build segment is output exactly when a directory named build is no package of sources. -/
theorem buildSegmentIsOutput_iff (isDir : Bool) (segmentsOk : ∀ segment ∈ parent ++ [name], IsSegment segment) :
    Policy.buildSegmentIsOutput (joinSegments (parent ++ [name])) isDir = true ↔
      ∃ visit ∈ walk [] (if isDir then parent ++ [name] else parent), visit.2 = "build".toList ∧
        isJvmSourceBuildDir (visited visit) = false := by
  have split : Text.segments (Text.trimEndSlashes (joinSegments (parent ++ [name]))) = parent ++ [name] := by
    rw [trimEndSlashes_joinSegments (segmentsOk name (by simp))]
    exact segments_joinSegments (by simp) fun segment member => (segmentsOk segment member).2.1
  have counted : (if isDir = true then (parent ++ [name]).length else (parent ++ [name]).length - 1) =
      (if isDir = true then parent ++ [name] else parent).length := by
    cases isDir <;> simp
  have within : (if isDir = true then parent ++ [name] else parent) <+: parent ++ [name] := by
    cases isDir <;> simp
  simp only [Policy.buildSegmentIsOutput, split, counted]
  generalize (if isDir = true then parent ++ [name] else parent) = directories at within ⊢
  obtain ⟨later, whole⟩ := within
  rw [← whole]
  simp only [any_eq_true, mem_range, Bool.and_eq_true, decide_eq_true_eq, Bool.not_eq_true']
  constructor
  · rintro ⟨index, below, found, output⟩
    rw [getElem?_append_left below] at found
    refine ⟨(directories.take index, "build".toList), walk_mem_iff.mpr ⟨index, found, rfl⟩, rfl, ?_⟩
    rw [take_append_of_le_length below, take_add_one, found] at output
    exact output
  · rintro ⟨⟨above, last⟩, member, rfl, output⟩
    obtain ⟨index, found, before⟩ := walk_mem_iff.mp member
    have below : index < directories.length := (List.getElem?_eq_some_iff.mp found).1
    refine ⟨index, below, ?_, ?_⟩
    · rw [getElem?_append_left below]
      exact found
    · rw [take_append_of_le_length below, take_add_one, found]
      simp only [nil_append] at before
      rw [← before]
      exact output

/-- Every structural rule is the name of a directory or one of the forms behind a slash. -/
theorem structuralIgnores_slash {config : ScopeConfig}
    (member : pattern ∈ Policy.structuralIgnores config) : ∃ entry, pattern = entry ++ "/".toList := by
  rcases mem_append.mp member with named | form
  · obtain ⟨entry, -, rfl⟩ := mem_map.mp named
    exact ⟨entry, rfl⟩
  · simp only [Policy.toolForms, mem_cons, not_mem_nil, or_false] at form
    rcases form with rfl | rfl | rfl
    · exact ⟨"*.egg-info".toList, rfl⟩
    · exact ⟨"cmake-build-*".toList, rfl⟩
    · exact ⟨"bazel-*".toList, rfl⟩

theorem visit_segments (member : visit ∈ walk [] segments)
    (segmentsOk : ∀ segment ∈ segments, IsSegment segment) : ∀ segment ∈ visit.1 ++ [visit.2], IsSegment segment := by
  obtain ⟨index, found, before⟩ := walk_mem_iff.mp member
  intro segment inside
  rcases mem_append.mp inside with above | here
  · rw [before, nil_append] at above
    exact segmentsOk segment (mem_of_mem_take above)
  · rw [mem_singleton.mp here]
    exact segmentsOk visit.2 (mem_of_getElem? found)

/-- A directory of the walk, with its slash, begins the path. -/
theorem visited_below (member : visit ∈ walk [] directories) :
    visited visit ++ "/".toList <+: joinSegments (directories ++ [name]) := by
  obtain ⟨later, rfl⟩ := walk_starts member
  rw [append_assoc, joinSegments_both (by simp) (by simp)]
  exact ⟨joinSegments (later ++ [name]), by simp [visited]⟩

/-- What is structurally ignored stays so below. -/
theorem matchesStructural_below {config : ScopeConfig}
    (segmentsOk : ∀ segment ∈ directories ++ [name], IsSegment segment) (member : visit ∈ walk [] directories)
    (hit : Policy.matchesStructural config (visited visit) true = true) :
    Policy.matchesStructural config (joinSegments (directories ++ [name])) false = true := by
  have visitOk := visit_segments member fun segment inside => segmentsOk segment (mem_append_left _ inside)
  simp only [Policy.matchesStructural, any_eq_true] at hit ⊢
  obtain ⟨pattern, inRules, applies⟩ := hit
  refine ⟨pattern, inRules, ?_⟩
  split at applies
  · rename_i isBuild
    rw [if_pos isBuild]
    rw [visited, buildSegmentIsOutput_iff true visitOk] at applies
    rw [buildSegmentIsOutput_iff false segmentsOk]
    obtain ⟨inner, innerMember, build, output⟩ := applies
    refine ⟨inner, ?_, build, output⟩
    obtain ⟨later, rfl⟩ := walk_starts member
    simp only [Bool.false_eq_true, if_false, walk_append]
    exact mem_append_left _ (by simpa [walk_append] using innerMember)
  · rename_i notBuild
    rw [if_neg notBuild]
    obtain ⟨entry, rfl⟩ := structuralIgnores_slash inRules
    exact ruleMatches_below (visitOk visit.2 (by simp)) (visited_below member) applies

theorem slash_build_iff : entry ++ "/".toList = "build/".toList ↔ entry = "build".toList := by
  change entry ++ "/".toList = "build".toList ++ "/".toList ↔ _
  exact append_left_inj _

theorem watchOnly_plain {dir : Text} (member : dir ∈ Policy.watchOnlyDefaultIgnoreDirs) :
    (dir ≠ [] ∧ '/' ∉ dir) ∧ dir ≠ "build".toList := by
  revert dir
  decide

theorem oddRules_structural {config : ScopeConfig} (member : pattern ∈ oddRules config) :
    pattern ∈ Policy.structuralIgnores config ∧ pattern ≠ "build/".toList := by
  rcases mem_append.mp member with named | form
  · obtain ⟨entry, filtered, rfl⟩ := mem_map.mp named
    obtain ⟨inDirs, odd⟩ := mem_filter.mp filtered
    refine ⟨mem_append_left _ (mem_map.mpr ⟨entry, mem_append_left _ inDirs, rfl⟩), ?_⟩
    rw [Ne, slash_build_iff]
    rintro rfl
    revert odd
    decide
  · refine ⟨mem_append_right _ form, ?_⟩
    clear member
    revert pattern
    decide

variable {config : ScopeConfig} {project : Scan.Project} (file : SourceFile project)

theorem SourceFile.free : ∀ dir ∈ file.directories, '/' ∉ dir :=
  fun dir member => (file.segments dir (mem_append_left _ member)).2.1

theorem SourceFile.nameFree : '/' ∉ file.name := (file.segments file.name (by simp)).2.1

theorem walk_names {dir : Text} : dir ∈ segments ↔ ∃ visit ∈ walk [] segments, visit.2 = dir := by
  constructor
  · intro member
    obtain ⟨index, found⟩ := mem_iff_getElem?.mp member
    exact ⟨(segments.take index, dir), walk_mem_iff.mpr ⟨index, found, rfl⟩, rfl⟩
  · rintro ⟨visit, member, rfl⟩
    obtain ⟨index, found, -⟩ := walk_mem_iff.mp member
    exact mem_of_getElem? found

/-- The watcher's structural rules are the scan's names, the watch-only names, and the odd rules. -/
theorem matchesStructural_iff : Policy.matchesStructural config file.path false = true ↔
      file.belowNamed config ∨ file.watchOnly ∨ file.policyOnly config := by
  have output := @buildSegmentIsOutput_iff file.directories file.name false file.segments
  simp only [Bool.false_eq_true, if_false] at output
  simp only [Policy.matchesStructural, any_eq_true]
  constructor
  · rintro ⟨pattern, inRules, applies⟩
    rcases mem_append.mp inRules with named | form
    · obtain ⟨entry, inDirs, rfl⟩ := mem_map.mp named
      by_cases build : entry = "build".toList
      · rw [if_pos (slash_build_iff.mpr build)] at applies
        obtain ⟨visit, member, isBuild, notJvm⟩ := output.mp applies
        rcases mem_append.mp inDirs with ignored | watched
        · refine .inl ⟨visit, member, ?_, ?_⟩
          · rw [isBuild, ← build]
            exact ignored
          · simp [notJvm]
        · exact ((watchOnly_plain watched).2 build).elim
      · rw [if_neg (fun found => build (slash_build_iff.mp found))] at applies
        by_cases plain : entry ≠ [] ∧ '/' ∉ entry
        · have inside := (ruleMatches_named_iff plain file.free file.nameFree).mp applies
          rcases mem_append.mp inDirs with ignored | watched
          · obtain ⟨visit, member, rfl⟩ := walk_names.mp inside
            exact .inl ⟨visit, member, ignored, fun both => build both.1⟩
          · exact .inr (.inl ⟨entry, inside, watched⟩)
        · rcases mem_append.mp inDirs with ignored | watched
          · have odd : (decide (entry = []) || decide ('/' ∈ entry)) = true := by
              rw [Bool.or_eq_true, decide_eq_true_eq, decide_eq_true_eq]
              tauto
            refine .inr (.inr ⟨entry ++ "/".toList, mem_append_left _ ?_, applies⟩)
            exact mem_map.mpr ⟨entry, mem_filter.mpr ⟨ignored, odd⟩, rfl⟩
          · exact (plain (watchOnly_plain watched).1).elim
    · have inOdd : pattern ∈ oddRules config := mem_append_right _ form
      rw [if_neg (oddRules_structural inOdd).2] at applies
      exact .inr (.inr ⟨pattern, inOdd, applies⟩)
  · rintro (⟨visit, member, ignored, notJvm⟩ | ⟨dir, inside, watched⟩ | ⟨pattern, inOdd, applies⟩)
    · refine ⟨visit.2 ++ "/".toList,
        mem_append_left _ (mem_map.mpr ⟨visit.2, mem_append_left _ ignored, rfl⟩), ?_⟩
      by_cases build : visit.2 = "build".toList
      · rw [if_pos (slash_build_iff.mpr build)]
        exact output.mpr ⟨visit, member, build, by simpa [build] using notJvm⟩
      · rw [if_neg (fun found => build (slash_build_iff.mp found))]
        have inside := walk_names.mpr ⟨visit, member, rfl⟩
        have segment := file.segments visit.2 (mem_append_left _ inside)
        exact (ruleMatches_named_iff ⟨segment.1, segment.2.1⟩ file.free file.nameFree).mpr inside
    · refine ⟨dir ++ "/".toList,
        mem_append_left _ (mem_map.mpr ⟨dir, mem_append_right _ watched, rfl⟩), ?_⟩
      obtain ⟨plain, notBuild⟩ := watchOnly_plain watched
      rw [if_neg (fun found => notBuild (slash_build_iff.mp found))]
      exact (ruleMatches_named_iff plain file.free file.nameFree).mpr inside
    · obtain ⟨inRules, notBuild⟩ := oddRules_structural inOdd
      exact ⟨pattern, inRules, by rw [if_neg notBuild]; exact applies⟩

end Structural

section Parity

variable {config : ScopeConfig} {project : Scan.Project} {gitignore : RootGitignore} {relative : Text}
  (file : SourceFile project)

theorem includeTouchesDir_eq : Policy.includeTouchesDir = Scan.includeTouchesDir := by
  funext dir pattern
  unfold Policy.includeTouchesDir Scan.includeTouchesDir
  rfl

/-- A file is ignored by its structure, or by a pattern that nothing forces. -/
theorem isIgnored_file : Policy.isIgnored config gitignore relative false =
      (Policy.matchesStructural config relative false ||
        (streamIgnores config gitignore relative false && !Scan.forces config relative)) := by
  have same : Policy.matchesNegotiable config gitignore relative false =
    streamIgnores config gitignore relative false :=
    rfl
  have excluded : Policy.matchesExclude config relative = config.excludePatterns.any (patternMatches relative) := rfl
  have included : config.includePatterns.any (Policy.includeFileMatches relative) =
      config.includePatterns.any (Scan.includeFileMatches relative) := rfl
  simp only [Policy.isIgnored, Scan.forces, same, excluded, included, Bool.false_eq_true, if_false]
  cases Policy.matchesStructural config relative false <;> cases streamIgnores config gitignore relative false <;>
    cases config.includePatterns.isEmpty <;> cases config.excludePatterns.any (patternMatches relative) <;> simp

theorem isIgnored_directory : Policy.isIgnored config gitignore relative true =
      (Policy.matchesStructural config relative true ||
        (streamIgnores config gitignore relative true && !Scan.wantsDescend config relative)) := by
  have same : Policy.matchesNegotiable config gitignore relative true =
    streamIgnores config gitignore relative true := rfl
  have excluded : Policy.matchesExclude config relative = config.excludePatterns.any (patternMatches relative) := rfl
  simp only [Policy.isIgnored, Scan.wantsDescend, same, excluded, includeTouchesDir_eq, if_true]
  cases Policy.matchesStructural config relative true <;> cases streamIgnores config gitignore relative true <;>
    cases config.includePatterns.isEmpty <;> cases config.excludePatterns.any (patternMatches relative) <;> simp

theorem isAlwaysIgnored_join {head : Text} {rest : List Text} (free : ∀ segment ∈ head :: rest, '/' ∉ segment) :
    Policy.isAlwaysIgnored (joinSegments (head :: rest)) = true ↔
      head = ".git".toList ∨ head = ".codegraph".toList ∨ head.startsWith ".codegraph-".toList = true := by
  simp only [Policy.isAlwaysIgnored, segments_joinSegments (by simp) free, headD_cons, Bool.or_eq_true,
    decide_eq_true_eq, or_assoc]

theorem SourceFile.exists_first : ∃ rest, file.directories ++ [file.name] = file.first :: rest := by
  cases shape : file.directories ++ [file.name] with
  | nil => simp at shape
  | cons head rest => exact ⟨rest, by simp [SourceFile.first, shape]⟩

theorem SourceFile.alwaysIgnored_iff : Policy.isAlwaysIgnored file.path = true ↔ file.reserved := by
  obtain ⟨rest, shape⟩ := file.exists_first
  rw [SourceFile.path, shape]
  apply isAlwaysIgnored_join
  intro segment member
  rw [← shape] at member
  exact (file.segments segment member).2.1

theorem visited_alwaysIgnored_iff {visit : List Text × Text} (member : visit ∈ walk [] file.directories) :
    Policy.isAlwaysIgnored (visited visit) = true ↔ file.reserved := by
  obtain ⟨rest, shape⟩ := file.exists_first
  obtain ⟨later, whole⟩ := walk_starts member
  obtain ⟨head, tail, begins⟩ := exists_cons_of_ne_nil (show visit.1 ++ [visit.2] ≠ [] by simp)
  have same : head = file.first := by
    rw [← whole, begins] at shape
    exact (cons.inj shape).1
  rw [visited, begins, isAlwaysIgnored_join, same]
  · rfl
  · intro segment inside
    rw [← begins] at inside
    exact file.free segment (by rw [← whole]; exact mem_append_left _ inside)

/-- The watcher allows a file that none of its rules drops. -/
theorem allowsFilePath_iff : Policy.allowsFilePath config project.gitignore file.path = true ↔
      ¬ file.reserved ∧ ¬ (file.belowNamed config ∨ file.watchOnly ∨ file.policyOnly config) ∧
        ¬ file.dropped config := by
  rw [← file.alwaysIgnored_iff, ← matchesStructural_iff, SourceFile.dropped, Policy.allowsFilePath, isIgnored_file]
  cases Policy.isAlwaysIgnored file.path <;> cases Policy.matchesStructural config file.path false <;>
    cases streamIgnores config project.gitignore file.path false <;> cases Scan.forces config file.path <;> simp

/-- The scan keeps the data directories out at the root. -/
def atData (visit : List Text × Text) : Prop :=
  (visit.1 = [] ∧ visit.2 = ".git".toList) ∨ visited visit = ".codegraph".toList

theorem prunesByName_iff {visit : List Text × Text} {isDir : Bool} :
    Scan.prunesByName config project visit.1 visit.2 (visited visit) isDir = true ↔
      atData visit ∨ project.indexRoot = some (visited visit) ∨
        (visit.2 ∈ config.ignoreDirs ∧
          ¬ (visit.2 = "build".toList ∧ isJvmSourceBuildDir (visited visit) = true ∧ isDir = true)) := by
  simp only [Scan.prunesByName, Scan.Project.reservedRoots, Bool.or_eq_true, Bool.and_eq_true, decide_eq_true_eq,
    Bool.not_eq_true', Bool.and_eq_false_iff, decide_eq_false_iff_not, mem_cons, Option.mem_toList, atData]
  cases isJvmSourceBuildDir (visited visit) <;> cases isDir <;> simp <;> tauto

theorem entersDirectory_iff {visit : List Text × Text} : Scan.entersDirectory config project visit ↔
      ¬ atData visit ∧ ¬ (project.indexRoot = some (visited visit)) ∧
      ¬ (visit.2 ∈ config.ignoreDirs ∧ ¬ (visit.2 = "build".toList ∧ isJvmSourceBuildDir (visited visit) = true)) ∧
      ¬ (streamIgnores config project.gitignore (visited visit) true = true ∧
        Scan.wantsDescend config (visited visit) = false) := by
  rw [Scan.entersDirectory, ← Bool.not_eq_true, prunesByName_iff, ← Bool.not_eq_true (Scan.wantsDescend _ _)]
  tauto

theorem keepsFile_iff : Scan.keepsFile config project file.directories file.name ↔
      ¬ atData (file.directories, file.name) ∧
      ¬ (project.indexRoot = some (visited (file.directories, file.name))) ∧
      file.name ∉ config.ignoreDirs ∧ ¬ file.dropped config := by
  have path : visited (file.directories, file.name) = file.path := rfl
  have prunes := @prunesByName_iff config project (file.directories, file.name) false
  rw [Scan.keepsFile, ← Bool.not_eq_true, prunes, SourceFile.dropped, path, ← Bool.not_eq_true (Scan.forces _ _)]
  simp only [Bool.false_eq_true, and_false, not_false_eq_true, and_true]
  tauto

/-- A data directory at the root is the first segment of the path. -/
theorem atData_iff : (∃ visit ∈ walk [] (file.directories ++ [file.name]), atData visit) ↔
      file.first = ".git".toList ∨ file.first = ".codegraph".toList := by
  obtain ⟨rest, shape⟩ := file.exists_first
  constructor
  · rintro ⟨⟨above, name⟩, member, reserved⟩
    have first (top : above = []) : file.first = name := by
      obtain ⟨later, whole⟩ := walk_starts member
      rw [shape, top] at whole
      exact (cons.inj whole).1.symm
    rcases reserved with ⟨top, git⟩ | data
    · exact .inl ((first top).trans git)
    · by_cases top : above = []
      · subst top
        rw [visited, nil_append, joinSegments_single] at data
        exact .inr ((first rfl).trans data)
      · rw [visited, joinSegments_append top] at data
        have slash : '/' ∈ ".codegraph".toList := by rw [← data]; simp
        exact absurd slash (by decide)
  · intro reserved
    refine ⟨([], file.first), by rw [shape]; exact mem_cons_self, ?_⟩
    rcases reserved with git | data
    · exact .inl ⟨rfl, git⟩
    · exact .inr (by rw [visited, nil_append, joinSegments_single]; exact data)

/-- The scan admits a file that none of its rules drops. -/
theorem scanMembership_iff : Scan.scanMembership config project file.path false = .admitted ↔
      ¬ (file.first = ".git".toList ∨ file.first = ".codegraph".toList) ∧ ¬ file.belowNamed config ∧
        ¬ file.scanOnly config ∧ ¬ file.dropped config := by
  have whole : walk [] (file.directories ++ [file.name]) = walk [] file.directories ++
    [(file.directories, file.name)] := by
    rw [walk_append]
    rfl
  rw [scanMembership_admitted_iff, keepsFile_iff, ← atData_iff, SourceFile.scanOnly, SourceFile.belowNamed,
    SourceFile.insideIndexRoot, SourceFile.hidden, whole]
  simp only [entersDirectory_iff, mem_append, mem_singleton, or_imp, forall_and, forall_eq, not_or,
    not_exists, not_and]
  tauto

/-- Above a file that the watcher allows and the scan admits, every directory is watched. -/
theorem shouldWatchDir_above (notReserved : ¬ file.reserved)
    (notStructural : ¬ (file.belowNamed config ∨ file.watchOnly ∨ file.policyOnly config))
    (notHidden : ¬ file.hidden config) (visit : List Text × Text) (member : visit ∈ walk [] file.directories) :
    Policy.shouldWatchDir config project.gitignore (visited visit) = true := by
  rw [← matchesStructural_iff] at notStructural
  have unruled : Policy.matchesStructural config (visited visit) true = false := by
    by_contra structural
    exact notStructural (matchesStructural_below file.segments member (by simpa using structural))
  have allowed : Policy.isAlwaysIgnored (visited visit) = false := by
    by_contra always
    exact notReserved ((visited_alwaysIgnored_iff file member).mp (by simpa using always))
  have entered : streamIgnores config project.gitignore (visited visit) true = true →
      Scan.wantsDescend config (visited visit) = true := by
    intro ignored
    by_contra closed
    exact notHidden ⟨visit, member, ignored, by simpa using closed⟩
  rw [Policy.shouldWatchDir, isIgnored_directory, unruled, allowed]
  revert entered
  cases streamIgnores config project.gitignore (visited visit) true <;>
    cases Scan.wantsDescend config (visited visit) <;> simp

/-- Two scopes that share their other rules agree when the rules of only one side come together. -/
theorem rules_agree_iff {reserved data named dropped watchOnly policyOnly scanOnly watched : Prop}
    (top : data → reserved) (above : ¬ reserved → ¬ (named ∨ watchOnly ∨ policyOnly) → ¬ scanOnly → watched) :
    ((¬ reserved ∧ ¬ (named ∨ watchOnly ∨ policyOnly) ∧ ¬ dropped → ¬ data ∧ ¬ named ∧ ¬ scanOnly ∧ ¬ dropped) ∧
      (¬ data ∧ ¬ named ∧ ¬ scanOnly ∧ ¬ dropped → ¬ reserved → ¬ watchOnly →
        (¬ reserved ∧ ¬ (named ∨ watchOnly ∨ policyOnly) ∧ ¬ dropped) ∧ watched)) ↔
      reserved ∨ named ∨ dropped ∨ watchOnly ∨ (policyOnly ↔ scanOnly) := by
  by_cases reserved <;> by_cases named <;> by_cases dropped <;> by_cases watchOnly <;> by_cases policyOnly <;>
    by_cases scanOnly <;> simp_all

/-- The scopes agree on a file exactly when a rule of both drops it, a watch-only directory holds it, or the rules that
only one side has drop it together. -/
theorem scopes_agree_iff (config : ScopeConfig) (project : Scan.Project) (file : SourceFile project) :
    ScopesAgree config file ↔
      file.reserved ∨ file.belowNamed config ∨ file.dropped config ∨ file.watchOnly ∨
        (file.policyOnly config ↔ file.scanOnly config) := by
  have data : file.first = ".git".toList ∨ file.first = ".codegraph".toList → file.reserved := by
    unfold SourceFile.reserved
    tauto
  have watched := @shouldWatchDir_above config project file
  have hidden : file.hidden config → file.scanOnly config := fun found => .inr (.inr found)
  rw [ScopesAgree, allowsFilePath_iff, scanMembership_iff]
  exact rules_agree_iff data fun allowed structural scanned =>
    watched allowed structural fun found => scanned (hidden found)

/-- An excluded directory that is named without a slash hides its files from the scan but not from the watcher. -/
theorem excluded_directory_disagrees : ¬ @ScopesAgree ⟨[], [], [], ["gen".toList]⟩
      ⟨⟨fun _ _ => none⟩, none, fun _ => true, fun path => if path = "gen".toList then .directory else .file⟩
      ⟨["gen".toList], "a.ts".toList, by decide, by decide, by decide, rfl⟩ := by
  intro agree
  exact absurd (agree.1 (by decide)) (by decide)

end Parity

end Codegraph.Watch.Scope
