import Codegraph.Library.SeparatedText
import Mathlib.Data.List.DropRight

/- This file models which files the project scan yields and which files the watcher hands to a sync. -/

namespace Codegraph.Watch.Scope

/-- Paths and patterns are texts, and paths are relative to the project root. -/
abbrev Text := List Char

instance Text.lawful : LawfulBEq Text := inferInstance

def Text.startsWith (text start : Text) : Bool := decide (start <+: text)

def Text.endsWith (text tail : Text) : Bool := decide (tail <:+ text)

def Text.contains (text inner : Text) : Bool := decide (inner <:+: text)

def Text.stripSuffix (text tail : Text) : Option Text :=
  if text.endsWith tail then some (text.take (text.length - tail.length)) else none

def Text.splitOnce (text : Text) (mark : Char) : Option (Text × Text) :=
  if mark ∈ text then some (text.takeWhile (· ≠ mark), (text.dropWhile (· ≠ mark)).tail) else none

def Text.trimEndSlashes (text : Text) : Text := text.rdropWhile (· = '/')

def Text.segments (text : Text) : List Text := text.splitOn '/'

/-- The directories and the name of a path, joined by slashes. -/
def joinSegments (segments : List Text) : Text := ['/'].intercalate segments

theorem segments_joinSegments {segments : List Text} (nonempty : segments ≠ [])
    (free : ∀ segment ∈ segments, '/' ∉ segment) : (joinSegments segments).segments = segments :=
  List.splitOn_intercalate '/' free nonempty

/-- The scope that a project configures. -/
structure ScopeConfig where
  ignoreDirs : List Text
  ignorePaths : List Text
  includePatterns : List Text
  excludePatterns : List Text

/-- The last rule of the root `.gitignore` and of the exclude file that matches a path of one kind. -/
structure RootGitignore where
  matched : Text → Bool → Option Bool

/-- What the root `.gitignore` decided for the directories above a path. -/
structure GitignoreAncestry where
  ignored : Bool
  reincluded : Bool
  deriving DecidableEq

def GitignoreAncestry.root : GitignoreAncestry := ⟨false, false⟩

def GitignoreAncestry.child (above : GitignoreAncestry) (own : Option Bool) : GitignoreAncestry where
  ignored := above.ignored || own = some true
  reincluded := above.reincluded || own = some false

/-- An ignored ancestor hides the path, and a reincluded one speaks only when the path has no rule of its own. -/
def GitignoreAncestry.decide (above : GitignoreAncestry) (own : Option Bool) : Option Bool :=
  if above.ignored then some true
  else own.or (if above.reincluded then some false else none)

def RootGitignore.above (gitignore : RootGitignore) (relative : Text) : GitignoreAncestry :=
  (SeparatedText.heads '/' relative).foldl (fun above dir => above.child (gitignore.matched dir true)) .root

def RootGitignore.verdict (gitignore : RootGitignore) (relative : Text) (isDir : Bool) : Option Bool :=
  (gitignore.above relative).decide (gitignore.matched relative isDir)

/-- A `build` directory below a conventional source root is a package of the JVM languages. -/
def isJvmSourceBuildDir (relativeDir : Text) : Bool :=
  let segments := relativeDir.segments
  let last := segments.length - 1
  segments[last]? = some "build".toList &&
    (List.range last).any fun index =>
      segments[index]? = some "src".toList && decide (index + 2 < last) &&
        (segments[index + 2]? = some "java".toList || segments[index + 2]? = some "kotlin".toList ||
          segments[index + 2]? = some "scala".toList)

/-- A pattern names a directory with all below it, a beginning of the whole path, or a last part of it. -/
def patternMatches (relative pattern : Text) : Bool :=
  match pattern.stripSuffix "/".toList with
  | some dir => relative = dir || relative.startsWith (dir ++ "/".toList)
  | none =>
    match pattern.stripSuffix "*".toList with
    | some start => relative.startsWith start
    | none => relative = pattern || relative.endsWith ('/' :: pattern)

def includeExcludePatternMatches (pattern relative : Text) : Bool := patternMatches relative pattern

/-- The last matching pattern decides, and a leading `!` takes a path back. -/
def foldPatterns (applies : Text → Bool) (ignored : Bool) (patterns : List Text) : Bool :=
  patterns.foldl (fun ignored pattern =>
    match pattern with
    | '!' :: negated => if applies negated then false else ignored
    | _ => if applies pattern then true else ignored) ignored

namespace Scan

def isPathIgnored (relative : Text) (patternSets : List (List Text)) (gitignore : Option Bool) : Bool :=
  gitignore.getD (patternSets.foldl (foldPatterns (patternMatches relative)) false)

/-- The literal beginning of an include pattern. -/
def includeStaticStem (pattern : Text) : Text :=
  match pattern.trimEndSlashes.splitOnce '*' with
  | some (start, _) => .trimEndSlashes start
  | none => pattern.trimEndSlashes

def includeTouchesDir (dir pattern : Text) : Bool :=
  if !pattern.contains "/".toList && !pattern.endsWith "*".toList then true
  else if includeStaticStem pattern = [] then true
  else dir = includeStaticStem pattern || dir.startsWith (includeStaticStem pattern ++ "/".toList) ||
    (includeStaticStem pattern).startsWith (dir ++ "/".toList)

def includeFileMatches (relative pattern : Text) : Bool :=
  match (pattern.stripSuffix "/**".toList).or (if pattern = "**".toList then some [] else none) with
  | some start => start = [] || relative = start || relative.startsWith (start ++ "/".toList)
  | none => patternMatches relative pattern

/-- An ignored file is taken back by an include pattern unless an exclude pattern names it. -/
def forces (config : ScopeConfig) (relative : Text) : Bool :=
  if config.includePatterns.isEmpty then false
  else config.includePatterns.any (includeFileMatches relative) &&
    !config.excludePatterns.any (patternMatches relative)

/-- An ignored directory is entered where an include pattern may match below it. -/
def wantsDescend (config : ScopeConfig) (relative : Text) : Bool :=
  if config.includePatterns.isEmpty then false
  else if config.excludePatterns.any (patternMatches relative) then false
  else config.includePatterns.any (includeTouchesDir relative)

inductive EntryKind where
  | missing
  | unreadable
  | symlink
  | directory
  | file
  | other
  deriving DecidableEq

inductive Membership where
  | admitted
  | rejected
  | unknown
  deriving DecidableEq

inductive EntryDecision where
  | skip
  | descend (above : GitignoreAncestry)
  | file (extractable : Bool)
  deriving DecidableEq

/-- What a scan reads besides the scope: the rules of git, the configured index root, and what it can extract. -/
structure Project where
  gitignore : RootGitignore
  indexRoot : Option Text
  extractable : Text → Bool
  tree : Text → EntryKind

def Project.reservedRoots (project : Project) : List Text := ".codegraph".toList :: project.indexRoot.toList

section Rules

variable (config : ScopeConfig) (project : Project)

/-- The names that are pruned before any pattern is read. -/
def prunesByName (parent : List Text) (name relative : Text) (isDir : Bool) : Bool :=
  let reservedHere := (parent = [] && name = ".git".toList) || relative ∈ project.reservedRoots
  let jvmPackage := name = "build".toList && isJvmSourceBuildDir relative && isDir
  reservedHere || (decide (name ∈ config.ignoreDirs) && !jvmPackage)

def decide (relative : Text) (isDir : Bool) (above : GitignoreAncestry) : EntryDecision :=
  let own := project.gitignore.matched relative isDir
  let ignored := isPathIgnored relative [config.ignorePaths, config.excludePatterns] (above.decide own)
  if isDir then
    if ignored && !wantsDescend config relative then .skip else .descend (above.child own)
  else if !ignored || forces config relative then .file (project.extractable relative)
  else .skip

/-- The path is judged component by component, from the root on. -/
def membershipFrom (dir : Bool) (parent : List Text) (above : GitignoreAncestry) : List Text → Membership
  | [] => .admitted
  | name :: rest =>
    let relative := joinSegments (parent ++ [name])
    let kind := project.tree relative
    let isDir := kind = .directory
    if kind = .missing then .rejected
    else if kind = .unreadable ∨ kind = .symlink then .unknown
    else if prunesByName config project parent name relative isDir then .rejected
    else if rest = [] ∧ dir = false then
      if kind ≠ .file then .rejected
      else
        match decide config project relative false above with
        | .file true => .admitted
        | _ => .rejected
    else if ¬ isDir then .rejected
    else
      match decide config project relative true above with
      | .descend next => membershipFrom dir (parent ++ [name]) next rest
      | _ => .rejected

def scanMembership (relative : Text) (dir : Bool) : Membership :=
  let components := relative.segments.filter (· ≠ [])
  if components = [] ∨ ".".toList ∈ components ∨ "..".toList ∈ components then .rejected
  else membershipFrom config project dir [] .root components

end Rules

end Scan

namespace Policy

def watchOnlyDefaultIgnoreDirs : List Text :=
  [".cxx".toList, ".externalNativeBuild".toList, "vcpkg_installed".toList, ".bloop".toList, ".metals".toList,
    "lua_modules".toList, ".luarocks".toList, "__history".toList, "__recovery".toList, ".cache".toList]

def toolForms : List Text := ["*.egg-info/".toList, "cmake-build-*/".toList, "bazel-*/".toList]

def structuralIgnores (config : ScopeConfig) : List Text :=
  (config.ignoreDirs ++ watchOnlyDefaultIgnoreDirs).map (· ++ "/".toList) ++ toolForms

/-- The data directories are ignored at the root only. -/
def isAlwaysIgnored (relative : Text) : Bool :=
  let top := relative.segments.headD relative
  top = ".git".toList || top = ".codegraph".toList || top.startsWith ".codegraph-".toList

/-- A directory rule matches whole segments at any depth. -/
def ruleMatches (pattern relative : Text) (isDir : Bool) : Bool :=
  let candidate := if isDir then relative.trimEndSlashes ++ "/".toList else relative
  let pattern := pattern.dropWhile (· = '/')
  match Text.stripSuffix pattern "/".toList with
  | some dir =>
    candidate = dir ++ "/".toList || candidate.startsWith (dir ++ "/".toList) ||
      candidate.contains ('/' :: dir ++ "/".toList)
  | none =>
    match Text.splitOnce pattern '*' with
    | some (start, rest) =>
      let tail := relative.segments.getLastD relative
      tail.startsWith start && tail.endsWith rest
    | none => relative = pattern || relative.endsWith ('/' :: pattern)

/-- A `build` directory is output unless it is a package of the JVM languages. -/
def buildSegmentIsOutput (relative : Text) (isDir : Bool) : Bool :=
  let segments := relative.trimEndSlashes.segments
  let directories := if isDir then segments.length else segments.length - 1
  (List.range directories).any fun index =>
    segments[index]? = some "build".toList && !isJvmSourceBuildDir (joinSegments (segments.take (index + 1)))

def includeFileMatches (relative pattern : Text) : Bool :=
  match (pattern.stripSuffix "/**".toList).or (if pattern = "**".toList then some [] else none) with
  | some start => start = [] || relative = start || relative.startsWith (start ++ "/".toList)
  | none => includeExcludePatternMatches pattern relative

def includeTouchesDir (relative pattern : Text) : Bool :=
  if !pattern.contains "/".toList && !pattern.endsWith "*".toList then true
  else
    let trimmed := pattern.trimEndSlashes
    let stem :=
      match trimmed.splitOnce '*' with
      | some (start, _) => Text.trimEndSlashes start
      | none => trimmed
    if stem = [] then true
    else relative = stem || relative.startsWith (stem ++ "/".toList) || Text.startsWith stem (relative ++ "/".toList)

section Rules

variable (config : ScopeConfig) (gitignore : RootGitignore) (relative : Text) (isDir : Bool)

def matchesStructural : Bool :=
  (structuralIgnores config).any fun pattern =>
    if pattern = "build/".toList then buildSegmentIsOutput relative isDir else ruleMatches pattern relative isDir

def matchesNegotiable : Bool :=
  let applies := fun pattern => includeExcludePatternMatches pattern relative
  (gitignore.verdict relative isDir).getD
    ([config.ignorePaths, config.excludePatterns].foldl (foldPatterns applies) false)

def matchesExclude : Bool :=
  config.excludePatterns.any fun pattern => includeExcludePatternMatches pattern relative

/-- The whole path is judged at once, in the order of the scan's stages. -/
def isIgnored : Bool :=
  if matchesStructural config relative isDir then true
  else if !matchesNegotiable config gitignore relative isDir then false
  else if config.includePatterns.isEmpty then true
  else if matchesExclude config relative then true
  else
    let force :=
      if isDir then config.includePatterns.any (includeTouchesDir relative)
      else config.includePatterns.any (includeFileMatches relative)
    !force

def allowsFilePath : Bool := !isAlwaysIgnored relative && !isIgnored config gitignore relative false

def shouldWatchDir : Bool := !isAlwaysIgnored relative && !isIgnored config gitignore relative true

end Rules

end Policy

end Codegraph.Watch.Scope
