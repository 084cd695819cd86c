import Codegraph.Cpp.PatternMacros
import Codegraph.Installer.ConfigFiles
import Codegraph.Library.JsonValues
import Codegraph.Library.Matches
import Codegraph.Resolve.OsPaths

/- This file models how the packages of a workspace are found from its globs. -/

namespace Codegraph.Resolve.WorkspacePackages
open Codegraph.Watch.Scope (Text)
open Codegraph.Cpp (linesOf)
open Codegraph.Installer (trim trimStart)
open Footprints JsonTokens OsPaths

/-- What the loader looks at: a file that it reads, or a directory that it lists for the members of a glob. -/
inductive WorkspaceInput where
  | file (path : Text)
  | memberListing (dir : Text)
  deriving DecidableEq

abbrev Reply : WorkspaceInput → Type
  | .file _ => Option Text
  | .memberListing _ => List Text

/-- Inputs of one kind and of equal paths are equal. -/
def WorkspaceInput.kind : WorkspaceInput → List Text ⊕ List Text
  | .file path => .inl (components path)
  | .memberListing dir => .inr (components dir)

/-- The files of a state, and the entries of its directories with whether they are directories themselves. A directory
that cannot be read has none. -/
structure Disk where
  files : FileSystem
  entries : List Text → List (Text × Bool)

/-- The directories in a directory, without dot directories and `node_modules`, sorted. -/
def memberListing (disk : Disk) (dir : Text) : List Text :=
  (((disk.entries (components dir)).filter fun (name, isDir) =>
    isDir && !name.startsWith ['.'] && name ≠ "node_modules".toList).map Prod.fst).mergeSort

def reply (disk : Disk) : ∀ input, Reply input
  | .file path => (answer disk.files path).content
  | .memberListing dir => memberListing disk dir

/-- A program that reads files and lists directories. -/
abbrev Reading (α : Type) := Program WorkspaceInput Reply α

def trimStartMatches (start : Text) : Nat → Text → Text
  | 0, text => text
  | fuel + 1, text => if start <+: text then trimStartMatches start fuel (text.drop start.length) else text

def isQuote (c : Char) : Bool := c = '\'' || c = '"'

/-- Whether a line opens the list of packages. -/
def opensPackages (line : Text) : Bool :=
  let trimmed := trimStart line
  trimmed.startsWith "packages".toList && trimmed.contains [':'] &&
    (trimStart (trimStartMatches "packages".toList trimmed.length trimmed)).startsWith [':']

/-- The item of a line that starts with a hyphen. -/
def itemOf (line : Text) : Option Text :=
  match trimStart line with
  | '-' :: rest => some (((trim rest).dropWhile isQuote).rdropWhile isQuote)
  | _ => none

/-- The items below `packages:`, up to a line that is neither blank, nor indented, nor an item. -/
def parsePnpmFrom : Bool → List Text → List Text
  | _, [] => []
  | inPackages, line :: rest =>
    if opensPackages line then parsePnpmFrom true rest
    else if inPackages then
      match itemOf line with
      | some item => item :: parsePnpmFrom true rest
      | none => parsePnpmFrom (trim line = [] || line.head?.any Scanning.isWhitespace) rest
    else parsePnpmFrom false rest

def parsePnpmPackages (yaml : Text) : List Text := parsePnpmFrom false (linesOf yaml)

def readFile (path : Text) : Reading (Option Text) := Program.query (WorkspaceInput.file path)

section Loading

variable {Number : Type} (fromStr : Text → Option (Value Number))

/-- The globs of a `package.json`, whose `workspaces` is a list or has one below `packages`. -/
def globsOfPackage (text : Text) : List Text :=
  match (fromStr text).bind fun pkg => pkg.get "workspaces".toList with
  | some (.array globs) => globs.filterMap Value.asStr
  | some (.object members) =>
    match (Value.object members).get "packages".toList with
    | some (.array globs) => globs.filterMap Value.asStr
    | _ => []
  | _ => []

def readWorkspaceGlobs (projectRoot : Text) : Reading (List Text) := do
  let pkg ← readFile (join projectRoot "package.json".toList)
  let yaml ← readFile (join projectRoot "pnpm-workspace.yaml".toList)
  return pkg.elim [] (globsOfPackage fromStr) ++ yaml.elim [] parsePnpmPackages

/-- A pattern without a star is a directory itself. Any other one stands for the members of the directory before its
star. -/
def expandWorkspaceGlob (projectRoot pattern : Text) : Reading (List Text) :=
  let norm := Text.trimEndSlashes (pattern.map fun c => if c = '\\' then '/' else c)
  match Matches.find ['*'] norm with
  | none => pure [norm]
  | some star => do
    let base := Text.trimEndSlashes (norm.take star)
    let names ← Program.query (WorkspaceInput.memberListing (if base = [] then projectRoot else join projectRoot base))
    return (names : List Text).map fun name => if base = [] then name else base ++ '/' :: name

def readPackageName (dir : Text) : Reading (Option Text) := do
  let text ← readFile (join dir "package.json".toList)
  return (((text.bind fromStr).bind fun pkg => pkg.get "name".toList).bind Value.asStr).filter (· ≠ [])

/-- The entry of a new name goes to its place in the order of names. An entry that is there stays. -/
def orInsert (name dir : Text) : List (Text × Text) → List (Text × Text)
  | [] => [(name, dir)]
  | (other, kept) :: rest =>
    if name = other then (other, kept) :: rest
    else if name < other then (name, dir) :: (other, kept) :: rest
    else (other, kept) :: orInsert name dir rest

/-- The package of a directory is entered under its name. -/
def enterPackage (projectRoot : Text) (byName : List (Text × Text)) (dir : Text) : Reading (List (Text × Text)) := do
  match ← readPackageName fromStr (join projectRoot dir) with
  | some name => return orInsert name dir byName
  | none => return byName

def enterGlob (projectRoot : Text) (byName : List (Text × Text)) (pattern : Text) : Reading (List (Text × Text)) := do
  let dirs ← expandWorkspaceGlob projectRoot pattern
  dirs.foldlM (enterPackage fromStr projectRoot) byName

/-- The directories of the member packages by their names, if there are any. -/
def loadWorkspacePackages (projectRoot : Text) : Reading (Option (List (Text × Text))) := do
  let patterns ← readWorkspaceGlobs fromStr projectRoot
  if patterns = [] then return none
  let byName ← patterns.foldlM (enterGlob fromStr projectRoot) []
  return if byName = [] then none else some byName

/-- The inputs that the loader looks at, once each, in the order in which it first does. -/
def workspaceInputs (disk : Disk) (projectRoot : Text) : List WorkspaceInput :=
  firsts WorkspaceInput.kind [] ((loadWorkspacePackages fromStr projectRoot).asked (reply disk))

end Loading

end Codegraph.Resolve.WorkspacePackages
