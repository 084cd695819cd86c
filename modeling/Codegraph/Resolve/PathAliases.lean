import Codegraph.Library.Matches
import Codegraph.Library.Utf8Loops
import Codegraph.Resolve.Jsonc
import Codegraph.Resolve.OsPaths

/- This file models how the path aliases of a project are loaded from its configuration files. -/

namespace Codegraph.Resolve.PathAliases
open Codegraph.Watch.Scope (Text)
open Footprints JsonTokens OsPaths
open Pathutil (isAbsolute)

/-- A pattern of `compilerOptions.paths`, cut at its wildcard. -/
structure AliasPattern where
  pre : Text
  suffix : Text
  hasWildcard : Bool
  replacements : List Text
  deriving DecidableEq

/-- The directory that the replacements are below, and the patterns from the most specific one on. -/
structure AliasMap where
  baseUrl : Text
  patterns : List AliasPattern
  deriving DecidableEq

/-- What a configuration and those that it extends decide together. -/
structure EffectiveOptions (Number : Type) where
  baseUrl : Option Text := none
  paths : Option (List (Text × Value Number)) := none
  pathsDir : Option Text := none

def maxExtendsDepth : Nat := 32

def stringPathToPosix (path : Text) : Text := Pathutil.normalize (path.map fun c => if c = '\\' then '/' else c)

def resolveConfigPath (fromDir spec : Text) : Text := if isAbsolute spec then spec else join fromDir spec

def appendJsonExtension (path : Text) : Text := path ++ ".json".toList

def candidatesFor (base : Text) : List Text := [base, appendJsonExtension base, join base "tsconfig.json".toList]

/-- The first of some candidates that is a file. -/
def findFile : List Text → Probe (Option Text)
  | [] => pure none
  | candidate :: rest => do
    if ← isFile candidate then return some candidate else findFile rest

/-- A package is looked for below each directory in turn. -/
def findPackage (spec : Text) : List Text → Probe (Option Text)
  | [] => pure none
  | dir :: rest => do
    match ← findFile (candidatesFor (join (join dir "node_modules".toList) spec)) with
    | some candidate => return some candidate
    | none => findPackage spec rest

def resolveExtendsTarget (spec fromDir : Text) : Probe (Option Text) :=
  if spec.startsWith "./".toList || spec.startsWith "../".toList || isAbsolute spec then
    findFile (candidatesFor (resolveConfigPath fromDir spec))
  else findPackage spec (ancestors fromDir)

section Loading

variable {Number : Type} (fromStr : Text → Option (Value Number))

def readTsconfigLike (path : Text) : Probe (Option (Value Number)) := do
  let text ← readToString path
  return (text.bind fun text => fromStr (Jsonc.stripJsonc text)).filter fun parsed => parsed.asObject.isSome

/-- The `extends` of a configuration, which is one text or a list of texts. -/
def extendsOf (raw : Value Number) : List Text :=
  match raw.get "extends".toList with
  | some (.string parent) => [parent]
  | some (.array parents) => parents.filterMap Value.asStr
  | _ => []

/-- Options that were reached through `extends` replace those of earlier parents. -/
def EffectiveOptions.inherit (effective inherited : EffectiveOptions Number) : EffectiveOptions Number where
  baseUrl := inherited.baseUrl.or effective.baseUrl
  paths := inherited.paths.or effective.paths
  pathsDir := if inherited.paths.isSome then inherited.pathsDir else effective.pathsDir

/-- The options that the configuration in a directory declares itself are the nearest ones. -/
def EffectiveOptions.declare (effective : EffectiveOptions Number) (raw : Value Number) (dir : Text) :
    EffectiveOptions Number :=
  let compilerOptions := raw.get "compilerOptions".toList
  let baseUrl := (compilerOptions.bind fun options => options.get "baseUrl".toList).bind Value.asStr
  let paths := (compilerOptions.bind fun options => options.get "paths".toList).bind Value.asObject
  { baseUrl := (baseUrl.map fun url => stringPathToPosix (resolveConfigPath dir url)).or effective.baseUrl
    paths := paths.or effective.paths
    pathsDir := if paths.isSome then some (stringPathToPosix dir) else effective.pathsDir }

/-- So many configurations may still be entered, and those on the stack are not entered again. -/
def loadEffectiveOptions : Nat → Text → List Text → Probe (Option (EffectiveOptions Number))
  | 0, _, _ => pure none
  | remaining + 1, filePath, stack => do
    let key := stringPathToPosix filePath
    if key ∈ stack then return none
    match ← readTsconfigLike fromStr filePath with
    | none => return none
    | some raw =>
      let dir := (parent filePath).getD []
      let effective ← (extendsOf raw).foldlM (fun (effective : EffectiveOptions Number) parent => do
        match ← resolveExtendsTarget parent dir with
        | none => return effective
        | some target =>
          match ← loadEffectiveOptions remaining target (key :: stack) with
          | none => return effective
          | some inherited => return effective.inherit inherited) {}
      return some (effective.declare raw dir)

/-- The first configuration that has options counts, up to the first one that has paths. -/
def loadFirst (projectRoot : Text) :
    Option (EffectiveOptions Number) → List Text → Probe (Option (EffectiveOptions Number))
  | effective, [] => pure effective
  | effective, name :: rest => do
    let path := join projectRoot name
    if ← isFile path then
      match ← loadEffectiveOptions fromStr (maxExtendsDepth + 1) path [] with
      | none => loadFirst projectRoot effective rest
      | some options =>
        if options.paths.isSome then return some options
        else loadFirst projectRoot (effective.or (some options)) rest
    else loadFirst projectRoot effective rest

def splitWildcard (pattern : Text) : Text × Text × Bool :=
  match Matches.find ['*'] pattern with
  | none => (pattern, [], false)
  | some star => (pattern.take star, pattern.drop (star + 1), true)

/-- A pattern without text targets is left out. -/
def patternOf (entry : Text × Value Number) : Option AliasPattern :=
  entry.2.asArray.bind fun targets =>
    let filtered := targets.filterMap Value.asStr
    if filtered = [] then none
    else
      let (pre, suffix, hasWildcard) := splitWildcard entry.1
      some ⟨pre, suffix, hasWildcard, filtered⟩

/-- Patterns with longer prefixes come first, counted in bytes, and at one length those without a wildcard. -/
def AliasPattern.notAfter (a b : AliasPattern) : Bool :=
  let first := (Utf8.units a.pre).length
  let second := (Utf8.units b.pre).length
  if first ≠ second then second < first else !a.hasWildcard || b.hasWildcard

/-- The alias map of options that were loaded. -/
def aliasMapOf (projectRoot : Text) (effective : EffectiveOptions Number) : Option AliasMap :=
  effective.paths.bind fun paths =>
    let patterns := paths.filterMap patternOf
    if patterns = [] then none
    else some ⟨(effective.baseUrl.or effective.pathsDir).getD (stringPathToPosix projectRoot),
      patterns.mergeSort AliasPattern.notAfter⟩

def loadProjectAliases (projectRoot : Text) : Probe (Option AliasMap) := do
  let effective ← loadFirst fromStr projectRoot none
    ["tsconfig.json".toList, "jsconfig.json".toList, "tsconfig.base.json".toList]
  return effective.bind (aliasMapOf projectRoot)

/-- The paths that the loader looks at, once each, in the order in which it first does. -/
def aliasConfigInputs (state : FileSystem) (projectRoot : Text) : List Text :=
  firsts components [] ((loadProjectAliases fromStr projectRoot).asked (answer state))

end Loading

section Own

variable {Number : Type} {fromStr : Text → Option (Value Number)} {oracle : Text → Entry} {projectRoot : Text}
  {raw : Value Number}

/-- All candidates are looked at when none of them is a file. -/
theorem findFile_missing {candidates : List Text} (missing : ∀ path ∈ candidates, (oracle path).isFile = false) :
    (findFile candidates).run oracle = none ∧ (findFile candidates).asked oracle = candidates := by
  induction candidates with
  | nil => exact ⟨rfl, rfl⟩
  | cons path rest ih =>
    obtain ⟨ran, asked⟩ := ih fun other member => missing other (List.mem_cons_of_mem _ member)
    have here : (isFile path).run oracle = false := missing path List.mem_cons_self
    have only : (isFile path).asked oracle = [path] := rfl
    rw [findFile, Program.run_bind, Program.asked_bind, here, only, if_neg Bool.false_ne_true, ran, asked]
    exact ⟨rfl, rfl⟩

theorem run_findFile_head {path : Text} {rest : List Text} (there : (oracle path).isFile = true) :
    (findFile (path :: rest)).run oracle = some path := by
  have here : (isFile path).run oracle = true := there
  rw [findFile, Program.run_bind, here, if_pos rfl]
  rfl

/-- A configuration without comments and trailing commas is read as the value of its document. -/
theorem run_readTsconfigLike_plain {reader : Reader Number} {path text : Text} {doc : Doc}
    (there : (oracle path).content = some text)
    (plain : Jsonc.stripJsonc text = text) (lexed : lex text = some doc.tokens) (valued : doc.value reader = some raw)
    (object : raw.asObject.isSome = true) : (readTsconfigLike (readText reader) path).run oracle = some raw := by
  have content : (readToString path).run oracle = some text := there
  rw [readTsconfigLike, Program.run_bind, content, Program.run_pure, Option.bind_some, plain, readText_of_lex lexed,
    valued]
  exact Option.filter_some_pos object

/-- A configuration that extends nothing has the options that it declares. -/
theorem run_loadEffectiveOptions_own {remaining : Nat} {filePath : Text} {stack : List Text}
    (new : stringPathToPosix filePath ∉ stack)
    (read : (readTsconfigLike fromStr filePath).run oracle = some raw) (own : extendsOf raw = []) :
    (loadEffectiveOptions fromStr (remaining + 1) filePath stack).run oracle =
      some (.declare {} raw ((parent filePath).getD [])) := by
  rw [loadEffectiveOptions]
  dsimp only
  rw [if_neg new, Program.run_bind, read]
  dsimp only
  rw [own]
  rfl

/-- The aliases of a root whose first configuration declares paths and extends nothing. -/
theorem run_loadProjectAliases_own (exists_ : (oracle (join projectRoot "tsconfig.json".toList)).isFile = true)
    (read : (readTsconfigLike fromStr (join projectRoot "tsconfig.json".toList)).run oracle = some raw)
    (own : extendsOf raw = []) (declared : (EffectiveOptions.declare {} raw
      ((parent (join projectRoot "tsconfig.json".toList)).getD [])).paths.isSome = true) :
    (loadProjectAliases fromStr projectRoot).run oracle =
      aliasMapOf projectRoot
        (EffectiveOptions.declare {} raw ((parent (join projectRoot "tsconfig.json".toList)).getD [])) := by
  have looked : (isFile (join projectRoot "tsconfig.json".toList)).run oracle = true := exists_
  rw [loadProjectAliases, Program.run_bind, loadFirst, Program.run_bind, looked, if_pos rfl, Program.run_bind,
    run_loadEffectiveOptions_own List.not_mem_nil read own]
  dsimp only
  rw [if_pos declared]
  rfl

end Own

end Codegraph.Resolve.PathAliases
