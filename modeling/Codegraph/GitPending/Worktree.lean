import Mathlib.Data.Finmap

/- This file gives a project's files, the scan that judges them, and what git reports of them. -/

namespace Codegraph.GitPending

section Paths

/-- A path inside the project, split at its slashes. -/
abbrev ProjectPath := List String

/-- A path stays inside the project when no segment leads elsewhere. -/
def isContained (path : ProjectPath) : Bool :=
  !path.isEmpty && path.all fun segment => segment ≠ "" && segment ≠ "." && segment ≠ ".." && '\\' ∉ segment.toList

/-- Both texts are the same up to the case of their ASCII letters. -/
def eqIgnoreAsciiCase (left right : String) : Bool := left.map Char.toLower = right.map Char.toLower

end Paths

section Themes

def shopifyThemeMarkers : List (String × String) := [("layout", "theme.liquid"), ("config", "settings_schema.json")]

def shopifyJsonFolders : List String := ["templates", "sections"]

def isShopifyMarkerFolder (name : String) : Bool :=
  shopifyThemeMarkers.any fun marker => eqIgnoreAsciiCase name marker.1

def isShopifyJsonFolder (name : String) : Bool := shopifyJsonFolders.any fun folder => eqIgnoreAsciiCase name folder

/-- A directory is a theme when it holds one of the markers. -/
def isShopifyTheme (theme : ProjectPath) (present : ProjectPath → Bool) : Bool :=
  (theme.isEmpty || isContained theme) && shopifyThemeMarkers.any fun marker => present (theme ++ [marker.1, marker.2])

/-- The theme directory that a marker path marks. -/
def shopifyMarkerTheme (path : ProjectPath) : Option ProjectPath :=
  match path.reverse with
  | name :: folder :: above =>
    if isContained path && shopifyThemeMarkers.any
        (fun marker => eqIgnoreAsciiCase folder marker.1 && eqIgnoreAsciiCase name marker.2) then
      some above.reverse
    else none
  | _ => none

def isShopifyThemeMarker (path : ProjectPath) : Bool := (shopifyMarkerTheme path).isSome

/-- The theme that holds the file, the nearest theme folder first. -/
def shopifyThemeRoot (path : ProjectPath) (present : ProjectPath → Bool) : Option ProjectPath :=
  if isContained path then
    (List.range (path.length - 1)).reverse.findSome? fun index =>
      if (path[index]?).any isShopifyJsonFolder && isShopifyTheme (path.take index) present then some (path.take index)
      else none
  else none

/-- Something precedes the extension past a folder of templates or of sections. -/
def isTemplateOrSectionJson (path : ProjectPath) : Bool :=
  (path.getLast?).any (fun name => eqIgnoreAsciiCase (String.ofList (name.toList.drop (name.length - 5))) ".json") &&
    (List.range (path.length - 1)).any fun index =>
      (path[index]?).any isShopifyJsonFolder && decide (5 < ("/".intercalate (path.drop (index + 1))).length)

def isShopifyLiquidJson (path : ProjectPath) (present : ProjectPath → Bool) : Bool :=
  isTemplateOrSectionJson path && (shopifyThemeRoot path present).isSome

end Themes

section Worlds

structure Version where
  content : String
  modifiedAt : Int
  deriving DecidableEq

def Version.size (version : Version) : Int := version.content.utf8ByteSize

inductive Entry where
  | file (version : Version)
  | link (target : String)
  deriving DecidableEq

inductive GitObject where
  | blob (content : String)
  | link (target : String)
  deriving DecidableEq

def Entry.object : Entry → GitObject
  | .file version => .blob version.content
  | .link target => .link target

abbrev Tree := Finmap fun _ : ProjectPath => GitObject

def Tree.at (tree : Tree) (path : ProjectPath) : Option GitObject := tree.lookup path

/-- The working tree, the repository, the settings that decide what git reports, and the scope of the scan.
A directory is on disk when it holds something. The files that a scan reaches through links stand apart, and so do the
ones among them whose link is new or leads elsewhere. -/
structure World where
  disk : Finmap fun _ : ProjectPath => Entry
  followed : Finmap fun _ : ProjectPath => Version
  relinked : Finset ProjectPath
  head : Option String
  objects : Finset String
  staged : Finset ProjectPath
  hidden : Finset ProjectPath
  converted : Finset ProjectPath
  conversion : Bool
  submodules : Bool
  nested : Finset ProjectPath
  ignoredFiles : Finset ProjectPath
  ignoredDirectories : Finset ProjectPath
  answers : Bool
  scope : String
  /-- No entry lies below another one. -/
  nestless : ∀ path ∈ disk.keys, ∀ above ∈ path.inits, above ∈ disk.keys → above = path
  deriving DecidableEq

/-- The scope decides which directories the scan enters, which files it keeps, and what the index hashes of a file. -/
structure Rules where
  enters : String → ProjectPath → Bool
  keeps : String → ProjectPath → Bool → Bool
  sourceHash : String → ProjectPath → String → Option String

variable (rules : Rules) (world : World)

def World.entry (path : ProjectPath) : Option Entry := world.disk.lookup path

def World.present (path : ProjectPath) : Bool := path ∈ world.disk.keys

def World.object (path : ProjectPath) : Option GitObject := (world.entry path).map Entry.object

def World.isDirectory (path : ProjectPath) : Bool := decide (∃ other ∈ world.disk.keys, path <+: other ∧ path ≠ other)

def World.isLink (path : ProjectPath) : Bool :=
  match world.entry path with
  | some (.link _) => true
  | _ => false

/-- A file is read directly or through a link. -/
def World.versionAt (path : ProjectPath) : Option Version :=
  match world.entry path with
  | some (.file version) => some version
  | some (.link _) => world.followed.lookup path
  | none => world.followed.lookup path

end Worlds

section Scan

inductive Membership where
  | admitted
  | rejected
  | unknown
  deriving DecidableEq

variable (rules : Rules) (world : World)

/-- The path is judged component by component, and a link ends the judgement. -/
def membershipFrom (directory : Bool) : ProjectPath → List String → Membership
  | _, [] => .admitted
  | above, name :: rest =>
    let path := above ++ [name]
    match world.entry path with
    | some (.link _) => .unknown
    | some (.file _) =>
      if rest = [] ∧ directory = false then
        if rules.keeps world.scope path (isShopifyLiquidJson path world.present) then .admitted else .rejected
      else .rejected
    | none =>
      if world.isDirectory path && (directory || rest ≠ []) && rules.enters world.scope path then
        membershipFrom directory path rest
      else .rejected

def scanMembership (path : ProjectPath) (directory : Bool) : Membership :=
  if path = [] ∨ "." ∈ path ∨ ".." ∈ path then .rejected else membershipFrom rules world directory [] path

/-- The files that the walk reaches through links. -/
def linkedFiles : Finset ProjectPath :=
  world.followed.keys.filter fun path => scanMembership rules world path false = .unknown

def scanProject : Finset ProjectPath :=
  world.disk.keys.filter (fun path => scanMembership rules world path false = .admitted) ∪ linkedFiles rules world

end Scan

section Git

variable (rules : Rules) (trees : String → Tree) (world : World)

/-- A scope is identified by all that decides it. -/
def scopeFingerprint : String := world.scope

/-- Without an answer or a commit there is no repository to read. -/
def World.repo : Option String := if world.answers then world.head else none

/-- A wholly ignored directory is listed in the place of the files under it. -/
def World.ignores (path : ProjectPath) : Bool :=
  path ∈ world.ignoredFiles || decide (∃ above ∈ path.inits, above ≠ path ∧ above ∈ world.ignoredDirectories)

/-- Git misses the change of a path that it ignores, hides, converts, or leaves to another repository. -/
def World.unreported (head : String) (path : ProjectPath) : Bool :=
  path ∈ world.hidden || path ∈ world.converted || ((trees head).at path = none && world.ignores path) ||
    decide (∃ above ∈ path.inits, above ∈ world.nested)

/-- Every staged path is reported, and so is every path that differs from the commit unless git misses it. -/
def statusPaths (head : String) : Finset ProjectPath :=
  ((world.disk.keys ∪ (trees head).keys).filter fun path =>
    world.object path ≠ (trees head).at path ∧ world.unreported trees head path = false) ∪ world.staged

def committedPaths (commit head : String) : Finset ProjectPath :=
  ((trees commit).keys ∪ (trees head).keys).filter fun path => (trees commit).at path ≠ (trees head).at path

structure IndexFlags where
  submodules : Bool
  hiddenChanges : Bool
  deriving DecidableEq

def indexFlags : IndexFlags := ⟨world.submodules, decide world.hidden.Nonempty⟩

/-- Git compares after a conversion only when a setting says so. -/
def conversionRisk : Bool := world.conversion || decide world.converted.Nonempty

/-- The directory holds a folder of templates or of sections. -/
def hasJsonFolder (theme : ProjectPath) : Bool :=
  decide (∃ path ∈ world.disk.keys, theme <+: path ∧ theme.length + 1 < path.length ∧
    (path[theme.length]?).any isShopifyJsonFolder = true)

/-- An ignored marker, or an ignored folder of markers, beside a theme's JSON. -/
def mayHideAMarker (entry : ProjectPath) (directory : Bool) : Bool :=
  match (if directory then
      match entry.reverse with
      | name :: above => if isShopifyMarkerFolder name then some above.reverse else none
      | [] => none
    else shopifyMarkerTheme entry) with
  | some theme => hasJsonFolder world theme
  | none => false

def ignoresScannedPath : Bool :=
  decide (∃ path ∈ world.ignoredFiles, path.getLast? = some ".gitattributes" ∨ mayHideAMarker world path false = true ∨
      scanMembership rules world path false ≠ .rejected) ||
    decide (∃ path ∈ world.ignoredDirectories, mayHideAMarker world path true = true ∨
      scanMembership rules world path true ≠ .rejected)

end Git

end Codegraph.GitPending
