import Codegraph.Core.Types
import Codegraph.Query.FileClass
import Mathlib.Algebra.GroupWithZero.Nat

/- This file holds the kinds, the names and the paths that the dead code report asks about, and the counters of its
rules. -/

namespace Codegraph.DeadCode
open Codegraph.Core Codegraph.Query
open Codegraph.Watch.Scope (Text)

/-- Callables and types are asked about by default. -/
def deadCodeKinds : List NodeKind :=
  [.function, .method, .class_, .component, .interface, .struct, .trait, .protocol, .enum, .union, .typeAlias]

def isAllowedDeadCodeKind (kind : NodeKind) : Bool :=
  deadCodeKinds.contains kind ||
    [NodeKind.variable_, .constant, .property, .field, .enumMember, .namespace_, .module].contains kind

def maxDeadCodeCandidates : Nat := 20000

def maxOverrideAncestorDepth : Nat := 8

def maxCorroborationFiles : Nat := 600

def isContainerKind (kind : NodeKind) : Bool :=
  [NodeKind.class_, .interface, .struct, .trait, .protocol, .enum, .union, .typeAlias].contains kind

def isDeclarationContainerKind (kind : NodeKind) : Bool := [NodeKind.interface, .trait, .protocol].contains kind

def byNameDispatchLanguages : List Language := [.typeScript, .tsx]

def isHookShaped (node : Node) : Bool :=
  [NodeKind.method, .function].contains node.kind && byNameDispatchLanguages.contains node.language

def isOverridableKind (kind : NodeKind) : Bool := [NodeKind.method, .function, .property, .field].contains kind

/-- Nothing that can be a member can contain members. -/
theorem isContainerKind_eq_false {kind : NodeKind} (overridable : isOverridableKind kind = true) :
    isContainerKind kind = false := by
  revert overridable
  cases kind <;> decide

def implicitEntryNames : List String :=
  ["constructor", "main", "init", "deinit", "finalize", "destructor", "dispose", "drop", "default", "tostring",
    "equals",
    "gethashcode", "hashcode"]

def testScopeSegments : List String := ["test", "tests", "__tests__", "spec", "specs", "testing"]

def markupHostLanguages : List String :=
  ["svelte", "vue", "astro", "liquid", "html", "razor", "twig", "blade", "erb", "handlebars"]

def headerExtensions : List String :=
  [".h", ".hh", ".hpp", ".hxx", ".h++", ".inc", ".d.ts", ".d.mts", ".d.cts", ".pyi", ".pxd"]

def vendorSegments : List String :=
  ["vendor", "vendored", "third_party", "third-party", "thirdparty", "external", "externals", "node_modules",
    "bower_components", "site-packages", "godeps", "pods", ".venv", "venv"]

section Names

variable (unicode : Unicode)

/-- A text is one of the listed ones when its case is ignored. -/
def listedInLowerCase (names : List String) (text : Text) : Bool :=
  names.any fun name => name.toList = unicode.toLowercase text

def isHeaderFile (filePath : String) : Bool :=
  headerExtensions.any fun ext => Text.endsWith (unicode.toLowercase filePath.toList) ext.toList

def isTestScope (qualifiedName : String) : Bool :=
  (qualifiedName.toList.splitOnP fun c => ['.', ':', '/', '\\', '#', '>'].contains c).any
    (listedInLowerCase unicode testScopeSegments)

def isVendoredPath (filePath : String) : Bool :=
  (Text.segments (filePath.toList.map fun c => if c = '\\' then '/' else c)).any
    (listedInLowerCase unicode vendorSegments)

def isDunder (name : Text) : Bool :=
  decide (name.length > 4) && Text.startsWith name "__".toList && Text.endsWith name "__".toList &&
    ((name.drop 2).take (name.length - 4)).all fun c => c.isAlphanum || c = '_'

def isImplicitEntryName (name : String) : Bool :=
  isDunder name.toList || listedInLowerCase unicode implicitEntryNames name.toList

end Names

/-- The allowed kinds of a request, each once. -/
def allowedKinds (requested : List NodeKind) : List NodeKind :=
  requested.foldl
    (fun kinds kind => if isAllowedDeadCodeKind kind && !kinds.contains kind then kinds ++ [kind] else kinds) []

/-- No request, an empty one, or one without an allowed kind asks about the default kinds. -/
def normalizeKinds (requested : Option (List NodeKind)) : List NodeKind :=
  match requested.filter fun kinds => !kinds.isEmpty with
  | none => deadCodeKinds
  | some requested => if (allowedKinds requested).isEmpty then deadCodeKinds else allowedKinds requested

section Collation

variable (unicode : Unicode)

def punctuationOrder : Text := "_-,;:!?.'\"()[]\x7b\x7d@*/\\&#%`^+<=>|~$".toList

/-- White space comes before punctuation, punctuation before everything unknown, and digits before letters. -/
def primaryWeight (c : Char) : Nat × Nat :=
  if unicode.isWhitespace c then (0, c.toNat)
  else
    match punctuationOrder.idxOf? c with
    | some place => (1, place)
    | none =>
      if c.isDigit then (3, c.toNat)
      else if unicode.isAlphanumeric c then (4, (unicode.lowerFirst c).toNat)
      else (2, c.toNat)

def weightCmp (first second : Nat × Nat) : Ordering := (compare first.1 second.1).then (compare first.2 second.2)

/-- Case decides between texts of the same letters, and lower case comes first. -/
def localeCompare (first second : String) : Ordering :=
  (List.compareLex weightCmp (first.toList.map (primaryWeight unicode))
    (second.toList.map (primaryWeight unicode))).then <|
    (List.compareLex compare (first.toList.map unicode.isUppercase) (second.toList.map unicode.isUppercase)).then <|
      compare first second

end Collation

/-- The rules that drop a candidate. -/
inductive ExclusionRule where
  | tests
  | generated
  | exported
  | exportsUnknown
  | declarations
  | decorated
  | overriding
  | hooks
  | implicit
  | vendored
  | testScope
  | markup
  | unreachableFile
  | unresolvedName
  | ambiguousName
  | mentioned
  | unreadable
  | nested
  deriving DecidableEq

/-- How many candidates each rule removed. -/
structure DeadCodeExclusions where
  tests : Nat
  generated : Nat
  exported : Nat
  exportsUnknown : Nat
  declarations : Nat
  decorated : Nat
  overriding : Nat
  hooks : Nat
  implicit : Nat
  vendored : Nat
  testScope : Nat
  markup : Nat
  unreachableFile : Nat
  unresolvedName : Nat
  ambiguousName : Nat
  mentioned : Nat
  unreadable : Nat
  nested : Nat
  deriving DecidableEq

namespace DeadCodeExclusions

def none : DeadCodeExclusions := ⟨0, 0, 0, 0, 0, 0, 0, 0, 0, 0, 0, 0, 0, 0, 0, 0, 0, 0⟩

def count (excluded : DeadCodeExclusions) : ExclusionRule → DeadCodeExclusions
  | .tests => { excluded with tests := excluded.tests + 1 }
  | .generated => { excluded with generated := excluded.generated + 1 }
  | .exported => { excluded with exported := excluded.exported + 1 }
  | .exportsUnknown => { excluded with exportsUnknown := excluded.exportsUnknown + 1 }
  | .declarations => { excluded with declarations := excluded.declarations + 1 }
  | .decorated => { excluded with decorated := excluded.decorated + 1 }
  | .overriding => { excluded with overriding := excluded.overriding + 1 }
  | .hooks => { excluded with hooks := excluded.hooks + 1 }
  | .implicit => { excluded with implicit := excluded.implicit + 1 }
  | .vendored => { excluded with vendored := excluded.vendored + 1 }
  | .testScope => { excluded with testScope := excluded.testScope + 1 }
  | .markup => { excluded with markup := excluded.markup + 1 }
  | .unreachableFile => { excluded with unreachableFile := excluded.unreachableFile + 1 }
  | .unresolvedName => { excluded with unresolvedName := excluded.unresolvedName + 1 }
  | .ambiguousName => { excluded with ambiguousName := excluded.ambiguousName + 1 }
  | .mentioned => { excluded with mentioned := excluded.mentioned + 1 }
  | .unreadable => { excluded with unreadable := excluded.unreadable + 1 }
  | .nested => { excluded with nested := excluded.nested + 1 }

/-- Every rule with its wire name, in the order of the rules. -/
def entries (excluded : DeadCodeExclusions) : List (String × Nat) :=
  [("tests", excluded.tests), ("generated", excluded.generated), ("exported", excluded.exported),
    ("exportsUnknown", excluded.exportsUnknown), ("declarations", excluded.declarations),
    ("decorated", excluded.decorated), ("overriding", excluded.overriding), ("hooks", excluded.hooks),
    ("implicit", excluded.implicit), ("vendored", excluded.vendored), ("testScope", excluded.testScope),
    ("markup", excluded.markup), ("unreachableFile", excluded.unreachableFile),
    ("unresolvedName", excluded.unresolvedName), ("ambiguousName", excluded.ambiguousName),
    ("mentioned", excluded.mentioned), ("unreadable", excluded.unreadable), ("nested", excluded.nested)]

/-- The sum of all counters. -/
def total (excluded : DeadCodeExclusions) : Nat := (excluded.entries.map Prod.snd).sum

theorem total_none : none.total = 0 := rfl

/-- Each rule adds one to the sum. -/
theorem total_count (excluded : DeadCodeExclusions) (rule : ExclusionRule) :
    (excluded.count rule).total = excluded.total + 1 := by
  cases rule <;> simp only [total, entries, count, List.map_cons, List.map_nil, List.sum_cons, List.sum_nil] <;> omega

end DeadCodeExclusions

end Codegraph.DeadCode
