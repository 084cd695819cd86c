import Codegraph.Library.Matches
import Codegraph.Watch.Scope

/- This file tells test files from production files by their paths. -/

namespace Codegraph.Query
open Codegraph.Watch.Scope (Text)

/-- The tables of the character database that the program reads. A whole text has a lower case of its own, since the
lower case of a sigma depends on its place. -/
structure Unicode where
  toLowercase : Text → Text
  lowerFirst : Char → Char
  isAlphabetic : Char → Bool
  isNumeric : Char → Bool
  isWhitespace : Char → Bool
  isUppercase : Char → Bool
  isLowercase : Char → Bool

def Unicode.isAlphanumeric (unicode : Unicode) (c : Char) : Bool := unicode.isAlphabetic c || unicode.isNumeric c

/-- The tables as they are on plain letters. -/
def Unicode.ascii : Unicode where
  toLowercase text := text.map Char.toLower
  lowerFirst := Char.toLower
  isAlphabetic := Char.isAlpha
  isNumeric := Char.isDigit
  isWhitespace := Char.isWhitespace
  isUppercase := Char.isUpper
  isLowercase := Char.isLower

/-- The texts before and after the last mark. -/
def rsplitOnce (text : Text) (mark : Char) : Option (Text × Text) :=
  if mark ∈ text then some ((text.rdropWhile (· ≠ mark)).dropLast, text.rtakeWhile (· ≠ mark)) else none

/-- The segments of a path before the last one. -/
def directories (path : Text) : List Text :=
  (Text.segments (((rsplitOnce path '/').map Prod.fst).getD [])).filter fun segment => !segment.isEmpty

/-- The stem before the last dot ends in a suffix that stands right after a separator. -/
def hasSeparatedSuffix (lowerName : Text) (suffixes : List String) (separators : List Char) : Bool :=
  match rsplitOnce lowerName '.' with
  | none => false
  | some (stem, ext) =>
    if ext.isEmpty || !ext.all fun c => c.isLower || c.isDigit then false
    else suffixes.any fun suffix =>
      ((stem.stripSuffix suffix.toList).bind List.getLast?).any fun separator => separators.contains separator

/-- The stem before the last dot ends in a suffix in its own case. -/
def hasCamelSuffix (fileName : Text) (suffixes : List String) : Bool :=
  match rsplitOnce fileName '.' with
  | none => false
  | some (stem, ext) =>
    (!ext.isEmpty && ext.all Char.isAlphanum) && suffixes.any fun suffix => stem.endsWith suffix.toList

/-- A test source set, as `jvmTest` or `UnitTests`. -/
def isCamelTestDirectory (dir : Text) : Bool :=
  dir.all Char.isAlphanum && ["Test", "Tests", "Spec"].any fun suffix => dir.endsWith suffix.toList

def testSupportNames : List String :=
  ["testdata", "testutil", "testutils", "test-util", "test_util", "test-utils", "test_utils", "fake", "fakes", "mock",
    "mocks", "__mocks__", "stubs"]

/-- A directory of test support, or a module that a hyphen or an underscore marks as one of tests. -/
def isTestSupportDirectory (dir : Text) : Bool :=
  testSupportNames.any (fun name => dir = name.toList) ||
    ["test", "tests", "testing"].any fun suffix =>
      ((dir.stripSuffix suffix.toList).bind fun rest =>
        (rest.stripSuffix ['-']).or (rest.stripSuffix ['_'])).any fun stem =>
          !stem.isEmpty && stem.all fun c => c.isAlphanum || c = '_' || c = '.'

section Paths

variable (unicode : Unicode) (path : Text)

def isTestPath : Bool :=
  let lower := unicode.toLowercase path
  let fileName := path.rtakeWhile (· ≠ '/')
  let lowerName := unicode.toLowercase fileName
  if Text.startsWith lowerName "test_".toList || Text.startsWith lowerName "test.".toList ||
      hasSeparatedSuffix lowerName ["test", "tests", "unittest", "unittests", "spec", "specs"] ['.', '_', '-'] ||
      hasCamelSuffix fileName ["Test", "Tests", "TestCase", "Tester", "Spec", "Specs"] then true
  else
    (["/tests/", "/test/", "/__tests__/", "/spec/", "/specs/", "/testlib/", "/testing/", "/e2e/"].any fun dir =>
        Text.contains lower dir.toList) ||
      (["test/", "tests/", "spec/", "specs/", "e2e/"].any fun root => Text.startsWith lower root.toList) ||
      (directories path).any isCamelTestDirectory || (directories lower).any isTestSupportDirectory

def nonProductionDirs : List String :=
  ["integration", "sample", "samples", "example", "examples", "fixture", "fixtures", "benchmark", "benchmarks", "demo",
    "demos"]

/-- Only the part of a path above its first source folder tells whether it is production code. -/
def matchesNonProductionDir (lowerPath : Text) : Bool :=
  let scope : Text := match Matches.find "/src/".toList lowerPath with
    | some place => lowerPath.take (place + 1)
    | none => if lowerPath.startsWith "src/".toList then [] else lowerPath
  nonProductionDirs.any fun dir =>
    Text.contains scope ("/".toList ++ dir.toList ++ "/".toList) || Text.startsWith scope (dir.toList ++ "/".toList)

/-- Tests and everything else that is no production code. -/
def isTestFile : Bool := isTestPath unicode path || matchesNonProductionDir (unicode.toLowercase path)

end Paths

end Codegraph.Query
