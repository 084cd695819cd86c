import Codegraph.Query.FileClass

/- This file splits identifiers into the words that they are made of. -/

namespace Codegraph.Query
open Codegraph.Watch.Scope (Text)

variable (unicode : Unicode)

/-- A letter case that rises begins a new word, and so does the last capital before a small letter. -/
def beginsWord (prev : Option Char) (c : Char) (next : Option Char) : Bool :=
  prev.any fun before =>
    ((unicode.isLowercase before || unicode.isNumeric before) && unicode.isUppercase c) ||
      (unicode.isUppercase before && unicode.isUppercase c && next.any unicode.isLowercase)

/-- The words of a run of letters and digits, after the letters of an open word. -/
def wordsFrom : Option Char → Text → Text → List Text
  | _, current, [] => if current.isEmpty then [] else [unicode.toLowercase current]
  | prev, current, c :: rest =>
    if beginsWord unicode prev c rest.head? && !current.isEmpty then
      unicode.toLowercase current :: wordsFrom (some c) [c] rest
    else wordsFrom (some c) (current ++ [c]) rest

def identifierSegments (raw : Text) : List Text :=
  (raw.splitOnP fun c => !unicode.isAlphanumeric c).flatMap (wordsFrom unicode none [])

def isMultiSegmentIdentifier (token : Text) : Bool := decide ((identifierSegments unicode token).length ≥ 2)

/-- The words of a query stand together and in order among those of a name. -/
def nameSegmentsContainRun (name query : Text) : Bool :=
  let want := identifierSegments unicode query
  !want.isEmpty && decide (want <:+: identifierSegments unicode name)

def isExactNameMatch (nodeName query : Text) : Bool := unicode.toLowercase nodeName = unicode.toLowercase query

end Codegraph.Query
