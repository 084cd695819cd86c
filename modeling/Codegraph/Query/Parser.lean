import Codegraph.Core.Types
import Codegraph.Query.FileClass

/- This file reads the filters of a search query and the text that is left. -/

namespace Codegraph.Query
open Codegraph.Core
open Codegraph.Watch.Scope (Text)

structure ParsedQuery where
  text : Text
  kinds : List NodeKind
  languages : List Language
  pathFilters : List Text
  nameFilters : List Text
  deriving DecidableEq

def ParsedQuery.empty : ParsedQuery := ⟨[], [], [], [], []⟩

def nodeKindFromStr (value : Text) : Option NodeKind := NodeKind.all.find? fun kind => kind.asStr.toList = value

def languageFromStr (value : Text) : Option Language := Language.all.find? fun language => language.asStr.toList = value

/-- Two quotes around a value are taken off. -/
def unquote (value : Text) : Text :=
  if value.length ≥ 2 && value.head? = some '"' && value.getLast? = some '"' then value.tail.dropLast else value

section Parsing

variable (unicode : Unicode)

/-- White space ends an open token unless a quote is open. A quote runs to the next one, or else to the end. -/
def tokenizeFrom : Bool → Text → Text → List Text
  | _, token, [] => if token.isEmpty then [] else [token]
  | quoted, token, c :: rest =>
    if !quoted && unicode.isWhitespace c then
      if token.isEmpty then tokenizeFrom false [] rest else token :: tokenizeFrom false [] rest
    else tokenizeFrom (if c = '"' then !quoted else quoted) (token ++ [c]) rest

def tokenize (raw : Text) : List Text := tokenizeFrom unicode false [] raw

def trim (text : Text) : Text := (text.dropWhile unicode.isWhitespace).rdropWhile unicode.isWhitespace

/-- The filters so far and the tokens that stay text. -/
structure QueryParse where
  out : ParsedQuery
  textParts : List Text

def QueryParse.keep (parse : QueryParse) (token : Text) : QueryParse :=
  { parse with textParts := parse.textParts ++ [token] }

/-- A token is a filter when a known key and a value stand on the two sides of its first colon. -/
def QueryParse.read (parse : QueryParse) (token : Text) : QueryParse :=
  match token.splitOnce ':' with
  | none => parse.keep token
  | some (head, tail) =>
    if head.isEmpty || tail.isEmpty then parse.keep token
    else
      let key := unicode.toLowercase head
      let value := unquote tail
      if value.isEmpty then parse.keep token
      else if key = "kind".toList then
        match nodeKindFromStr value with
        | some kind => { parse with out.kinds := parse.out.kinds ++ [kind] }
        | none => parse.keep token
      else if key = "lang".toList ∨ key = "language".toList then
        match languageFromStr (unicode.toLowercase value) with
        | some language => { parse with out.languages := parse.out.languages ++ [language] }
        | none => parse.keep token
      else if key = "path".toList then { parse with out.pathFilters := parse.out.pathFilters ++ [value] }
      else if key = "name".toList then { parse with out.nameFilters := parse.out.nameFilters ++ [value] }
      else parse.keep token

def parseQuery (raw : Text) : ParsedQuery :=
  let parse := (tokenize unicode raw).foldl (QueryParse.read unicode) ⟨.empty, []⟩
  { parse.out with text := trim unicode ([' '].intercalate parse.textParts) }

def splitWhitespace (text : Text) : List Text := (text.splitOnP unicode.isWhitespace).filter fun word => !word.isEmpty

end Parsing

end Codegraph.Query
