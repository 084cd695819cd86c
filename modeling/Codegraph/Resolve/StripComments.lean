import Codegraph.Resolve.ByteStripping

/- This file strips the comments of every language and shows that a text keeps its places. -/

namespace Codegraph.Resolve.StripComments
open Scanning

inductive CommentLang where
  | python
  | javaScript
  | typeScript
  | php
  | ruby
  | java
  | cSharp
  | swift
  | go
  | rust
  | cpp
  deriving DecidableEq

def stripCommentsForRegex (content : List Char) : CommentLang → Option (List Char)
  | .python => some (stripPython content)
  | .ruby => some (stripRuby content)
  | .rust => some (stripRust content)
  | .php => some (stripPhp content)
  | .go => some (stripGo content)
  | .javaScript => stripCStyle content true
  | .typeScript => stripCStyle content true
  | .java => stripCStyle content false
  | .cSharp => stripCStyle content false
  | .swift => stripCStyle content false
  | .cpp => stripCStyle content false

theorem scan_in_place {σ : Type} {read : Reader σ} {Follows : σ → σ → List Char → Prop} {afterBlank : σ → Char → σ}
    (rescans : Rescans read Follows afterBlank) (state : σ) (content : List Char)
    (follows : Follows state state content) :
    ∃ out, some (scan read state content) = some out ∧ KeepsGrid content out ∧ some (scan read state out) = some out :=
  ⟨_, rfl, (rescans.masks state content).keepsGrid, congrArg some (rescans.scan_scan follows)⟩

/-- Comments become spaces in their places, and a text without comments stays as it is. -/
theorem comments_become_spaces (content : List Char) (lang : CommentLang) :
    ∃ out, stripCommentsForRegex content lang = some out ∧ KeepsGrid content out ∧
      stripCommentsForRegex out lang = some out := by
  have cStyle (allow : Bool) : ∃ out, stripCStyle content allow = some out ∧ KeepsGrid content out ∧
      stripCStyle out allow = some out := by
    simp only [stripCStyle_eq]
    exact scan_in_place (cStyle_rescans allow) () content trivial
  cases lang with
  | python => exact scan_in_place python_rescans () content trivial
  | ruby => exact scan_in_place ruby_rescans true content (.inl rfl)
  | rust => exact scan_in_place rust_rescans () content trivial
  | php => exact scan_in_place php_rescans () content trivial
  | go => exact scan_in_place go_rescans () content trivial
  | javaScript => exact cStyle true
  | typeScript => exact cStyle true
  | java => exact cStyle false
  | cSharp => exact cStyle false
  | swift => exact cStyle false
  | cpp => exact cStyle false

end Codegraph.Resolve.StripComments
