import Codegraph.Library.Footprints
import Codegraph.Resolve.Pathutil
import Mathlib.Algebra.GroupWithZero.Nat

/- This file models paths of the operating system and what a program learns about the files at them. -/

namespace Codegraph.Resolve.OsPaths
open Codegraph.Watch.Scope (Text joinSegments)
open Footprints List
open Pathutil (isAbsolute segs dot)

/-- A segment that names nothing. -/
def isBlank (seg : Text) : Bool := seg = [] || seg = dot

/-- An absolute path stays as it is, and any other one goes behind a slash. -/
def join (base path : Text) : Text :=
  if isAbsolute path then path
  else if base = [] ∨ base.getLast? = some '/' then base ++ path
  else base ++ '/' :: path

/-- What a path starts with in front of its segments: the root, or a dot. -/
def lead (path : Text) : Text :=
  if isAbsolute path then ['/'] else if path.segments.head? = some dot then dot else []

/-- Paths of the same components are equal. Slashes at the end and dots inside do not count. -/
def components (path : Text) : List Text := if lead path = [] then segs path else lead path :: segs path

/-- A path that ends with a slash or a dot. -/
def endsOpen (path : Text) : Bool := path.segments.getLast?.any isBlank

def parent (path : Text) : Option Text :=
  let body := (Text.segments (path.drop (lead path).length)).rdropWhile fun seg => isBlank seg
  if body = [] then if lead path = dot then some [] else none
  else some (lead path ++ joinSegments (body.dropLast.rdropWhile fun seg => isBlank seg))

def ancestorsFrom : Nat → Text → List Text
  | 0, _ => []
  | fuel + 1, path => path :: (match parent path with
    | none => []
    | some above => ancestorsFrom fuel above)

/-- A path and the paths above it, up to the one that has no parent. -/
def ancestors (path : Text) : List Text := ancestorsFrom (path.length + 1) path

/-- Whether a file is at a path, and the text that is read there. -/
structure Entry where
  isFile : Bool
  content : Option Text
  deriving DecidableEq

/-- The files of a state, by the components of their paths. -/
abbrev FileSystem := List Text → Entry

/-- A path that ends with a slash or a dot is no file's path. -/
def answer (state : FileSystem) (path : Text) : Entry :=
  if endsOpen path = true then ⟨false, none⟩ else state (components path)

/-- A program that looks at paths. -/
abbrev Probe (α : Type) := Program Text (fun _ => Entry) α

def isFile (path : Text) : Probe Bool := do
  let entry ← Program.query path
  return entry.isFile

def readToString (path : Text) : Probe (Option Text) := do
  let entry ← Program.query path
  return entry.content

/-- A path ends as the plain name that it is joined with. -/
theorem endsOpen_join {base name : Text} (single : '/' ∉ name) (solid : isBlank name = false) :
    endsOpen (join base name) = false := by
  have named : name.splitOn '/' = [name] := splitOn_eq_singleton single
  have whole : endsOpen name = false := by
    rw [endsOpen, Text.segments, named]
    exact solid
  have below (front : Text) : endsOpen (front ++ '/' :: name) = false := by
    rw [endsOpen, Text.segments, splitOn_append_cons_self, named,
      getLast?_append_of_ne_nil _ (cons_ne_nil _ _)]
    exact solid
  rw [join]
  split_ifs with absolute ends
  · exact whole
  · rcases ends with rfl | ends
    · exact whole
    · obtain ⟨front, rfl⟩ := getLast?_eq_some_iff.mp ends
      rw [append_assoc]
      exact below front
  · exact below base

section Ancestors

variable {path above : Text}

/-- The length of some segments with a slash for each. -/
def weight (segments : List Text) : Nat := (segments.map fun seg => seg.length + 1).sum

theorem length_joinSegments (segments : List Text) : (joinSegments segments).length = weight segments - 1 := by
  induction segments with
  | nil => rfl
  | cons first rest ih =>
    rcases rest with _ | ⟨second, rest⟩
    · simp [joinSegments, weight]
    · have shape : joinSegments (first :: second :: rest) = first ++ '/' :: joinSegments (second :: rest) := by
        simp [joinSegments, intercalate_cons_cons]
      have positive : 0 < weight (second :: rest) := by
        simp only [weight, map_cons, sum_cons]
        omega
      rw [shape, length_append, length_cons, ih]
      simp only [weight, map_cons, sum_cons] at positive ⊢
      omega

theorem weight_le_of_prefix {first second : List Text} (starts : first <+: second) : weight first ≤ weight second := by
  obtain ⟨rest, rfl⟩ := starts
  simp [weight]

theorem weight_dropLast {segments : List Text} (given : segments ≠ []) :
    weight segments.dropLast + (segments.getLast given).length + 1 = weight segments := by
  conv_rhs => rw [← dropLast_append_getLast given]
  simp [weight, Nat.add_assoc]

theorem lead_starts (path : Text) : lead path <+: path := by
  rw [lead]
  split_ifs with absolute dotted
  · exact of_decide_eq_true absolute
  · have joined : joinSegments (path.splitOn '/') = path := intercalate_splitOn '/'
    rcases parts : path.splitOn '/' with _ | ⟨first, rest⟩
    · simp [Text.segments, parts] at dotted
    · obtain rfl : first = dot := by simpa [Text.segments, parts] using dotted
      obtain ⟨tail, shape, -⟩ := Pathutil.joinSegments_cons dot rest
      rw [parts] at joined
      exact ⟨tail, by rw [← shape]; exact joined⟩
  · exact nil_prefix

/-- A parent is shorter, so the way up ends. -/
theorem parent_shorter (found : parent path = some above) : above.length < path.length := by
  have front := (lead_starts path).length_le
  rw [parent] at found
  split at found
  · split_ifs at found with dotted
    cases found
    rw [dotted] at front
    exact front
  · rename_i given
    cases found
    have joined : weight (Text.segments (path.drop (lead path).length)) - 1 = path.length - (lead path).length := by
      rw [← length_joinSegments, ← length_drop]
      exact congrArg length (intercalate_splitOn '/')
    have whole := weight_le_of_prefix
      ( rdropWhile_prefix (fun seg => isBlank seg) (Text.segments (path.drop (lead path).length)))
    have last : (getLast _ given).length ≠ 0 := by
      intro empty
      have kept := rdropWhile_last_not (fun seg => isBlank seg) _ given
      rw [length_eq_zero_iff.mp empty] at kept
      exact kept (by decide)
    have shorter := weight_dropLast given
    have trimmed := weight_le_of_prefix ( rdropWhile_prefix (fun seg => isBlank seg)
      ((Text.segments (path.drop (lead path).length)).rdropWhile fun seg => isBlank seg).dropLast)
    rw [length_append, length_joinSegments]
    omega

theorem ancestorsFrom_enough {first second : Nat} (enough : path.length < first) (also_ : path.length < second) :
    ancestorsFrom first path = ancestorsFrom second path := by
  induction first generalizing path second with
  | zero => omega
  | succ first ih =>
    obtain ⟨second, rfl⟩ : ∃ count, second = count + 1 := ⟨second - 1, by omega⟩
    rw [ancestorsFrom, ancestorsFrom]
    cases found : parent path with
    | none => rfl
    | some above =>
      have shorter := parent_shorter found
      dsimp only
      rw [@ih above second (by omega) (by omega)]

/-- The ancestors of a path are the path and the ancestors of its parent. -/
theorem ancestors_eq (path : Text) : ancestors path = path :: (parent path).elim [] ancestors := by
  rw [ancestors, ancestorsFrom]
  cases found : parent path with
  | none => rfl
  | some above =>
    have shorter := parent_shorter found
    exact congrArg (path :: ·) (ancestorsFrom_enough shorter (by omega))

end Ancestors

end Codegraph.Resolve.OsPaths
