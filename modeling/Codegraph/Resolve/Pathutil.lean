import Codegraph.Watch.Scope

/- This file models the lexical operations on paths that resolution uses. -/

namespace Codegraph.Resolve.Pathutil
open List
open Codegraph.Watch.Scope (Text joinSegments segments_joinSegments)

def dot : Text := ['.']

def dotDot : Text := ['.', '.']

def isAbsolute (path : Text) : Bool := path.startsWith ['/']

/-- One more segment, with the last of the segments so far in front. A `..` takes back a segment that is none itself. -/
def pushSegment (absolute : Bool) : List Text → Text → List Text
  | [], seg =>
    if seg = [] ∨ seg = dot then []
    else if seg = dotDot then if absolute then [] else [dotDot]
    else [seg]
  | last :: out, seg =>
    if seg = [] ∨ seg = dot then last :: out
    else if seg = dotDot then
      if last ≠ dotDot then out else if absolute then last :: out else dotDot :: last :: out
    else seg :: last :: out

def normalSegments (path : Text) : List Text := (path.segments.foldl (pushSegment (isAbsolute path)) []).reverse

/-- A path without empty segments and dots, from which `..` is taken back as far as it goes. -/
def normalize (path : Text) : Text :=
  let joined := joinSegments (normalSegments path)
  if isAbsolute path then '/' :: joined
  else if joined = [] then dot
  else joined

/-- An absolute path stands for itself, and any other one is below the base. -/
def resolve (base relative : Text) : Text :=
  if isAbsolute relative then normalize relative
  else normalize (if base = [] then relative else base.trimEndSlashes ++ '/' :: relative)

/-- The segments that say where a path leads. -/
def segs (path : Text) : List Text := path.segments.filter fun seg => seg ≠ [] ∧ seg ≠ dot

/-- What two lists of segments do not share at their front. -/
def unshared : List Text → List Text → List Text × List Text
  | a :: first, b :: second => if a = b then unshared first second else (a :: first, b :: second)
  | first, second => (first, second)

/-- Up from the segments of one path that the other one does not share, and down to the other one. -/
def relative (source target : Text) : Text :=
  let parts := unshared (segs source) (segs target)
  joinSegments (parts.1.map (fun _ => dotDot) ++ parts.2)

section Segments

variable {path seg : Text} {out segments rest : List Text} {absolute : Bool}

/-- A name of a file or directory, or `..`. -/
structure Solid (seg : Text) : Prop where
  given : seg ≠ []
  named : seg ≠ dot
  single : '/' ∉ seg

theorem not_mem_of_mem_segments (member : seg ∈ path.segments) : '/' ∉ seg := (SeparatedText.mem_splitOn member).1

theorem solid_of_mem_segs (member : seg ∈ segs path) : Solid seg := by
  obtain ⟨inside, kept⟩ := mem_filter.mp member
  simp only [decide_eq_true_eq] at kept
  exact ⟨kept.1, kept.2, not_mem_of_mem_segments inside⟩

theorem segs_joinSegments (solid : ∀ seg ∈ segments, Solid seg) : segs (joinSegments segments) = segments := by
  rcases segments with _ | ⟨first, rest⟩
  · rfl
  · rw [segs, segments_joinSegments (by simp) fun seg member => (solid seg member).single, filter_eq_self]
    intro seg member
    simp [(solid seg member).given, (solid seg member).named]

theorem segs_root (path : Text) : segs ('/' :: path) = segs path := by
  rw [segs, segs, Text.segments, Text.segments, splitOn_cons_eq_if_modifyHead]
  simp

/-- A joined path starts as its first segment does. -/
theorem joinSegments_cons (first : Text) (rest : List Text) : ∃ tail, joinSegments (first :: rest) = first ++ tail ∧
    (tail = [] ∧ rest = [] ∨ ∃ more, tail = '/' :: more) := by
  rcases rest with _ | ⟨second, rest⟩
  · exact ⟨[], by simp [joinSegments], .inl ⟨rfl, rfl⟩⟩
  · exact ⟨'/' :: joinSegments (second :: rest), by simp [joinSegments, intercalate_cons_cons], .inr ⟨_, rfl⟩⟩

theorem not_isAbsolute_joinSegments (solid : ∀ seg ∈ segments, Solid seg) :
    isAbsolute (joinSegments segments) = false := by
  rcases segments with _ | ⟨first, rest⟩
  · rfl
  · obtain ⟨tail, shape, -⟩ := joinSegments_cons first rest
    obtain ⟨given, -, single⟩ := solid first (by simp)
    obtain ⟨c, letters, rfl⟩ := exists_cons_of_ne_nil given
    have other : c ≠ '/' := fun same => single (by simp [same])
    rw [shape, isAbsolute, Text.startsWith, decide_eq_false_iff_not, cons_append, cons_prefix_cons]
    exact fun both => other both.1.symm

theorem takeWhile_segment (single : '/' ∉ seg) {tail : Text} (ends : tail = [] ∨ ∃ more, tail = '/' :: more) :
    (seg ++ tail).takeWhile (· ≠ '/') = seg := by
  rw [takeWhile_append_of_pos fun c member => by
    simp only [ne_eq, decide_not, Bool.not_eq_eq_eq_not, Bool.not_true, decide_eq_false_iff_not]
    rintro rfl
    exact single member]
  rcases ends with rfl | ⟨more, rfl⟩ <;> simp

/-- A joined path leads up exactly when its first segment does. -/
theorem leads_up_iff (solid : ∀ seg ∈ segments, Solid seg) :
    joinSegments segments = dotDot ∨ (joinSegments segments).startsWith (dotDot ++ ['/']) = true ↔
      segments.head? = some dotDot := by
  rcases segments with _ | ⟨first, rest⟩
  · decide
  · obtain ⟨tail, shape, ends⟩ := joinSegments_cons first rest
    have first_ : (joinSegments (first :: rest)).takeWhile (· ≠ '/') = first :=
      shape ▸ takeWhile_segment (solid first (by simp)).single (ends.imp And.left id)
    rw [head?_cons, Option.some.injEq]
    constructor
    · rintro (same | starts)
      · rw [← first_, same]
        decide
      · obtain ⟨more, same⟩ := of_decide_eq_true starts
        rw [← first_, ← same, append_assoc]
        exact takeWhile_segment (by decide) (.inr ⟨more, rfl⟩)
    · rintro rfl
      rcases ends with ⟨rfl, -⟩ | ⟨more, rfl⟩
      · exact .inl (by rw [shape, append_nil])
      · exact .inr (decide_eq_true ⟨more, by rw [shape, append_assoc]; rfl⟩)

end Segments

section Normalizing

variable {path seg : Text} {out : List Text} {absolute : Bool}

/-- A stack of segments that is led by the `..` that could not be taken back. -/
structure Stacked (absolute : Bool) (out : List Text) : Prop where
  solid : ∀ seg ∈ out, Solid seg
  shape : ∃ ups clean, out = clean ++ List.replicate ups dotDot ∧ dotDot ∉ clean ∧ (absolute = true → ups = 0)

theorem solid_dotDot : Solid dotDot := ⟨by decide, by decide, by decide⟩

theorem pushSegment_skipped (skipped : seg = [] ∨ seg = dot) : pushSegment absolute out seg = out := by
  cases out <;> simp [pushSegment, skipped]

theorem pushSegment_named (given : seg ≠ []) (named : seg ≠ dot) (down : seg ≠ dotDot) :
    pushSegment absolute out seg = seg :: out := by
  cases out <;> simp [pushSegment, given, named, down]

/-- Pushing a segment keeps the stack. -/
theorem Stacked.push (stacked : Stacked absolute out) (single : '/' ∉ seg) :
    Stacked absolute (pushSegment absolute out seg) := by
  obtain ⟨solid, ups, clean, rfl, free, bound⟩ := stacked
  by_cases skipped : seg = [] ∨ seg = dot
  · rw [pushSegment_skipped skipped]
    exact ⟨solid, ups, clean, rfl, free, bound⟩
  · have new : Solid seg := ⟨fun same => skipped (.inl same), fun same => skipped (.inr same), single⟩
    by_cases up : seg = dotDot
    · subst up
      rcases clean with _ | ⟨last, clean⟩
      · rcases ups with _ | ups
        · rcases absolute with _ | _
          · have pushed : pushSegment false ([] ++ replicate 0 dotDot) dotDot = [dotDot] := by decide
            rw [pushed]
            exact ⟨fun seg member => mem_singleton.mp member ▸ solid_dotDot, 1, [], rfl, by simp, by simp⟩
          · exact ⟨by simp [pushSegment, dot, dotDot], 0, [], rfl, by simp, fun _ => rfl⟩
        · obtain rfl : absolute = false := Bool.eq_false_iff.mpr fun same => by simpa using bound same
          have pushed : pushSegment false ([] ++ replicate (ups + 1) dotDot) dotDot =
            replicate (ups + 2) dotDot := by
            simp [replicate_succ, pushSegment, dot, dotDot]
          rw [pushed]
          exact ⟨fun seg member => eq_of_mem_replicate member ▸ solid_dotDot, ups + 2, [], rfl, by simp, by simp⟩
      · have other : last ≠ dotDot := fun same => free (by simp [same])
        have pushed : pushSegment absolute (last :: clean ++ replicate ups dotDot) dotDot = clean ++
          replicate ups dotDot := by
          rw [cons_append, pushSegment, if_neg skipped, if_pos rfl, if_pos other]
        rw [pushed]
        exact ⟨fun seg member => solid seg (by simp_all), ups, clean, rfl, fun member => free (by simp [member]), bound⟩
    · rw [pushSegment_named new.given new.named up]
      refine ⟨fun other member => ?_, ups, seg :: clean, rfl, ?_, bound⟩
      · rcases mem_cons.mp member with rfl | member
        · exact new
        · exact solid other member
      · rw [mem_cons, not_or]
        exact ⟨fun same => up same.symm, free⟩

theorem stacked_normalSegments (path : Text) : Stacked (isAbsolute path) (normalSegments path).reverse := by
  rw [normalSegments, reverse_reverse]
  have kept : ∀ (segments out : List Text), (∀ seg ∈ segments, '/' ∉ seg) → Stacked (isAbsolute path) out →
      Stacked (isAbsolute path) (segments.foldl (pushSegment (isAbsolute path)) out) := by
    intro segments
    induction segments with
    | nil => exact fun _ _ stacked => stacked
    | cons seg segments ih =>
      intro out single stacked
      exact ih _ (fun other member => single other (by simp [member])) (stacked.push (single seg (by simp)))
  exact kept path.segments [] (fun seg => not_mem_of_mem_segments) ⟨by simp, 0, [], rfl, by simp, fun _ => rfl⟩

theorem solid_of_mem_normalSegments (member : seg ∈ normalSegments path) : Solid seg :=
  (stacked_normalSegments path).solid seg (mem_reverse.mpr member)

/-- A normalized path starts with some `..`, none if it is absolute, and has no other ones. -/
theorem normalSegments_shape (path : Text) :
    ∃ ups clean, normalSegments path = List.replicate ups dotDot ++ clean ∧ dotDot ∉ clean ∧
    (isAbsolute path = true → ups = 0) := by
  obtain ⟨ups, clean, shape, free, bound⟩ := (stacked_normalSegments path).shape
  refine ⟨ups, clean.reverse, ?_, by simpa using free, bound⟩
  rw [← reverse_reverse (normalSegments path), shape, reverse_append, reverse_replicate]

@[simp] theorem segs_normalize (path : Text) : segs (normalize path) = normalSegments path := by
  have joined : segs (joinSegments (normalSegments path)) = normalSegments path :=
    segs_joinSegments fun _ => solid_of_mem_normalSegments
  rw [normalize]
  split_ifs with absolute empty
  · rw [segs_root, joined]
  · rw [← joined, empty]
    rfl
  · exact joined

@[simp] theorem isAbsolute_normalize (path : Text) : isAbsolute (normalize path) = isAbsolute path := by
  rw [normalize]
  split_ifs with absolute empty
  · rw [absolute]
    simp [isAbsolute, Text.startsWith]
  · simp only [Bool.not_eq_true] at absolute
    rw [absolute]
    decide
  · simp only [Bool.not_eq_true] at absolute
    rw [absolute, not_isAbsolute_joinSegments fun _ => solid_of_mem_normalSegments]

end Normalizing

section Relating

variable {source target : Text} {first second : List Text}

theorem unshared_spec (first second : List Text) : ∃ shared, first = shared ++ (unshared first second).1 ∧
    second = shared ++ (unshared first second).2 := by
  induction first, second using unshared.induct with
  | case1 first a second ih =>
    obtain ⟨shared, left, right⟩ := ih
    rw [unshared, if_pos rfl]
    exact ⟨a :: shared, by rw [cons_append, ← left], by rw [cons_append, ← right]⟩
  | case2 a first b second differ =>
    rw [unshared, if_neg differ]
    exact ⟨[], rfl, rfl⟩
  | case3 first second ends =>
    rw [unshared.eq_2 _ _ ends]
    exact ⟨[], rfl, rfl⟩

theorem unshared_append (first down : List Text) : unshared first (first ++ down) = ([], down) := by
  induction first with
  | nil => cases down <;> rfl
  | cons a first ih => rw [cons_append, unshared, if_pos rfl, ih]

/-- A relative path leads up. -/
def LeadsUp (path : Text) : Prop := path = dotDot ∨ path.startsWith (dotDot ++ ['/']) = true

instance (path : Text) : Decidable (LeadsUp path) := inferInstanceAs (Decidable (_ ∨ _))

/-- A relative path does not lead up exactly when its target goes on from the source, and not with `..`. -/
theorem not_leadsUp_relative_iff : ¬ LeadsUp (relative source target) ↔
    ∃ down, segs target = segs source ++ down ∧ relative source target = joinSegments down ∧
      down.head? ≠ some dotDot := by
  obtain ⟨shared, left, right⟩ := unshared_spec (segs source) (segs target)
  have solid : ∀ seg ∈ (unshared (segs source) (segs target)).1.map (fun _ => dotDot) ++
    (unshared (segs source) (segs target)).2, Solid seg := by
    intro seg member
    rcases mem_append.mp member with up | down
    · obtain ⟨-, -, rfl⟩ := mem_map.mp up
      exact solid_dotDot
    · have inside : seg ∈ segs target := by
        rw [right]
        exact mem_append_right _ down
      exact solid_of_mem_segs inside
  rw [LeadsUp, relative, leads_up_iff solid]
  constructor
  · intro level
    have none_ : (unshared (segs source) (segs target)).1 = [] := by
      rcases parts : (unshared (segs source) (segs target)).1 with _ | ⟨first, rest⟩
      · rfl
      · simp [parts] at level
    rw [none_, map_nil, nil_append] at level ⊢
    rw [none_, append_nil] at left
    exact ⟨_, right.trans (congrArg (· ++ _) left.symm), rfl, level⟩
  · rintro ⟨down, goesOn, -, level⟩
    rw [goesOn, unshared_append]
    exact level

/-- A path is below another one when it goes on from its segments, without leading up again. -/
def Inside (root path : Text) : Prop :=
  ∃ down, segs path = segs root ++ down ∧ dotDot ∉ down ∧ isAbsolute path = isAbsolute root

/-- A normalized path that goes on from another one leads up only at once. -/
theorem inside_normalize_iff {root path : Text} {down : List Text} (goesOn : segs (normalize path) = segs root ++ down)
    (level : down.head? ≠ some dotDot) : Inside root (normalize path) ↔ isAbsolute path = isAbsolute root := by
  rw [← isAbsolute_normalize path]
  refine ⟨fun ⟨_, _, _, same⟩ => same, fun same => ⟨down, goesOn, ?_, same⟩⟩
  obtain ⟨ups, clean, shape, free, -⟩ := normalSegments_shape path
  rw [segs_normalize, shape] at goesOn
  rcases append_eq_append_iff.mp goesOn with ⟨middle, ending, rest⟩ | ⟨middle, ending, rest⟩
  · exact fun member => free (rest ▸ mem_append_right _ member)
  · rcases middle with _ | ⟨first, middle⟩
    · rw [nil_append] at rest
      exact rest ▸ free
    · have up : first = dotDot := eq_of_mem_replicate (ending ▸ (by simp : first ∈ segs root ++ first :: middle))
      exact absurd (by rw [rest, up]; rfl) level

end Relating

end Codegraph.Resolve.Pathutil
