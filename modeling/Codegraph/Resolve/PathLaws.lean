import Codegraph.Resolve.Pathutil

/- This file proves the laws that normalized paths obey. -/

namespace Codegraph.Resolve.Pathutil
open List
open Codegraph.Watch.Scope (Text joinSegments segments_joinSegments)

section Stacks

variable {path tail seg : Text} {out segments clean : List Text} {absolute : Bool}

/-- The segments that lead nowhere do not move the stack. -/
theorem foldl_segments (path : Text) (absolute : Bool) (out : List Text) :
    path.segments.foldl (pushSegment absolute) out = (segs path).foldl (pushSegment absolute) out := by
  rw [segs, foldl_filter]
  congr
  funext stack seg
  split_ifs with kept
  · rfl
  · refine pushSegment_skipped ?_
    simp only [decide_eq_true_eq] at kept
    tauto

theorem normalSegments_eq (path : Text) :
    normalSegments path = ((segs path).foldl (pushSegment (isAbsolute path)) []).reverse := by
  rw [normalSegments, foldl_segments]

theorem foldl_named (solid : ∀ seg ∈ segments, Solid seg) (down : dotDot ∉ segments) :
    segments.foldl (pushSegment absolute) out = segments.reverse ++ out := by
  induction segments generalizing out with
  | nil => rfl
  | cons seg segments ih =>
    obtain ⟨given, named, -⟩ := solid seg (by simp)
    rw [mem_cons, not_or] at down
    rw [foldl_cons, pushSegment_named given named fun same => down.1 same.symm,
      ih (fun other member => solid other (by simp [member])) down.2, reverse_cons, append_assoc]
    rfl

/-- A relative path piles up the `..` that it starts with. -/
theorem foldl_ups (ups held : Nat) : (List.replicate ups dotDot).foldl (pushSegment false)
    (List.replicate held dotDot) = List.replicate (held + ups) dotDot := by
  induction ups generalizing held with
  | zero => rfl
  | succ ups ih =>
    have pushed : pushSegment false (replicate held dotDot) dotDot = replicate (held + 1) dotDot := by
      cases held <;> simp [replicate_succ, pushSegment, dot, dotDot]
    rw [replicate_succ, foldl_cons, pushed, ih, Nat.add_right_comm, Nat.add_assoc]

/-- As many `..` as there are names on top of the stack take all of these back. -/
theorem foldl_back (down : dotDot ∉ clean) :
    (List.replicate clean.length dotDot).foldl (pushSegment absolute) (clean ++ out) = out := by
  induction clean with
  | nil => rfl
  | cons last clean ih =>
    rw [mem_cons, not_or] at down
    have pushed : pushSegment absolute (last :: (clean ++ out)) dotDot = clean ++ out := by
      rw [pushSegment, if_neg (by decide), if_pos rfl, if_pos fun same => down.1 same.symm]
    rw [length_cons, replicate_succ, foldl_cons, cons_append, pushed, ih down.2]

/-- A stack is built again from its own segments. -/
theorem Stacked.again (stacked : Stacked absolute out) : out.reverse.foldl (pushSegment absolute) [] = out := by
  obtain ⟨solid, ups, clean, rfl, free, bound⟩ := stacked
  have solid' : ∀ seg ∈ clean.reverse, Solid seg :=
    fun seg member => solid seg (mem_append_left _ (mem_reverse.mp member))
  have lead : (replicate ups dotDot).foldl (pushSegment absolute) [] = replicate ups dotDot := by
    cases absolute with
    | false => simpa using foldl_ups ups 0
    | true => rw [bound rfl]; rfl
  rw [reverse_append, reverse_replicate, foldl_append, lead,
    foldl_named solid' (fun member => free (mem_reverse.mp member)), reverse_reverse]

/-- The segments of a normalized path build the stack that the path itself builds. -/
theorem foldl_normalSegments (path : Text) :
    (normalSegments path).foldl (pushSegment (isAbsolute path)) [] = (segs path).foldl (pushSegment (isAbsolute path))
    [] := by
  have again := (stacked_normalSegments path).again
  rw [reverse_reverse] at again
  rw [again, normalSegments_eq, reverse_reverse]

theorem normalize_congr {first second : Text} (absolute : isAbsolute first = isAbsolute second)
    (same : normalSegments first = normalSegments second) : normalize first = normalize second := by
  rw [normalize, normalize, absolute, same]

end Stacks

section Joining

variable {path source target : Text}

theorem segs_append (front tail : Text) : segs (front ++ '/' :: tail) = segs front ++ segs tail := by
  rw [segs, Text.segments, splitOn_append_cons_self, filter_append]
  rfl

theorem isAbsolute_append {front : Text} (given : front ≠ []) (tail : Text) :
    isAbsolute (front ++ tail) = isAbsolute front := by
  obtain ⟨c, letters, rfl⟩ := exists_cons_of_ne_nil given
  simp [isAbsolute, Text.startsWith, cons_prefix_cons]

theorem normalize_ne_nil (path : Text) : normalize path ≠ [] := by
  rw [normalize]
  split_ifs with absolute empty
  · exact cons_ne_nil _ _
  · decide
  · exact empty

theorem normalSegments_append {front : Text} (given : front ≠ []) (tail : Text) :
    normalSegments (front ++ '/' :: tail) =
    ((segs tail).foldl (pushSegment (isAbsolute front))
      ((segs front).foldl (pushSegment (isAbsolute front)) [])).reverse := by
  rw [normalSegments_eq, segs_append, isAbsolute_append given, foldl_append]

theorem normalize_idempotent (path : Text) : normalize (normalize path) = normalize path := by
  refine normalize_congr (isAbsolute_normalize path) ?_
  rw [normalSegments_eq, segs_normalize, isAbsolute_normalize, foldl_normalSegments, normalSegments_eq]

/-- A path may be normalized before another one is joined to it. -/
theorem normalize_joined {front : Text} (given : front ≠ []) (tail : Text) :
    normalize (front ++ '/' :: tail) = normalize (normalize front ++ '/' :: tail) := by
  refine normalize_congr ?_ ?_
  · rw [isAbsolute_append given, isAbsolute_append (normalize_ne_nil front), isAbsolute_normalize]
  · rw [normalSegments_append given, normalSegments_append (normalize_ne_nil front), isAbsolute_normalize,
      segs_normalize, foldl_normalSegments]

/-- The segments of a normalized path are the segments that say where it leads, apart from the empty one in front of a
root and the dot of an empty path. -/
theorem segments_normalize (path : Text) : (normalize path).segments =
    if normalSegments path = [] then (if isAbsolute path then [[], []] else [dot])
    else if isAbsolute path then [] :: normalSegments path else normalSegments path := by
  have joined (given : normalSegments path ≠ []) : (joinSegments (normalSegments path)).segments =
    normalSegments path :=
    segments_joinSegments given fun seg member => (solid_of_mem_normalSegments member).single
  have rooted (text : Text) : Text.segments ('/' :: text) = [] :: text.segments := splitOn_append_cons_self [] text
  by_cases empty : normalSegments path = []
  · rw [if_pos empty, normalize, empty]
    split_ifs with absolute none_
    · rfl
    · rfl
    · exact absurd rfl none_
  · have some_ : joinSegments (normalSegments path) ≠ [] := by
      intro none_
      have split := joined empty
      rw [none_] at split
      have member : [] ∈ normalSegments path := split ▸ mem_cons_self
      exact (solid_of_mem_normalSegments member).given rfl
    rw [if_neg empty, normalize]
    split_ifs with absolute
    · rw [rooted, joined empty]
    · exact joined empty

/-- A normalized path has `..` only at its front, and none if it is absolute. -/
theorem ups_normalize (path : Text) :
    ∃ ups clean, (normalize path).segments = List.replicate ups dotDot ++ clean ∧ dotDot ∉ clean ∧
    (isAbsolute path = true → ups = 0) := by
  obtain ⟨ups, clean, shape, free, bound⟩ := normalSegments_shape path
  rw [segments_normalize]
  split_ifs with empty absolute absolute
  · exact ⟨0, [[], []], rfl, by decide, fun _ => rfl⟩
  · exact ⟨0, [dot], rfl, by decide, fun _ => rfl⟩
  · obtain rfl := bound absolute
    refine ⟨0, [] :: clean, by rw [shape]; rfl, ?_, fun _ => rfl⟩
    rw [mem_cons, not_or]
    exact ⟨by decide, free⟩
  · exact ⟨ups, clean, shape, free, bound⟩

end Joining

section Relating

variable {source target : Text}

theorem segs_trimEndSlashes (path : Text) : segs path.trimEndSlashes = segs path := by
  induction path using reverseRecOn with
  | nil => rfl
  | append_singleton path c ih =>
    rw [Text.trimEndSlashes, rdropWhile_concat]
    split_ifs with slash
    · obtain rfl := of_decide_eq_true slash
      have closed : segs (path ++ ['/']) = segs path ++ segs [] := segs_append path []
      rw [closed]
      exact ih.trans (append_nil _).symm
    · rfl

theorem isAbsolute_trimEndSlashes {path : Text} (absolute : isAbsolute path = true) (tail : Text) :
    isAbsolute (path.trimEndSlashes ++ '/' :: tail) = true := by
  rcases shape : path.trimEndSlashes with _ | ⟨c, letters⟩
  · simp [isAbsolute, Text.startsWith]
  · have front : c :: letters <+: path := shape ▸ rdropWhile_prefix _ path
    obtain ⟨rest, rfl⟩ := of_decide_eq_true absolute
    obtain ⟨rfl, -⟩ := cons_prefix_cons.mp front
    simp [isAbsolute, Text.startsWith]

theorem dotDot_notMem_of_normal {path : Text} (normal : normalize path = path) (absolute : isAbsolute path = true) :
    dotDot ∉ segs path := by
  obtain ⟨ups, clean, shape, free, bound⟩ := normalSegments_shape path
  rw [← normal, segs_normalize, shape, bound absolute]
  exact free

theorem segs_relative (source target : Text) : segs (relative source target) =
    (unshared (segs source) (segs target)).1.map (fun _ => dotDot) ++ (unshared (segs source) (segs target)).2 := by
  obtain ⟨shared, -, right⟩ := unshared_spec (segs source) (segs target)
  refine segs_joinSegments fun seg member => ?_
  rcases mem_append.mp member with up | down
  · obtain ⟨-, -, rfl⟩ := mem_map.mp up
    exact solid_dotDot
  · have inside : seg ∈ segs target := by
      rw [right]
      exact mem_append_right _ down
    exact solid_of_mem_segs inside

theorem not_isAbsolute_relative (source target : Text) : isAbsolute (relative source target) = false := by
  have solid : ∀ seg ∈ segs (relative source target), Solid seg := fun _ => solid_of_mem_segs
  rw [segs_relative] at solid
  exact not_isAbsolute_joinSegments solid

/-- The names that only the source has are pushed and then taken back. -/
theorem foldl_back_and_down {shared apart below : List Text} (solid : ∀ seg ∈ apart, Solid seg) (up : dotDot ∉ apart) :
    (shared ++ apart ++ (apart.map (fun _ => dotDot) ++ below)).foldl (pushSegment true)
    [] = (shared ++ below).foldl (pushSegment true) [] := by
  have down : dotDot ∉ apart.reverse := fun member => up (mem_reverse.mp member)
  have back : (replicate apart.length dotDot).foldl (pushSegment true)
    (apart.reverse ++ shared.foldl (pushSegment true) []) =
      shared.foldl (pushSegment true) [] := by
    rw [← length_reverse]
    exact foldl_back down
  rw [foldl_append, foldl_append, foldl_append, foldl_named solid up, map_const', back,
    foldl_append]

/-- The way from one absolute path to another leads there. -/
theorem resolve_relative (normal : normalize source = source) (normal' : normalize target = target)
    (absolute : isAbsolute source = true) (absolute' : isAbsolute target = true) :
    resolve source (relative source target) = target := by
  have given : source ≠ [] := by
    rintro rfl
    cases absolute
  have rooted := isAbsolute_trimEndSlashes absolute (relative source target)
  have whole := dotDot_notMem_of_normal normal absolute
  rw [resolve, not_isAbsolute_relative, if_neg Bool.false_ne_true, if_neg given]
  refine .trans (normalize_congr (rooted.trans absolute'.symm) ?_) normal'
  rw [normalSegments_eq, normalSegments_eq, rooted, absolute', segs_append, segs_trimEndSlashes, segs_relative,
    reverse_inj]
  obtain ⟨shared, left, right⟩ := unshared_spec (segs source) (segs target)
  generalize unshared (segs source) (segs target) = parts at left right ⊢
  have solid : ∀ seg ∈ parts.1, Solid seg := fun seg member => solid_of_mem_segs (left ▸ mem_append_right _ member)
  have up : dotDot ∉ parts.1 := fun member => whole (left ▸ mem_append_right _ member)
  rw [left, right]
  exact foldl_back_and_down solid up

/-- Normalizing is settled at once, is not disturbed by an earlier normalizing of what a path is joined to, leaves
`..` only at the front of a relative path, and keeps the way from one absolute path to another. -/
theorem normalized_paths_obey : (∀ path, normalize (normalize path) = normalize path) ∧
    (∀ front tail : Text, front ≠ [] → normalize (front ++ '/' :: tail) = normalize (normalize front ++ '/' :: tail)) ∧
    (∀ path, isAbsolute path = false →
      ∃ ups clean, (normalize path).segments = List.replicate ups dotDot ++ clean ∧ dotDot ∉ clean) ∧
    (∀ path, isAbsolute path = true → dotDot ∉ (normalize path).segments) ∧
    ∀ source target, normalize source = source → normalize target = target → isAbsolute source = true →
      isAbsolute target = true →
      resolve source (relative source target) = target := by
  refine ⟨normalize_idempotent, fun front tail given => normalize_joined given tail, fun path _ => ?_,
    fun path absolute => ?_,
    fun source target normal normal' absolute absolute' => resolve_relative normal normal' absolute absolute'⟩
  · obtain ⟨ups, clean, shape, free, -⟩ := ups_normalize path
    exact ⟨ups, clean, shape, free⟩
  · obtain ⟨ups, clean, shape, free, bound⟩ := ups_normalize path
    rw [shape, bound absolute]
    exact free

/-- Two siblings of one directory. -/
theorem normalized_paths_obey_siblings :
    resolve "/a/b".toList (relative "/a/b".toList "/a/c/d".toList) = "/a/c/d".toList ∧
    normalize ("a/./..".toList ++ '/' :: "b".toList) = normalize (normalize "a/./..".toList ++ '/' :: "b".toList) := by
  obtain ⟨-, joined, -, -, related⟩ := normalized_paths_obey
  exact ⟨related _ _ (by decide) (by decide) (by decide) (by decide), joined _ _ (by decide)⟩

end Relating

end Codegraph.Resolve.Pathutil
