import Codegraph.Resolve.OsPaths
import Codegraph.Resolve.PathLaws

/- This file models the guard that keeps the files of a resolution below the root of the project, and states which
paths get past it. -/

namespace Codegraph.Resolve.Pathutil
open List
open Codegraph.Watch.Scope (Text joinSegments)

/-- The hosts that join paths in ways of their own. -/
inductive Host
  | posix
  | windows

def forwardSlashed (path : Text) : Text := path.map fun c => if c = '\\' then '/' else c

/-- A path starts with the letter of a drive. -/
def hasWindowsPrefix : Text → Bool
  | letter :: mark :: _ => letter.isAlpha && mark = ':'
  | _ => false

/-- A path starts with a separator of some host. -/
def isRooted (path : Text) : Bool := path.head?.any fun c => c = '/' || c = '\\'

/-- A relative path behind a root on a drive. -/
def belowDrive (root path : Text) : Text :=
  if (root.getLast?.all fun c => c = '/' || c = '\\') || root.length = 2 && hasWindowsPrefix root then root ++ path
    else root ++ '\\' :: path

/-- What a host joins to a root. On Windows a path with a drive of its own stands for itself, and a rooted one keeps
only the drive of the root. Roots that are verbatim or name a share are not modelled. -/
def join : Host → Text → Text → Text
  | .posix, root, path => OsPaths.join root path
  | .windows, root, path =>
    if hasWindowsPrefix path then path
    else if isRooted path then (if hasWindowsPrefix root then root.take 2 else []) ++ path
    else belowDrive root path

def lexicalPathWithinRoot (host : Host) (root path : Text) : Option Text :=
  let slashed := forwardSlashed path
  if isAbsolute slashed || hasWindowsPrefix slashed then none
  else
    let relative := normalize slashed
    if relative = dotDot || relative.startsWith (dotDot ++ ['/']) then none else some (join host root relative)

/-- How many names down some segments lead, when they do not lead up any further than they start. -/
def level : Nat → List Text → Option Nat
  | depth, [] => some depth
  | depth, seg :: rest =>
    if seg ≠ dotDot then level (depth + 1) rest
    else if depth = 0 then none
    else level (depth - 1) rest

/-- The place below a root that no path leaves, on each host. -/
def below : Host → Text → Text → Text
  | .posix, root, path => if root = [] ∨ root.getLast? = some '/' then root ++ path else root ++ '/' :: path
  | .windows, root, path => belowDrive root path

/-- A path leads up out of the directory that it starts in. -/
def LeavesRoot (path : Text) : Prop := level 0 (segs path) = none

instance (path : Text) : Decidable (LeavesRoot path) := inferInstanceAs (Decidable (_ = none))

/-- What is accepted is joined below the root on each host, and nothing else is refused than what names its own root
or drive or leaves the directory. -/
structure GuardsRoot (root path : Text) : Prop where
  accepted : ∀ host full, lexicalPathWithinRoot host root path = some full →
    ∃ relative, full = join host root relative ∧
    full = below host root relative ∧ dotDot ∉ relative.segments ∧ isRooted relative = false ∧
      hasWindowsPrefix relative = false
  refused : ∀ host, lexicalPathWithinRoot host root path = none →
    isRooted path = true ∨ hasWindowsPrefix path = true ∨ LeavesRoot (forwardSlashed path)

/-- A path of no root and no drive stays in its directory, and the first of its segments that is not taken back names
a drive. -/
def UncoversDrive (path : Text) : Prop :=
  isRooted path = false ∧ hasWindowsPrefix path = false ∧ ¬ LeavesRoot (forwardSlashed path) ∧
    ∃ front drive back, segs (forwardSlashed path) = front ++ drive :: back ∧ level 0 front = some 0 ∧
      hasWindowsPrefix drive = true ∧
      level 0 back ≠ none

section Levels

variable {front back : List Text} {depth reached : Nat} {seg : Text} {base clean : List Text}

theorem level_append : level depth (front ++ back) = (level depth front).bind fun reached => level reached back := by
  induction front generalizing depth with
  | nil => rfl
  | cons seg front ih =>
    rw [cons_append, level, level]
    split_ifs
    · exact ih
    · rfl
    · exact ih

/-- A segment that does not lead up further than its start pops the stack or goes on top of it. -/
theorem pushSegment_level (front clean base : List Text) (solid : Solid seg) (held : dotDot ∉ clean) :
    (seg = dotDot ∧ clean = []) ∨ ∃ after, pushSegment false (clean ++ base) seg = after ++ base ∧ dotDot ∉ after ∧
      level clean.length (seg :: front) = level after.length front := by
  rw [level]
  by_cases up : seg = dotDot
  · subst up
    rw [if_neg (not_not.mpr rfl)]
    cases clean with
    | nil => exact .inl ⟨rfl, rfl⟩
    | cons last clean =>
      rw [mem_cons, not_or] at held
      refine .inr ⟨clean, ?_, held.2, rfl⟩
      rw [cons_append, pushSegment, if_neg (by decide), if_pos rfl, if_pos fun same => held.1 same.symm]
  · rw [if_pos up, pushSegment_named solid.given solid.named up]
    refine .inr ⟨seg :: clean, rfl, ?_, rfl⟩
    rw [mem_cons, not_or]
    exact ⟨fun same => up same.symm, held⟩

/-- Segments that do not lead up further than they start leave what was on the stack before. -/
theorem foldl_of_level (clean base : List Text) (solid : ∀ seg ∈ front, Solid seg) (held : dotDot ∉ clean)
    (led : level clean.length front = some reached) : ∃ clean', front.foldl (pushSegment false)
    (clean ++ base) = clean' ++ base ∧ clean'.length = reached ∧ dotDot ∉ clean' := by
  induction front generalizing clean with
  | nil => exact ⟨clean, rfl, by simpa [level] using led, held⟩
  | cons seg front ih =>
    have rest : ∀ seg ∈ front, Solid seg := fun other member => solid other (by simp [member])
    rcases pushSegment_level front clean base (solid seg (by simp)) held with ⟨rfl, rfl⟩ | ⟨after, pushed, free, same⟩
    · cases led
    · rw [foldl_cons, pushed]
      exact ih after rest free (same ▸ led)

theorem stack_of_level (solid : ∀ seg ∈ front, Solid seg) (led : level 0 front = some reached) :
    (front.foldl (pushSegment false) []).length = reached ∧ dotDot ∉ front.foldl (pushSegment false) [] := by
  obtain ⟨clean, shape, size, free⟩ := foldl_of_level [] [] solid (by simp) led
  rw [append_nil, append_nil] at shape
  exact shape ▸ ⟨size, free⟩

/-- A `..` that could not be taken back stays at the bottom of the stack. -/
theorem foldl_keeps_bottom (clean front : List Text) : ∃ out, front.foldl (pushSegment false)
    (clean ++ [dotDot]) = out ++ [dotDot] := by
  induction front generalizing clean with
  | nil => exact ⟨clean, rfl⟩
  | cons seg front ih =>
    have pushed : ∃ out, pushSegment false (clean ++ [dotDot]) seg = out ++ [dotDot] := by
      rcases clean with _ | ⟨last, clean⟩
      · rw [nil_append, pushSegment, if_neg Bool.false_ne_true]
        split_ifs with skipped up same
        · exact ⟨[], rfl⟩
        · exact absurd rfl same
        · exact ⟨[dotDot], rfl⟩
        · exact ⟨[seg], rfl⟩
      · rw [cons_append, pushSegment, if_neg Bool.false_ne_true]
        split_ifs
        · exact ⟨last :: clean, rfl⟩
        · exact ⟨clean, rfl⟩
        · exact ⟨dotDot :: last :: clean, rfl⟩
        · exact ⟨seg :: last :: clean, rfl⟩
    obtain ⟨out, same⟩ := pushed
    rw [foldl_cons, same]
    exact ih out

theorem foldl_of_level_none (clean : List Text) (solid : ∀ seg ∈ front, Solid seg) (held : dotDot ∉ clean)
    (led : level clean.length front = none) : ∃ out, front.foldl (pushSegment false) clean = out ++ [dotDot] := by
  induction front generalizing clean with
  | nil => cases led
  | cons seg front ih =>
    have rest : ∀ seg ∈ front, Solid seg := fun other member => solid other (by simp [member])
    rcases pushSegment_level front clean [] (solid seg (by simp)) held with ⟨rfl, rfl⟩ | ⟨after, pushed, free, same⟩
    · exact foldl_keeps_bottom [] front
    · rw [append_nil, append_nil] at pushed
      rw [foldl_cons, pushed]
      exact ih after rest free (same ▸ led)

/-- Segments that lead down have a first one that is not taken back. -/
theorem exists_first_kept (led : level 0 front = some (reached + 1)) :
    ∃ before first after, front = before ++ first :: after ∧ level 0 before = some 0 ∧ first ≠ dotDot ∧
      level 0 after = some reached := by
  induction front using reverseRecOn generalizing reached with
  | nil => simp [level] at led
  | append_singleton front seg ih =>
    rw [level_append, Option.bind_eq_some_iff] at led
    obtain ⟨held, ledFront, last⟩ := led
    by_cases up : seg = dotDot
    · subst up
      cases held with
      | zero => simp [level] at last
      | succ held =>
        have level_ : held = reached + 1 := by simpa [level] using last
        subst level_
        obtain ⟨before, first, after, rfl, even, named, down⟩ := ih ledFront
        refine ⟨before, first, after ++ [dotDot], by simp, even, named, ?_⟩
        rw [level_append, down]
        simp [level]
    · have level_ : held = reached := by simpa [level, up] using last
      subst level_
      cases held with
      | zero => exact ⟨front, seg, [], rfl, ledFront, up, rfl⟩
      | succ held =>
        obtain ⟨before, first, after, rfl, even, named, down⟩ := ih ledFront
        refine ⟨before, first, after ++ [seg], by simp, even, named, ?_⟩
        rw [level_append, down]
        simp [level, up]

end Levels

section Guarding

variable {path slashed relative root seg tail full : Text} {host : Host} {front back rest : List Text} {reached : Nat}

theorem isAbsolute_forwardSlashed (path : Text) : isAbsolute (forwardSlashed path) = isRooted path := by
  rcases path with _ | ⟨c, letters⟩
  · rfl
  · by_cases back : c = '\\' <;> by_cases slash : c = '/' <;>
      simp_all [forwardSlashed, isAbsolute, isRooted, Text.startsWith, cons_prefix_cons, eq_comm]

theorem hasWindowsPrefix_forwardSlashed (path : Text) :
    hasWindowsPrefix (forwardSlashed path) = hasWindowsPrefix path := by
  have letter (c : Char) : (if c = '\\' then '/' else c).isAlpha = c.isAlpha := by
    split_ifs with back
    · subst back
      rfl
    · rfl
  have mark (c : Char) : ((if c = '\\' then '/' else c) = ':') = (c = ':') := by
    split_ifs with back
    · subst back
      decide
    · rfl
  rcases path with _ | ⟨c, _ | ⟨d, letters⟩⟩
  · rfl
  · rfl
  · simp only [forwardSlashed, map_cons, hasWindowsPrefix, letter, mark]

/-- The prefix of a joined path is in its first segment. -/
theorem hasWindowsPrefix_append (given : seg ≠ []) (ends : tail = [] ∨ ∃ more, tail = '/' :: more) :
    hasWindowsPrefix (seg ++ tail) = hasWindowsPrefix seg := by
  rcases seg with _ | ⟨c, _ | ⟨d, letters⟩⟩
  · exact absurd rfl given
  · rcases ends with rfl | ⟨more, rfl⟩
    · rfl
    · simp [hasWindowsPrefix]
  · rfl

section

variable (slack : isAbsolute slashed = false)
include slack

/-- A relative path is normalized to what its segments leave on the stack. -/
theorem normalSegments_of_relative :
    normalSegments slashed = ((segs slashed).foldl (pushSegment false) []).reverse := by
  rw [normalSegments_eq, slack]

theorem hasWindowsPrefix_normalize :
    hasWindowsPrefix (normalize slashed) = (normalSegments slashed).head?.any hasWindowsPrefix := by
  rw [normalize, slack, if_neg Bool.false_ne_true]
  rcases shape : normalSegments slashed with _ | ⟨first, rest⟩
  · rfl
  · obtain ⟨tail, joined, ends⟩ := joinSegments_cons first rest
    have member : first ∈ normalSegments slashed := shape ▸ mem_cons_self
    have given : first ≠ [] := (solid_of_mem_normalSegments member).given
    have some_ : first ++ tail ≠ [] := by simp [given]
    rw [joined, if_neg some_, hasWindowsPrefix_append given (ends.imp And.left id)]
    rfl

/-- A relative path leads up after normalizing exactly when its segments lead up out of their directory. -/
theorem leadsUp_normalize_iff : LeadsUp (normalize slashed) ↔ LeavesRoot slashed := by
  have solid : ∀ seg ∈ segs slashed, Solid seg := fun _ => solid_of_mem_segs
  have head : LeadsUp (normalize slashed) ↔ (normalSegments slashed).head? = some dotDot := by
    rw [normalize, slack, if_neg Bool.false_ne_true]
    split_ifs with empty
    · have none_ : normalSegments slashed = [] := by
        have joined : segs (joinSegments (normalSegments slashed)) = normalSegments slashed :=
          segs_joinSegments fun _ => solid_of_mem_normalSegments
        rw [← joined, empty]
        rfl
      rw [none_]
      decide
    · exact leads_up_iff fun _ => solid_of_mem_normalSegments
  rw [head, normalSegments_of_relative slack, LeavesRoot]
  constructor
  · intro up
    by_contra stays
    obtain ⟨reached, led⟩ := Option.ne_none_iff_exists'.mp stays
    exact (stack_of_level solid led).2 (mem_reverse.mp (mem_of_head? up))
  · intro leaves
    obtain ⟨out, shape⟩ := foldl_of_level_none [] solid (by simp) leaves
    rw [shape]
    simp

/-- A segment that nothing takes back is where a path starts after normalizing. -/
theorem head_normalSegments (split : segs slashed = front ++ seg :: back) (even : level 0 front = some 0)
    (named : seg ≠ dotDot) (down : level 0 back = some reached) : (normalSegments slashed).head? = some seg := by
  have solid : ∀ other ∈ front ++ seg :: back, Solid other := fun _ member => solid_of_mem_segs (split ▸ member)
  have shape : front.foldl (pushSegment false) [] = [] :=
    eq_nil_of_length_eq_zero
      (stack_of_level (fun other member => solid other (mem_append_left _ member)) even).1
  obtain ⟨clean, shape', -, -⟩ :=
    foldl_of_level [] [seg] (fun other member => solid other (by simp [member])) (by simp) down
  obtain ⟨given, plain, -⟩ := solid seg (by simp)
  rw [nil_append] at shape'
  rw [normalSegments_of_relative slack, split, foldl_append, shape, foldl_cons,
    pushSegment_named given plain named, shape']
  simp

/-- Normalizing uncovers a drive exactly when the first segment that is not taken back names one. -/
theorem uncovers_iff (stays : ¬ LeavesRoot slashed) : hasWindowsPrefix (normalize slashed) = true ↔
    ∃ front drive back, segs slashed = front ++ drive :: back ∧ level 0 front = some 0 ∧
      hasWindowsPrefix drive = true ∧ level 0 back ≠ none := by
  rw [hasWindowsPrefix_normalize slack]
  constructor
  · intro prefixed
    obtain ⟨reached, led⟩ := Option.ne_none_iff_exists'.mp stays
    cases reached with
    | zero =>
      have shape : (segs slashed).foldl (pushSegment false) [] = [] :=
        eq_nil_of_length_eq_zero (stack_of_level (fun _ => solid_of_mem_segs) led).1
      rw [normalSegments_of_relative slack, shape] at prefixed
      cases prefixed
    | succ reached =>
      obtain ⟨before, first, after, split, even, named, down⟩ := exists_first_kept led
      rw [head_normalSegments slack split even named down] at prefixed
      exact ⟨before, first, after, split, even, prefixed, by simp [down]⟩
  · rintro ⟨front, drive, back, split, even, prefixed, down⟩
    obtain ⟨reached, led⟩ := Option.ne_none_iff_exists'.mp down
    have named : drive ≠ dotDot := by
      rintro rfl
      cases prefixed
    rw [head_normalSegments slack split even named led]
    exact prefixed

end

theorem mem_of_mem_foldl {absolute : Bool} {out segments : List Text}
    (member : seg ∈ segments.foldl (pushSegment absolute) out) : seg ∈ out ∨ seg ∈ segments := by
  induction segments generalizing out with
  | nil => exact .inl member
  | cons first segments ih =>
    rcases ih member with pushed | later
    · have kept : seg ∈ out ∨ seg = first := by
        cases out <;> simp only [pushSegment] at pushed <;> split_ifs at pushed <;> simp_all
        tauto
      exact kept.imp id fun same => by simp [same]
    · exact .inr (by simp [later])

/-- A relative path is not rooted after normalizing, on a host of either separator. -/
theorem isRooted_normalize (slack : isAbsolute slashed = false) (free : '\\' ∉ slashed) :
    isRooted (normalize slashed) = false := by
  rw [normalize, slack, if_neg Bool.false_ne_true]
  rcases shape : normalSegments slashed with _ | ⟨first, rest⟩
  · decide
  · have member : first ∈ normalSegments slashed := shape ▸ mem_cons_self
    obtain ⟨given, -, single⟩ := solid_of_mem_normalSegments member
    rw [normalSegments, mem_reverse] at member
    have inside : first ∈ slashed.segments := (mem_of_mem_foldl member).resolve_left (by simp)
    have letters : first ⊆ slashed := (SeparatedText.mem_splitOn inside).2
    obtain ⟨tail, joined, -⟩ := joinSegments_cons first rest
    obtain ⟨c, more, rfl⟩ := exists_cons_of_ne_nil given
    have slash : c ≠ '/' := fun same => single (by simp [same])
    have back : c ≠ '\\' := fun same => free (same ▸ letters mem_cons_self)
    rw [joined, if_neg (by simp)]
    simp [isRooted, slash, back]

theorem dotDot_notMem_normalize (slack : isAbsolute slashed = false) (stays : ¬ LeavesRoot slashed) :
    dotDot ∉ (normalize slashed).segments := by
  obtain ⟨reached, led⟩ := Option.ne_none_iff_exists'.mp stays
  have free : dotDot ∉ normalSegments slashed := by
    rw [normalSegments_of_relative slack]
    exact fun member => (stack_of_level (fun _ => solid_of_mem_segs) led).2 (mem_reverse.mp member)
  rw [segments_normalize, slack, if_neg Bool.false_ne_true, if_neg Bool.false_ne_true]
  split_ifs
  · decide
  · exact free

/-- A path that is neither rooted nor on a drive is joined below the root on each host. -/
theorem join_eq_below (slack : isRooted relative = false) (plain : hasWindowsPrefix relative = false) :
    join host root relative = below host root relative := by
  cases host with
  | posix =>
    have slack' : isAbsolute relative = false := by
      rcases relative with _ | ⟨c, letters⟩
      · rfl
      · simp only [isRooted, head?_cons, Option.any_some, Bool.or_eq_false_iff, decide_eq_false_iff_not] at slack
        rw [isAbsolute, Text.startsWith, decide_eq_false_iff_not, cons_prefix_cons]
        exact fun both => slack.1 both.1.symm
    rw [join, OsPaths.join, slack', if_neg Bool.false_ne_true, below]
  | windows => rw [join, plain, if_neg Bool.false_ne_true, slack, if_neg Bool.false_ne_true, below]

theorem below_inj {other : Text} (same : below .posix root relative = below .posix root other) : relative = other := by
  rw [below, below] at same
  split_ifs at same
  · exact append_cancel_left same
  · exact (cons.inj (append_cancel_left same)).2

/-- What the guard answers. -/
theorem lexicalPathWithinRoot_eq : lexicalPathWithinRoot host root path =
    if isRooted path = true ∨ hasWindowsPrefix path = true ∨ LeavesRoot (forwardSlashed path) then none
    else some (join host root (normalize (forwardSlashed path))) := by
  rw [lexicalPathWithinRoot]
  simp only [isAbsolute_forwardSlashed, hasWindowsPrefix_forwardSlashed, Bool.or_eq_true, decide_eq_true_eq]
  by_cases marked : isRooted path = true ∨ hasWindowsPrefix path = true
  · rw [if_pos marked, if_pos (by tauto)]
  · have slack : isAbsolute (forwardSlashed path) = false := by
      rw [isAbsolute_forwardSlashed]
      exact Bool.eq_false_iff.mpr fun rooted => marked (.inl rooted)
    have leads := leadsUp_normalize_iff slack
    rw [LeadsUp] at leads
    rw [if_neg marked]
    split_ifs with up leaves leaves
    · rfl
    · exact absurd (.inr (.inr (leads.mp up))) leaves
    · rcases leaves with rooted | prefixed | leaves
      · exact absurd (.inl rooted) marked
      · exact absurd (.inr prefixed) marked
      · exact absurd (leads.mpr leaves) up
    · rfl

/-- The guard keeps every path below the root unless normalizing a path uncovers a drive. -/
theorem guards_root_iff (root path : Text) : GuardsRoot root path ↔ ¬ UncoversDrive path := by
  constructor
  · rintro ⟨accepted, -⟩ ⟨slack, plain, stays, split⟩
    have slack' : isAbsolute (forwardSlashed path) = false := (isAbsolute_forwardSlashed path).trans slack
    have prefixed := (uncovers_iff slack' stays).mpr split
    have answer : lexicalPathWithinRoot .posix root path =
      some (join .posix root (normalize (forwardSlashed path))) := by
      rw [lexicalPathWithinRoot_eq, if_neg (by simp [slack, plain, stays])]
    obtain ⟨relative, -, placed, -, -, plain'⟩ := accepted .posix _ answer
    have joined : join .posix root (normalize (forwardSlashed path)) =
      below .posix root (normalize (forwardSlashed path)) := by
      rw [join, OsPaths.join, isAbsolute_normalize, slack', if_neg Bool.false_ne_true, below]
    rw [← below_inj (joined.symm.trans placed), prefixed] at plain'
    cases plain'
  · intro covered
    constructor
    · intro host full answer
      rw [lexicalPathWithinRoot_eq] at answer
      split_ifs at answer with refused
      simp only [not_or, Bool.not_eq_true] at refused
      obtain ⟨slack, plain, stays⟩ := refused
      have slack' : isAbsolute (forwardSlashed path) = false := (isAbsolute_forwardSlashed path).trans slack
      have level_ : isRooted (normalize (forwardSlashed path)) = false := by
        refine isRooted_normalize slack' fun member => ?_
        obtain ⟨c, -, same⟩ := mem_map.mp member
        split_ifs at same with back
        · cases same
        · exact back same
      have plain' : hasWindowsPrefix (normalize (forwardSlashed path)) = false :=
        Bool.eq_false_iff.mpr fun prefixed => covered ⟨slack, plain, stays, (uncovers_iff slack' stays).mp prefixed⟩
      obtain rfl := Option.some.inj answer
      exact ⟨_, rfl, join_eq_below level_ plain', dotDot_notMem_normalize slack' stays, level_, plain'⟩
    · intro host refused
      rw [lexicalPathWithinRoot_eq] at refused
      split_ifs at refused with reason
      exact reason

/-- The guard looks for a drive before it normalizes, and a dot in front hides one. -/
theorem drive_behind_dot_is_accepted : ¬ GuardsRoot "C:\\repo".toList "./D:/outside/a.ts".toList ∧
    lexicalPathWithinRoot .windows "C:\\repo".toList "./D:/outside/a.ts".toList = some "D:/outside/a.ts".toList := by
  refine ⟨fun guarded => ?_, by decide⟩
  obtain ⟨relative, -, placed, -, -, plain⟩ :=
    guarded.accepted .posix ("C:\\repo".toList ++ '/' :: "D:/outside/a.ts".toList) (by decide)
  have same : below .posix "C:\\repo".toList "D:/outside/a.ts".toList = below .posix "C:\\repo".toList relative :=
    placed
  obtain rfl := below_inj same
  cases plain

end Guarding

end Codegraph.Resolve.Pathutil
