import Codegraph.Resolve.PathAliases

/- This file models how an import path is rewritten by the path aliases of a project. -/

namespace Codegraph.Resolve.AliasApplication
open Codegraph.Watch.Scope (Text)
open Footprints JsonTokens OsPaths PathAliases
open Pathutil (Inside LeadsUp dotDot isAbsolute relative resolve segs)

/-- A target with the captured text at its first star. -/
def replaceStar (target captured : Text) : Text :=
  match Matches.find ['*'] target with
  | none => target
  | some star => target.take star ++ (captured ++ target.drop (star + 1))

/-- What a pattern makes of one of its targets. -/
def filled (pattern : AliasPattern) (captured target : Text) : Text :=
  if pattern.hasWildcard then replaceStar target captured else target

/-- The place of a target, which is below the base unless it is absolute. -/
def placeOf (aliases : AliasMap) (pattern : AliasPattern) (captured target : Text) : Text :=
  resolve aliases.baseUrl (filled pattern captured target)

/-- The candidates of a pattern, without those that lead out of the project. -/
def candidatesOf (aliases : AliasMap) (projectRoot : Text) (pattern : AliasPattern) (captured : Text) : List Text :=
  (pattern.replacements.map fun target => relative projectRoot (placeOf aliases pattern captured target)).filter
    fun candidate =>
    ¬ LeadsUp candidate

/-- The first pattern that passes the tests decides. There is no result where the slice of the captured text panics. -/
def applyPatterns (imported : Text) (aliases : AliasMap) (projectRoot : Text) : List AliasPattern → Option (List Text)
  | [] => some []
  | pattern :: rest =>
    if ¬ imported.startsWith pattern.pre then applyPatterns imported aliases projectRoot rest
    else if pattern.suffix ≠ [] ∧
      ¬ imported.endsWith pattern.suffix then applyPatterns imported aliases projectRoot rest
    else if pattern.hasWildcard then
      (Utf8.slice imported (Utf8.units pattern.pre).length
        ((Utf8.units imported).length - (Utf8.units pattern.suffix).length)).map
        fun captured => candidatesOf aliases projectRoot pattern captured
    else if imported ≠ pattern.pre then applyPatterns imported aliases projectRoot rest
    else some (candidatesOf aliases projectRoot pattern [])

def applyAliases (imported : Text) (aliases : AliasMap) (projectRoot : Text) : Option (List Text) :=
  applyPatterns imported aliases (stringPathToPosix projectRoot) aliases.patterns

/-- A pattern matches with a captured text between its prefix and its suffix, or it is literal and the import path
itself. -/
def Captures (pattern : AliasPattern) (imported captured : Text) : Prop :=
  if pattern.hasWildcard then imported = pattern.pre ++ (captured ++ pattern.suffix)
    else imported = pattern.pre ∧ captured = []

def MatchesImport (pattern : AliasPattern) (imported : Text) : Prop := ∃ captured, Captures pattern imported captured

/-- The first pattern that matches, if there is one, gives its candidates, and each of them is inside of the project. -/
def AppliesFirstMatch (imported : Text) (aliases : AliasMap) (projectRoot : Text) : Prop :=
  ∃ candidates, applyAliases imported aliases projectRoot = some candidates ∧
    ((∀ pattern ∈ aliases.patterns, ¬ MatchesImport pattern imported) ∧ candidates = [] ∨
      ∃ front pattern back captured, aliases.patterns = front ++ pattern :: back ∧
        (∀ earlier ∈ front, ¬ MatchesImport earlier imported) ∧ Captures pattern imported captured ∧
        candidates = candidatesOf aliases (stringPathToPosix projectRoot) pattern captured ∧
        ∀ target ∈ pattern.replacements,
          relative (stringPathToPosix projectRoot) (placeOf aliases pattern captured target) ∈ candidates →
          Inside (stringPathToPosix projectRoot) (placeOf aliases pattern captured target))

/-- The tests that a pattern has to pass. -/
def passes (imported : Text) (pattern : AliasPattern) : Bool :=
  imported.startsWith pattern.pre && imported.endsWith pattern.suffix && (pattern.hasWildcard || imported = pattern.pre)

/-- The text between the prefix and the suffix of a pattern. -/
def between (pattern : AliasPattern) (imported : Text) : Text :=
  (imported.drop pattern.pre.length).take (imported.length - (pattern.pre.length + pattern.suffix.length))

/-- The place goes on from the segments of the root, and not with `..`. -/
def GoesOn (root path : Text) : Prop := ∃ down, segs path = segs root ++ down ∧ down.head? ≠ some dotDot

/-- The first pattern that passes has room for its prefix and its suffix, and its places that go on from the root are
absolute as the root is. -/
def Fits (imported : Text) (aliases : AliasMap) (projectRoot : Text) : Prop :=
  ∀ pattern, aliases.patterns.find? (passes imported) = some pattern →
    (pattern.hasWildcard = true → pattern.pre.length + pattern.suffix.length ≤ imported.length) ∧
    ∀ target ∈ pattern.replacements,
      GoesOn (stringPathToPosix projectRoot) (placeOf aliases pattern (between pattern imported) target) →
      isAbsolute (placeOf aliases pattern (between pattern imported) target) =
        isAbsolute (stringPathToPosix projectRoot)

section Passing

variable {imported captured : Text} {pattern : AliasPattern}

/-- A loaded pattern that is literal has no suffix. -/
def Literal (pattern : AliasPattern) : Prop := pattern.hasWildcard = false → pattern.suffix = []

theorem passes_of_captures (literal : Literal pattern) (captures : Captures pattern imported captured) :
    passes imported pattern = true := by
  rw [Captures] at captures
  rw [passes, Text.startsWith, Text.endsWith]
  split at captures
  · rename_i wildcard
    subst captures
    have starts : pattern.pre <+: pattern.pre ++ (captured ++ pattern.suffix) := List.prefix_append ..
    have ends : pattern.suffix <:+ pattern.pre ++ (captured ++ pattern.suffix) :=
      ⟨pattern.pre ++ captured, List.append_assoc ..⟩
    rw [decide_eq_true starts, decide_eq_true ends, wildcard]
    rfl
  · rename_i named
    obtain ⟨rfl, -⟩ := captures
    rw [literal (Bool.eq_false_iff.mpr named)]
    simp

/-- A prefix and a suffix that do not overlap leave a text between them. -/
theorem eq_around {front tail text : Text} (starts : front <+: text) (ends : tail <:+ text)
    (room : front.length + tail.length ≤ text.length) :
    text = front ++ ((text.drop front.length).take (text.length - (front.length + tail.length)) ++ tail) := by
  obtain ⟨rest, rfl⟩ := starts
  rw [List.length_append] at room
  have behind : tail <:+ rest := List.suffix_of_suffix_length_le ends (List.suffix_append ..) (by omega)
  obtain ⟨middle, rfl⟩ := behind
  rw [List.drop_left, List.length_append, List.length_append]
  have count : front.length + (middle.length + tail.length) - (front.length + tail.length) = middle.length := by omega
  rw [count, List.take_left]

/-- A prefix and a suffix that overlap leave no slice between them. -/
theorem slice_overlap {front tail text : Text} (starts : front <+: text) (ends : tail <:+ text)
    (overlap : text.length < front.length + tail.length) :
    Utf8.slice text (Utf8.units front).length ((Utf8.units text).length - (Utf8.units tail).length) = none := by
  obtain ⟨rest, rfl⟩ := starts
  rw [List.length_append] at overlap
  obtain ⟨more, rfl⟩ : rest <:+ tail := List.suffix_of_suffix_length_le (List.suffix_append ..) ends (by omega)
  have more_ : more ≠ [] := by
    rintro rfl
    simp at overlap
  have positive : 0 < (Utf8.units more).length :=
    List.length_pos_iff.mpr fun empty => more_ (Utf8.units_eq_nil.mp empty)
  have shorter : (Utf8.units (more ++ rest)).length ≤ (Utf8.units (front ++ rest)).length := by
    obtain ⟨before, shape⟩ := ends
    rw [← shape, Utf8.units_append before, List.length_append]
    exact Nat.le_add_left ..
  rw [Utf8.slice, if_neg]
  simp only [Utf8.units_append, List.length_append] at shorter ⊢
  omega

theorem captured_eq_between (captures : Captures pattern imported captured) (wildcard : pattern.hasWildcard = true) :
    captured = between pattern imported := by
  rw [Captures, if_pos wildcard] at captures
  subst captures
  rw [between, List.drop_left, List.length_append, List.length_append]
  have count : pattern.pre.length + (captured.length + pattern.suffix.length) -
    (pattern.pre.length + pattern.suffix.length) = captured.length := by
    omega
  rw [count, List.take_left]

/-- What a target is filled with does not matter to a literal pattern. -/
theorem placeOf_between (aliases : AliasMap) (captures : Captures pattern imported captured) (target : Text) :
    placeOf aliases pattern (between pattern imported) target = placeOf aliases pattern captured target := by
  rw [placeOf, placeOf, filled, filled]
  split
  · rename_i wildcard
    rw [← captured_eq_between captures wildcard]
  · rfl

end Passing

section Applying

variable {imported captured projectRoot : Text} {pattern : AliasPattern} {aliases : AliasMap}
  {patterns : List AliasPattern}

/-- What the code does with the pattern that passes first. -/
def decided (imported : Text) (aliases : AliasMap) (projectRoot : Text) (pattern : AliasPattern) : Option (List Text) :=
  if pattern.hasWildcard then
    (Utf8.slice imported (Utf8.units pattern.pre).length
      ((Utf8.units imported).length - (Utf8.units pattern.suffix).length)).map
      fun captured => candidatesOf aliases projectRoot pattern captured
  else some (candidatesOf aliases projectRoot pattern [])

/-- The first pattern that the import passes decides. -/
theorem applyPatterns_eq (patterns : List AliasPattern) : applyPatterns imported aliases projectRoot patterns =
    (patterns.find? (passes imported)).elim (some []) (decided imported aliases projectRoot) := by
  induction patterns with
  | nil => rfl
  | cons pattern rest ih =>
    rw [applyPatterns, ih, List.find?_cons]
    by_cases starts : imported.startsWith pattern.pre = true
    · by_cases ends : imported.endsWith pattern.suffix = true
      · by_cases wildcard : pattern.hasWildcard = true
        · simp [passes, starts, ends, wildcard, decided]
        · by_cases own : imported = pattern.pre
          · subst own
            simp [passes, starts, ends, wildcard, decided]
          · simp [passes, starts, ends, wildcard, own]
      · have given : pattern.suffix ≠ [] := by
          intro empty
          exact ends (decide_eq_true (empty ▸ List.nil_suffix))
        simp [passes, starts, ends, given]
    · simp [passes, starts]

/-- The first pattern that passes and has room is decided by the text it captures. -/
theorem decided_of_captures (captures : Captures pattern imported captured) :
    decided imported aliases projectRoot pattern = some (candidatesOf aliases projectRoot pattern captured) := by
  rw [Captures] at captures
  rw [decided]
  split_ifs at captures ⊢ with wildcard
  · have count : (Utf8.units imported).length - (Utf8.units pattern.suffix).length =
        (Utf8.units pattern.pre).length + (Utf8.units captured).length := by
      rw [captures]
      simp only [Utf8.units_append, List.length_append]
      omega
    rw [count, captures, Utf8.slice_units, Option.map_some]
  · rw [captures.2]

theorem captures_between (passing : passes imported pattern = true) (wildcard : pattern.hasWildcard = true)
    (room : pattern.pre.length + pattern.suffix.length ≤ imported.length) :
    Captures pattern imported (between pattern imported) := by
  rw [passes, Bool.and_eq_true, Bool.and_eq_true] at passing
  rw [Captures, if_pos wildcard]
  exact eq_around (of_decide_eq_true passing.1.1) (of_decide_eq_true passing.1.2) room

theorem captures_literal (passing : passes imported pattern = true) (literal : ¬ pattern.hasWildcard = true) :
    Captures pattern imported [] := by
  rw [passes, Bool.and_eq_true, Bool.and_eq_true] at passing
  rw [Captures, if_neg literal]
  exact ⟨by simpa [literal] using passing.2, rfl⟩

/-- A candidate comes from a place that goes on from the root. -/
theorem mem_candidatesOf_iff {target : Text} (member : target ∈ pattern.replacements) :
    relative projectRoot (placeOf aliases pattern captured target) ∈ candidatesOf aliases projectRoot pattern captured ↔
      GoesOn projectRoot (placeOf aliases pattern captured target) := by
  have kept : relative projectRoot (placeOf aliases pattern captured target) ∈
    candidatesOf aliases projectRoot pattern captured ↔
      ¬ LeadsUp (relative projectRoot (placeOf aliases pattern captured target)) := by
    rw [candidatesOf, List.mem_filter, decide_eq_true_eq]
    exact and_iff_right (List.mem_map_of_mem member)
  rw [kept, Pathutil.not_leadsUp_relative_iff]
  exact ⟨fun ⟨down, goesOn, _, level⟩ => ⟨down, goesOn, level⟩, fun ⟨down, goesOn, level⟩ => ⟨down, goesOn, by
    rw [relative, goesOn, Pathutil.unshared_append]
    rfl, level⟩⟩

/-- A place that goes on from the root is inside of it exactly when it is absolute as the root is. -/
theorem inside_placeOf_iff {target : Text} (goesOn : GoesOn projectRoot (placeOf aliases pattern captured target)) :
    Inside projectRoot (placeOf aliases pattern captured target) ↔
      isAbsolute (placeOf aliases pattern captured target) = isAbsolute projectRoot := by
  obtain ⟨down, goesOn, level⟩ := goesOn
  obtain ⟨path, shape⟩ : ∃ path, placeOf aliases pattern captured target = Pathutil.normalize path := by
    rw [placeOf, resolve]
    split_ifs <;> exact ⟨_, rfl⟩
  rw [shape] at goesOn ⊢
  rw [Pathutil.isAbsolute_normalize]
  exact Pathutil.inside_normalize_iff goesOn level

/-- The first pattern that matches is the only one. -/
theorem first_match_unique {front front' back back' : List AliasPattern} {other : AliasPattern}
    (shape : patterns = front ++ pattern :: back)
    (shape' : patterns = front' ++ other :: back') (before : ∀ earlier ∈ front, ¬ MatchesImport earlier imported)
    (before' : ∀ earlier ∈ front', ¬ MatchesImport earlier imported) (matched : MatchesImport pattern imported)
    (matched' : MatchesImport other imported) : pattern = other := by
  classical
  have found : patterns.find? (fun pattern => decide (MatchesImport pattern imported)) = some pattern :=
    List.find?_eq_some_iff_append.mpr
      ⟨decide_eq_true matched, front, back, shape, fun earlier member => by simpa using before earlier member⟩
  have found' : patterns.find? (fun pattern => decide (MatchesImport pattern imported)) = some other :=
    List.find?_eq_some_iff_append.mpr
      ⟨decide_eq_true matched', front', back', shape', fun earlier member => by simpa using before' earlier member⟩
  exact Option.some.inj (found.symm.trans found')

/-- A pattern that passes first and captures a text settles which candidates are right. -/
theorem applies_iff_of_captures {front back : List AliasPattern} (shape : aliases.patterns = front ++ pattern :: back)
    (before : ∀ earlier ∈ front, ¬ MatchesImport earlier imported) (captures : Captures pattern imported captured)
    (applied : applyAliases imported aliases projectRoot =
      some (candidatesOf aliases (stringPathToPosix projectRoot) pattern captured)) :
    AppliesFirstMatch imported aliases projectRoot ↔ ∀ target ∈ pattern.replacements,
      GoesOn (stringPathToPosix projectRoot) (placeOf aliases pattern captured target) →
      isAbsolute (placeOf aliases pattern captured target) = isAbsolute (stringPathToPosix projectRoot) := by
  constructor
  · rintro ⟨candidates, given,
      ⟨nothing, -⟩ | ⟨front', other, back', captured', shape', before', captures', rfl, inside⟩⟩
    · exact absurd ⟨captured, captures⟩ (nothing pattern (shape ▸ by simp))
    · intro target member goesOn
      obtain rfl : pattern = other := first_match_unique shape shape' before before' ⟨_, captures⟩ ⟨_, captures'⟩
      rw [← placeOf_between aliases captures, placeOf_between aliases captures'] at goesOn ⊢
      exact (inside_placeOf_iff goesOn).mp (inside target member ((mem_candidatesOf_iff member).mpr goesOn))
  · intro level
    refine ⟨_, applied,
      .inr ⟨front, pattern, back, captured, shape, before, captures, rfl, fun target member kept => ?_⟩⟩
    have goesOn := (mem_candidatesOf_iff member).mp kept
    exact (inside_placeOf_iff goesOn).mpr (level target member goesOn)

/-- Over patterns whose literal ones have no suffix, the result is right exactly when the first pattern that passes
fits. -/
theorem applies_iff_fits (literal : ∀ pattern ∈ aliases.patterns, Literal pattern) :
    AppliesFirstMatch imported aliases projectRoot ↔ Fits imported aliases projectRoot := by
  rcases found : aliases.patterns.find? (passes imported) with _ | pattern
  · have nothing : ∀ pattern ∈ aliases.patterns, ¬ MatchesImport pattern imported := by
      rintro pattern member ⟨captured, captures⟩
      exact List.find?_eq_none.mp found pattern member (passes_of_captures (literal pattern member) captures)
    have applied : applyAliases imported aliases projectRoot = some [] := by
      rw [applyAliases, applyPatterns_eq, found]
      rfl
    simp only [Fits, found, reduceCtorEq, false_imp_iff, implies_true, iff_true]
    exact ⟨[], applied, .inl ⟨nothing, rfl⟩⟩
  · obtain ⟨passing, front, back, shape, refused⟩ := List.find?_eq_some_iff_append.mp found
    have before : ∀ earlier ∈ front, ¬ MatchesImport earlier imported := by
      rintro earlier member ⟨captured, captures⟩
      have passed := passes_of_captures (literal earlier (shape ▸ List.mem_append_left _ member)) captures
      have other := refused earlier member
      rw [passed] at other
      cases other
    have applied : applyAliases imported aliases projectRoot =
      decided imported aliases (stringPathToPosix projectRoot) pattern := by
      rw [applyAliases, applyPatterns_eq, found]
      rfl
    have fits_iff : Fits imported aliases projectRoot ↔
        (pattern.hasWildcard = true → pattern.pre.length + pattern.suffix.length ≤ imported.length) ∧
        ∀ target ∈ pattern.replacements,
          GoesOn (stringPathToPosix projectRoot) (placeOf aliases pattern (between pattern imported) target) →
          isAbsolute (placeOf aliases pattern (between pattern imported) target) =
            isAbsolute (stringPathToPosix projectRoot) := by
      simp only [Fits, found, Option.some.injEq, forall_eq']
    have settled : ∀ captured, Captures pattern imported captured → (AppliesFirstMatch imported aliases projectRoot ↔
        ∀ target ∈ pattern.replacements,
          GoesOn (stringPathToPosix projectRoot) (placeOf aliases pattern (between pattern imported) target) →
          isAbsolute (placeOf aliases pattern (between pattern imported) target) =
            isAbsolute (stringPathToPosix projectRoot)) := by
      intro captured captures
      rw [applies_iff_of_captures shape before captures (applied.trans (decided_of_captures captures))]
      simp only [placeOf_between aliases captures]
    rw [fits_iff]
    by_cases wildcard : pattern.hasWildcard = true
    · by_cases room : pattern.pre.length + pattern.suffix.length ≤ imported.length
      · rw [settled _ (captures_between passing wildcard room)]
        exact (and_iff_right fun _ => room).symm
      · -- the prefix and the suffix overlap, and the slice between them panics
        have stopped : applyAliases imported aliases projectRoot = none := by
          rw [passes, Bool.and_eq_true, Bool.and_eq_true] at passing
          rw [applied, decided, if_pos wildcard,
            slice_overlap (of_decide_eq_true passing.1.1) (of_decide_eq_true passing.1.2) (Nat.lt_of_not_le room)]
          rfl
        constructor
        · rintro ⟨candidates, given, -⟩
          rw [stopped] at given
          cases given
        · exact fun ⟨fits, _⟩ => absurd (fits wildcard) room
    · rw [settled _ (captures_literal passing wildcard)]
      exact (and_iff_right fun given => absurd given wildcard).symm

end Applying

section Loaded

variable {Number : Type} {fromStr : Text → Option (Value Number)} {state : FileSystem} {aliases : AliasMap}

theorem literal_of_patternOf {entry : Text × Value Number} {pattern : AliasPattern}
    (made : patternOf entry = some pattern) : Literal pattern := by
  obtain ⟨targets, -, made⟩ := Option.bind_eq_some_iff.mp made
  intro named
  simp only at made
  split at made
  · cases made
  · cases made
    dsimp only at named ⊢
    rw [splitWildcard] at named ⊢
    split at named <;> simp_all

/-- The lengths of the prefixes decide, and then the wildcards. -/
theorem AliasPattern.notAfter_iff {a b : AliasPattern} :
    a.notAfter b = true ↔ (Utf8.units b.pre).length < (Utf8.units a.pre).length ∨
      (Utf8.units a.pre).length = (Utf8.units b.pre).length ∧ (a.hasWildcard = true → b.hasWildcard = true) := by
  rw [AliasPattern.notAfter]
  split
  · rename_i differ
    rw [decide_eq_true_iff]
    omega
  · rename_i same
    have even : (Utf8.units a.pre).length = (Utf8.units b.pre).length := not_not.mp same
    rw [even]
    simp [imp_iff_not_or]

theorem AliasPattern.notAfter_trans {a b c : AliasPattern} (first : a.notAfter b = true)
    (second : b.notAfter c = true) : a.notAfter c = true := by
  rw [AliasPattern.notAfter_iff] at first second ⊢
  rcases first with longer | ⟨even, wild⟩
  · have behind : (Utf8.units c.pre).length ≤ (Utf8.units b.pre).length := by omega
    exact .inl (lt_of_le_of_lt behind longer)
  · rcases second with longer | ⟨level, wilder⟩
    · exact .inl (even ▸ longer)
    · exact .inr ⟨even.trans level, fun star => wilder (wild star)⟩

theorem AliasPattern.notAfter_total (a b : AliasPattern) : a.notAfter b = true ∨ b.notAfter a = true := by
  rw [AliasPattern.notAfter_iff, AliasPattern.notAfter_iff]
  rcases lt_trichotomy (Utf8.units a.pre).length (Utf8.units b.pre).length with shorter | even | longer
  · exact .inr (.inl shorter)
  · by_cases star : a.hasWildcard = true
    · exact .inr (.inr ⟨even.symm, fun _ => star⟩)
    · exact .inl (.inr ⟨even, fun held => absurd held star⟩)
  · exact .inl (.inl longer)

/-- The patterns of a loaded map come from the entries of `paths`, from the most specific one on. -/
theorem patterns_of_loaded {loadedRoot : Text}
    (loaded : (loadProjectAliases fromStr loadedRoot).run (answer state) = some aliases) :
    (∀ pattern ∈ aliases.patterns, Literal pattern) ∧ aliases.patterns.Pairwise fun a b => a.notAfter b = true := by
  rw [loadProjectAliases, Program.run_bind, Program.run_pure] at loaded
  obtain ⟨effective, -, made⟩ := Option.bind_eq_some_iff.mp loaded
  obtain ⟨paths, -, made⟩ := Option.bind_eq_some_iff.mp made
  dsimp only at made
  split at made
  · cases made
  · cases made
    refine ⟨fun pattern member => ?_, List.pairwise_mergeSort ?_ ?_ _⟩
    · obtain ⟨entry, -, given⟩ := List.mem_filterMap.mp (List.mem_mergeSort.mp member)
      exact literal_of_patternOf given
    · intro a b c first second
      exact AliasPattern.notAfter_trans first second
    · intro a b
      rw [Bool.or_eq_true]
      exact AliasPattern.notAfter_total a b

/-- Import paths are rewritten by the first pattern that matches, into candidates inside of the project, exactly when
the first pattern that passes the tests fits. -/
theorem apply_aliases_first_match_iff {loadedRoot : Text}
    (loaded : (loadProjectAliases fromStr loadedRoot).run (answer state) = some aliases) (imported projectRoot : Text) :
    (aliases.patterns.Pairwise fun a b => a.notAfter b = true) ∧
      (AppliesFirstMatch imported aliases projectRoot ↔ Fits imported aliases projectRoot) :=
  ⟨(patterns_of_loaded loaded).2, applies_iff_fits (patterns_of_loaded loaded).1⟩

end Loaded

section Example

/-- This project has the configuration `{"compilerOptions":{"paths":{"a*a":["x*"]}}}`. -/
def starText : Text := "\x7b\"compilerOptions\":\x7b\"paths\":\x7b\"a*a\":[\"x*\"]\x7d\x7d\x7d".toList

def starDoc : Doc := .object
    [("compilerOptions".toList, .object [("paths".toList, .object [("a*a".toList, .array [.string "x*".toList])])])]

def starRaw : Value Text := .object
    [("compilerOptions".toList, .object [("paths".toList, .object [("a*a".toList, .array [.string "x*".toList])])])]

def starFiles : FileSystem :=
  fun path => if path = components "/p/tsconfig.json".toList then ⟨true, some starText⟩ else ⟨false, none⟩

def starAliases : AliasMap := ⟨"/p".toList, [⟨['a'], ['a'], true, ["x*".toList]⟩]⟩

theorem starDoc_value : starDoc.value wordReader = some starRaw := by
  have outer : unescape "compilerOptions".toList = some "compilerOptions".toList := by decide +kernel
  have inner : unescape "paths".toList = some "paths".toList := by decide +kernel
  have key : unescape "a*a".toList = some "a*a".toList := rfl
  have target : unescape "x*".toList = some "x*".toList := rfl
  simp only [starDoc, Doc.value, wordReader, Doc.valueAt, Doc.memberValues, Doc.itemValues, outer, inner, key, target,
    Option.bind_some, Option.map_some]
  rfl

theorem starText_lexed : lex starText = some starDoc.tokens := by rfl

theorem starPatterns : [("a*a".toList, (.array [.string "x*".toList] : Value Text))].filterMap patternOf =
    [⟨['a'], ['a'], true, ["x*".toList]⟩] := by
  rfl

theorem starAliases_of_options : aliasMapOf "/p".toList
    ⟨none, some [("a*a".toList, (.array [.string "x*".toList] : Value Text))], some "/p".toList⟩ =
    some starAliases := by
  rw [aliasMapOf, Option.bind_some]
  dsimp only
  rw [starPatterns, if_neg (by decide), List.mergeSort_singleton]
  rfl

theorem starAliases_loaded :
    (loadProjectAliases (readText wordReader) "/p".toList).run (answer starFiles) = some starAliases := by
  have there : answer starFiles (join "/p".toList "tsconfig.json".toList) = ⟨true, some starText⟩ := rfl
  have stripped : Jsonc.stripJsonc starText = starText := by decide +kernel
  have read : (readTsconfigLike (readText wordReader) (join "/p".toList "tsconfig.json".toList)).run
    (answer starFiles) = some starRaw :=
    run_readTsconfigLike_plain (by rw [there]) stripped starText_lexed starDoc_value rfl
  rw [run_loadProjectAliases_own (by rw [there]) read rfl rfl]
  exact starAliases_of_options

/-- The import path `aba` captures the `b`. -/
theorem apply_aliases_to_aba : AppliesFirstMatch "aba".toList starAliases "/p".toList := by
  refine (apply_aliases_first_match_iff starAliases_loaded _ _).2.mpr fun pattern found => ?_
  obtain rfl : (⟨['a'], ['a'], true, ["x*".toList]⟩ : AliasPattern) = pattern := by
    have first : starAliases.patterns.find? (passes "aba".toList) = some ⟨['a'], ['a'], true, ["x*".toList]⟩ := rfl
    exact Option.some.inj (first.symm.trans found)
  refine ⟨fun _ => by decide, fun target member _ => ?_⟩
  obtain rfl := List.mem_singleton.mp member
  rfl

/-- The import path `a` starts with the prefix and ends with the suffix of this pattern, and the slice between them
panics. -/
theorem apply_aliases_panics_on_overlap :
    (loadProjectAliases (readText wordReader) "/p".toList).run (answer starFiles) = some starAliases ∧
    applyAliases ['a'] starAliases "/p".toList = none ∧ ¬ AppliesFirstMatch ['a'] starAliases "/p".toList := by
  have stopped : applyAliases ['a'] starAliases "/p".toList = none := rfl
  refine ⟨starAliases_loaded, stopped, ?_⟩
  rintro ⟨candidates, given, -⟩
  rw [stopped] at given
  cases given

end Example

end Codegraph.Resolve.AliasApplication
