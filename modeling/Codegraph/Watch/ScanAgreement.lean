import Codegraph.Watch.ScanWalk

/- This file shows when the check of a single path agrees with the project scan. -/

namespace Codegraph.Watch.Scope.Scan
open FileTrees List

/-- A scan has a path among its files, or as a directory that it scanned. -/
def Recorded (dir : Bool) (state : ScanWalk) (relative : Text) : Prop :=
  if dir then ∃ canonical, (canonical, relative) ∈ state.links.scanned else relative ∈ state.files

section Rules

variable (config : ScopeConfig) (checkout : Checkout) (blocked : List Text → Bool) (dir : Bool)

/-- The rules and the blocked directories let a scan reach a path. -/
def passes : Forest Text → List Text → List Text → GitignoreAncestry → List Text → Bool
  | _, _, _, _, [] => dir
  | entries, parent, canonicalDir, above, name :: rest =>
    let relative := joinSegments (parent ++ [name])
    match entries.find? name with
    | some .file =>
      !prunesByName config checkout.project parent name relative false && (rest.isEmpty && !dir) &&
        Decidable.decide (decide config checkout.project relative false above = .file true)
    | some (.directory _ inner) =>
      !prunesByName config checkout.project parent name relative true &&
        match decide config checkout.project relative true above with
        | .descend next =>
          !blocked (canonicalDir ++ [name]) && passes inner (parent ++ [name]) (canonicalDir ++ [name]) next rest
        | _ => false
    | _ => false

end Rules

section Places

variable {config : ScopeConfig} {checkout : Checkout} {blocked : List Text → Bool} {dirKind : Bool}
  {dir canonicalDir names : List Text}
  {may linked : List Text → Prop} {before after : ScanWalk} {above : GitignoreAncestry} {hops : Nat} {name : Text}
  {tree : FileTree Text} {entries rest : Forest Text} {relative : Text} {starts : List Text}

/-- Two paths of segments are one text only when they are one path. -/
theorem joinSegments_inj {first second : List Text} (firstGood : ∀ segment ∈ first, IsSegment segment)
    (secondGood : ∀ segment ∈ second, IsSegment segment) (firstSome : first ≠ []) (secondSome : second ≠ [])
    (same : joinSegments first = joinSegments second) : first = second := by
  rw [← segments_joinSegments firstSome fun segment member => (firstGood segment member).2.1, same,
    segments_joinSegments secondSome fun segment member => (secondGood segment member).2.1]

theorem recorded_mono (adds : Adds dir canonicalDir may linked before after)
    (recorded : Recorded dirKind before relative) : Recorded dirKind after relative := by
  cases dirKind with
  | false => exact adds.keepsFiles recorded
  | true => exact recorded.imp fun canonical member => adds.keepsScanned member

/-- What a part of a scan may not add is recorded before it or not at all. -/
theorem recorded_iff (adds : Adds dir canonicalDir may linked before after) {relative : Text}
    (apart : ∀ names, may names → relative ≠ joinSegments (dir ++ names)) :
    Recorded dirKind after relative ↔ Recorded dirKind before relative := by
  refine ⟨fun recorded => ?_, recorded_mono adds⟩
  cases dirKind with
  | false => exact (adds.files relative recorded).resolve_right fun ⟨names, inside, same⟩ => apart names inside same
  | true =>
    obtain ⟨canonical, member⟩ := recorded
    refine ⟨canonical, (adds.scanned _ member).resolve_right fun ⟨names, inside, same⟩ => apart names inside ?_⟩
    exact congrArg Prod.snd same

theorem isBlocked_eq (adds : Adds dir canonicalDir may linked before after) :
    after.links.isBlocked = before.links.isBlocked := by
  funext canonical
  rw [LinkWalk.isBlocked, adds.blocked, LinkWalk.isBlocked]

theorem passes_head :
    passes config checkout blocked dirKind (.cons name tree rest) dir canonicalDir above (name :: names) =
    passes config checkout blocked dirKind (.cons name tree .nil) dir canonicalDir above (name :: names) := by
  simp only [passes, Forest.find?, if_true]

theorem passes_rest {first : Text} (other : name ≠ first) :
    passes config checkout blocked dirKind (.cons name tree rest) dir canonicalDir above (first :: names) =
      passes config checkout blocked dirKind rest dir canonicalDir above (first :: names) := by
  simp only [passes, Forest.find?, if_neg other]

/-- No directory below the names of some entries was scanned yet. -/
def Fresh (canonicalDir : List Text) (starts : List Text) (state : ScanWalk) : Prop :=
  ∀ name ∈ starts, ∀ below, canonicalDir ++ name :: below ∉ state.links.scanned.map Prod.fst

theorem Fresh.later {first : Text} (fresh : Fresh canonicalDir starts before)
    (adds : Adds dir canonicalDir (EntryMay first) linked before after) (apart : first ∉ starts) :
    Fresh canonicalDir starts after := by
  intro name member below inside
  obtain ⟨pair, scanned, same⟩ := mem_map.mp inside
  rcases adds.scanned pair scanned with old | ⟨names, ⟨rest, rfl, -⟩, rfl⟩
  · exact fresh name member below (mem_map.mpr ⟨pair, old, same⟩)
  · have heads := append_cancel_left same
    simp only [cons.injEq] at heads
    exact apart (heads.1 ▸ member)

theorem Fresh.enter {links : LinkWalk} {linkedDirs : List Text} (fresh : Fresh canonicalDir [name] before)
    (entered : before.links.enter (canonicalDir ++ [name]) relative = some links) :
    Fresh (canonicalDir ++ [name]) starts { before with links, linkedDirs } := by
  obtain ⟨-, -, rfl⟩ := enter_eq_some.mp entered
  intro first _ below inside
  simp only [map_append, map_cons, map_nil, mem_append, mem_singleton] at inside
  rcases inside with old | same
  · refine fresh name (mem_singleton_self _) (first :: below) ?_
    simpa using old
  · exact absurd (congrArg length same) (by simp)

theorem recorded_enter {links : LinkWalk} {other : Text} {canonical : List Text} {linkedDirs : List Text}
    (entered : before.links.enter canonical relative = some links) :
    Recorded dirKind { before with links, linkedDirs } other ↔
      Recorded dirKind before other ∨ dirKind = true ∧ other = relative := by
  obtain ⟨-, -, rfl⟩ := enter_eq_some.mp entered
  cases dirKind with
  | false => simp [Recorded]
  | true => simp [Recorded, exists_or]

theorem recorded_admitFile {other : Text} {target : Option (List Text)} {extractable : Bool} :
    Recorded dirKind (before.admitFile relative target extractable) other ↔
      Recorded dirKind before other ∨ (dirKind = false ∧ extractable = true ∧ other = relative) := by
  rw [ScanWalk.admitFile]
  cases extractable with
  | true => cases dirKind <;> simp [Recorded]
  | false =>
    cases unsupportedExtension relative <;> cases dirKind <;> simp [Recorded]

theorem join_ne {first second : List Text} (dirGood : ∀ segment ∈ dir, IsSegment segment)
    (firstGood : ∀ segment ∈ first, IsSegment segment) (secondGood : ∀ segment ∈ second, IsSegment segment)
    (firstSome : first ≠ []) (secondSome : second ≠ []) (apart : first ≠ second) :
    joinSegments (dir ++ first) ≠ joinSegments (dir ++ second) := by
  intro same
  refine apart (append_cancel_left (joinSegments_inj ?_ ?_ (by simp [firstSome]) (by simp [secondSome]) same))
  · exact forall_mem_append.mpr ⟨dirGood, firstGood⟩
  · exact forall_mem_append.mpr ⟨dirGood, secondGood⟩

/-- The entries of a directory add nothing under a name that none of them has. -/
theorem recorded_apart {head : Text} (adds : Adds dir canonicalDir may linked before after)
    (dirGood : ∀ segment ∈ dir, IsSegment segment) (good : ∀ segment ∈ head :: names, IsSegment segment)
    (within : ∀ names, may names → ∃ name ∈ starts, EntryMay name names) (apart : head ∉ starts) :
    Recorded dirKind after (joinSegments (dir ++ head :: names)) ↔
      Recorded dirKind before (joinSegments (dir ++ head :: names)) := by
  refine recorded_iff adds fun others inside => ?_
  obtain ⟨name, member, rest, rfl, segments⟩ := within others inside
  refine join_ne dirGood good segments (cons_ne_nil _ _) (cons_ne_nil _ _) fun same => apart ?_
  rw [cons.injEq] at same
  exact same.1 ▸ member

end Places

section Recording

variable {config : ScopeConfig} {checkout : Checkout} {dirKind : Bool}

mutual

/-- An entry adds a path that meets no link exactly when the rules and the blocked directories let the scan reach it. -/
theorem scanEntry_recorded {name : Text} {tree : FileTree Text} {dir canonicalDir names : List Text}
    {above : GitignoreAncestry} {hops : Nat} {before after : ScanWalk} (formed : tree.WellFormed IsSegment)
    (scanned : scanEntry config checkout name tree dir canonicalDir above hops before = .ok after)
    (dirGood : ∀ segment ∈ dir, IsSegment segment) (good : ∀ segment ∈ name :: names, IsSegment segment)
    (fresh : Fresh canonicalDir [name] before) (unlinked : ¬ Through tree names) :
    Recorded dirKind after (joinSegments (dir ++ name :: names)) ↔
      Recorded dirKind before (joinSegments (dir ++ name :: names)) ∨
        passes config checkout before.links.isBlocked dirKind (.cons name tree .nil) dir canonicalDir above
          (name :: names) = true := by
  obtain ⟨nameGood, namesGood⟩ := forall_mem_cons.mp good
  have own : joinSegments (dir ++ name :: names) = joinSegments (dir ++ [name]) ↔ names = [] := by
    refine ⟨fun same => ?_, fun none => by rw [none]⟩
    by_contra some_
    exact join_ne dirGood good (by simpa using nameGood) (cons_ne_nil _ _) (cons_ne_nil _ _)
      (by simpa using some_) same
  rw [scanEntry.eq_def] at scanned
  simp only at scanned
  cases tree with
  | symlink absolute target => exact absurd through_symlink unlinked
  | other =>
    simp only [ite_self, Except.ok.injEq] at scanned
    subst scanned
    simp [passes, Forest.find?]
  | file =>
    simp only [passes, Forest.find?, if_true]
    by_cases pruned : prunesByName config checkout.project dir name (joinSegments (dir ++ [name])) false = true
    · rw [if_pos (by exact pruned)] at scanned
      cases scanned
      simp [pruned]
    · rw [if_neg (by exact pruned)] at scanned
      simp only at scanned
      have kept := Bool.eq_false_iff.mpr pruned
      split at scanned
      · rename_i extractable decided
        cases scanned
        rw [recorded_admitFile, own]
        simp only [kept, decided, Bool.not_false, Bool.true_and, Bool.and_eq_true, List.isEmpty_iff,
          Bool.not_eq_true', decide_eq_true_eq, EntryDecision.file.injEq]
        tauto
      · rename_i other
        cases scanned
        simp only [Bool.and_eq_true, decide_eq_true_eq]
        exact ⟨.inl, fun both => both.elim id fun reached => (other true reached.2).elim⟩
  | directory readable entries =>
    simp only [passes, Forest.find?, if_true]
    by_cases pruned : prunesByName config checkout.project dir name (joinSegments (dir ++ [name])) true = true
    · rw [if_pos (by exact pruned)] at scanned
      cases scanned
      simp [pruned]
    · rw [if_neg (by exact pruned)] at scanned
      simp only at scanned
      have kept := Bool.eq_false_iff.mpr pruned
      cases decided : decide config checkout.project (joinSegments (dir ++ [name])) true above with
      | descend next =>
        simp only [decided] at scanned
        simp only [kept, Bool.not_false, Bool.true_and, Bool.and_eq_true, Bool.not_eq_true']
        split at scanned
        · rename_i refused
          cases scanned
          have stops : before.links.isBlocked (canonicalDir ++ [name]) = true := by
            by_contra free
            have new := fresh name (mem_singleton_self _) []
            rw [LinkWalk.enter, if_neg free, if_neg new] at refused
            cases refused
          simp [stops]
        · rename_i links entered
          have open_ := (enter_eq_some.mp entered).1
          split at scanned
          · rw [FileTree.WellFormed] at formed
            have sameBlocked : links.isBlocked = before.links.isBlocked := by
              obtain ⟨-, -, rfl⟩ := enter_eq_some.mp entered
              rfl
            have innerGood : ∀ segment ∈ dir ++ [name], IsSegment segment :=
              forall_mem_append.mpr ⟨dirGood, by simpa using nameGood⟩
            cases names with
            | nil =>
              have adds := scanEntries_adds formed scanned
              rw [recorded_iff adds, recorded_enter entered]
              · simp [passes, open_]
              · rintro names ⟨first, -, rest, rfl, segments⟩
                rw [append_assoc, singleton_append]
                exact join_ne dirGood good (forall_mem_cons.mpr ⟨nameGood, segments⟩) (cons_ne_nil _ _)
                  (cons_ne_nil _ _)
                  (by simp)
            | cons head rest =>
              have inner := scanEntries_recorded formed scanned innerGood namesGood (.enter fresh entered)
                fun through => unlinked through.below
              rw [append_assoc, singleton_append] at inner
              rw [inner, recorded_enter entered, own, sameBlocked]
              simp [open_]
          · cases scanned
      | skip | file _ =>
        simp only [decided] at scanned
        cases scanned
        simp

/-- A scan of entries records a path that needs no link exactly when its membership admits it. -/
theorem scanEntries_recorded {entries : Forest Text} {dir canonicalDir : List Text} {head : Text} {names : List Text}
    {above : GitignoreAncestry} {hops : Nat} {before after : ScanWalk} (formed : entries.WellFormed IsSegment)
    (scanned : scanEntries config checkout entries dir canonicalDir above hops before = .ok after)
    (dirGood : ∀ segment ∈ dir, IsSegment segment) (good : ∀ segment ∈ head :: names, IsSegment segment)
    (fresh : Fresh canonicalDir entries.names before) (unlinked : ¬ Through (.directory true entries) (head :: names)) :
    Recorded dirKind after (joinSegments (dir ++ head :: names)) ↔
      Recorded dirKind before (joinSegments (dir ++ head :: names)) ∨
        passes config checkout before.links.isBlocked dirKind entries dir canonicalDir above (head :: names) =
          true := by
  cases entries with
  | nil =>
    cases scanned
    simp [passes, Forest.find?]
  | cons name tree rest =>
    obtain ⟨middle, first, second⟩ := scanEntries_cons scanned
    rw [Forest.WellFormed] at formed
    obtain ⟨nameGood, notLater, formedTree, formedRest⟩ := formed
    have firstAdds := scanEntry_adds nameGood formedTree first
    have secondAdds := scanEntries_adds formedRest second
    by_cases same : name = head
    · subst same
      rw [recorded_apart secondAdds dirGood good (fun names inside => inside) notLater, passes_head]
      refine scanEntry_recorded formedTree first dirGood good ?_ fun through => unlinked (through_head through)
      exact fun other member => fresh other (mem_cons.mpr (.inl (mem_singleton.mp member)))
    · have apart : head ∉ [name] := fun member => same (mem_singleton.mp member).symm
      have restFresh : Fresh canonicalDir rest.names middle :=
        .later (fun other member => fresh other (mem_cons_of_mem _ member)) firstAdds notLater
      rw [scanEntries_recorded formedRest second dirGood good restFresh fun through =>
        unlinked (through_rest same through),
        recorded_apart firstAdds dirGood good (fun names own => ⟨name, mem_singleton_self _, own⟩) apart,
        isBlocked_eq firstAdds, passes_rest same]

end

end Recording

section Judging

variable {config : ScopeConfig} {checkout : Checkout} {blocked : List Text → Bool} {dirKind readable : Bool}
  {parent canonicalDir names : List Text}
  {above : GitignoreAncestry} {name : Text} {tree : FileTree Text} {entries : Forest Text}

/-- The check of a single path finds each entry on it where the tree has it. -/
def Sees (checkout : Checkout) (tree : FileTree Text) (parent names : List Text) : Prop :=
  ∀ front, front ≠ [] → front <+: names →
    checkout.project.tree (joinSegments (parent ++ front)) = kindOf (tree.at front)

theorem at_single : (FileTree.directory readable entries).at [name] = entries.find? name := by
  rw [FileTree.at]
  cases entries.find? name <;> rfl

theorem Sees.first (sees : Sees checkout (.directory readable entries) parent (name :: names)) :
    checkout.project.tree (joinSegments (parent ++ [name])) = kindOf (entries.find? name) := by
  rw [sees [name] (cons_ne_nil _ _) ⟨names, rfl⟩, at_single]

theorem Sees.below (sees : Sees checkout (.directory readable entries) parent (name :: names))
    (found : entries.find? name = some tree) : Sees checkout tree (parent ++ [name]) names := by
  intro front _ starts
  have outer := sees (name :: front) (cons_ne_nil _ _) (cons_prefix_cons.mpr ⟨rfl, starts⟩)
  rw [FileTree.at, found] at outer
  rw [append_assoc, singleton_append]
  exact outer

theorem through_below (found : entries.find? name = some tree) (through : Through tree names) :
    Through (.directory readable entries) (name :: names) := by
  obtain ⟨front, starts, last, looked, link⟩ := through
  refine ⟨name :: front, cons_prefix_cons.mpr ⟨rfl, starts⟩, last, ?_, link⟩
  rw [FileTree.at, found]
  exact looked

/-- The check of a path that meets no link admits what the rules let a scan reach. -/
theorem membershipFrom_iff (sees : Sees checkout (.directory readable entries) parent names)
    (unlinked : ¬ Through (.directory readable entries) names) :
    membershipFrom config checkout.project dirKind parent above names = .admitted ↔
      names = [] ∨ passes config checkout (fun _ => false) dirKind entries parent canonicalDir above names = true := by
  induction names generalizing entries parent canonicalDir above readable with
  | nil => simp [membershipFrom]
  | cons name rest ih =>
    have kind := sees.first
    simp only [membershipFrom, passes, kind, cons_ne_nil, false_or]
    cases found : entries.find? name with
    | none => simp [kindOf]
    | some tree =>
      have inner := sees.below found
      have notLink : ¬ Through tree rest := fun through => unlinked (through_below found through)
      cases tree with
      | symlink absolute target => exact absurd through_symlink notLink
      | other =>
        simp only [kindOf]
        cases pruned : prunesByName config checkout.project parent name
          (joinSegments (parent ++ [name])) false <;> simp [pruned]
      | file =>
        simp only [kindOf]
        cases pruned : prunesByName config checkout.project parent name
          (joinSegments (parent ++ [name])) false with
        | true => simp [pruned]
        | false =>
          cases rest with
          | cons head rest => simp [pruned]
          | nil =>
            cases dirKind with
            | true => simp [pruned]
            | false =>
              cases decide config checkout.project (joinSegments (parent ++ [name])) false above with
              | file extractable => cases extractable <;> simp [pruned]
              | skip => simp [pruned]
              | descend next => simp [pruned]
      | directory inside forest =>
        simp only [kindOf]
        cases pruned : prunesByName config checkout.project parent name
          (joinSegments (parent ++ [name])) true with
        | true => simp [pruned]
        | false =>
          cases decide config checkout.project (joinSegments (parent ++ [name])) true above with
          | skip => simp [pruned]
          | file extractable => simp [pruned]
          | descend next =>
            have later := @ih inside (parent ++ [name]) (canonicalDir ++ [name]) next forest inner notLink
            cases rest with
            | nil => cases dirKind <;> simp [passes, membershipFrom, pruned]
            | cons head rest => simpa [pruned] using later

/-- The directories on a path, the path itself included when it is to be a directory. -/
def OnPath (dirKind : Bool) (names front : List Text) : Prop :=
  front ≠ [] ∧ front <+: names ∧ (front = names → dirKind = true)

theorem onPath_cons {rest front : List Text} : OnPath dirKind (name :: rest) front ↔
      front = [name] ∧ (rest = [] → dirKind = true) ∨ ∃ below, front = name :: below ∧ OnPath dirKind rest below := by
  constructor
  · rintro ⟨some_, starts, last⟩
    obtain ⟨head, below, rfl⟩ := exists_cons_of_ne_nil some_
    obtain ⟨rfl, deeper⟩ := cons_prefix_cons.mp starts
    by_cases none : below = []
    · subst none
      exact .inl ⟨rfl, fun same => last (by rw [same])⟩
    · exact .inr ⟨below, rfl, none, deeper, fun same => last (by rw [same])⟩
  · rintro (⟨rfl, last⟩ | ⟨below, rfl, some_, starts, last⟩)
    · exact ⟨cons_ne_nil _ _, cons_prefix_cons.mpr ⟨rfl, nil_prefix⟩,
        fun same => last (cons.inj same).2.symm⟩
    · exact ⟨cons_ne_nil _ _, cons_prefix_cons.mpr ⟨rfl, starts⟩, fun same => last (cons.inj same).2⟩

/-- A scan reaches a path when the rules let it and no directory on the path is blocked. -/
theorem passes_iff : passes config checkout blocked dirKind entries parent canonicalDir above names = true ↔
    passes config checkout (fun _ => false) dirKind entries parent canonicalDir above names = true ∧
      ∀ front, OnPath dirKind names front → blocked (canonicalDir ++ front) = false := by
  induction names generalizing entries parent canonicalDir above with
  | nil =>
    exact ⟨fun reached => ⟨reached, fun front onPath => absurd (prefix_nil.mp onPath.2.1) onPath.1⟩, And.left⟩
  | cons name rest ih =>
    simp only [passes, onPath_cons]
    cases entries.find? name with
    | none => simp
    | some tree =>
      cases tree with
      | symlink absolute target => simp
      | other => simp
      | file =>
        simp only [Bool.and_eq_true, List.isEmpty_iff, Bool.not_eq_true', iff_self_and]
        rintro ⟨⟨-, rfl, notDir⟩, -⟩ front (⟨-, last⟩ | ⟨below, -, some_, starts, -⟩)
        · rw [last rfl] at notDir
          cases notDir
        · exact absurd (List.prefix_nil.mp starts) some_
      | directory inside forest =>
        cases decide config checkout.project (joinSegments (parent ++ [name])) true above with
        | skip => simp
        | file extractable => simp
        | descend next =>
          simp only [Bool.and_eq_true, Bool.not_eq_true', Bool.not_false, true_and, and_assoc]
          refine and_congr_right fun _ => ?_
          rw [ih]
          constructor
          · rintro ⟨free, reached, deeper⟩
            refine ⟨reached, ?_⟩
            rintro front (⟨rfl, -⟩ | ⟨below, rfl, onPath⟩)
            · exact free
            · simpa using deeper below onPath
          · rintro ⟨reached, all⟩
            refine ⟨all [name] (.inl ⟨rfl, ?_⟩), reached, fun below onPath => ?_⟩
            · rintro rfl
              simpa [passes] using reached
            · simpa using all (name :: below) (.inr ⟨below, rfl, onPath⟩)

/-- The rules let a scan reach the directories on a path that they let it reach. -/
theorem passes_onPath {front : List Text}
    (reached : passes config checkout blocked dirKind entries parent canonicalDir above names = true)
    (onPath : OnPath dirKind names front) :
    passes config checkout blocked true entries parent canonicalDir above front = true := by
  induction names generalizing entries parent canonicalDir above front with
  | nil => exact absurd (prefix_nil.mp onPath.2.1) onPath.1
  | cons name rest ih =>
    rw [onPath_cons] at onPath
    simp only [passes] at reached
    cases found : entries.find? name with
    | none => simp [found] at reached
    | some tree =>
      cases tree with
      | symlink absolute target => simp [found] at reached
      | other => simp [found] at reached
      | file =>
        simp only [found, Bool.and_eq_true, List.isEmpty_iff, Bool.not_eq_true'] at reached
        obtain ⟨⟨-, rfl, notDir⟩, -⟩ := reached
        rcases onPath with ⟨-, last⟩ | ⟨below, -, some_, starts, -⟩
        · rw [last rfl] at notDir
          cases notDir
        · exact absurd (List.prefix_nil.mp starts) some_
      | directory inside forest =>
        simp only [found] at reached
        cases decided : decide config checkout.project (joinSegments (parent ++ [name])) true above with
        | skip => simp [decided] at reached
        | file extractable => simp [decided] at reached
        | descend next =>
          simp only [decided, Bool.and_eq_true, Bool.not_eq_true'] at reached
          rcases onPath with ⟨rfl, -⟩ | ⟨below, rfl, deeper⟩
          · simp [passes, found, decided, reached]
          · simp [passes, found, decided, reached, ih reached.2.2 deeper]

/-- The rules let a scan reach a directory when they let it enter each directory on the way. -/
theorem passes_walk (sees : Sees checkout (.directory readable entries) parent names)
    (free : ∀ segment ∈ names, '/' ∉ segment)
    (judged : ∀ next, '/' ∉ next → above = checkout.project.gitignore.above (joinSegments (parent ++ [next]))) :
    passes config checkout (fun _ => false) true entries parent canonicalDir above names = true ↔
      ∀ visit ∈ walk parent names, checkout.project.tree (visited visit) = .directory ∧
        entersDirectory config checkout.project visit := by
  induction names generalizing entries parent canonicalDir above readable with
  | nil => simp [passes, walk]
  | cons name rest ih =>
    have kind := sees.first
    have decision :=
      @decide_directory config checkout.project parent name above (judged name (free name mem_cons_self))
    rw [walk, forall_mem_cons, visited, kind]
    simp only [passes]
    cases found : entries.find? name with
    | none => simp [kindOf]
    | some tree =>
      cases tree with
      | symlink absolute target => simp [kindOf]
      | other => simp [kindOf]
      | file => simp [kindOf]
      | directory inside forest =>
        have later := @ih inside (parent ++ [name]) (canonicalDir ++ [name])
          (above.child (checkout.project.gitignore.matched (visited (parent, name)) true)) forest
            (sees.below found)
          (fun segment member => free segment (mem_cons_of_mem _ member)) ?_
        · rw [← later, entersDirectory]
          simp only [visited]
          by_cases hidden : streamIgnores config checkout.project.gitignore
            (joinSegments (parent ++ [name])) true = true ∧
              wantsDescend config (joinSegments (parent ++ [name])) = false
          · have skips : decide config checkout.project (joinSegments (parent ++ [name])) true above = .skip :=
              decision.trans (if_pos hidden)
            simp [skips, hidden.1, hidden.2]
          · have descends : decide config checkout.project (joinSegments (parent ++ [name])) true above =
                .descend (above.child
                  (checkout.project.gitignore.matched (joinSegments (parent ++ [name])) true)) :=
              decision.trans (if_neg hidden)
            have enters : streamIgnores config checkout.project.gitignore
              (joinSegments (parent ++ [name])) true = true →
                wantsDescend config (joinSegments (parent ++ [name])) = true := by simpa using hidden
            simp only [descends, kindOf, true_and, Bool.not_false, Bool.and_eq_true, Bool.not_eq_true',
              and_iff_left enters]
        · intro next nextFree
          rw [above_extend checkout.project.gitignore nextFree (by simp), judged name (free name mem_cons_self)]
          rfl

end Judging

section Disk

variable {config : ScopeConfig} {checkout : Checkout} {disk : Disk} {root path : List Text} {entries : Forest Text}
  {readable : Bool}

theorem prefix_walk {front : List Text} (some_ : front ≠ []) (starts : front <+: path) :
    ∃ visit ∈ walk [] path, visit.1 ++ [visit.2] = front := by
  obtain ⟨rest, rfl⟩ := starts
  obtain ⟨before, last, rfl⟩ := eq_nil_or_concat' front |>.resolve_left some_
  refine ⟨(before, last), ?_, rfl⟩
  rw [append_assoc, walk_append, mem_append]
  exact .inr (mem_cons_self ..)

/-- An entry below the project root lies where its path says when no directory above it is a link. -/
theorem symlinkMetadata_eq (rooted : disk.canonicalize [] = some root)
    (isDir : disk.root.at root = some (.directory readable entries)) (some_ : path ≠ [])
    (unlinked : ∀ front, front ≠ [] → front <+: path.dropLast → ∀ found, disk.root.at (root ++ front) = some found →
      found.isSymlink = false) : disk.symlinkMetadata path = disk.root.at (root ++ path) := by
  obtain ⟨before, last, rfl⟩ := eq_nil_or_concat' path |>.resolve_left some_
  rw [dropLast_concat] at unlinked
  obtain ⟨left, same⟩ := FileTree.resolve_append isDir (by simpa [Disk.canonicalize] using rooted)
  rw [Disk.symlinkMetadata, Disk.canonicalize, dropLast_concat, same, FileTree.resolve_names isDir unlinked,
    getLast?_concat, ← append_assoc]
  have last_ : disk.root.at (root ++ before ++ [last]) = (disk.root.at (root ++ before)).bind fun found =>
    found.at [last] := FileTree.at_append ..
  cases found : disk.root.at (root ++ before) with
  | none =>
    rw [last_, found]
    rfl
  | some tree => rfl

theorem at_below (isDir : checkout.disk.root.at root = some (.directory readable entries)) (front : List Text) :
    checkout.disk.root.at (root ++ front) = (FileTree.directory readable entries).at front := by
  rw [FileTree.at_append, isDir]
  rfl

section

variable (rooted : checkout.disk.canonicalize [] = some root)
include rooted

/-- A path that passes no link names the kind of the tree that it leads to. -/
theorem tree_join
    (isDir : checkout.disk.root.at root = some (.directory readable entries)) {front : List Text} (some_ : front ≠ [])
    (good : ∀ segment ∈ front, IsSegment segment) (unlinked : ∀ above, above ≠ [] → above <+: front.dropLast →
      ∀ found, (FileTree.directory readable entries).at above = some found →
      found.isSymlink = false) :
    checkout.project.tree (joinSegments front) = kindOf ((FileTree.directory readable entries).at front) := by
  show kindOf (checkout.disk.symlinkMetadata (joinSegments front).segments) = _
  rw [segments_joinSegments some_ fun segment member => (good segment member).2.1,
    symlinkMetadata_eq rooted isDir some_ fun above some_ starts found looked => ?_, at_below isDir]
  rw [at_below isDir] at looked
  exact unlinked above some_ starts found looked

theorem sees_of_unlinked (isDir : checkout.disk.root.at root = some (.directory readable entries))
    (good : ∀ segment ∈ path, IsSegment segment)
    (unlinked : ¬ Through (.directory readable entries) path) : Sees checkout (.directory readable entries)
    [] path := by
  intro front some_ starts
  rw [nil_append]
  refine tree_join rooted isDir some_ (fun segment member => good segment (starts.subset member))
    fun above _ higher found looked => ?_
  by_contra link
  exact unlinked
    ⟨above, (higher.trans ( dropLast_prefix front)).trans starts, found, looked, Bool.not_eq_false _ ▸ link⟩

/-- A path whose components are no links meets no link in the tree. -/
theorem unlinked_of_kinds (isDir : checkout.disk.root.at root = some (.directory readable entries))
    (good : ∀ segment ∈ path, IsSegment segment)
    (kinds : ∀ visit ∈ walk [] path, checkout.project.tree (visited visit) ≠ .symlink) :
    ¬ Through (.directory readable entries) path := by
  rintro ⟨front, starts, found, looked, link⟩
  have some_ : front ≠ [] := by
    rintro rfl
    cases looked
    cases link
  obtain ⟨visit, member, rfl⟩ := prefix_walk some_ starts
  refine kinds visit member ?_
  rw [visited, tree_join rooted isDir some_ (fun segment inside => good segment (starts.subset inside)), looked]
  · cases found with
    | symlink absolute target => rfl
    | _ => cases link
  · intro above _ higher between seen
    rw [dropLast_concat] at higher
    obtain ⟨rest, same⟩ := higher
    rw [← same, append_assoc, FileTree.at_append, seen, Option.bind_some] at looked
    cases between with
    | symlink absolute target => cases rest <;> cases looked
    | _ => rfl

theorem canonicalize_eq (isDir : checkout.disk.root.at root = some (.directory readable entries))
    (unlinked : ¬ Through (.directory readable entries) path) :
    checkout.disk.canonicalize path = if ((FileTree.directory readable entries).at path).isSome then
      some (root ++ path) else none := by
  obtain ⟨left, same⟩ := FileTree.resolve_append isDir (by simpa [Disk.canonicalize] using rooted)
  rw [Disk.canonicalize, same, FileTree.resolve_names isDir, at_below isDir]
  intro front _ starts found looked
  by_contra link
  rw [at_below isDir] at looked
  exact unlinked ⟨front, starts, found, looked, Bool.not_eq_false _ ▸ link⟩

end

end Disk

section Linked

variable {config : ScopeConfig} {checkout : Checkout} {dirKind : Bool} {tree : FileTree Text} {path : List Text}
  {before after : ScanWalk} {linked : LinkedDir} {links : LinkWalk}

/-- Every directory that waits to be followed lies behind a link. -/
def Waiting (tree : FileTree Text) (state : ScanWalk) : Prop :=
  ∀ entry ∈ state.links.queue,
    entry.1.2 = joinSegments entry.2.1 ∧ entry.2.1 ≠ [] ∧ (∀ segment ∈ entry.2.1, IsSegment segment) ∧
      Through tree entry.2.1

theorem Through.more {names more : List Text} (through : Through tree names) : Through tree (names ++ more) := by
  obtain ⟨front, starts, found, looked, link⟩ := through
  exact ⟨front, starts.trans (prefix_append ..), found, looked, link⟩

theorem EntriesMay.good {entries : Forest Text} {names : List Text} (may : EntriesMay entries names) :
    names ≠ [] ∧ ∀ segment ∈ names, IsSegment segment := by
  obtain ⟨name, -, rest, rfl, segments⟩ := may
  exact ⟨cons_ne_nil _ _, segments⟩

/-- A directory behind a link is scanned under paths behind that link. -/
theorem step_recorded (waits : Waiting tree before) (popped : before.links.next checkout.disk = some (linked, links))
    (scanned : scanDir config checkout linked.path linked.canonical linked.state linked.hops
      (before.follow linked links) = .ok after) :
    Waiting tree after ∧ ∀ dirKind path, path ≠ [] → (∀ segment ∈ path, IsSegment segment) → ¬ Through tree path →
      (Recorded dirKind after (joinSegments path) ↔ Recorded dirKind before (joinSegments path)) := by
  obtain ⟨root, -, popped⟩ := Option.bind_eq_some_iff.mp popped
  obtain ⟨member, -, -, rest, inside, enters⟩ := nextFrom_eq_some popped
  obtain ⟨entries, -, adds⟩ := scanDir_adds scanned
  obtain ⟨named, some_, good, behind⟩ := waits _ member
  simp only at named some_ good behind
  constructor
  · intro entry queued
    rcases adds.queue entry queued with old | ⟨names, ⟨may, -⟩, relative, place⟩
    · obtain ⟨-, -, rfl⟩ := enter_eq_some.mp enters
      exact waits entry (inside old)
    · rw [relative, place]
      exact ⟨rfl, by simp [some_], forall_mem_append.mpr ⟨good, may.good.2⟩, behind.more⟩
  · intro dirKind path pathSome pathGood unlinked
    rw [recorded_iff adds]
    · have own : joinSegments path ≠ linked.relative := by
        rw [named]
        exact fun same => unlinked (joinSegments_inj pathGood good pathSome some_ same ▸ behind)
      obtain ⟨-, -, rfl⟩ := enter_eq_some.mp enters
      cases dirKind with
      | false => rfl
      | true => simp [Recorded, ScanWalk.follow, own]
    · intro names may same
      have whole := joinSegments_inj pathGood (forall_mem_append.mpr ⟨good, may.good.2⟩) pathSome
        (by simp [some_]) same
      exact unlinked (whole ▸ behind.more)

/-- Following links records no path that needs none. -/
theorem followLinks_recorded (waits : Waiting tree before) (followed : followLinks config checkout before = .ok after)
    (some_ : path ≠ []) (good : ∀ segment ∈ path, IsSegment segment) (unlinked : ¬ Through tree path) :
    Recorded dirKind after (joinSegments path) ↔ Recorded dirKind before (joinSegments path) := by
  induction before using followLinks.induct config checkout with
  | case1 state popped =>
    rw [followLinks] at followed
    split at followed
    · cases followed
      rfl
    · rename_i found
      rw [popped] at found
      cases found
  | case2 state linked links popped text scanned =>
    rw [followLinks] at followed
    split at followed
    · rename_i none_
      rw [popped] at none_
      cases none_
    · rename_i found
      rw [popped] at found
      cases found
      split at followed
      · cases followed
      · rename_i scanned'
        rw [scanned] at scanned'
        cases scanned'
  | case3 state linked links popped middle scanned ih =>
    rw [followLinks] at followed
    split at followed
    · rename_i none_
      rw [popped] at none_
      cases none_
    · rename_i found
      rw [popped] at found
      cases found
      split at followed
      · cases followed
      · rename_i scanned'
        rw [scanned] at scanned'
        cases scanned'
        obtain ⟨waitsMiddle, same⟩ := step_recorded waits popped scanned
        rw [ih waitsMiddle followed]
        exact same dirKind path some_ good unlinked

end Linked

section Agreement

variable {config : ScopeConfig} {checkout : Checkout} {dirKind : Bool} {path root : List Text} {state : ScanWalk}

/-- The directories that `.git` and the index roots resolve to. -/
def Checkout.blockedDirs (checkout : Checkout) : List (List Text) :=
  checkout.blocked.filterMap checkout.disk.canonicalize

theorem startWalk_links : (startWalk checkout).links.canonicalRoot = checkout.disk.canonicalize [] ∧
    (startWalk checkout).links.blocked = checkout.blockedDirs ∧ (startWalk checkout).links.queue = [] ∧
    ∀ pair ∈ (startWalk checkout).links.scanned, pair = ((checkout.disk.canonicalize []).getD [], []) := by
  rw [startWalk]
  simp only
  cases entered : (emptyWalk checkout).links.enter ((emptyWalk checkout).links.canonicalRoot.getD []) [] with
  | none => exact ⟨rfl, rfl, rfl, fun pair member => absurd member not_mem_nil⟩
  | some links =>
    obtain ⟨-, -, rfl⟩ := enter_eq_some.mp entered
    exact ⟨rfl, rfl, rfl, fun pair member => mem_singleton.mp member⟩

/-- A scan that ends well records a path without links when the rules let it, and no directory on it is blocked. -/
theorem scanWalk_recorded (walked : scanWalk config checkout = .ok state) :
    ∃ root entries, checkout.disk.canonicalize [] = some root ∧
      checkout.disk.root.at root = some (.directory true entries) ∧
      ∀ dirKind path, path ≠ [] → (∀ segment ∈ path, IsSegment segment) → ¬ Through (.directory true entries) path →
        (Recorded dirKind state (joinSegments path) ↔
          passes config checkout
            (fun canonical => checkout.blockedDirs.any fun blocked => Decidable.decide (blocked <+: canonical))
            dirKind entries [] root .root path = true) := by
  obtain ⟨rootEq, blockedEq, queueEq, scannedEq⟩ := @startWalk_links checkout
  rw [scanWalk] at walked
  cases first : scanDir config checkout [] ((startWalk checkout).links.canonicalRoot.getD []) .root 0
    (startWalk checkout) with
  | error text =>
    rw [first] at walked
    cases walked
  | ok middle =>
    rw [first] at walked
    rw [scanDir] at first
    split at first
    · cases first
    · rename_i entries read
      obtain ⟨root, rooted, isDir⟩ := readDir_eq_some read
      rw [rootEq, rooted, Option.getD_some] at first
      rw [rooted, Option.getD_some] at scannedEq
      have formed := readDir_formed read
      have adds := scanEntries_adds formed first
      refine ⟨root, entries, rooted, isDir, fun dirKind path some_ good unlinked => ?_⟩
      have waits : Waiting (.directory true entries) middle := by
        intro entry queued
        rcases adds.queue entry queued with old | ⟨names, ⟨may, through⟩, relative, place⟩
        · rw [queueEq] at old
          cases old
        · rw [relative, place, nil_append]
          exact ⟨rfl, may.good.1, may.good.2, through⟩
      obtain ⟨head, names, rfl⟩ := exists_cons_of_ne_nil some_
      have fresh : Fresh root entries.names (startWalk checkout) := by
        intro name _ below inside
        obtain ⟨pair, member, same⟩ := mem_map.mp inside
        rw [scannedEq pair member] at same
        exact absurd (congrArg length same) (by simp)
      have blank : ¬ Recorded dirKind (startWalk checkout) (joinSegments (head :: names)) := by
        cases dirKind with
        | false => exact not_mem_nil
        | true =>
          rintro ⟨canonical, member⟩
          have empty : joinSegments (head :: names) = [] := congrArg Prod.snd (scannedEq _ member)
          have parts := segments_joinSegments (cons_ne_nil head names) fun segment inside =>
            (good segment inside).2.1
          rw [empty] at parts
          obtain ⟨rfl, -⟩ := cons.inj parts
          exact (good [] mem_cons_self).1 rfl
      have recorded :=
        @scanEntries_recorded config checkout dirKind entries [] root head names .root 0 _ _ formed first
        (fun segment member => absurd member not_mem_nil) good fresh unlinked
      rw [nil_append] at recorded
      rw [followLinks_recorded waits walked some_ good unlinked, recorded, or_iff_right blank]
      have same : (startWalk checkout).links.isBlocked =
          fun canonical => checkout.blockedDirs.any fun blocked => Decidable.decide (blocked <+: canonical) := by
        funext canonical
        rw [LinkWalk.isBlocked, blockedEq]
      rw [same]

theorem scanMembership_join (some_ : path ≠ []) (good : ∀ segment ∈ path, IsSegment segment) :
    scanMembership config checkout.project (joinSegments path) dirKind =
      membershipFrom config checkout.project dirKind [] .root path := by
  have components : (joinSegments path).segments.filter (· ≠ []) = path := by
    rw [segments_joinSegments some_ fun segment member => (good segment member).2.1, filter_eq_self]
    intro segment member
    simpa using (good segment member).1
  rw [scanMembership, components, if_neg]
  rintro (empty | dot | dots)
  · exact some_ empty
  · exact (good _ dot).2.2.1 rfl
  · exact (good _ dots).2.2.2 rfl

/-- No component of a path is a link. -/
def LinkFree (checkout : Checkout) (path : List Text) : Prop :=
  path ≠ [] ∧ (∀ segment ∈ path, IsSegment segment) ∧
    ∀ visit ∈ walk [] path, checkout.project.tree (visited visit) ≠ .symlink

/-- The check of each path without links is what a scan did with it. -/
def MembershipAgrees (config : ScopeConfig) (checkout : Checkout) (state : ScanWalk) : Prop :=
  ∀ path, LinkFree checkout path →
    (scanMembership config checkout.project (joinSegments path) false = .admitted ↔
      joinSegments path ∈ state.finish.files) ∧
    (scanMembership config checkout.project (joinSegments path) true = .admitted ↔
      ∃ canonical, (canonical, joinSegments path) ∈ state.links.scanned)

/-- A real directory that the rules let a scan enter, with all directories above it. -/
def EnteredByRules (config : ScopeConfig) (checkout : Checkout) (dirs : List Text) : Prop :=
  dirs ≠ [] ∧ (∀ segment ∈ dirs, IsSegment segment) ∧
    ∀ visit ∈ walk [] dirs, checkout.project.tree (visited visit) = .directory ∧
      entersDirectory config checkout.project visit

/-- The check of single paths agrees with the scan exactly when no directory that the rules enter lies in what `.git`
or an index root resolves to. -/
theorem scan_membership_agrees (config : ScopeConfig) (checkout : Checkout) (state : ScanWalk)
    (walked : scanWalk config checkout = .ok state) : MembershipAgrees config checkout state ↔
      ∀ dirs, EnteredByRules config checkout dirs → ∀ canonical, checkout.disk.canonicalize dirs = some canonical →
        ∀ blocked ∈ checkout.blockedDirs, ¬ blocked <+: canonical := by
  obtain ⟨root, entries, rooted, isDir, recorded⟩ := scanWalk_recorded walked
  have files {relative : Text} : relative ∈ state.finish.files ↔ Recorded false state relative := mem_mergeSort
  have judged (next : Text) (nextFree : '/' ∉ next) : .root =
    checkout.project.gitignore.above (joinSegments ([] ++ [next])) :=
    (above_first checkout.project.gitignore nextFree).symm
  have admitted {dirKind : Bool} {path : List Text} (linkFree : LinkFree checkout path) :
      scanMembership config checkout.project (joinSegments path) dirKind = .admitted ↔
        passes config checkout (fun _ => false) dirKind entries [] root .root path = true := by
    have unlinked := unlinked_of_kinds rooted isDir linkFree.2.1 linkFree.2.2
    have sees := sees_of_unlinked rooted isDir linkFree.2.1 unlinked
    rw [scanMembership_join linkFree.1 linkFree.2.1, membershipFrom_iff sees unlinked, or_iff_right linkFree.1]
  constructor
  · intro agrees dirs entered canonical resolved blocked member inside
    have linkFree : LinkFree checkout dirs := by
      refine ⟨entered.1, entered.2.1, fun visit visited => ?_⟩
      rw [(entered.2.2 visit visited).1]
      decide
    have unlinked := unlinked_of_kinds rooted isDir linkFree.2.1 linkFree.2.2
    have sees := sees_of_unlinked rooted isDir linkFree.2.1 unlinked
    have free : ∀ segment ∈ dirs, '/' ∉ segment := fun segment within => (linkFree.2.1 segment within).2.1
    have allowed := (admitted linkFree).mpr ((passes_walk sees free judged).mpr entered.2.2)
    have reached := (recorded true dirs linkFree.1 linkFree.2.1 unlinked).mp ((agrees dirs linkFree).2.mp allowed)
    have open_ := (passes_iff.mp reached).2 dirs ⟨linkFree.1, prefix_rfl, fun _ => rfl⟩
    rw [canonicalize_eq rooted isDir unlinked] at resolved
    split at resolved
    · cases resolved
      simp only [any_eq_false, decide_eq_true_eq] at open_
      exact open_ blocked member inside
    · cases resolved
  · intro free path linkFree
    have unlinked := unlinked_of_kinds rooted isDir linkFree.2.1 linkFree.2.2
    have sees := sees_of_unlinked rooted isDir linkFree.2.1 unlinked
    have same (dirKind : Bool) : scanMembership config checkout.project (joinSegments path) dirKind = .admitted ↔
        Recorded dirKind state (joinSegments path) := by
      rw [admitted linkFree, recorded dirKind path linkFree.1 linkFree.2.1 unlinked]
      refine ⟨fun reached => passes_iff.mpr ⟨reached, fun front onPath => ?_⟩, fun reached => (passes_iff.mp reached).1⟩
      have frontGood : ∀ segment ∈ front, IsSegment segment :=
        fun segment member => linkFree.2.1 segment (onPath.2.1.subset member)
      have frontSees : Sees checkout (.directory true entries) [] front :=
        fun above some_ starts => sees above some_ (starts.trans onPath.2.1)
      have frontUnlinked : ¬ Through (.directory true entries) front := by
        rintro ⟨above, starts, found, looked, link⟩
        exact unlinked ⟨above, starts.trans onPath.2.1, found, looked, link⟩
      have entered : EnteredByRules config checkout front :=
        ⟨onPath.1, frontGood, (passes_walk frontSees (fun segment member => (frontGood segment member).2.1) judged).mp
          (passes_onPath reached onPath)⟩
      have there : ((FileTree.directory true entries).at front).isSome := by
        obtain ⟨visit, member, whole⟩ := prefix_walk onPath.1 (prefix_rfl (l := front))
        have kind := (entered.2.2 visit member).1
        rw [visited, whole] at kind
        have seen := frontSees front onPath.1 prefix_rfl
        rw [nil_append, kind] at seen
        cases found : (FileTree.directory true entries).at front with
        | none => simp [found, kindOf] at seen
        | some tree => rfl
      have place : checkout.disk.canonicalize front = some (root ++ front) := by
        rw [canonicalize_eq rooted isDir frontUnlinked, if_pos there]
      simp only [any_eq_false, decide_eq_true_eq]
      exact free front entered _ place
    exact ⟨(same false).trans files.symm, same true⟩

/-- A project at `/p` that git ignores nothing of, without a configured index root. -/
def plainCheckout (entries : Forest Text) (formed : entries.WellFormed IsSegment) : Checkout where
  disk :=
    { root := .directory true (.cons "p".toList (.directory true entries) .nil)
      formed := ⟨by decide, List.not_mem_nil, formed, trivial⟩
      followLimit := 40
      project := [.into "p".toList] }
  gitignore := ⟨fun _ _ => none⟩
  indexRoot := none
  extractable relative := relative.endsWith ".rs".toList

def plainConfig : ScopeConfig := ⟨[], [], [], []⟩

/-- One source file in a directory. -/
def oneSource : Checkout :=
  plainCheckout (.cons "store".toList (.directory true (.cons "a.rs".toList .file .nil)) .nil)
    ⟨by decide, List.not_mem_nil, ⟨by decide, List.not_mem_nil, trivial, trivial⟩, trivial⟩

/-- The same file, where `.git` is a link to its directory. -/
def linkedGit : Checkout :=
  plainCheckout
    (.cons ".git".toList (.symlink false [.into "store".toList])
      (.cons "store".toList (.directory true (.cons "a.rs".toList .file .nil)) .nil))
    ⟨by decide, by decide, trivial, by decide, List.not_mem_nil,
      ⟨by decide, List.not_mem_nil, trivial, trivial⟩, trivial⟩

/-- A walk that waits for no link is done. -/
theorem followLinks_done (idle : state.links.queue = []) : followLinks config checkout state = .ok state := by
  rw [followLinks]
  split
  · rfl
  · rename_i popped
    obtain ⟨root, -, found⟩ := Option.bind_eq_some_iff.mp popped
    rw [idle] at found
    cases found

theorem blocked_plain (entries : Forest Text) (formed : entries.WellFormed IsSegment) :
    (plainCheckout entries formed).blocked = [[".git".toList], [".codegraph".toList]] := by
  show [[".git".toList], Text.segments ".codegraph".toList] = _
  decide

theorem start_oneSource :
    startWalk oneSource = ⟨⟨some ["p".toList], [], [(["p".toList], [])], []⟩, [], [], [], [], []⟩ := by
  have blocked : oneSource.blocked = [[".git".toList], [".codegraph".toList]] := blocked_plain ..
  simp only [startWalk, emptyWalk, LinkWalk.new, blocked]
  simp [oneSource, plainCheckout, Disk.canonicalize, FileTree.resolve, FileTree.at, Forest.find?, LinkWalk.enter,
    LinkWalk.isBlocked]

theorem start_linkedGit : startWalk linkedGit =
      ⟨⟨some ["p".toList], [["p".toList, "store".toList]], [(["p".toList], [])], []⟩, [], [], [], [], []⟩ := by
  have blocked : linkedGit.blocked = [[".git".toList], [".codegraph".toList]] := blocked_plain ..
  simp only [startWalk, emptyWalk, LinkWalk.new, blocked]
  simp [linkedGit, plainCheckout, Disk.canonicalize, FileTree.resolve, FileTree.at, Forest.find?, LinkWalk.enter,
    LinkWalk.isBlocked]

/-- A scan whose root holds no link to follow ends with what its walk of the real tree recorded. -/
theorem scanWalk_idle {entries : Forest Text} {start : ScanWalk} (started : startWalk checkout = start)
    (read : checkout.disk.readDir [] = some entries)
    (walked : scanEntries config checkout entries [] (start.links.canonicalRoot.getD []) .root 0 start = .ok state)
    (idle : state.links.queue = []) : scanWalk config checkout = .ok state := by
  rw [scanWalk, started, scanDir, read]
  simp only [walked]
  exact followLinks_done idle

/-- A checkout with one source file. -/
theorem scan_membership_agrees_oneSource :
    ∃ state, scanWalk plainConfig oneSource = .ok state ∧ MembershipAgrees plainConfig oneSource state := by
  have read : oneSource.disk.readDir [] =
    some (.cons "store".toList (.directory true (.cons "a.rs".toList .file .nil)) .nil) := by
    simp [oneSource, plainCheckout, Disk.readDir, Disk.metadata, Disk.canonicalize, FileTree.resolve, FileTree.at,
      Forest.find?]
  have walked : scanWalk plainConfig oneSource = .ok _ := scanWalk_idle start_oneSource read rfl rfl
  refine ⟨_, walked,
    (scan_membership_agrees plainConfig oneSource _ walked).mpr fun dirs _ canonical _ blocked member => ?_⟩
  rw [← startWalk_links.2.1, start_oneSource] at member
  cases member

/-- The directory that `.git` links to is admitted by the check, and the scan never enters it. -/
theorem linked_git_is_not_scanned :
    ∃ state, scanWalk plainConfig linkedGit = .ok state ∧ ¬ MembershipAgrees plainConfig linkedGit state := by
  have rooted : linkedGit.disk.canonicalize [] = some ["p".toList] := by
    simp [linkedGit, plainCheckout, Disk.canonicalize, FileTree.resolve, FileTree.at, Forest.find?]
  have read : linkedGit.disk.readDir [] = some
      (.cons ".git".toList (.symlink false [.into "store".toList])
        (.cons "store".toList (.directory true (.cons "a.rs".toList .file .nil)) .nil)) := by
    simp [linkedGit, plainCheckout, Disk.readDir, Disk.metadata, Disk.canonicalize, FileTree.resolve, FileTree.at,
      Forest.find?]
  have walked : scanWalk plainConfig linkedGit = .ok _ := scanWalk_idle start_linkedGit read rfl rfl
  refine ⟨_, walked, fun agrees => ?_⟩
  have directory : linkedGit.project.tree "store".toList = .directory := by
    have kind : linkedGit.project.tree (joinSegments ["store".toList]) = _ :=
      tree_join rooted rfl (cons_ne_nil _ _) (by decide)
      fun above some_ starts => absurd (prefix_nil.mp starts) some_
    exact kind
  have linkFree : LinkFree linkedGit ["store".toList] := by
    refine ⟨cons_ne_nil _ _, by decide, fun visit member => ?_⟩
    rw [mem_singleton.mp member]
    exact fun link => absurd (directory.symm.trans link) (by decide)
  have admitted : scanMembership plainConfig linkedGit.project (joinSegments ["store".toList]) true = .admitted := by
    rw [scanMembership_join linkFree.1 linkFree.2.1]
    simp only [membershipFrom]
    rw [show joinSegments ([] ++ ["store".toList]) = "store".toList from rfl, directory]
    rfl
  obtain ⟨canonical, member⟩ := (agrees _ linkFree).2.mp admitted
  cases mem_singleton.mp member

end Agreement

end Codegraph.Watch.Scope.Scan
