import Mathlib.Data.List.Infix

/- This file gives trees of directories with symbolic links, and how a path through them is resolved. -/

namespace FileTrees
open List

/-- A link goes up, or into an entry by its name. -/
inductive Step (ν : Type) where
  | up
  | into (name : ν)
  deriving DecidableEq

mutual

/-- What an entry of a directory is. A directory that cannot be read still has its entries. -/
inductive FileTree (ν : Type) where
  | file
  | directory (readable : Bool) (entries : Forest ν)
  | symlink (absolute : Bool) (target : List (Step ν))
  | other

/-- The entries of a directory, in the order in which they are read. -/
inductive Forest (ν : Type) where
  | nil
  | cons (name : ν) (tree : FileTree ν) (rest : Forest ν)

end

variable {ν : Type}

def Forest.names : Forest ν → List ν
  | .nil => []
  | .cons name _ rest => name :: rest.names

mutual

/-- All names are good, and no directory has two entries of one name. -/
def FileTree.WellFormed (good : ν → Prop) : FileTree ν → Prop
  | .directory _ entries => entries.WellFormed good
  | _ => True

def Forest.WellFormed (good : ν → Prop) : Forest ν → Prop
  | .nil => True
  | .cons name tree rest => good name ∧ name ∉ rest.names ∧ tree.WellFormed good ∧ rest.WellFormed good

end

mutual

/-- The paths of all directories, from the tree down. -/
def FileTree.directories : FileTree ν → List (List ν)
  | .directory _ entries => [] :: entries.directories
  | _ => []

def Forest.directories : Forest ν → List (List ν)
  | .nil => []
  | .cons name tree rest => tree.directories.map (name :: ·) ++ rest.directories

end

def FileTree.isSymlink : FileTree ν → Bool
  | .symlink .. => true
  | _ => false

section Lookups

variable [DecidableEq ν]

def Forest.find? (name : ν) : Forest ν → Option (FileTree ν)
  | .nil => none
  | .cons first tree rest => if first = name then some tree else rest.find? name

/-- What lies at a path that follows no link. -/
def FileTree.at : FileTree ν → List ν → Option (FileTree ν)
  | tree, [] => some tree
  | .directory _ entries, name :: rest => (entries.find? name).bind fun tree => tree.at rest
  | _, _ :: _ => none

/-- The path that a path leads to, when it follows links as often as it may. -/
def FileTree.resolve (tree : FileTree ν) (limit : Nat) (place : List ν) : List (Step ν) → Option (List ν)
  | [] => some place
  | .up :: rest => tree.resolve limit place.dropLast rest
  | .into name :: rest =>
    match tree.at (place ++ [name]) with
    | none => none
    | some (.symlink absolute target) =>
      match limit with
      | 0 => none
      | limit + 1 => tree.resolve limit (if absolute then [] else place) (target ++ rest)
    | some (.directory ..) => tree.resolve limit (place ++ [name]) rest
    | some _ => if rest = [] then some (place ++ [name]) else none
termination_by steps => (limit, steps.length)

variable {good : ν → Prop} {tree found : FileTree ν} {entries : Forest ν} {name : ν} {path place rest : List ν}
  {limit : Nat} {readable : Bool}

theorem FileTree.at_append (first second : List ν) :
    tree.at (first ++ second) = (tree.at first).bind fun found => found.at second := by
  induction first generalizing tree with
  | nil => simp [FileTree.at]
  | cons name rest ih =>
    cases tree with
    | directory readable entries =>
      rw [cons_append, FileTree.at, FileTree.at]
      cases entries.find? name with
      | none => rfl
      | some tree => exact ih
    | _ => rfl

theorem Forest.WellFormed.find? (formed : entries.WellFormed good) (looked : entries.find? name = some found) :
    found.WellFormed good := by
  induction entries using Forest.rec (motive_1 := fun _ => True) with
  | nil => cases looked
  | cons first tree rest _ ih =>
    rw [Forest.WellFormed] at formed
    rw [Forest.find?] at looked
    split at looked
    · cases looked
      exact formed.2.2.1
    · exact ih formed.2.2.2 looked
  | _ => trivial

theorem FileTree.WellFormed.at (formed : tree.WellFormed good) (looked : tree.at path = some found) :
    found.WellFormed good := by
  induction path generalizing tree with
  | nil =>
    cases looked
    exact formed
  | cons name rest ih =>
    cases tree with
    | directory readable entries =>
      rw [FileTree.at] at looked
      obtain ⟨next, named, below⟩ := Option.bind_eq_some_iff.mp looked
      rw [FileTree.WellFormed] at formed
      exact ih (formed.find? named) below
    | _ => cases looked

/-- A path of a directory is listed among the directories. -/
theorem FileTree.mem_directories (looked : tree.at path = some (.directory readable entries)) :
    path ∈ tree.directories := by
  have named {forest : Forest ν} {name : ν} {tree : FileTree ν} {rest : List ν} (looked : forest.find? name = some tree)
      (inside : rest ∈ tree.directories) : name :: rest ∈ forest.directories := by
    induction forest using Forest.rec (motive_1 := fun _ => True) with
    | nil => cases looked
    | cons first next later _ ih =>
      rw [Forest.find?] at looked
      rw [Forest.directories, mem_append]
      split at looked
      · rename_i same
        cases looked
        exact .inl (mem_map.mpr ⟨rest, inside, by rw [same]⟩)
      · exact .inr (ih looked)
    | _ => trivial
  induction path generalizing tree with
  | nil =>
    cases looked
    rw [FileTree.directories]
    exact mem_cons_self ..
  | cons name rest ih =>
    cases tree with
    | directory outer forest =>
      rw [FileTree.at] at looked
      obtain ⟨next, found, below⟩ := Option.bind_eq_some_iff.mp looked
      rw [FileTree.directories]
      exact mem_cons_of_mem _ (named found (ih below))
    | _ => cases looked

/-- A path behind one that leads to a directory goes on from there. -/
theorem FileTree.resolve_append {steps : List (Step ν)} (looked : tree.at place = some (.directory readable entries))
    {start : List ν} (resolved : tree.resolve limit start steps = some place) :
    ∃ left, ∀ more, tree.resolve limit start (steps ++ more) = tree.resolve left place more := by
  induction limit, start, steps using FileTree.resolve.induct tree with
  | case1 limit start =>
    rw [FileTree.resolve] at resolved
    cases resolved
    exact ⟨limit, fun more => rfl⟩
  | case2 limit start rest ih =>
    rw [FileTree.resolve] at resolved
    obtain ⟨left, same⟩ := ih resolved
    refine ⟨left, fun more => ?_⟩
    rw [cons_append, FileTree.resolve]
    exact same more
  | case3 limit start name rest missing =>
    rw [FileTree.resolve, missing] at resolved
    cases resolved
  | case4 start name rest absolute target link =>
    rw [FileTree.resolve, link] at resolved
    cases resolved
  | case5 start name rest absolute target link limit ih =>
    rw [FileTree.resolve, link] at resolved
    obtain ⟨left, same⟩ := ih resolved
    refine ⟨left, fun more => ?_⟩
    rw [cons_append, FileTree.resolve, link]
    show tree.resolve limit _ (target ++ (rest ++ more)) = _
    rw [← append_assoc]
    exact same more
  | case6 limit start name rest outer inner inside ih =>
    rw [FileTree.resolve, inside] at resolved
    obtain ⟨left, same⟩ := ih resolved
    refine ⟨left, fun more => ?_⟩
    rw [cons_append, FileTree.resolve, inside]
    exact same more
  | case7 limit start name found notLink notDirectory inside =>
    rw [FileTree.resolve.eq_def] at resolved
    cases found with
    | file =>
      simp only [inside, if_true, Option.some.injEq] at resolved
      rw [← resolved, inside] at looked
      cases looked
    | other =>
      simp only [inside, if_true, Option.some.injEq] at resolved
      rw [← resolved, inside] at looked
      cases looked
    | symlink absolute target => exact (notLink absolute target rfl).elim
    | directory outer inner => exact (notDirectory outer inner rfl).elim
  | case8 limit start name rest found notLink notDirectory inside more =>
    rw [FileTree.resolve.eq_def] at resolved
    cases found with
    | file => simp [inside, more] at resolved
    | other => simp [inside, more] at resolved
    | symlink absolute target => exact (notLink absolute target rfl).elim
    | directory outer inner => exact (notDirectory outer inner rfl).elim

/-- A path of names that meets no link leads where it says, or nowhere. -/
theorem FileTree.resolve_names (looked : tree.at place = some (.directory readable entries))
    (unlinked : ∀ front, front ≠ [] → front <+: path → ∀ found, tree.at (place ++ front) = some found →
      found.isSymlink = false) :
    tree.resolve limit place (path.map .into) = if (tree.at (place ++ path)).isSome then some (place ++ path)
      else none := by
  induction path generalizing place readable entries with
  | nil => simp [FileTree.resolve, looked]
  | cons name rest ih =>
    have below : tree.at (place ++ name :: rest) = (tree.at (place ++ [name])).bind fun found => found.at rest := by
      rw [← FileTree.at_append, append_assoc, singleton_append]
    have first := unlinked [name] (cons_ne_nil _ _) ⟨rest, rfl⟩
    rw [map_cons, FileTree.resolve.eq_def, below]
    cases found : tree.at (place ++ [name]) with
    | none => simp [found]
    | some next =>
      cases next with
      | symlink absolute target => exact absurd (first _ found) (by simp [FileTree.isSymlink])
      | directory inner forest =>
        have later := @ih _ _ _ found ?_
        · rw [append_assoc, singleton_append, below, found] at later
          simp only [found]
          exact later
        · intro front some_ starts next looked
          refine unlinked (name :: front) (cons_ne_nil _ _) (cons_prefix_cons.mpr ⟨rfl, starts⟩) next ?_
          simpa using looked
      | file => cases rest <;> simp [FileTree.at, found]
      | other => cases rest <;> simp [FileTree.at, found]

end Lookups

end FileTrees
