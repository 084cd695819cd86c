import Codegraph.Watch.Scope
import Codegraph.Library.Worklists
import Mathlib.Data.List.Sort
import Mathlib.Data.Char
import Mathlib.Data.List.Lex

/- This file models the directives of Dart files, the filters of their combinators, and the libraries that files make
up. -/

namespace Codegraph.Dart
open List

open Watch.Scope (Text)

/-- The names that the `show` and `hide` combinators of a directive let through. An empty `hide` is never kept. -/
structure NameFilter where
  show_ : Option (Finset Text)
  hide : Option (Finset Text)
  hides : hide ≠ some ∅
  deriving DecidableEq

namespace NameFilter

/-- The filter that lets every name through. -/
def every : NameFilter := ⟨none, none, by simp⟩

/-- An empty `hide` hides nothing. -/
def new (show_ hide : Option (Finset Text)) : NameFilter :=
  ⟨show_, hide.filter fun names => names ≠ ∅, by simp [Option.filter_eq_some_iff]⟩

def isEvery (filter : NameFilter) : Bool := filter.show_.isNone && filter.hide.isNone

/-- A name gets through when both filters let it. -/
def andThen (filter next : NameFilter) : NameFilter :=
  if filter.isEvery then next
  else if next.isEvery then filter
  else
    let show_ := match filter.show_, next.show_ with
      | some first, some second => some (first ∩ second)
      | first, second => first.or second
    let hide := match filter.hide, next.hide with
      | some first, some second => some (first ∪ second)
      | first, second => first.or second
    new show_ hide

def lets (filter : NameFilter) (name : Text) : Bool :=
  filter.show_.all (name ∈ ·) && filter.hide.all (name ∉ ·)

variable {filter next : NameFilter} {name : Text}

theorem isEvery_iff : filter.isEvery ↔ filter = every := by
  obtain ⟨show_, hide, hides⟩ := filter
  simp [isEvery, every]

@[simp] theorem every_andThen : every.andThen next = next := rfl

@[simp] theorem andThen_every : filter.andThen every = filter := by
  unfold andThen
  split
  · rename_i first
    exact (isEvery_iff.mp first).symm
  · rfl

@[simp] theorem lets_every : every.lets name = true := rfl

theorem lets_new {show_ hide : Option (Finset Text)} :
    (new show_ hide).lets name = (show_.all (name ∈ ·) && hide.all (name ∉ ·)) := by
  cases hide with
  | none => rfl
  | some names =>
    by_cases none : names = ∅
    · simp [new, lets, none]
    · simp [new, lets, none, Option.filter]

/-- A composed filter lets through what both of its parts do. -/
theorem lets_andThen : (filter.andThen next).lets name = (filter.lets name && next.lets name) := by
  unfold andThen
  split
  · rename_i first
    rw [isEvery_iff.mp first, lets_every, Bool.true_and]
  · split
    · rename_i second
      rw [isEvery_iff.mp second, lets_every, Bool.and_true]
    · obtain ⟨show_, hide, -⟩ := filter
      obtain ⟨show', hide', -⟩ := next
      rw [lets_new]
      cases show_ <;> cases show' <;> cases hide <;> cases hide' <;>
        simp [lets, Bool.and_assoc, Bool.and_comm, Bool.and_left_comm]

/-- A composed filter is the one that lets every name through when both of its parts are. -/
theorem andThen_eq_every : filter.andThen next = every ↔ filter = every ∧ next = every := by
  constructor
  · intro composed
    by_cases first : filter = every
    · rw [first, every_andThen] at composed
      exact ⟨first, composed⟩
    · by_cases second : next = every
      · rw [second, andThen_every] at composed
        exact ⟨composed, second⟩
      · exfalso
        rw [andThen, if_neg (mt isEvery_iff.mp first), if_neg (mt isEvery_iff.mp second)] at composed
        obtain ⟨show_, hide, hides⟩ := filter
        obtain ⟨show', hide', hides'⟩ := next
        simp only [new, every, mk.injEq] at composed first second
        obtain ⟨shown, hidden⟩ := composed
        cases show_ <;> cases show' <;> cases hide <;> cases hide' <;> simp_all [Option.filter]
  · rintro ⟨rfl, rfl⟩
    rfl

end NameFilter

/-- An `import` or `export` directive with its conditional alternatives. -/
structure NamespaceDirective where
  uris : List Text
  asPrefix : Option Text
  filter : NameFilter

/-- A `part of` names a file by URI or a library by name. -/
inductive PartOf where
  | uri (text : Text)
  | name (text : Text)

structure DartDirectives where
  libraryName : Option Text
  partOf : Option PartOf
  parts : List Text
  imports : List NamespaceDirective
  exports : List NamespaceDirective

abbrev File := Text

/-- One state of the Dart files of a project: what each indexed file's head holds, which files a URI written in a file
names, and whether a package lies around a file. -/
structure Project where
  indexed : List File
  dartFiles : List File
  directivesOf : File → Option DartDirectives
  resolveDartUri : File → Text → List File
  inPackage : File → Bool
  known : ∀ file, (directivesOf file).isSome → file ∈ indexed

namespace Project

variable (project : Project)

/-- The files that declare a library of the name. -/
def libraryFilesNamed (name : Text) : List File :=
  project.dartFiles.filter fun file => match project.directivesOf file with
    | some directives => directives.libraryName = some name && name ≠ []
    | none => false

def lists (candidate file : File) : Bool :=
  match project.directivesOf candidate with
  | some directives => directives.parts.any fun uri => (project.resolveDartUri candidate uri).any (· = file)
  | none => false

/-- The file that a part's `part of` names. Among several candidates it is the only one that lists the part. -/
def partParent (file : File) (partOf : PartOf) : Option File :=
  let candidates := match partOf with
    | .uri uri => (project.resolveDartUri file uri).filter fun candidate => (project.directivesOf candidate).isSome
    | .name name => project.libraryFilesNamed name
  if candidates.length ≤ 1 then candidates.head?
  else match candidates.filter (project.lists · file) with
    | [parent] => some parent
    | _ => none

def parent (file : File) : Option File :=
  (project.directivesOf file).bind fun directives => directives.partOf.bind (project.partParent file)

def isLibrary (file : File) : Bool :=
  match project.directivesOf file with
  | some directives => directives.partOf.isNone
  | none => false

end Project

/-- What an instance recorded of the libraries and the parents of files. -/
structure LibraryMemo where
  library : File → Option (Option File)
  parent : File → Option File

def LibraryMemo.fresh : LibraryMemo := ⟨fun _ => none, fun _ => none⟩

namespace Project

variable (project : Project)

/-- The `part of` chain is followed to a recorded file, to a library, to its end or into a cycle. -/
def walkToLibrary (memo : LibraryMemo) :
    Nat → List File → (File → Option File) → File → Option File × List File × (File → Option File)
  | 0, path, parents, _ => (none, path, parents)
  | fuel + 1, path, parents, current =>
    match memo.library current with
    | some hit => (hit, path, parents)
    | none =>
      if current ∈ path then (none, path, parents)
      else match project.directivesOf current with
        | none => (none, current :: path, parents)
        | some directives => match directives.partOf with
          | none => (some current, current :: path, parents)
          | some partOf => match project.partParent current partOf with
            | none => (none, current :: path, parents)
            | some parent =>
              walkToLibrary memo fuel (current :: path) (Function.update parents current (some parent)) parent

/-- The library of a file, recorded for every file on the way. -/
def libraryOfMemo (memo : LibraryMemo) (file : File) : Option File × LibraryMemo :=
  let (library, walked, parents) := project.walkToLibrary memo (project.indexed.length + 1) [] memo.parent file
  (library, ⟨fun other => if other ∈ walked then some library else memo.library other, parents⟩)

/-- The library of a file, as a fresh instance finds it. -/
def libraryOf (file : File) : Option File := (project.libraryOfMemo .fresh file).1

/-- The files of a library are those that its parts lead to, the file limit aside. -/
def membersFrom : Nat → List File → List File → List File
  | 0, _, files => files
  | fuel + 1, queue, files =>
    if 1000 ≤ files.length then files
    else match queue with
      | [] => files
      | file :: rest => match project.directivesOf file with
        | none => membersFrom fuel rest files
        | some directives =>
          let fresh := ((directives.parts.flatMap (project.resolveDartUri file)).filter (· ∉ files)).eraseDups
          membersFrom fuel (rest ++ fresh) (files ++ fresh)

/-- The library and its parts, theirs included, in the order of their paths. -/
def membersOf (library : File) : List File := (project.membersFrom 1000 [library] [library]).insertionSort (· ≤ ·)

end Project

section LibraryMemo

variable {project : Project} {memo : LibraryMemo} {file current other parent library : File} {path walked : List File}

abbrev Project.Parent (project : Project) (file parent : File) : Prop := project.parent file = some parent

/-- A file belongs to the library at the end of its `part of` chain. -/
def Project.BelongsTo (project : Project) (file library : File) : Prop :=
  Relation.ReflTransGen project.Parent file library ∧ project.isLibrary library

theorem parent_of_isLibrary (isLibrary : project.isLibrary file) : project.parent file = none := by
  unfold Project.isLibrary at isLibrary
  split at isLibrary
  · rename_i directives found
    rw [Project.parent, found, Option.bind_some, Option.isNone_iff_eq_none.mp isLibrary, Option.bind_none]
  · cases isLibrary

/-- A file that has a parent belongs to the library of its parent. -/
theorem belongsTo_of_parent (step : project.parent file = some parent) :
    project.BelongsTo file library ↔ project.BelongsTo parent library := by
  constructor
  · rintro ⟨chain, isLibrary⟩
    rcases chain.cases_head with rfl | ⟨next, first, rest⟩
    · cases step.symm.trans (parent_of_isLibrary isLibrary)
    · obtain rfl := Option.some.inj (step.symm.trans first)
      exact ⟨rest, isLibrary⟩
  · rintro ⟨chain, isLibrary⟩
    exact ⟨chain.head step, isLibrary⟩

theorem belongsTo_of_no_parent (none : project.parent file = none) :
    project.BelongsTo file library ↔ library = file ∧ project.isLibrary file := by
  constructor
  · rintro ⟨chain, isLibrary⟩
    rcases chain.cases_head with rfl | ⟨next, first, -⟩
    · exact ⟨rfl, isLibrary⟩
    · cases none.symm.trans first
  · rintro ⟨rfl, isLibrary⟩
    exact ⟨.refl, isLibrary⟩

/-- A file on a cycle of parts belongs to no library. -/
theorem not_belongsTo_of_cycle (cycle : Relation.TransGen project.Parent file file) :
    ¬ project.BelongsTo file library := by
  rintro ⟨chain, isLibrary⟩
  induction chain using Relation.ReflTransGen.head_induction_on with
  | refl =>
    obtain ⟨next, first, -⟩ := Relation.TransGen.head'_iff.mp cycle
    cases (parent_of_isLibrary isLibrary).symm.trans first
  | @head file next first _ ih =>
    obtain ⟨second, taken, back⟩ := Relation.TransGen.head'_iff.mp cycle
    obtain rfl := Option.some.inj (first.symm.trans taken)
    exact ih (.tail' back first)

theorem belongsTo_of_chain (chain : Relation.TransGen project.Parent file current) :
    project.BelongsTo file library ↔ project.BelongsTo current library := by
  induction chain with
  | single step => exact belongsTo_of_parent step
  | tail _ step ih => exact ih.trans (belongsTo_of_parent step)

/-- What an instance has recorded is the library and the parent of a file, for every file above it as well. -/
structure LibraryMemo.Sound (project : Project) (memo : LibraryMemo) : Prop where
  library : ∀ file found, memo.library file = some found → ∀ library, found = some library ↔
    project.BelongsTo file library
  parent : ∀ file, memo.parent file = if (memo.library file).isSome then project.parent file else none
  closed : ∀ file parent, (memo.library file).isSome → project.parent file = some parent → (memo.library parent).isSome

theorem LibraryMemo.sound_fresh : LibraryMemo.fresh.Sound project := by
  refine ⟨?_, fun _ => rfl, ?_⟩
  · intro file found recorded
    cases recorded
  · intro file parent recorded
    cases recorded

/-- A walk along a `part of` chain has passed distinct files of the index and recorded their parents. -/
structure Walking (project : Project) (memo : LibraryMemo) (path : List File) (parents : File → Option File)
    (current : File) : Prop where
  distinct : path.Nodup
  inside : path ⊆ project.indexed
  leads : ∀ file ∈ path, Relation.TransGen project.Parent file current
  new : ∀ file ∈ path, memo.library file = none
  parents : ∀ file, parents file = if file ∈ path then project.parent file else memo.parent file
  closed : ∀ file ∈ path, ∀ parent, project.parent file = some parent → parent ∈ path ∨ parent = current

/-- A walk that ended knows the library of its last file and so of all files that it passed. -/
structure Arrived (project : Project) (memo : LibraryMemo) (path : List File) (current : File)
    (result : Option File × List File × (File → Option File)) : Prop where
  kept : path ⊆ result.2.1
  library : ∀ library, result.1 = some library ↔ project.BelongsTo current library
  reached : (memo.library current).isSome ∨ current ∈ result.2.1
  passed : ∀ file ∈ result.2.1, ∀ library, result.1 = some library ↔ project.BelongsTo file library
  new : ∀ file ∈ result.2.1, memo.library file = none
  parents : ∀ file, result.2.2 file = if file ∈ result.2.1 then project.parent file else memo.parent file
  closed : ∀ file ∈ result.2.1, ∀ parent, project.parent file = some parent →
    parent ∈ result.2.1 ∨ (memo.library parent).isSome

theorem parent_eq {directives : DartDirectives} (found : project.directivesOf file = some directives) :
    project.parent file = directives.partOf.bind (project.partParent file) := by
  rw [Project.parent, found, Option.bind_some]

/-- The walk ends at a file without a parent. -/
theorem Walking.end_ {parents : File → Option File} (walking : Walking project memo path parents current)
    (sound : memo.Sound project)
    (unknown : memo.library current = none) (alone : project.parent current = none) {found : Option File}
    (right : ∀ library, found = some library ↔ library = current ∧ project.isLibrary current) :
    Arrived project memo path current (found, current :: path, parents) := by
  have here (library : File) : found = some library ↔ project.BelongsTo current library :=
    (right library).trans (belongsTo_of_no_parent alone).symm
  refine ⟨subset_cons_self _ _, here, .inr mem_cons_self, ?_, ?_, ?_, ?_⟩
  · intro file member library
    rcases mem_cons.mp member with rfl | before
    · exact here library
    · exact (here library).trans (belongsTo_of_chain (walking.leads file before)).symm
  · intro file member
    exact (mem_cons.mp member).elim (fun same => same ▸ unknown) (walking.new file)
  · intro file
    by_cases same : file = current
    · subst same
      simp [walking.parents, alone, sound.parent, unknown]
    · simp [walking.parents, same]
  · intro file member parent step
    rcases mem_cons.mp member with rfl | before
    · cases alone.symm.trans step
    · exact .inl ((walking.closed file before parent step).elim (mem_cons_of_mem _) fun same => same ▸
        mem_cons_self)

/-- The walk up the parents arrives at the library of its file, however much the memo knows. -/
theorem Walking.run {parents : File → Option File} (walking : Walking project memo path parents current)
    (sound : memo.Sound project) {fuel : Nat} (enough : project.indexed.length < fuel + path.length) :
    Arrived project memo path current (project.walkToLibrary memo fuel path parents current) := by
  induction fuel generalizing path parents current with
  | zero =>
    have bound := (subperm_of_subset walking.distinct walking.inside).length_le
    omega
  | succ fuel ih =>
    rw [Project.walkToLibrary]
    cases unknown : memo.library current with
    | some hit =>
      have here := sound.library current hit unknown
      refine ⟨.refl path, here, .inl (by rw [unknown]; rfl), ?_, walking.new, walking.parents, ?_⟩
      · exact fun file member library => (here library).trans (belongsTo_of_chain (walking.leads file member)).symm
      · exact fun file member parent step => (walking.closed file member parent step).imp id fun same => by
          rw [same, unknown]; rfl
    | none =>
      dsimp only
      split
      · rename_i cycle
        have none (library : File) : ¬ project.BelongsTo current library :=
          not_belongsTo_of_cycle (walking.leads current cycle)
        refine ⟨.refl path, fun library => iff_of_false (by simp) (none library), .inr cycle, ?_,
          walking.new, walking.parents, ?_⟩
        · exact fun file member library =>
            iff_of_false (by simp) (mt (belongsTo_of_chain (walking.leads file member)).mp (none library))
        · exact fun file member parent step =>
            .inl ((walking.closed file member parent step).elim id fun same => same ▸ cycle)
      · rename_i new
        split
        · rename_i unread
          have alone : project.parent current = none := by rw [Project.parent, unread]; rfl
          refine walking.end_ sound unknown alone fun library => iff_of_false (by simp) ?_
          simp [Project.isLibrary, unread]
        · rename_i directives read
          split
          · rename_i own
            have alone : project.parent current = none := by rw [parent_eq read, own]; rfl
            refine walking.end_ sound unknown alone fun library => ?_
            simp [Project.isLibrary, read, own, eq_comm]
          · rename_i partOf isPart
            split
            · rename_i lost
              have alone : project.parent current = none := by rw [parent_eq read, isPart, Option.bind_some, lost]
              refine walking.end_ sound unknown alone fun library => iff_of_false (by simp) ?_
              simp [Project.isLibrary, read, isPart]
            · rename_i parent found
              have step : project.parent current = some parent := by
                rw [parent_eq read, isPart, Option.bind_some, found]
              have next : Walking project memo (current :: path)
                (Function.update parents current (some parent)) parent := by
                refine ⟨nodup_cons.mpr ⟨new, walking.distinct⟩, ?_, ?_, ?_, ?_, ?_⟩
                · exact cons_subset.mpr ⟨project.known current (by rw [read]; rfl), walking.inside⟩
                · intro file member
                  rcases mem_cons.mp member with rfl | before
                  · exact .single step
                  · exact (walking.leads file before).tail step
                · intro file member
                  exact (mem_cons.mp member).elim (fun same => same ▸ unknown) (walking.new file)
                · intro file
                  by_cases same : file = current
                  · subst same
                    rw [Function.update_self, if_pos mem_cons_self, step]
                  · rw [Function.update_of_ne same, walking.parents]
                    simp only [mem_cons, same, false_or]
                · intro file member other above
                  rcases mem_cons.mp member with rfl | before
                  · exact .inr (Option.some.inj (above.symm.trans step))
                  · exact .inl ((walking.closed file before other above).elim (mem_cons_of_mem _) fun same =>
                      same ▸ mem_cons_self)
              have arrived := ih next (by rw [length_cons]; omega)
              exact ⟨fun file member => arrived.kept (mem_cons_of_mem _ member),
                fun library => (arrived.library library).trans (belongsTo_of_parent step).symm,
                .inr (arrived.kept mem_cons_self), arrived.passed, arrived.new, arrived.parents,
                  arrived.closed⟩

theorem arrived_libraryOfMemo (sound : memo.Sound project) (file : File) :
    Arrived project memo [] file (project.walkToLibrary memo (project.indexed.length + 1) [] memo.parent file) := by
  refine Walking.run ⟨nodup_nil, nil_subset _, ?_, ?_, fun _ => rfl, ?_⟩ sound (by simp)
  · exact fun _ none => absurd none not_mem_nil
  · exact fun _ none => absurd none not_mem_nil
  · exact fun _ none => absurd none not_mem_nil

theorem libraryOf_eq_some : project.libraryOf file = some library ↔ project.BelongsTo file library :=
  (arrived_libraryOfMemo LibraryMemo.sound_fresh file).library library

/-- Asking for a library keeps the memo sound. -/
theorem sound_libraryOfMemo (sound : memo.Sound project) : (project.libraryOfMemo memo file).2.Sound project := by
  have arrived := arrived_libraryOfMemo sound file
  unfold Project.libraryOfMemo
  refine ⟨?_, ?_, ?_⟩
  · intro other found recorded
    dsimp only at recorded
    split at recorded
    · rename_i passed
      exact Option.some.inj recorded ▸ arrived.passed other passed
    · exact sound.library other found recorded
  · intro other
    dsimp only
    rw [arrived.parents, sound.parent]
    split
    · rfl
    · rfl
  · intro other parent recorded step
    dsimp only at recorded ⊢
    by_cases passed : parent ∈ (project.walkToLibrary memo (project.indexed.length + 1) [] memo.parent file).2.1
    · rw [if_pos passed]
      rfl
    · rw [if_neg passed]
      split at recorded
      · rename_i among
        exact (arrived.closed other among parent step).resolve_left passed
      · exact sound.closed other parent recorded step

/-- Whatever an instance was asked before, it answers with the library that the parents of the file end at. -/
theorem asked_libraries_follow_parents (project : Project) (earlier : List File) (file library : File) :
    (project.libraryOfMemo (earlier.foldl (fun memo other => (project.libraryOfMemo memo other).2) .fresh) file).1 =
      some library ↔
      project.BelongsTo file library := by
  have sound := foldlRecOn earlier (fun memo other => (project.libraryOfMemo memo other).2) LibraryMemo.sound_fresh
    fun _ sound _ _ => sound_libraryOfMemo sound
  exact (arrived_libraryOfMemo sound file).library library

end LibraryMemo

end Codegraph.Dart
