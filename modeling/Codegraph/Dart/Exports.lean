import Codegraph.Dart.Libraries
import Codegraph.Library.Folds
import Mathlib.Algebra.Order.Monoid.Unbundled.WithTop
import Mathlib.Order.Lattice.Nat

/- This file models what a Dart library exports and shows that its filters let through what the chains of exports do. -/

namespace Codegraph.Dart
open List

open Watch.Scope (Text)

/-- How many libraries deep an export chain is followed. -/
def exportDepthLimit : Nat := 64

/-- The files whose public names a library exports, each with the filters on the way. -/
abbrev Namespace := File → List NameFilter

abbrev ExportMemo := File → Option Namespace

/-- One step of the export walk: the shallowest library on the stack that it leans on, and whether the depth limit cut
it short. -/
structure ExportWalk where
  names : Namespace
  low : WithTop Nat
  cut : Bool

/-- The filter that lets every name through absorbs the rest, and equal filters are kept once. -/
def pushFilter (filters : List NameFilter) (filter : NameFilter) : List NameFilter :=
  if filters.head?.any (·.isEvery) then filters
  else if filter.isEvery then [filter]
  else if filter ∈ filters then filters
  else filters ++ [filter]

def addFilter (names : Namespace) (file : File) (filter : NameFilter) : Namespace :=
  Function.update names file (pushFilter (names file) filter)

/-- The filters of an exported file, each behind the filter of the export. -/
def pushThrough (filter : NameFilter) (inner filters : List NameFilter) : List NameFilter :=
  inner.foldl (fun filters exported => pushFilter filters (filter.andThen exported)) filters

/-- An export of a library on the stack is not followed. Any other adds its namespace behind the filter. -/
def exportStep (walk : ExportMemo → File → ExportWalk × ExportMemo) (stack : List File)
    (state : ExportWalk × ExportMemo)
    (edge : NameFilter × File) : ExportWalk × ExportMemo :=
  match stack.idxOf? edge.2 with
  | some onStack => ({ state.1 with low := min state.1.low onStack }, state.2)
  | none =>
    let (inner, memo) := walk state.2 edge.2
    ({ names := fun file => pushThrough edge.1 (inner.names file) (state.1.names file)
       low := min state.1.low inner.low
       cut := state.1.cut || inner.cut }, memo)

namespace Project

variable (project : Project)

/-- The exports of the files of a library, each with the library that it names. -/
def exportedLibraries (library : File) : List (NameFilter × File) :=
  (project.membersOf library).flatMap fun file => match project.directivesOf file with
    | none => []
    | some directives => directives.exports.flatMap fun directive => directive.uris.flatMap fun uri =>
      (project.resolveDartUri file uri).filterMap fun target => (project.libraryOf target).map (directive.filter, ·)

def ownNames (library : File) : Namespace :=
  (project.membersOf library).foldl (fun names file => addFilter names file .every) fun _ => []

/-- What a library exports. A walk that leans on a shallower library, or that the limit cut, is not kept. -/
def exportsOf : Nat → ExportMemo → List File → File → ExportWalk × ExportMemo
  | remaining, memo, stack, library =>
    match memo library with
    | some hit => (⟨hit, ⊤, false⟩, memo)
    | none => match remaining with
      | 0 => (⟨fun _ => [], ⊤, true⟩, memo)
      | remaining + 1 =>
        let (walk, memo) := (project.exportedLibraries library).foldl
          (exportStep (fun memo exported => exportsOf remaining memo (stack ++ [library]) exported)
            (stack ++ [library]))
          (⟨project.ownNames library, ⊤, false⟩, memo)
        (walk, if stack.length ≤ walk.low ∧ !walk.cut then Function.update memo library (some walk.names) else memo)

end Project

section Filters

variable {p : NameFilter → Prop} {filters inner : List NameFilter} {filter : NameFilter}

/-- A property that a composed filter has when both of its parts do. -/
structure Composes (p : NameFilter → Prop) : Prop where
  every : p .every
  andThen : ∀ filter next, p (filter.andThen next) ↔ p filter ∧ p next

theorem composes_lets (name : Text) : Composes fun filter => filter.lets name = true :=
  ⟨rfl, fun _ _ => by rw [NameFilter.lets_andThen, Bool.and_eq_true]⟩

theorem composes_every : Composes fun filter => filter = .every := ⟨rfl, fun _ _ => NameFilter.andThen_eq_every⟩

/-- A filter of the pushed list has a property exactly when one of the list or the pushed one has it. -/
theorem mem_pushFilter (composes : Composes p) :
    (∃ kept ∈ pushFilter filters filter, p kept) ↔ (∃ kept ∈ filters, p kept) ∨ p filter := by
  unfold pushFilter
  split
  · rename_i first
    cases filters with
    | nil => cases first
    | cons head rest =>
      obtain rfl := NameFilter.isEvery_iff.mp first
      have held : ∃ kept ∈ .every :: rest, p kept := ⟨_, mem_cons_self, composes.every⟩
      exact ⟨.inl, fun _ => held⟩
  · split
    · rename_i all
      obtain rfl := NameFilter.isEvery_iff.mp all
      simp [composes.every]
    · split
      · rename_i known
        exact ⟨.inl, fun either => either.elim id fun held => ⟨filter, known, held⟩⟩
      · simp only [mem_append, mem_singleton]
        constructor
        · rintro ⟨kept, old | rfl, held⟩
          · exact .inl ⟨kept, old, held⟩
          · exact .inr held
        · rintro (⟨kept, old, held⟩ | held)
          · exact ⟨kept, .inl old, held⟩
          · exact ⟨filter, .inr rfl, held⟩

theorem mem_pushThrough (composes : Composes p) : (∃ kept ∈ pushThrough filter inner filters, p kept) ↔
    (∃ kept ∈ filters, p kept) ∨ p filter ∧ ∃ kept ∈ inner, p kept := by
  induction inner generalizing filters with
  | nil => simp [pushThrough]
  | cons exported inner ih =>
    rw [pushThrough, foldl_cons, ← pushThrough, ih, mem_pushFilter composes, composes.andThen]
    simp only [mem_cons, exists_eq_or_imp, and_or_left, or_assoc]

end Filters

section Chains

variable {project : Project} {p : NameFilter → Prop} {file library exported : File} {steps : Nat} {filter : NameFilter}
  {stack : List File} {low : WithTop Nat}

/-- A chain of exports with a property leads from a library to one that has the file. -/
inductive Chain (project : Project) (p : NameFilter → Prop) (file : File) : Nat → File → Prop
  | own {library : File} (member : file ∈ project.membersOf library) : Chain project p file 0 library
  | export_ {steps : Nat} {library exported : File} {filter : NameFilter}
      (edge : (filter, exported) ∈ project.exportedLibraries library)
      (held : p filter) (rest : Chain project p file steps exported) : Chain project p file (steps + 1) library

theorem ownNames_iff (composes : Composes p) :
    (∃ kept ∈ project.ownNames library file, p kept) ↔ file ∈ project.membersOf library := by
  have each (members : List File) (names : Namespace) :
      (∃ kept ∈ members.foldl (fun names file => addFilter names file .every) names file, p kept) ↔
        (∃ kept ∈ names file, p kept) ∨ file ∈ members := by
    induction members generalizing names with
    | nil => simp
    | cons member members ih =>
      rw [foldl_cons, ih]
      by_cases same : file = member
      · subst same
        simp [addFilter, mem_pushFilter composes, composes.every]
      · simp [addFilter, same]
  rw [Project.ownNames, each]
  simp

abbrev Exports (project : Project) (library exported : File) : Prop :=
  ∃ filter, (filter, exported) ∈ project.exportedLibraries library

/-- Some chain of exports leads from one library to another. -/
abbrev Leads (project : Project) : File → File → Prop := Relation.ReflTransGen (Exports project)

/-- The library stands on the stack no shallower than a mark. -/
def Returns (stack : List File) (low : WithTop Nat) (library : File) : Prop :=
  ∃ place : Nat, stack[place]? = some library ∧ low ≤ place

theorem Returns.mono {lower : WithTop Nat} (returns : Returns stack low library) (less : lower ≤ low) :
    Returns stack lower library := by
  obtain ⟨place, found, above⟩ := returns
  exact ⟨place, found, less.trans above⟩

/-- A library of the extended stack is the last one or stands on the stack. -/
theorem returns_concat {last : File} (returns : Returns (stack ++ [last]) low library) :
    Returns stack low library ∨ library = last := by
  obtain ⟨place, found, above⟩ := returns
  rcases Nat.lt_or_ge place stack.length with inside | beyond
  · exact .inl ⟨place, by rwa [getElem?_append_left inside] at found, above⟩
  · rw [getElem?_append_right beyond] at found
    exact .inr (mem_singleton.mp (mem_of_getElem? found))

/-- A result lets through what chains do, and a chain that it misses goes on from a library that it leans on, in no
more steps. -/
structure Covers (project : Project) (p : NameFilter → Prop) (stack : List File) (library : File)
    (walk : ExportWalk) : Prop where
  sound : ∀ file, (∃ kept ∈ walk.names file, p kept) → ∃ steps, Chain project p file steps library
  complete : walk.cut = false → ∀ file steps, Chain project p file steps library →
    (∃ kept ∈ walk.names file, p kept) ∨
      ∃ other, Returns stack walk.low other ∧ Leads project library other ∧
        ∃ fewer ≤ steps, Chain project p file fewer other

/-- What an instance keeps is complete. -/
def Complete (project : Project) (p : NameFilter → Prop) (memo : ExportMemo) : Prop :=
  ∀ library names, memo library = some names → ∀ file, (∃ kept ∈ names file, p kept) ↔
    ∃ steps, Chain project p file steps library

/-- What the loop over the exports of a library keeps. -/
structure Exporting (project : Project) (p : NameFilter → Prop) (library : File) (state : ExportWalk × ExportMemo) :
    Prop where
  memo : Complete project p state.2
  sound : ∀ file, (∃ kept ∈ state.1.names file, p kept) → ∃ steps, Chain project p file steps library
  own : ∀ file ∈ project.membersOf library, ∃ kept ∈ state.1.names file, p kept

/-- The chains through an export that the loop has passed are covered. -/
def Passed (project : Project) (p : NameFilter → Prop) (stack : List File) (edge : NameFilter × File)
    (state : ExportWalk × ExportMemo) : Prop :=
  state.1.cut = false → p edge.1 → ∀ file steps, Chain project p file steps edge.2 →
    (∃ kept ∈ state.1.names file, p kept) ∨
      ∃ other, Returns stack state.1.low other ∧ Leads project edge.2 other ∧
        ∃ fewer ≤ steps, Chain project p file fewer other

/-- A step of the loop takes nothing back. -/
theorem grows_exportStep (composes : Composes p) {walk : ExportMemo → File → ExportWalk × ExportMemo}
    {stack : List File} (state : ExportWalk × ExportMemo) (edge : NameFilter × File) :
    (∀ file, (∃ kept ∈ state.1.names file, p kept) → ∃ kept ∈ (exportStep walk stack state edge).1.names file, p kept) ∧
      (exportStep walk stack state edge).1.low ≤ state.1.low ∧
      ((exportStep walk stack state edge).1.cut = false → state.1.cut = false) := by
  unfold exportStep
  split
  · exact ⟨fun _ held => held, min_le_left _ _, id⟩
  · refine ⟨fun file held => (mem_pushThrough composes).mpr (.inl held), min_le_left _ _, fun whole => ?_⟩
    exact (Bool.or_eq_false_iff.mp whole).1

theorem Passed.stays (composes : Composes p) {walk : ExportMemo → File → ExportWalk × ExportMemo}
    {state : ExportWalk × ExportMemo} {other : NameFilter × File} (passed : Passed project p stack other state)
    (edge : NameFilter × File) : Passed project p stack other (exportStep walk stack state edge) := by
  intro whole held file steps chain
  obtain ⟨more, lower, before⟩ := @grows_exportStep _ composes walk stack state edge
  rcases passed (before whole) held file steps chain with covered | ⟨last, returns, fewer⟩
  · exact .inl (more file covered)
  · exact .inr ⟨last, returns.mono lower, fewer⟩

theorem lt_length_of_returns (returns : Returns stack low library) : low < stack.length := by
  obtain ⟨place, found, above⟩ := returns
  exact lt_of_le_of_lt above (WithTop.coe_lt_coe.mpr (List.getElem?_eq_some_iff.mp found).1)

/-- A step of the loop settles its own export. -/
theorem Exporting.step (composes : Composes p) {stack : List File} {remaining : Nat} {state : ExportWalk × ExportMemo}
    {edge : NameFilter × File}
    (exporting : Exporting project p library state) (taken : edge ∈ project.exportedLibraries library)
    (inner : ∀ memo, Complete project p memo → edge.2 ∉ stack →
      Complete project p (project.exportsOf remaining memo stack edge.2).2 ∧
      Covers project p stack edge.2 (project.exportsOf remaining memo stack edge.2).1) : Exporting project p library
      (exportStep (fun memo exported => project.exportsOf remaining memo stack exported) stack state edge) ∧
      Passed project p stack edge
        (exportStep (fun memo exported => project.exportsOf remaining memo stack exported) stack state edge) := by
  unfold exportStep
  cases onStack : stack.idxOf? edge.2 with
  | some place =>
    refine ⟨⟨exporting.memo, exporting.sound, exporting.own⟩,
      fun _ _ file steps chain => .inr ⟨edge.2, ⟨place, ?_, min_le_right _ _⟩, .refl, steps, le_rfl, chain⟩⟩
    obtain ⟨inside, same, -⟩ := idxOf?_eq_some_iff.mp onStack
    rw [getElem?_eq_getElem inside, same]
  | none =>
    have off : edge.2 ∉ stack := idxOf?_eq_none_iff.mp onStack
    obtain ⟨memo, covers⟩ := inner state.2 exporting.memo off
    refine ⟨⟨memo, ?_, ?_⟩, ?_⟩
    · intro file through
      rcases (mem_pushThrough composes).mp through with old | ⟨held, new⟩
      · exact exporting.sound file old
      · obtain ⟨steps, chain⟩ := covers.sound file new
        exact ⟨steps + 1, .export_ taken held chain⟩
    · exact fun file member => (mem_pushThrough composes).mpr (.inl (exporting.own file member))
    · intro whole held file steps chain
      rcases covers.complete (Bool.or_eq_false_iff.mp whole).2 file steps chain with covered | ⟨other, returns, fewer⟩
      · exact .inl ((mem_pushThrough composes).mpr (.inr ⟨held, covered⟩))
      · exact .inr ⟨other, returns.mono (min_le_right _ _), fewer⟩

/-- A walk covers the chains of its library, and it keeps complete results alone. -/
theorem covers_exportsOf (composes : Composes p) {remaining : Nat} {memo : ExportMemo} (stack : List File)
    (kept : Complete project p memo) : Complete project p (project.exportsOf remaining memo stack library).2 ∧
      Covers project p stack library (project.exportsOf remaining memo stack library).1 := by
  induction remaining generalizing memo stack library with
  | zero =>
    unfold Project.exportsOf
    cases hit : memo library with
    | some names =>
      exact ⟨kept, fun file => (kept library names hit file).mp,
        fun _ file steps chain => .inl ((kept library names hit file).mpr ⟨steps, chain⟩)⟩
    | none =>
      refine ⟨kept, ?_, ?_⟩
      · rintro file ⟨filter, none, -⟩
        cases none
      · intro whole
        cases whole
  | succ remaining ih =>
    rw [Project.exportsOf]
    cases hit : memo library with
    | some names =>
      exact ⟨kept, fun file => (kept library names hit file).mp,
        fun _ file steps chain => .inl ((kept library names hit file).mpr ⟨steps, chain⟩)⟩
    | none =>
      dsimp only
      have begun : Exporting project p library (⟨project.ownNames library, ⊤, false⟩, memo) :=
        ⟨kept, fun file own => ⟨0, .own ((ownNames_iff composes).mp own)⟩,
          fun file member => (ownNames_iff composes).mpr member⟩
      have settles := Folds.foldl_settles
        (exportStep (fun memo exported => project.exportsOf remaining memo (stack ++ [library]) exported)
          (stack ++ [library]))
        (Exporting project p library) (Passed project p (stack ++ [library])) (project.exportedLibraries library)
        (fun edge _ _ _ _ passed => passed.stays composes edge)
        (fun edge taken _ exporting => exporting.step composes taken fun _ complete _ =>
          ih (stack ++ [library]) complete) begun
      generalize (project.exportedLibraries library).foldl _ _ = state at settles ⊢
      obtain ⟨exporting, -, passed⟩ := settles
      have complete (whole : state.1.cut = false) (file : File) (steps : Nat)
        (chain : Chain project p file steps library) :
          (∃ kept ∈ state.1.names file, p kept) ∨
            ∃ other, Returns stack state.1.low other ∧ Leads project library other ∧
              ∃ fewer ≤ steps, Chain project p file fewer other := by
        induction steps using Nat.strong_induction_on with
        | _ steps again =>
          cases chain with
          | own member => exact .inl (exporting.own file member)
          | @export_ steps _ exported filter edge held rest =>
            rcases passed _ edge whole held file steps rest
              with covered | ⟨other, returns, leads, fewer, less, chain⟩
            · exact .inl covered
            · rcases returns_concat returns with inside | rfl
              · exact .inr ⟨other, inside, leads.head ⟨filter, edge⟩, fewer, less.trans (Nat.le_succ _), chain⟩
              · rcases again fewer (Nat.lt_succ_of_le less) chain
                  with covered | ⟨last, inside, leads, least, below, chain⟩
                · exact .inl covered
                · exact .inr ⟨last, inside, leads, least, by omega, chain⟩
      refine ⟨?_, exporting.sound, complete⟩
      split
      · rename_i alone
        intro other names found
        by_cases same : other = library
        · subst same
          rw [Function.update_self] at found
          rw [← Option.some.inj found]
          refine fun file => ⟨exporting.sound file, fun ⟨steps, chain⟩ => ?_⟩
          rcases complete (by simpa using alone.2) file steps chain with covered | ⟨last, returns, -⟩
          · exact covered
          · exact absurd (lt_length_of_returns returns) (not_lt.mpr alone.1)
        · rw [Function.update_of_ne same] at found
          exact exporting.memo other names found
      · exact exporting.memo

end Chains

section Depth

variable {project : Project} {root library : File}

/-- A simple chain of exports visits no library twice. -/
def Simple (project : Project) (path : List File) : Prop :=
  path.Nodup ∧ path.IsChain (Exports project)

/-- No simple chain of exports from a library is longer than the walk follows it. -/
def Shallow (project : Project) (root : File) : Prop :=
  ∀ path, Simple project path → path.head? = some root → path.length ≤ exportDepthLimit

theorem Simple.concat {stack : List File} {exported : File} {filter : NameFilter}
    (simple : Simple project (stack ++ [library]))
    (new : exported ∉ stack ++ [library]) (edge : (filter, exported) ∈ project.exportedLibraries library) :
    Simple project (stack ++ [library] ++ [exported]) := by
  refine ⟨?_, ?_⟩
  · refine nodup_append.mpr ⟨simple.1, nodup_singleton _, fun one old two single same => ?_⟩
    exact new (mem_singleton.mp single ▸ same ▸ old)
  · refine isChain_append.mpr ⟨simple.2, isChain_singleton _, fun one last two first => ?_⟩
    rw [getLast?_concat, Option.mem_some_iff] at last
    rw [head?_cons, Option.mem_some_iff] at first
    exact last ▸ first ▸ ⟨filter, edge⟩

/-- The limit cuts no walk from a library whose simple chains it follows to their ends. -/
theorem uncut_exportsOf (shallow : Shallow project root) {remaining : Nat} {memo : ExportMemo} {stack : List File}
    (simple : Simple project (stack ++ [library])) (rooted : (stack ++ [library]).head? = some root)
    (depth : remaining + stack.length = exportDepthLimit) :
    (project.exportsOf remaining memo stack library).1.cut = false := by
  induction remaining generalizing memo stack library with
  | zero =>
    have bound := shallow _ simple rooted
    rw [length_append, length_singleton] at bound
    omega
  | succ remaining ih =>
    rw [Project.exportsOf]
    cases memo library with
    | some names => rfl
    | none =>
      dsimp only
      refine foldlRecOn _ _ (motive := fun state : ExportWalk × ExportMemo => state.1.cut = false) rfl
        fun state uncut edge taken => ?_
      unfold exportStep
      cases onStack : (stack ++ [library]).idxOf? edge.2 with
      | some place => exact uncut
      | none =>
        have next := @Simple.concat _ _ _ _ edge.1 simple (idxOf?_eq_none_iff.mp onStack) taken
        refine Bool.or_eq_false_iff.mpr ⟨uncut, ih next ?_ ?_⟩
        · rw [head?_append, rooted]
          rfl
        · rw [length_append, length_singleton]
          omega

end Depth

end Codegraph.Dart
