import Codegraph.Dart.Queries

/- This file shows which answers about Dart libraries do not depend on the queries that an instance answered before. -/

namespace Codegraph.Dart
open List

open Watch.Scope (Text)

section Namespaces

variable {project : Project} {file library exported other : File} {steps : Nat} {filter inner : NameFilter}
  {filters : List NameFilter} {through : List NameFilter} {stack : List File} {state : ExportWalk × ExportMemo}

/-- Some chain of exports without combinators leads from a library to one that has the file. -/
def ExportsAll (project : Project) (file library : File) : Prop :=
  ∃ steps, Chain project (fun filter => filter = .every) file steps library

/-- A filter that a library records for a file. One that lets every name through absorbs the rest. -/
inductive Recorded (project : Project) (file : File) : Nat → NameFilter → File → Prop
  | all {steps : Nat} {library : File} (chain : Chain project (fun filter => filter = .every) file steps library) :
      Recorded project file steps .every library
  | export_ {steps : Nat} {library exported : File} {filter inner : NameFilter}
      (some : ¬ ExportsAll project file library)
      (edge : (filter, exported) ∈ project.exportedLibraries library)
        (rest : Recorded project file steps inner exported) :
      Recorded project file (steps + 1) (filter.andThen inner) library

theorem Recorded.eq_every (recorded : Recorded project file steps filter library)
    (all : ExportsAll project file library) : filter = .every := by
  cases recorded with
  | all => rfl
  | export_ some => exact absurd all some

/-- No export with combinators that is within reach of the library lies on a cycle of exports. -/
def Plain (project : Project) (library : File) : Prop :=
  ∀ near, Leads project library near → ∀ filter exported, (filter, exported) ∈ project.exportedLibraries near →
    Leads project exported near → filter = .every

theorem Plain.next (plain : Plain project library) (edge : (filter, exported) ∈ project.exportedLibraries library) :
    Plain project exported :=
  fun near leads => plain near (leads.head ⟨filter, edge⟩)

theorem mem_of_pushFilter (member : filter ∈ pushFilter filters inner) : filter ∈ filters ∨ filter = inner := by
  unfold pushFilter at member
  split at member
  · exact .inl member
  · split at member
    · exact .inr (mem_singleton.mp member)
    · split at member
      · exact .inl member
      · exact (mem_append.mp member).imp id mem_singleton.mp

theorem mem_pushFilter_self : inner ∈ pushFilter filters inner ∨ .every ∈ pushFilter filters inner := by
  unfold pushFilter
  split
  · rename_i first
    cases filters with
    | nil => cases first
    | cons head rest => exact .inr (NameFilter.isEvery_iff.mp first ▸ mem_cons_self)
  · split
    · exact .inl (mem_singleton_self inner)
    · split
      · rename_i known
        exact .inl known
      · exact .inl (mem_append_right _ (mem_singleton_self inner))

theorem mem_pushFilter_of_mem (member : filter ∈ filters ∨ .every ∈ filters) :
    filter ∈ pushFilter filters inner ∨ .every ∈ pushFilter filters inner := by
  unfold pushFilter
  split
  · exact member
  · split
    · rename_i all
      exact .inr (NameFilter.isEvery_iff.mp all ▸ mem_singleton_self inner)
    · split
      · exact member
      · exact member.imp (mem_append_left _) (mem_append_left _)

/-- A list in which the filter that lets every name through has absorbed the rest. -/
def Absorbed (filters : List NameFilter) : Prop := .every ∈ filters → filters = [.every]

theorem Absorbed.push (absorbed : Absorbed filters) : Absorbed (pushFilter filters inner) := by
  intro member
  unfold pushFilter at member ⊢
  split at member
  · rename_i first
    rw [if_pos first]
    exact absorbed member
  · rename_i first
    rw [if_neg first]
    split at member
    · rename_i all
      rw [if_pos all, NameFilter.isEvery_iff.mp all]
    · rename_i some
      rw [if_neg some]
      split at member
      · rename_i known
        rw [if_pos known]
        exact absurd (absorbed member) fun single => first (by rw [single]; rfl)
      · rcases mem_append.mp member with old | new
        · exact absurd (absorbed old) fun single => first (by rw [single]; rfl)
        · exact absurd (NameFilter.isEvery_iff.mpr (mem_singleton.mp new).symm) some

theorem Absorbed.pushThrough (absorbed : Absorbed filters) : Absorbed (pushThrough filter through filters) := by
  induction through generalizing filters with
  | nil => exact absorbed
  | cons first through ih => exact ih absorbed.push

theorem Absorbed.addFilter {names : Namespace} (absorbed : Absorbed (names file)) (member : File)
    (filter : NameFilter) : Absorbed (addFilter names member filter file) := by
  by_cases same : file = member
  · subst same
    rw [Dart.addFilter, Function.update_self]
    exact absorbed.push
  · rw [Dart.addFilter, Function.update_of_ne same]
    exact absorbed

theorem mem_of_pushThrough {kept : NameFilter} (member : kept ∈ pushThrough filter through filters) :
    kept ∈ filters ∨ ∃ inner ∈ through, kept = filter.andThen inner := by
  induction through generalizing filters with
  | nil => exact .inl member
  | cons first through ih =>
    rcases ih member with old | ⟨inner, among, same⟩
    · rcases mem_of_pushFilter old with old | new
      · exact .inl old
      · exact .inr ⟨first, mem_cons_self, new⟩
    · exact .inr ⟨inner, mem_cons_of_mem _ among, same⟩

theorem mem_pushThrough_of_mem {through : List NameFilter} {kept : NameFilter}
    (member : kept ∈ filters ∨ .every ∈ filters) :
    kept ∈ pushThrough filter through filters ∨ .every ∈ pushThrough filter through filters := by
  induction through generalizing filters with
  | nil => exact member
  | cons first through ih => exact ih (mem_pushFilter_of_mem member)

theorem mem_pushThrough_of_inner (among : inner ∈ through) :
    filter.andThen inner ∈ pushThrough filter through filters ∨ .every ∈ pushThrough filter through filters := by
  induction through generalizing filters with
  | nil => cases among
  | cons first through ih =>
    rcases mem_cons.mp among with rfl | later
    · exact @mem_pushThrough_of_mem _ (pushFilter filters (filter.andThen inner)) _ _ mem_pushFilter_self
    · exact ih later

/-- What an instance keeps of a plain library is what the library records. -/
def Settled (project : Project) (memo : ExportMemo) : Prop :=
  ∀ library names, memo library = some names → (∀ file, Absorbed (names file)) ∧
    (Plain project library → ∀ file filter, filter ∈ names file ↔ ∃ steps, Recorded project file steps filter library)

/-- A result for a plain library has the filters that the library records, those aside that go on from a library it
leans on. -/
structure Settles (project : Project) (stack : List File) (library : File) (walk : ExportWalk) : Prop where
  absorbed : ∀ file, Absorbed (walk.names file)
  sound : walk.cut = false → ∀ file, ∀ filter ∈ walk.names file,
    (∃ steps, Recorded project file steps filter library) ∨ ExportsAll project file library
  complete : walk.cut = false → ∀ file steps filter, Recorded project file steps filter library →
    filter ∈ walk.names file ∨ .every ∈ walk.names file ∨
      ∃ other, Returns stack walk.low other ∧ Leads project library other ∧
        ∃ fewer ≤ steps, Recorded project file fewer filter other

/-- What the loop over the exports of a library keeps. -/
structure Settling (project : Project) (library : File) (state : ExportWalk × ExportMemo) : Prop where
  settled : Settled project state.2
  complete : Complete project (fun filter => filter = .every) state.2
  absorbed : ∀ file, Absorbed (state.1.names file)
  sound : Plain project library → state.1.cut = false → ∀ file, ∀ filter ∈ state.1.names file,
    (∃ steps, Recorded project file steps filter library) ∨ ExportsAll project file library

/-- What the target of an export records stands behind the filter of the export. -/
def PassedOn (project : Project) (library : File) (stack : List File) (edge : NameFilter × File)
    (state : ExportWalk × ExportMemo) : Prop :=
  Plain project library → state.1.cut = false → ∀ file steps inner, Recorded project file steps inner edge.2 →
    edge.1.andThen inner ∈ state.1.names file ∨ .every ∈ state.1.names file ∨
      ∃ other, Returns stack state.1.low other ∧ Leads project edge.2 other ∧
        ∃ fewer ≤ steps, Recorded project file fewer inner other

/-- What a walk has passed on stays passed on. -/
theorem PassedOn.stays {walk : ExportMemo → File → ExportWalk × ExportMemo}
    {past : NameFilter × File} (passed : PassedOn project library stack past state) (edge : NameFilter × File) :
    PassedOn project library stack past (exportStep walk stack state edge) := by
  intro plain whole file steps inner recorded
  obtain ⟨-, lower, before⟩ := @grows_exportStep _ composes_every walk stack state edge
  have still (kept : past.1.andThen inner ∈ state.1.names file ∨ .every ∈ state.1.names file) :
      past.1.andThen inner ∈ (exportStep walk stack state edge).1.names file ∨
        .every ∈ (exportStep walk stack state edge).1.names file := by
    unfold exportStep
    split
    · exact kept
    · exact mem_pushThrough_of_mem kept
  rcases passed plain (before whole) file steps inner recorded with kept | all | ⟨last, returns, fewer⟩
  · exact (still (.inl kept)).imp id .inl
  · exact (still (.inr all)).imp id .inl
  · exact .inr (.inr ⟨last, returns.mono lower, fewer⟩)

theorem exportsAll_of_mem {walk : ExportWalk}
    (covers : Covers project (fun filter => filter = .every) stack library walk)
    (member : .every ∈ walk.names file) : ExportsAll project file library :=
  covers.sound file ⟨.every, member, rfl⟩

/-- A step of the loop settles its own export. -/
theorem Settling.step {stack : List File} {remaining : Nat} {state : ExportWalk × ExportMemo} {edge : NameFilter × File}
    (settling : Settling project library state) (taken : edge ∈ project.exportedLibraries library)
    (back : ∀ other ∈ stack, Leads project other library)
    (inner : ∀ memo, Settled project memo → Complete project (fun filter => filter = .every) memo →
      Settled project (project.exportsOf remaining memo stack edge.2).2 ∧
        (Plain project edge.2 → Settles project stack edge.2 (project.exportsOf remaining memo stack edge.2).1)) :
    Settling project library
      (exportStep (fun memo exported => project.exportsOf remaining memo stack exported) stack state edge) ∧
      PassedOn project library stack edge
        (exportStep (fun memo exported => project.exportsOf remaining memo stack exported) stack state edge) := by
  unfold exportStep
  cases onStack : stack.idxOf? edge.2 with
  | some place =>
    refine ⟨⟨settling.settled, settling.complete, settling.absorbed, settling.sound⟩,
      fun _ _ file steps inner recorded => .inr (.inr ?_)⟩
    obtain ⟨inside, same, -⟩ := idxOf?_eq_some_iff.mp onStack
    exact ⟨edge.2, ⟨place, by rw [getElem?_eq_getElem inside, same], min_le_right _ _⟩, .refl, steps, le_rfl,
      recorded⟩
  | none =>
    obtain ⟨settled, settles⟩ := inner state.2 settling.settled settling.complete
    obtain ⟨complete, covers⟩ := @covers_exportsOf _ _ edge.2 composes_every remaining _ stack settling.complete
    refine ⟨⟨settled, complete, fun file => (settling.absorbed file).pushThrough, ?_⟩, ?_⟩
    · intro plain whole file kept member
      obtain ⟨before, uncut⟩ := Bool.or_eq_false_iff.mp whole
      rcases mem_of_pushThrough member with old | ⟨last, among, rfl⟩
      · exact settling.sound plain before file kept old
      · have record (recorded : ∃ steps, Recorded project file steps last edge.2) :
            (∃ steps, Recorded project file steps (edge.1.andThen last) library) ∨
              ExportsAll project file library := by
          obtain ⟨steps, recorded⟩ := recorded
          by_cases all : ExportsAll project file library
          · exact .inr all
          · exact .inl ⟨steps + 1, .export_ all taken recorded⟩
        rcases (settles (plain.next taken)).sound uncut file last among with recorded | ⟨steps, chain⟩
        · exact record recorded
        · rcases covers.complete uncut file steps chain with ⟨_, all, rfl⟩ | ⟨other, returns, leads, -⟩
          · have single := (settles (plain.next taken)).absorbed file all
            rw [single] at among
            rw [mem_singleton.mp among] at record ⊢
            exact record ⟨steps, .all chain⟩
          · obtain ⟨place, found, -⟩ := returns
            have free := plain library .refl edge.1 edge.2 taken
              (leads.trans (back other (mem_of_getElem? found)))
            exact .inr ⟨steps + 1, .export_ taken free chain⟩
    · intro plain whole file steps last recorded
      obtain ⟨-, uncut⟩ := Bool.or_eq_false_iff.mp whole
      have among (kept : last ∈ (project.exportsOf remaining state.2 stack edge.2).1.names file) :
          edge.1.andThen last ∈ pushThrough edge.1 ((project.exportsOf remaining state.2 stack edge.2).1.names file)
            (state.1.names file) ∨
            .every ∈ pushThrough edge.1 ((project.exportsOf remaining state.2 stack edge.2).1.names file)
              (state.1.names file) :=
        mem_pushThrough_of_inner kept
      rcases (settles (plain.next taken)).complete uncut file steps last recorded
        with kept | all | ⟨other, returns, fewer⟩
      · exact (among kept).imp id .inl
      · have same := recorded.eq_every (exportsAll_of_mem covers all)
        exact (among (same ▸ all)).imp id .inl
      · exact .inr (.inr ⟨other, returns.mono (min_le_right _ _), fewer⟩)

theorem Settled.hit {memo : ExportMemo} (settled : Settled project memo) {names : Namespace}
    (hit : memo library = some names)
    (stack : List File) (plain : Plain project library) : Settles project stack library ⟨names, ⊤, false⟩ := by
  obtain ⟨absorbed, records⟩ := settled library names hit
  exact ⟨absorbed, fun _ file filter member => .inl ((records plain file filter).mp member),
    fun _ file steps filter recorded => .inl ((records plain file filter).mpr ⟨steps, recorded⟩)⟩

/-- The loop has all that a plain library records, those filters aside that go on from a library it leans on. -/
theorem Settling.records (plain : Plain project library)
    (back : ∀ other ∈ stack, Leads project other library) (whole : state.1.cut = false)
    (covers : Covers project (fun filter => filter = .every) stack library state.1)
    (passed : ∀ edge ∈ project.exportedLibraries library, PassedOn project library (stack ++ [library]) edge state)
    (recorded : Recorded project file steps filter library) :
    filter ∈ state.1.names file ∨ .every ∈ state.1.names file ∨
      ∃ other, Returns stack state.1.low other ∧ Leads project library other ∧
        ∃ fewer ≤ steps, Recorded project file fewer filter other := by
  induction steps using Nat.strong_induction_on generalizing filter with
  | _ steps again =>
    cases recorded with
    | all chain =>
      rcases covers.complete whole file steps chain with ⟨_, all, rfl⟩ | ⟨other, returns, leads, fewer, less, chain⟩
      · exact .inl all
      · exact .inr (.inr ⟨other, returns, leads, fewer, less, .all chain⟩)
    | @export_ steps _ exported outer inner some edge rest =>
      rcases passed _ edge plain whole file steps inner rest
        with kept | all | ⟨other, returns, leads, fewer, less, rest⟩
      · exact .inl kept
      · exact .inr (.inl all)
      · -- The library that the walk came back to leads here, so the export lies on a cycle and adds no combinator.
        have cycle : Leads project other library := by
          obtain ⟨place, found, -⟩ := returns
          rcases mem_append.mp (mem_of_getElem? found) with before | last
          · exact back other before
          · exact mem_singleton.mp last ▸ .refl
        obtain rfl := plain library .refl outer exported edge (leads.trans cycle)
        rw [NameFilter.every_andThen]
        rcases returns_concat returns with inside | rfl
        · exact .inr (.inr ⟨other, inside, leads.head ⟨_, edge⟩, fewer, less.trans (Nat.le_succ _), rest⟩)
        · rcases again fewer (Nat.lt_succ_of_le less) rest
            with kept | all | ⟨last, inside, leads, least, below, rest⟩
          · exact .inl kept
          · exact .inr (.inl all)
          · exact .inr (.inr ⟨last, inside, leads, least, by omega, rest⟩)

/-- A result that leans on nothing has exactly the filters that a plain library records. -/
theorem Settles.exact {walk : ExportWalk} (settles : Settles project stack library walk)
    (covers : Covers project (fun filter => filter = .every) stack library walk) (whole : walk.cut = false)
    (alone : ∀ other, ¬ Returns stack walk.low other) (filter : NameFilter) :
    filter ∈ walk.names file ↔ ∃ steps, Recorded project file steps filter library := by
  constructor
  · intro member
    rcases settles.sound whole file filter member with recorded | ⟨steps, chain⟩
    · exact recorded
    · rcases covers.complete whole file steps chain with ⟨_, all, rfl⟩ | ⟨other, returns, -⟩
      · rw [settles.absorbed file all] at member
        rw [mem_singleton.mp member]
        exact ⟨steps, .all chain⟩
      · exact absurd returns (alone other)
  · rintro ⟨steps, recorded⟩
    rcases settles.complete whole file steps filter recorded with kept | all | ⟨other, returns, -⟩
    · exact kept
    · rwa [recorded.eq_every (exportsAll_of_mem covers all)]
    · exact absurd returns (alone other)

/-- Whatever an instance has kept, a walk of a plain library has the filters that the library records. -/
theorem settles_exportsOf {remaining : Nat} {memo : ExportMemo} {stack : List File} (settled : Settled project memo)
    (complete : Complete project (fun filter => filter = .every) memo)
    (back : ∀ other ∈ stack, Leads project other library) :
    Settled project (project.exportsOf remaining memo stack library).2 ∧
      (Plain project library → Settles project stack library (project.exportsOf remaining memo stack library).1) := by
  induction remaining generalizing memo stack library with
  | zero =>
    unfold Project.exportsOf
    cases hit : memo library with
    | some names => exact ⟨settled, settled.hit hit stack⟩
    | none =>
      refine ⟨settled, fun _ => ⟨?_, ?_, ?_⟩⟩
      · intro file all
        cases all
      · intro whole
        cases whole
      · intro whole
        cases whole
  | succ remaining ih =>
    have covers := (@covers_exportsOf _ _ library composes_every (remaining + 1) _ stack complete).2
    rw [Project.exportsOf] at covers ⊢
    cases hit : memo library with
    | some names => exact ⟨settled, settled.hit hit stack⟩
    | none =>
      rw [hit] at covers
      dsimp only at covers ⊢
      have begun : Settling project library (⟨project.ownNames library, ⊤, false⟩, memo) := by
        refine ⟨settled, complete, fun file => ?_, fun _ _ file filter member => .inr ?_⟩
        · exact foldlRecOn _ _ (motive := fun names : Namespace => Absorbed (names file))
            (fun all => by cases all)
            fun names absorbed member _ => absorbed.addFilter member .every
        · have own := (ownNames_iff (p := fun _ => True) ⟨trivial, fun _ _ => by simp⟩).mp ⟨filter, member, trivial⟩
          exact ⟨0, .own own⟩
      have here : ∀ other ∈ stack ++ [library], Leads project other library := by
        intro other member
        rcases mem_append.mp member with before | single
        · exact back other before
        · exact mem_singleton.mp single ▸ .refl
      have onward (edge : NameFilter × File) (taken : edge ∈ project.exportedLibraries library) :
          ∀ other ∈ stack ++ [library], Leads project other edge.2 :=
        fun other member => (here other member).tail ⟨edge.1, taken⟩
      have settles := Folds.foldl_settles
        (exportStep (fun memo exported => project.exportsOf remaining memo (stack ++ [library]) exported)
          (stack ++ [library]))
        (Settling project library) (PassedOn project library (stack ++ [library]))
          (project.exportedLibraries library)
        (fun edge _ _ _ _ passed => passed.stays edge)
        (fun edge taken _ settling => settling.step taken here fun _ settled complete =>
          ih settled complete (onward edge taken)) begun
      generalize (project.exportedLibraries library).foldl _ _ = state at settles covers ⊢
      obtain ⟨settling, -, passed⟩ := settles
      have exported (plain : Plain project library) : Settles project stack library state.1 :=
        ⟨settling.absorbed, fun whole => settling.sound plain whole,
          fun whole _ _ _ recorded => Settling.records plain back whole covers passed recorded⟩
      refine ⟨?_, exported⟩
      split
      · rename_i alone
        intro other names found
        by_cases same : other = library
        · subst same
          rw [Function.update_self] at found
          rw [← Option.some.inj found]
          refine ⟨settling.absorbed, fun plain file filter => ?_⟩
          exact (exported plain).exact covers (by simpa using alone.2)
            (fun last returns => absurd (lt_length_of_returns returns) (not_lt.mpr alone.1)) filter
        · rw [Function.update_of_ne same] at found
          exact settling.settled other names found
      · exact settling.settled

end Namespaces

section Answers

variable {project : Project} {memos other : Memos} {source decl library : File} {scope : FileScope}
  {written name : Text} {libraries : List (NameFilter × File)}

/-- An import, and some chain of exports from its library, let a name through. -/
def LetsIn (project : Project) (decl : File) (name : Text) (imported : NameFilter × File) : Prop :=
  imported.1.lets name ∧ ∃ steps, Chain project (fun filter => filter.lets name = true) decl steps imported.2

/-- The imports of a prefix bring in a name of a file. -/
def Brings (project : Project) (scope : FileScope) (written : Text) (decl : File) (name : Text) : Prop :=
  ∃ libraries, project.importedLibraries scope written = some libraries ∧
    ∃ imported ∈ libraries, LetsIn project decl name imported

/-- What a file can name: its own, what its imports bring in, and all where the library or the prefix is unknown. -/
def CanSee (project : Project) (source : File) (written : Option Text) (decl : File) (name : Text) : Prop :=
  written = none ∧ source = decl ∨ match project.scopeOf source with
    | none => True
    | some scope => match written with
      | none => decl ∈ scope.own ∨ name.head? ≠ some '_' ∧ Brings project scope [] decl name
      | some written => project.importedLibraries scope written = none ∧ written ≠ [] ∨
          name.head? ≠ some '_' ∧ Brings project scope written decl name

/-- The tables of an instance hold what they stand for. -/
structure Sound (project : Project) (memos : Memos) : Prop where
  lets : ∀ name, Complete project (fun filter => filter.lets name = true) memos.exports
  all : Complete project (fun filter => filter = .every) memos.exports
  settled : Settled project memos.exports
  visible : ∀ source scope written decl libraries filters, project.scopeOf source = some scope →
    project.importedLibraries scope written = some libraries → memos.visible (source, written, decl) = some filters →
    (∀ imported ∈ libraries, Shallow project imported.2) →
    ∀ name, (∃ filter ∈ filters, filter.lets name = true) ↔ ∃ imported ∈ libraries, LetsIn project decl name imported

theorem sound_fresh : Sound project .fresh := by
  constructor
  · intro name library names found
    cases found
  · intro library names found
    cases found
  · intro library names found
    cases found
  · intro source scope written decl libraries filters known found entry
    cases entry

/-- The loop over the imports collects filters that let through what the imports do. -/
theorem imports_let_through {state : List NameFilter × ExportMemo}
    (complete : ∀ name, Complete project (fun filter => filter.lets name = true) state.2)
    (shallow : ∀ imported ∈ libraries, Shallow project imported.2) (name : Text) :
    (∃ filter ∈ (libraries.foldl (project.importStep decl) state).1, filter.lets name = true) ↔
      (∃ filter ∈ state.1, filter.lets name = true) ∨ ∃ imported ∈ libraries, LetsIn project decl name imported := by
  induction libraries generalizing state with
  | nil => simp
  | cons imported libraries ih =>
    have next (name : Text) : Complete project (fun filter => filter.lets name = true)
      (project.importStep decl state imported).2 :=
      (covers_exportsOf (composes_lets name) [] (complete name)).1
    have here := @complete_exportsOf _ _ decl _ (composes_lets name) _ (complete name)
      (shallow imported mem_cons_self)
    have step : (∃ filter ∈ (project.importStep decl state imported).1, filter.lets name = true) ↔
        (∃ filter ∈ state.1, filter.lets name = true) ∨ LetsIn project decl name imported := by
      refine (mem_pushThrough (composes_lets name)).trans (or_congr_right (and_congr_right fun _ => ?_))
      exact here
    rw [foldl_cons, ih next (fun other member => shallow other (mem_cons_of_mem _ member)), step, or_assoc]
    simp only [mem_cons, exists_eq_or_imp]

/-- Every query keeps the memos sound. -/
theorem keeps_sound : Keeps project (Sound project) := by
  have walk (memo : ExportMemo) (library : File)
    (lets : ∀ name, Complete project (fun filter => filter.lets name = true) memo)
      (all : Complete project (fun filter => filter = .every) memo) (settled : Settled project memo) :
      (∀ name, Complete project (fun filter => filter.lets name = true)
        (project.exportsOf exportDepthLimit memo [] library).2) ∧
        Complete project (fun filter => filter = .every) (project.exportsOf exportDepthLimit memo [] library).2 ∧
        Settled project (project.exportsOf exportDepthLimit memo [] library).2 :=
    ⟨fun name => (covers_exportsOf (composes_lets name) [] (lets name)).1, (covers_exportsOf composes_every [] all).1,
      (settles_exportsOf settled all fun _ none => absurd none not_mem_nil).1⟩
  constructor
  · intro memos source scope written decl known sound
    unfold Project.importedFilters
    split
    · exact sound
    · rename_i libraries found
      split
      · exact sound
      · dsimp only
        have kept : (∀ name, Complete project (fun filter => filter.lets name = true)
          (libraries.foldl (project.importStep decl) ([], memos.exports)).2) ∧
            Complete project (fun filter => filter = .every)
              (libraries.foldl (project.importStep decl) ([], memos.exports)).2 ∧
            Settled project (libraries.foldl (project.importStep decl) ([], memos.exports)).2 :=
          foldlRecOn _ _ (motive := fun state : List NameFilter × ExportMemo =>
              (∀ name, Complete project (fun filter => filter.lets name = true) state.2) ∧
                Complete project (fun filter => filter = .every) state.2 ∧ Settled project state.2)
            ⟨sound.lets, sound.all, sound.settled⟩ fun state kept imported _ =>
              walk state.2 imported.2 kept.1 kept.2.1 kept.2.2
        refine ⟨kept.1, kept.2.1, kept.2.2, ?_⟩
        intro source' scope' written' decl' libraries' filters known' found' entry shallow name
        dsimp only at entry
        by_cases same : (source', written', decl') = (source, written, decl)
        · rw [same, Function.update_self] at entry
          obtain ⟨rfl, rfl, rfl⟩ : source' = source ∧ written' = written ∧ decl' = decl := by simpa using same
          obtain rfl := Option.some.inj (known.symm.trans known')
          obtain rfl := Option.some.inj (found.symm.trans found')
          rw [← Option.some.inj entry, imports_let_through sound.lets shallow name]
          simp
        · rw [Function.update_of_ne same] at entry
          exact sound.visible source' scope' written' decl' libraries' filters known' found' entry shallow name
  · intro memos library sound
    obtain ⟨lets, all, settled⟩ := walk memos.exports library sound.lets sound.all sound.settled
    exact ⟨lets, all, settled, sound.visible⟩

theorem sound_after (queries : List Query) : Sound project (project.after queries) :=
  keeps_sound.after sound_fresh queries

/-- The filters of the imports of a prefix let through what the imports bring in. -/
theorem importedFilters_let_through (sound : Sound project memos) (known : project.scopeOf source = some scope)
    (found : project.importedLibraries scope written = some libraries)
    (shallow : ∀ imported ∈ libraries, Shallow project imported.2) :
    ∃ filters, (project.importedFilters memos source scope written decl).1 = some filters ∧
      (filters.any (·.lets name) = true ↔ Brings project scope written decl name) := by
  have brings (filters : List NameFilter)
      (right : (∃ filter ∈ filters, filter.lets name = true) ↔
        ∃ imported ∈ libraries, LetsIn project decl name imported) :
      filters.any (·.lets name) = true ↔ Brings project scope written decl name := by
    rw [any_eq_true, right, Brings, found]
    simp
  unfold Project.importedFilters
  rw [found]
  dsimp only
  split
  · rename_i hit entry
    exact ⟨hit, rfl, brings hit (sound.visible source scope written decl libraries hit known found entry shallow name)⟩
  · refine ⟨_, rfl, brings _ ?_⟩
    rw [imports_let_through sound.lets shallow name]
    simp

/-- The libraries that the imports of a prefix name in a file. -/
def Project.importedBy (project : Project) (source : File) (written : Text) : List File :=
  match project.scopeOf source with
  | none => []
  | some scope => ((project.importedLibraries scope written).getD []).map Prod.snd

/-- The libraries of which a query reads the exports. -/
def Project.librariesOf (project : Project) : Query → List File
  | .namespaceOf library => [library]
  | .sees source written _ _ => project.importedBy source (written.getD [])
  | .reachOf source _ _ => match project.scopeOf source with
    | none => []
    | some scope => ([] :: project.importPrefixes scope).flatMap (project.importedBy source)

/-- An answer says what a file can see where no chain of exports from its imports is cut. -/
theorem sees_iff (sound : Sound project memos) {written : Option Text}
    (shallow : ∀ library ∈ project.importedBy source (written.getD []), Shallow project library) :
    (project.sees memos source written decl name).1 = true ↔ CanSee project source written decl name := by
  unfold Project.sees CanSee
  split
  · rename_i own
    rw [Bool.and_eq_true, Option.isNone_iff_eq_none, decide_eq_true_eq] at own
    exact iff_of_true rfl (.inl own)
  · rename_i other
    rw [Bool.and_eq_true, Option.isNone_iff_eq_none, decide_eq_true_eq] at other
    rw [or_iff_right other]
    cases known : project.scopeOf source with
    | none => exact iff_of_true rfl trivial
    | some scope =>
      have all (written : Text) (libraries : List (NameFilter × File))
        (found : project.importedLibraries scope written = some libraries)
          (shallow : ∀ library ∈ project.importedBy source written, Shallow project library) :
          ∀ imported ∈ libraries, Shallow project imported.2 := by
        intro imported member
        refine shallow imported.2 ?_
        rw [Project.importedBy, known]
        dsimp only
        rw [found]
        exact mem_map_of_mem member
      cases written with
      | none =>
        dsimp only
        split
        · rename_i own
          exact iff_of_true rfl (.inl own)
        · rename_i foreign
          rw [or_iff_right foreign]
          split
          · rename_i hidden
            exact iff_of_false Bool.false_ne_true fun visible => visible.1 hidden
          · rename_i open_
            rw [and_iff_right open_]
            cases found : project.importedLibraries scope [] with
            | none => simp [Project.importedFilters, found, Brings]
            | some libraries =>
              obtain ⟨filters, read, right⟩ := @importedFilters_let_through _ _ _ decl _ _ name _ sound known
                found (all [] libraries found shallow)
              dsimp only
              rw [read, Option.any_some]
              exact right
      | some written =>
        dsimp only
        cases found : project.importedLibraries scope written with
        | none =>
          by_cases bare : written = []
          · subst bare
            simp [Project.importedFilters, found, Brings]
          · simp [Project.importedFilters, found, bare]
        | some libraries =>
          obtain ⟨filters, read, right⟩ := @importedFilters_let_through _ _ _ decl _ _ name _ sound known found
            (all written libraries found shallow)
          split
          · rename_i unread
            rw [unread] at read
            cases read
          · rename_i again
            rw [again] at read
            obtain rfl := Option.some.inj read
            rw [Bool.and_eq_true, decide_eq_true_eq, right]
            simp

theorem sees_agree (sound : Sound project memos) (sound' : Sound project other) {written : Option Text}
    (shallow : ∀ library ∈ project.importedBy source (written.getD []), Shallow project library) :
    (project.sees memos source written decl name).1 = (project.sees other source written decl name).1 :=
  Bool.eq_iff_iff.mpr ((sees_iff sound shallow).trans (sees_iff sound' shallow).symm)

/-- The loop over the prefixes answers alike from any two instances. -/
theorem prefixes_agree {prefixes : List Text} {state state' : List (Text × Bool) × Memos} (same : state.1 = state'.1)
    (sound : Sound project state.2) (sound' : Sound project state'.2)
    (shallow : ∀ written ∈ prefixes, ∀ library ∈ project.importedBy source written, Shallow project library) :
    (prefixes.foldl (fun state written =>
        let (seen, memos) := project.sees state.2 source (some written) decl name
        (state.1 ++ [(written, seen)], memos)) state).1 =
      (prefixes.foldl (fun state written =>
        let (seen, memos) := project.sees state.2 source (some written) decl name
        (state.1 ++ [(written, seen)], memos)) state').1 := by
  induction prefixes generalizing state state' with
  | nil => exact same
  | cons written prefixes ih =>
    have first := shallow written mem_cons_self
    refine ih ?_ (keeps_sound.sees sound (some written)) (keeps_sound.sees sound' (some written))
      fun later member => shallow later (mem_cons_of_mem _ member)
    dsimp only
    rw [same, @sees_agree _ _ _ _ _ _ sound sound' (some written) first]

/-- An answer does not depend on the queries before it, if no simple chain of exports that it follows is longer than
the limit and, for a namespace, no export with combinators that it follows lies on a cycle. -/
theorem answers_agree (project : Project) (first second : List Query) (query : Query)
    (shallow : ∀ library ∈ project.librariesOf query, Shallow project library)
    (plain : ∀ library, query = .namespaceOf library → Plain project library) :
    (project.ask (project.after first) query).1 = (project.ask (project.after second) query).1 := by
  have sound : Sound project (project.after first) := sound_after first
  have sound' : Sound project (project.after second) := sound_after second
  cases query with
  | namespaceOf library =>
    have within := shallow library (mem_singleton_self library)
    have records {memos : Memos} (sound : Sound project memos) (file : File) (filter : NameFilter) :
        filter ∈ (project.exportsOf exportDepthLimit memos.exports [] library).1.names file ↔
          ∃ steps, Recorded project file steps filter library := by
      have covers := (@covers_exportsOf _ _ library composes_every exportDepthLimit _ [] sound.all).2
      have uncut := @uncut_exportsOf _ _ _ within exportDepthLimit memos.exports []
        ⟨nodup_singleton _, isChain_singleton _⟩ rfl rfl
      have settles := (@settles_exportsOf _ library exportDepthLimit _ _ sound.settled sound.all
        fun _ none => absurd none not_mem_nil).2 (plain library rfl)
      exact settles.exact covers uncut (fun _ => not_returns_nil) filter
    have same : (project.namespaceOf (project.after first) library).1 =
      (project.namespaceOf (project.after second) library).1 := by
      funext file
      ext filter
      show filter ∈ toFinset _ ↔ filter ∈ toFinset _
      rw [mem_toFinset, mem_toFinset, records sound, records sound']
    exact congrArg Answer.names same
  | sees source written decl name => exact congrArg Answer.seen (sees_agree sound sound' shallow)
  | reachOf source decl name =>
    have same : (project.reachOf (project.after first) source decl name).1 =
      (project.reachOf (project.after second) source decl name).1 := by
      unfold Project.librariesOf at shallow
      unfold Project.reachOf
      dsimp only at shallow ⊢
      cases known : project.scopeOf source with
      | none =>
        have bare : ∀ library ∈ project.importedBy source [], Shallow project library := by
          intro library member
          rw [Project.importedBy, known] at member
          cases member
        dsimp only
        rw [@sees_agree _ _ _ _ _ _ sound sound' none bare]
      | some scope =>
        rw [known] at shallow
        have each (written : Text) (member : written ∈ [] :: project.importPrefixes scope) :
            ∀ library ∈ project.importedBy source written, Shallow project library :=
          fun library imported => shallow library (mem_flatMap.mpr ⟨written, member, imported⟩)
        have bare := @sees_agree _ _ _ _ decl name sound sound' none (each [] mem_cons_self)
        dsimp only
        refine prefixes_agree (by rw [bare]) ?_ ?_ fun written member =>
          each written (mem_cons_of_mem _ member)
        · exact keeps_sound.imports _ source scope [] decl known (keeps_sound.sees sound none)
        · exact keeps_sound.imports _ source scope [] decl known (keeps_sound.sees sound' none)
    exact congrArg Answer.reach same

theorem plain_of_every
    (bare : ∀ file directives, project.directivesOf file = some directives → ∀ directive ∈ directives.exports,
    directive.filter = .every) : Plain project library := by
  intro near _ filter exported edge _
  obtain ⟨file, -, listed⟩ := mem_flatMap.mp edge
  split at listed
  · cases listed
  · rename_i directives read
    obtain ⟨directive, among, listed⟩ := mem_flatMap.mp listed
    obtain ⟨uri, -, listed⟩ := mem_flatMap.mp listed
    obtain ⟨target, -, found⟩ := mem_filterMap.mp listed
    obtain ⟨_, -, same⟩ := Option.map_eq_some_iff.mp found
    rw [← (Prod.mk.inj same).1]
    exact bare file directives read directive among

/-- Two libraries that export each other. -/
theorem answers_agree_mutual : let project := mutualExports .every .every
    (project.ask (project.after [.namespaceOf "a.dart".toList]) (.namespaceOf "b.dart".toList)).1 =
      (project.ask (project.after []) (.namespaceOf "b.dart".toList)).1 := by
  refine answers_agree (mutualExports .every .every) _ _ _
    (fun library _ path simple _ => simple.length_le.trans (by decide)) fun library _ => ?_
  refine plain_of_every fun file directives read directive among => ?_
  unfold mutualExports at read
  dsimp only at read
  split at read
  · rw [← Option.some.inj read] at among
    rw [mem_singleton.mp among]
  · split at read
    · rw [← Option.some.inj read] at among
      rcases mem_cons.mp among with rfl | last
      · rfl
      · rw [mem_singleton.mp last]
    · split at read
      · rw [← Option.some.inj read] at among
        cases among
      · cases read

def chainFile (place : Nat) : File :=
  ['c', Char.ofNat (97 + place / 26), Char.ofNat (97 + place % 26)] ++ ".dart".toList

/-- A file imports the first of libraries that each export the next. -/
def deepExports (length : Nat) : Project :=
  { indexed := "m.dart".toList :: (List.range length).map chainFile
    dartFiles := "m.dart".toList :: (List.range length).map chainFile
    directivesOf := fun file =>
      if file = "m.dart".toList then some ⟨none, none, [], [⟨[chainFile 0], none, .every⟩], []⟩
      else ((List.range length).find? (chainFile · = file)).map fun place =>
        ⟨none, none, [], [], if place + 1 = length then [] else [⟨[chainFile (place + 1)], none, .every⟩]⟩
    resolveDartUri := fun _ uri => [uri]
    inPackage := fun _ => true
    known := by
      intro file read
      split at read
      · rename_i main
        exact main ▸ List.mem_cons_self
      · rw [Option.isSome_map, Option.isSome_iff_exists] at read
        obtain ⟨place, found⟩ := read
        have same := List.find?_some found
        rw [decide_eq_true_eq] at same
        exact List.mem_cons_of_mem _ (List.mem_map.mpr ⟨place, List.mem_of_find?_eq_some found, same⟩) }

/-- A namespace that was read first brings the end of a long chain into sight, and one on a cycle shows another
filter. -/
theorem answers_depend_on_order :
    ((deepExports 67).sees ((deepExports 67).after []) "m.dart".toList none (chainFile 66) "X".toList).1 = false ∧
      ((deepExports 67).sees ((deepExports 67).after [.namespaceOf (chainFile 10)]) "m.dart".toList none
        (chainFile 66) "X".toList).1 = true ∧
      let cycle := mutualExports (.new none (some {"X".toList})) (.new (some {"X".toList, "Y".toList}) none)
      (cycle.namespaceOf (cycle.after []) "b.dart".toList).1 "d.dart".toList ≠
        (cycle.namespaceOf (cycle.after [.namespaceOf "a.dart".toList]) "b.dart".toList).1 "d.dart".toList := by
  decide +kernel

end Answers

end Codegraph.Dart
