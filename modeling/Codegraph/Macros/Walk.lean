import Codegraph.Macros.Directives

/- This file walks the directives of a translation unit in the order in which they are included. -/

namespace Codegraph.Macros
open Watch.Scope (Text)
open Cpp.Flattening (trim)

/-- The files that can be read, and where their includes lead. -/
structure Project where
  readFile : Text → Option Text
  resolveInclude : (file : Text) → (quote : Char) → (spec : Text) → Option Text
  wideWord : Char → Bool

def Project.events (project : Project) (file : Text) : List FileEvent :=
  summarize project.wideWord ((project.readFile file).getD [])

/-- For each macro name the lines of the root at which it changes, and the line from which on nothing is known. -/
structure Timeline where
  events : Text → List (Nat × Truth) := fun _ => []
  cutoff : Option Nat := none

namespace Timeline

variable (timeline : Timeline) (name : Text) (line : Nat)

/-- What is known of a name behind a line. -/
def lookup : Option Truth := ((timeline.events name).reverse.find? fun event => event.1 ≤ line).map Prod.snd

/-- The name is definitely visible as a macro at a line. -/
def visible : Bool := !timeline.cutoff.any (· ≤ line) && timeline.lookup name line = some (some true)

end Timeline

structure Definition where
  defined : Truth := none
  value : Truth := none
  macro_ : Truth := none
  deriving DecidableEq

structure Frame where
  file : Text
  /-- The events that are still to come. -/
  events : List FileEvent
  inherited : Truth
  active : Truth
  /-- What was active before each open `#if`, and whether a branch of it is taken, from the innermost on. -/
  branches : List (Truth × Truth)
  /-- The line of the root that leads here. -/
  includeLine : Option Nat
  start : Nat
  firstCut : Nat

def Frame.at_ (frame : Frame) (line : Nat) : Nat := frame.includeLine.getD line

/-- What a finished visit of a file saw. -/
structure Visit where
  inherited : Truth
  start : Nat
  stop : Nat
  cuts : List Text

/-- All that a directive can observe. A name without a definition reads as a blank one, a file without `#pragma once`
as false. -/
structure Known where
  definitions : Text → Definition := fun _ => {}
  macroNames : Finset Text := ∅
  once : Text → Truth := fun _ => some false

/-- The state of a walk over the files. -/
structure Walk extends Known where
  stack : List Frame := []
  scanning : Finset Text := ∅
  timeline : Timeline := {}
  /-- Grows with every change that a later directive could observe. -/
  version : Nat := 0
  /-- The include cycles that were cut, in the order of the visits. -/
  cuts : List Text := []
  visits : Text → Option Visit := fun _ => none
  budget : Nat

namespace Known

variable (known : Known)

def condition (expression : Text) : Truth :=
  evaluate expression fun name => ⟨(known.definitions name).defined, (known.definitions name).value⟩

/-- What a definition or its end makes of a name. -/
def redefined (name : Text) (active : Truth) (defining macroNow : Bool) (value : Text) : Definition :=
  let prior := known.definitions name
  { defined := if defining then Truth.or prior.defined active else Truth.and prior.defined (Truth.not active)
    value := if defining ∧ active = some true then known.condition value else none
    macro_ := if active = some true ∨ prior.macro_ = some macroNow then some macroNow else none }

/-- What is selected by the test of an opening branch. -/
def selected (op : BranchOp) (expression : Text) (guard : Bool) : Truth :=
  let tested := (known.definitions (trim expression)).defined
  let found := match op with
    | .if_ => known.condition expression
    | .ifndef => Truth.not tested
    | _ => tested
  if found = none ∧ guard then some true else found

/-- A branch changes what is active, and the open branches. -/
def branch (inherited active : Truth) (branches : List (Truth × Truth)) (op : BranchOp) (expression : Text)
    (guard : Bool) :
    Truth × List (Truth × Truth) :=
  match op with
  | .if_ | .ifdef | .ifndef =>
    let selected := known.selected op expression guard
    (Truth.and active selected, (active, selected) :: branches)
  | .endif =>
    match branches with
    | (parent, _) :: rest => (parent, rest)
    | [] => (inherited, [])
  | .elif | .else_ =>
    let test := if op = .else_ then some true else known.condition expression
    match branches with
    | (parent, taken) :: rest =>
      (Truth.and parent (Truth.and (Truth.not taken) test), (parent, Truth.or taken test) :: rest)
    | [] => (active, [])

end Known

namespace Walk

variable (project : Project) (skips : Bool) (walk : Walk)

/-- An earlier visit that changed nothing, where nothing has changed since, and whose cycles are still cut. -/
def repeated (file : Text) (inherited : Truth) : Option Visit :=
  (walk.visits file).filter fun seen =>
    seen.inherited = inherited ∧ seen.start = seen.stop ∧ seen.stop = walk.version ∧
      ∀ cut ∈ seen.cuts, cut ∈ walk.scanning

/-- A file is entered, unless it is not active, is not to be entered again, is open, or would repeat an earlier visit.
-/
def enter (file : Text) (inherited : Truth) (includeLine : Option Nat) : Walk :=
  if inherited = some false ∨ walk.once file = some true then walk
  else if file ∈ walk.scanning then { walk with cuts := walk.cuts ++ [file] }
  else match if skips then walk.repeated file inherited else none with
    | some seen => { walk with cuts := walk.cuts ++ seen.cuts }
    | none =>
      { walk with
        scanning := insert file walk.scanning
        stack :=
          { file, events := project.events file, inherited, active := inherited, branches := [], includeLine,
            start := walk.version, firstCut := walk.cuts.length } :: walk.stack }

/-- A finished visit is remembered with the cycles it cut. -/
def leave (frame : Frame) : Walk :=
  let own := (walk.cuts.drop frame.firstCut).eraseDups
  { walk with
    scanning := walk.scanning.erase frame.file
    cuts := walk.cuts.take frame.firstCut ++ own
    visits := Function.update walk.visits frame.file (some ⟨frame.inherited, frame.start, walk.version, own⟩) }

def record (name : Text) (line : Nat) (active : Truth) (defining macroNow functionLike : Bool) (value : Text) : Walk :=
  let next := walk.redefined name active defining macroNow value
  let macroNames := if functionLike then insert name walk.macroNames else walk.macroNames
  { walk with
    definitions := Function.update walk.definitions name next
    macroNames
    version :=
      walk.version + (if walk.definitions name = next then 0 else 1) +
        (if functionLike ∧ name ∉ walk.macroNames then 1 else 0)
    timeline :=
      if name ∈ macroNames then
        { walk.timeline with
          events := Function.update walk.timeline.events name (walk.timeline.events name ++ [(line, next.macro_)]) }
      else walk.timeline }

def setOnce (file : Text) (active : Truth) : Walk :=
  let next := Truth.or (walk.once file) active
  { walk with
    once := Function.update walk.once file next
    version := if next ≠ walk.once file then walk.version + 1 else walk.version }

/-- The event of a frame, which is not on the stack, takes place. -/
def handle (frame : Frame) (event : FileEvent) : Walk :=
  match event with
  | .branch op expression guard _ =>
    let next := walk.branch frame.inherited frame.active frame.branches op expression guard
    { walk with stack := { frame with active := next.1, branches := next.2 } :: walk.stack }
  | event =>
    let walk := { walk with stack := frame :: walk.stack }
    if frame.active = some false then walk
    else match event with
      | .branch .. => walk
      | .once _ => walk.setOnce frame.file frame.active
      | .inclusion quote spec line =>
        match project.resolveInclude frame.file quote spec with
        | some target => walk.enter project skips target frame.active (some (frame.at_ line))
        | none => walk
      | .define name line functionLike value wrapsItself =>
        walk.record name (frame.at_ line) frame.active true (functionLike && !wrapsItself) functionLike value
      | .undef name line => walk.record name (frame.at_ line) frame.active false false false []

/-- The walk goes on, or its timeline is complete. -/
inductive Outcome where
  | running (walk : Walk)
  | finished (timeline : Timeline)

/-- Past the budget the timeline is unknown from the line on. -/
def next : Outcome :=
  match walk.stack with
  | [] => .finished walk.timeline
  | frame :: below =>
    match frame.events with
    | [] => .running ({ walk with stack := below }.leave frame)
    | event :: rest =>
      if walk.budget = 0 then .finished { walk.timeline with cutoff := some (frame.at_ event.line) }
      else .running
        ({ walk with stack := below, budget := walk.budget - 1 }.handle project skips
          { frame with events := rest } event)

section Stacks

variable {project skips walk}

theorem enter_stack {file : Text} {inherited : Truth} {includeLine : Option Nat} :
    (walk.enter project skips file inherited includeLine).stack.length ≤ walk.stack.length + 1 := by
  unfold enter
  split
  · exact Nat.le_succ _
  · split
    · exact Nat.le_succ _
    · split
      · exact Nat.le_succ _
      · exact Nat.le_refl _

theorem enter_budget {file : Text} {inherited : Truth} {includeLine : Option Nat} :
    (walk.enter project skips file inherited includeLine).budget = walk.budget := by
  unfold enter
  split
  · rfl
  · split
    · rfl
    · split <;> rfl

theorem handle_stack (project : Project) (skips : Bool) (walk : Walk) (frame : Frame) (event : FileEvent) :
    (walk.handle project skips frame event).stack.length ≤ walk.stack.length + 2 := by
  cases event with
  | inclusion quote spec line =>
    simp only [handle]
    split
    · exact Nat.le_succ _
    · split
      · exact enter_stack
      · exact Nat.le_succ _
  | branch => exact Nat.le_succ _
  | define | undef | once =>
    simp only [handle]
    split <;> exact Nat.le_succ _

theorem handle_budget {frame : Frame} {event : FileEvent} :
    (walk.handle project skips frame event).budget = walk.budget := by
  cases event with
  | inclusion quote spec line =>
    simp only [handle]
    split
    · rfl
    · split
      · exact enter_budget
      · rfl
  | branch => rfl
  | define | undef | once =>
    simp only [handle]
    split <;> rfl

/-- Every step uses up the budget or a frame. -/
theorem next_decreases {after : Walk} (runs : walk.next project skips = .running after) :
    2 * after.budget + after.stack.length < 2 * walk.budget + walk.stack.length := by
  unfold next at runs
  split at runs
  · cases runs
  · rename_i frame below same
    rw [same, List.length_cons]
    split at runs
    · cases runs
      exact Nat.lt_succ_self _
    · split at runs
      · cases runs
      · cases runs
        have stack := handle_stack project skips { walk with stack := below, budget := walk.budget - 1 }
          { frame with events := ‹_› } ‹_›
        rw [handle_budget]
        simp only at stack ⊢
        omega

end Stacks

/-- The timeline that the walk ends with. -/
def run (walk : Walk) : Timeline :=
  match _ : walk.next project skips with
  | .finished timeline => timeline
  | .running after => run after
termination_by 2 * walk.budget + walk.stack.length
decreasing_by exact next_decreases ‹_›

end Walk

def walkEventBudget : Nat := 1000000

/-- The timeline of a root, which is walked with a budget of events. -/
def walkTranslationUnit (project : Project) (skips : Bool) (budget : Nat) (root : Text) : Timeline :=
  (({ budget } : Walk).enter project skips root (some true) none).run project skips

end Codegraph.Macros
