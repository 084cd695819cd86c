import Mathlib.Logic.Basic

/- This file gives programs that keep their state when they stop early, and the rules that bound their outcomes. -/

namespace Interruptible

variable {ε σ α β : Type} {post : α → σ → Prop}

/-- An interrupted program reports why it stopped and leaves the state it had reached. -/
abbrev Program (ε σ α : Type) := ExceptT ε (StateM σ) α

def Program.exec (program : Program ε σ α) (state : σ) : Except ε α × σ :=
  (ExceptT.run program).run state

/-- A pure result is completed or interrupted without touching the state. -/
def Program.lift : Except ε α → Program ε σ α
  | .ok value => pure value
  | .error error => throw error

/-- A program over one part of the state runs inside the whole state. -/
def Program.focus {δ τ : Type} (view : σ → τ) (put : τ → σ → σ) (wrap : ε → δ) (program : Program ε τ α) :
    Program δ σ α :=
  ExceptT.mk fun state =>
    match program.exec (view state) with
    | (.ok value, part) => (.ok value, put part state)
    | (.error error, part) => (.error (wrap error), put part state)

/-- An interrupted program leaves its state to a handler before it stops. -/
def Program.onError (program : Program ε σ α) (handler : ε → σ → σ) : Program ε σ α :=
  ExceptT.mk fun state =>
    match program.exec state with
    | (.ok value, reached) => (.ok value, reached)
    | (.error error, reached) => (.error error, handler error reached)

section Execution

variable (state : σ)

@[simp] theorem exec_pure (value : α) : Program.exec (pure value : Program ε σ α) state = (.ok value, state) := rfl

@[simp] theorem exec_throw (error : ε) : Program.exec (throw error : Program ε σ α) state = (.error error, state) := rfl

@[simp] theorem exec_get : Program.exec (get : Program ε σ σ) state = (.ok state, state) := rfl

@[simp] theorem exec_modify (update : σ → σ) :
    Program.exec (modify update : Program ε σ Unit) state = (.ok (), update state) := rfl

@[simp] theorem exec_lift_ok (value : α) :
    Program.exec (Program.lift (.ok value) : Program ε σ α) state = (.ok value, state) := rfl

@[simp] theorem exec_lift_error (error : ε) :
    Program.exec (Program.lift (.error error) : Program ε σ α) state = (.error error, state) := rfl

theorem exec_bind (program : Program ε σ α) (next : α → Program ε σ β) : Program.exec (program >>= next) state =
      match Program.exec program state with
      | (.ok value, reached) => Program.exec (next value) reached
      | (.error error, reached) => (.error error, reached) := by
  change (ExceptT.run (program >>= next)).run state = _
  rw [ExceptT.run_bind, StateT.run_bind]
  simp only [Program.exec]
  change StateT.run _ _ = _
  rcases StateT.run (ExceptT.run program) state with ⟨outcome | outcome, reached⟩ <;> rfl

end Execution

/-- A postcondition constrains a completed program, and a cut condition an interrupted one. -/
def Outcome (post : α → σ → Prop) (cut : ε → σ → Prop) : Except ε α × σ → Prop
  | (.ok value, reached) => post value reached
  | (.error error, reached) => cut error reached

@[simp] theorem outcome_ok (post : α → σ → Prop) (cut : ε → σ → Prop) (value : α) (reached : σ) :
    Outcome post cut (.ok value, reached) = post value reached := rfl

@[simp] theorem outcome_error (post : α → σ → Prop) (cut : ε → σ → Prop) (error : ε) (reached : σ) :
    Outcome post cut (.error error, reached) = cut error reached := rfl

/-- The reached state is inside both conditions when they agree. -/
theorem outcome_reached {inside : σ → Prop} {ended : Except ε α × σ}
    (holds : Outcome (fun _ => inside) (fun _ => inside) ended) : inside ended.2 := by
  rcases ended with ⟨_ | _, reached⟩
  · exact holds
  · exact holds

/-- From every state of the precondition the program ends inside its two conditions. -/
def Establishes (pre : σ → Prop) (program : Program ε σ α)
    (post : α → σ → Prop) (cut : ε → σ → Prop) : Prop :=
  ∀ state, pre state → Outcome post cut (program.exec state)

variable {pre : σ → Prop} {cut : ε → σ → Prop} {program : Program ε σ α}

theorem Establishes.pure (value : α) (holds : ∀ state, pre state → post value state) :
    Establishes pre (pure value : Program ε σ α) post cut := by
  intro state inside
  simpa only [exec_pure, outcome_ok] using holds state inside

theorem Establishes.throw (error : ε) (holds : ∀ state, pre state → cut error state) :
    Establishes pre (throw error : Program ε σ α) post cut := by
  intro state inside
  simpa only [exec_throw, outcome_error] using holds state inside

theorem Establishes.modify {post : Unit → σ → Prop} (update : σ → σ)
    (holds : ∀ state, pre state → post () (update state)) :
    Establishes pre (modify update : Program ε σ Unit) post cut := by
  intro state inside
  simpa only [exec_modify, outcome_ok] using holds state inside

/-- The first program's postcondition is the second program's precondition. -/
theorem Establishes.bind {mid : α → σ → Prop} {post : β → σ → Prop}
    {next : α → Program ε σ β} (first : Establishes pre program mid cut)
    (second : ∀ value, Establishes (mid value) (next value) post cut) :
    Establishes pre (program >>= next) post cut := by
  intro state inside
  have reached := first state inside
  rw [exec_bind]
  rcases ended : program.exec state with ⟨error | value, middle⟩ <;> rw [ended] at reached
  · exact reached
  · exact second value middle reached

/-- Reading the state first fixes its value for the rest of the program. -/
theorem Establishes.read {post : β → σ → Prop} {next : σ → Program ε σ β}
    (rest : ∀ seen, Establishes (fun state => pre state ∧ state = seen) (next seen) post cut) :
    Establishes pre (MonadState.get >>= next) post cut := by
  intro state inside
  rw [exec_bind]
  exact rest state state ⟨inside, rfl⟩

theorem Establishes.ite {condition : Prop} [Decidable condition]
    {yes no : Program ε σ α} (taken : condition → Establishes pre yes post cut)
    (skipped : ¬ condition → Establishes pre no post cut) :
    Establishes pre (if condition then yes else no) post cut := by
  by_cases decision : condition
  · rw [if_pos decision]
    exact taken decision
  · rw [if_neg decision]
    exact skipped decision

theorem Establishes.lift {result : Except ε α}
    (completed : ∀ value, result = .ok value → ∀ state, pre state → post value state)
    (stopped : ∀ error, result = .error error → ∀ state, pre state → cut error state) :
    Establishes pre (Program.lift result : Program ε σ α) post cut := by
  intro state inside
  rcases result with error | value
  · exact stopped error rfl state inside
  · exact completed value rfl state inside

/-- The inner program moves only its own part of the state. -/
theorem Establishes.focus {δ τ : Type} {view : σ → τ} {put : τ → σ → σ} {wrap : ε → δ}
    {program : Program ε τ α} {cut : δ → σ → Prop}
    (completed : ∀ state value part, pre state → program.exec (view state) = (.ok value, part) →
      post value (put part state))
    (stopped : ∀ state error part, pre state → program.exec (view state) = (.error error, part) →
      cut (wrap error) (put part state)) : Establishes pre (Program.focus view put wrap program) post cut := by
  intro state inside
  change Outcome post cut (match program.exec (view state) with
    | (.ok value, part) => (.ok value, put part state)
    | (.error error, part) => (.error (wrap error), put part state))
  rcases ended : program.exec (view state) with ⟨error | value, part⟩
  · exact stopped state error part inside ended
  · exact completed state value part inside ended

theorem Establishes.onError {inner : ε → σ → Prop} {handler : ε → σ → σ} (body : Establishes pre program post inner)
    (handled : ∀ error state, inner error state → cut error (handler error state)) :
    Establishes pre (Program.onError program handler) post cut := by
  intro state inside
  have reached := body state inside
  change Outcome post cut (match program.exec state with
    | (.ok value, reached) => (.ok value, reached)
    | (.error error, reached) => (.error error, handler error reached))
  rcases ended : program.exec state with ⟨error | value, middle⟩ <;> rw [ended] at reached
  · exact handled error middle reached
  · exact reached

/-- A stronger precondition and weaker conditions keep the outcome. -/
theorem Establishes.consequence {pre' : σ → Prop} {post' : α → σ → Prop} {cut' : ε → σ → Prop}
    (known : Establishes pre' program post' cut') (before : ∀ state, pre state → pre' state)
    (after : ∀ value state, post' value state → post value state)
    (stopped : ∀ error state, cut' error state → cut error state) : Establishes pre program post cut := by
  intro state inside
  have reached := known state (before state inside)
  rcases ended : program.exec state with ⟨error | value, middle⟩ <;> rw [ended] at reached
  · exact stopped error middle reached
  · exact after value middle reached

/-- A program may start in fewer states. -/
theorem Establishes.starting {pre' : σ → Prop}
    (known : Establishes pre' program post cut) (before : ∀ state, pre state → pre' state) :
    Establishes pre program post cut :=
  known.consequence before (fun _ _ held => held) fun _ _ held => held

/-- The rest of a program may not need what it has read. -/
theorem Establishes.reads {post : β → σ → Prop} {next : σ → Program ε σ β}
    (rest : ∀ seen, Establishes pre (next seen) post cut) : Establishes pre (MonadState.get >>= next) post cut :=
  .read fun seen => (rest seen).starting fun _ inside => inside.1

theorem Establishes.skip (value : α) : Establishes pre (Pure.pure value : Program ε σ α) (fun _ => pre) cut :=
  .pure value fun _ inside => inside

/-- A program that never moves the state goes on from it or stops in it. -/
theorem Establishes.idle (idle : ∀ state, (program.exec state).2 = state)
    (stopped : ∀ error state, pre state → cut error state) : Establishes pre program (fun _ => pre) cut := by
  intro state inside
  have same := idle state
  rcases ended : program.exec state with ⟨error | value, reached⟩ <;> rw [ended] at same <;> cases same
  · exact stopped error _ inside
  · exact inside

/-- The program stays inside the assertion that it starts in, wherever it ends. -/
abbrev Keeps (inside : σ → Prop) (program : Program ε σ α) : Prop :=
  Establishes inside program (fun _ => inside) fun _ => inside

/-- A program completes when no state of its precondition lets it stop early. -/
def Completes (pre : σ → Prop) (program : Program ε σ α) (post : α → σ → Prop) : Prop :=
  Establishes pre program post fun _ _ => False

theorem Completes.exec {state : σ} (completes : Completes pre program post) (inside : pre state) :
    ∃ value reached, program.exec state = (.ok value, reached) ∧ post value reached := by
  have ended := completes state inside
  rcases result : program.exec state with ⟨error | value, reached⟩ <;> rw [result] at ended
  · exact ended.elim
  · exact ⟨value, reached, rfl, ended⟩

end Interruptible
