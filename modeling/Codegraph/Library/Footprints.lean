import Mathlib.Data.List.Basic

/- This file gives programs that ask questions, and what their results may depend on. -/

namespace Footprints

/-- A program asks questions one after another, and its next question may depend on the answers. -/
inductive Program (Q : Type) (A : Q → Type) (α : Type) where
  | done (value : α)
  | ask (question : Q) (next : A question → Program Q A α)

namespace Program

variable {Q K : Type} {A : Q → Type} {α β : Type}

def bind : Program Q A α → (α → Program Q A β) → Program Q A β
  | .done value, f => f value
  | .ask question next, f => .ask question fun answer => (next answer).bind f

instance : Monad (Program Q A) where
  pure := .done
  bind := bind

/-- A single question. -/
def query (question : Q) : Program Q A (A question) := .ask question .done

/-- The result of a program when an oracle answers. -/
def run (oracle : ∀ question, A question) : Program Q A α → α
  | .done value => value
  | .ask question next => (next (oracle question)).run oracle

/-- The questions that a program asks an oracle, in their order. -/
def asked (oracle : ∀ question, A question) : Program Q A α → List Q
  | .done _ => []
  | .ask question next => question :: (next (oracle question)).asked oracle

variable {program : Program Q A α} {first second : ∀ question, A question} {oracle : ∀ question, A question}

@[simp] theorem run_pure (value : α) : (pure value : Program Q A α).run oracle = value := rfl

@[simp] theorem asked_pure (value : α) : (pure value : Program Q A α).asked oracle = [] := rfl

@[simp] theorem run_bind (f : α → Program Q A β) :
    (program >>= f).run oracle = (f (program.run oracle)).run oracle := by
  induction program with
  | done value => rfl
  | ask question next ih => exact ih (oracle question)

@[simp] theorem asked_bind (f : α → Program Q A β) :
    (program >>= f).asked oracle = program.asked oracle ++ (f (program.run oracle)).asked oracle := by
  induction program with
  | done value => rfl
  | ask question next ih => exact congrArg (question :: ·) (ih (oracle question))

@[simp] theorem run_query (question : Q) : (query question : Program Q A _).run oracle = oracle question := rfl

@[simp] theorem asked_query (question : Q) : (query question : Program Q A _).asked oracle = [question] := rfl

/-- Oracles that agree on what a program asks the first of them give it one result. -/
theorem run_agree (agree : ∀ question ∈ program.asked first, first question = second question) :
    program.run first = program.run second := by
  induction program with
  | done value => rfl
  | ask question next ih =>
    have here : first question = second question := agree question List.mem_cons_self
    rw [run, run, ← here]
    exact ih (first question) fun other member => agree other (List.mem_cons_of_mem _ member)

end Program

section Firsts

variable {Q K : Type} [DecidableEq K]

/-- The questions of kinds that were not seen before, each kind once. -/
def firsts (kind : Q → K) : List K → List Q → List Q
  | _, [] => []
  | seen, question :: rest =>
    if kind question ∈ seen then firsts kind seen rest else question :: firsts kind (kind question :: seen) rest

variable {kind : Q → K} {seen : List K} {questions : List Q} {question : Q}

/-- The first questions are those in front of which no other one of their kind stands. -/
theorem mem_firsts_iff : question ∈ firsts kind seen questions ↔
    kind question ∉ seen ∧ questions.find? (fun other => kind other = kind question) = some question := by
  induction questions generalizing seen with
  | nil => simp [firsts]
  | cons first rest ih =>
    rw [firsts, List.find?_cons]
    by_cases same : kind first = kind question
    · simp only [same, decide_true, Option.some.injEq]
      split
      · rename_i old
        rw [ih]
        exact ⟨fun both => absurd old both.1, fun both => absurd old both.1⟩
      · rename_i new
        rw [List.mem_cons, ih]
        constructor
        · rintro (rfl | both)
          · exact ⟨new, rfl⟩
          · exact absurd List.mem_cons_self both.1
        · exact fun both => .inl both.2.symm
    · simp only [same, decide_false]
      split
      · exact ih
      · have other : question ≠ first := fun equal => same (equal ▸ rfl)
        rw [List.mem_cons, ih, List.mem_cons, not_or]
        constructor
        · rintro (equal | both)
          · exact absurd equal other
          · exact ⟨both.1.2, both.2⟩
        · exact fun both => .inr ⟨⟨fun equal => same equal.symm, both.1⟩, both.2⟩

/-- Each question has one of its kind among the first ones. -/
theorem exists_first (member : question ∈ questions) :
    ∃ other ∈ firsts kind [] questions, kind other = kind question ∧ other ∈ questions := by
  obtain ⟨other, found⟩ : ∃ other, questions.find? (fun other => kind other = kind question) = some other :=
    Option.isSome_iff_exists.mp (List.find?_isSome.mpr ⟨question, member, decide_eq_true rfl⟩)
  have alike : kind other = kind question := by simpa using List.find?_some found
  exact ⟨other, mem_firsts_iff.mpr ⟨List.not_mem_nil, by rw [alike]; exact found⟩, alike,
    List.mem_of_find?_eq_some found⟩

/-- A program has one result for two oracles that agree on the first questions of each kind, when agreeing on one
question of a kind is agreeing on all that are asked of the kind. -/
theorem run_agree_of_firsts {A : Q → Type} {α : Type} {program : Program Q A α} {first second : ∀ question, A question}
    (spread : ∀ other ∈ firsts kind [] (program.asked first), ∀ question ∈ program.asked first,
      kind other = kind question →
      first other = second other → first question = second question)
    (agree : ∀ question ∈ firsts kind [] (program.asked first), first question = second question) :
    program.run first = program.run second := by
  refine Program.run_agree fun question member => ?_
  obtain ⟨other, listed, alike, -⟩ := @exists_first _ _ _ kind _ _ member
  exact spread other listed question member alike (agree other listed)

end Firsts

end Footprints
