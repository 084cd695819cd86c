import Codegraph.Macros.Expressions

/- This file compares what is decided of an `#if` with what C computes. -/

namespace Codegraph.Macros
open Watch.Scope (Text)
open CExpressions List

section Reading

variable {states : Text → NameState} {tokens rest : List Token} {minimum : Nat} {left : Value}

def Parsed.pair (parsed : Parsed tokens) : Value × List Token := (parsed.value, parsed.rest)

def Climbed.pair (climbed : Climbed tokens) : Value × List Token := (climbed.value, climbed.rest)

variable (states)

def ternaryOf (tokens : List Token) : Option (Value × List Token) := (ternary states tokens).map Parsed.pair

def binaryOf (minimum : Nat) (tokens : List Token) : Option (Value × List Token) :=
  (binary states minimum tokens).map Parsed.pair

def climbOf (minimum : Nat) (left : Value) (tokens : List Token) : Option (Value × List Token) :=
  (climb states minimum left tokens).map Climbed.pair

def unaryOf (tokens : List Token) : Option (Value × List Token) := (unary states tokens).map Parsed.pair

def primaryOf (tokens : List Token) : Option (Value × List Token) := (primary states tokens).map Parsed.pair

/-- The tokens behind a mark. -/
def behindMark (mark : Punct) : List Token → Option (List Token)
  | .punct found :: rest => if found = mark then some rest else none
  | _ => none

variable {states}

theorem Parsed.eat_cases (parsed : Parsed tokens) (mark : Punct) :
    parsed.eat mark = none ∧ behindMark mark parsed.rest = none ∨
      ∃ eaten, parsed.eat mark = some eaten ∧ eaten.value = parsed.value ∧
        behindMark mark parsed.rest = some eaten.rest := by
  obtain ⟨value, rest, shorter⟩ := parsed
  match rest, shorter with
  | .punct found :: rest, shorter =>
    by_cases same : found = mark
    · exact .inr ⟨_, if_pos same, rfl, if_pos same⟩
    · exact .inl ⟨if_neg same, if_neg same⟩
  | [], _ | .number _ :: _, _ | .word _ :: _, _ | .opaqueText :: _, _ => exact .inl ⟨rfl, rfl⟩

theorem binaryOf_eq (tokens : List Token) :
    binaryOf states minimum tokens = (unaryOf states tokens).bind fun (left, rest) =>
      climbOf states minimum left rest := by
  rw [binaryOf, binary, unaryOf]
  cases unary states tokens with
  | none => rfl
  | some left =>
    change Option.map Parsed.pair ((climb states minimum left.value left.rest).bind _) =
      climbOf states minimum left.value left.rest
    rw [climbOf]
    cases climb states minimum left.value left.rest <;> rfl

/-- An operator of enough precedence is read on. -/
theorem climbOf_op {op : Punct} {precedence : Nat} (known : binaryPrecedence op = some precedence)
    (enough : precedence ≥ minimum) : climbOf states minimum left (.punct op :: tokens) =
      (binaryOf states (precedence + 1) tokens).bind fun (right, rest) =>
        climbOf states minimum (combine op left right) rest := by
  rw [climbOf, climb, binaryOf]
  simp only [known]
  rw [if_pos enough]
  cases binary states (precedence + 1) tokens with
  | none => rfl
  | some right =>
    change Option.map Climbed.pair ((climb states minimum (combine op left right.value) right.rest).bind _) =
      climbOf states minimum (combine op left right.value) right.rest
    rw [climbOf]
    cases climb states minimum (combine op left right.value) right.rest <;> rfl

/-- No operator of at least a precedence comes next. -/
def NoOperator (minimum : Nat) (tokens : List Token) : Prop :=
  ∀ op, tokens.head? = some (.punct op) → ∀ precedence, binaryPrecedence op = some precedence → precedence < minimum

theorem climbOf_stop (stop : NoOperator minimum tokens) : climbOf states minimum left tokens = some (left, tokens) := by
  rw [climbOf, climb.eq_def]
  match tokens, stop with
  | .punct op :: rest, stop =>
    simp only
    split
    · rename_i precedence known
      rw [if_neg (Nat.not_le_of_lt (stop op rfl precedence known))]
      rfl
    · rfl
  | [], _ | .number _ :: _, _ | .word _ :: _, _ | .opaqueText :: _, _ => rfl

/-- A conditional expression is a condition with its two choices, or only the condition. -/
theorem ternaryOf_eq (tokens : List Token) :
    ternaryOf states tokens = (binaryOf states 1 tokens).bind fun (condition, rest) =>
      match behindMark .question rest with
      | none => some (condition, rest)
      | some behind => (ternaryOf states behind).bind fun (yes, rest) => (behindMark .colon rest).bind fun rest =>
        (ternaryOf states rest).map fun (no, rest) => (select condition yes no, rest) := by
  rw [ternaryOf, ternary, binaryOf]
  cases binary states 1 tokens with
  | none => rfl
  | some condition =>
    obtain ⟨value, rest, shorter⟩ := condition
    match rest, shorter with
    | .punct mark :: behind, shorter =>
      by_cases question : mark = .question
      · subst question
        change Option.map Parsed.pair ((ternary states behind).bind _) = (ternaryOf states behind).bind _
        rw [ternaryOf]
        cases ternary states behind with
        | none => rfl
        | some yes =>
          change Option.map Parsed.pair ((yes.eat .colon).bind _) = (behindMark .colon yes.rest).bind _
          rcases yes.eat_cases .colon with ⟨missing, none⟩ | ⟨eaten, found, same, behind⟩
          · rw [missing, none]
            rfl
          · rw [found, behind]
            change Option.map Parsed.pair ((ternary states eaten.rest).bind _) =
              (ternaryOf states eaten.rest).map _
            rw [ternaryOf, ← same]
            cases ternary states eaten.rest <;> rfl
      · cases mark <;> first | rfl | exact absurd rfl question
    | [], _ | .number _ :: _, _ | .word _ :: _, _ | .opaqueText :: _, _ => rfl

theorem unaryOf_op {op : Punct} (known : isUnary op) (tokens : List Token) :
    unaryOf states (.punct op :: tokens) = (unaryOf states tokens).map fun (value, rest) =>
      (applyUnary op value, rest) := by
  rw [unaryOf, unary, if_pos known, unaryOf]
  cases unary states tokens <;> rfl

theorem unaryOf_primary (other : ∀ op, tokens.head? = some (.punct op) → isUnary op = false) :
    unaryOf states tokens = primaryOf states tokens := by
  rw [unaryOf, unary.eq_def, primaryOf]
  match tokens, other with
  | .punct op :: rest, other =>
    simp only
    rw [if_neg (Bool.eq_false_iff.mp (other op rfl))]
  | [], _ | .number _ :: _, _ | .word _ :: _, _ | .opaqueText :: _, _ => rfl

theorem primaryOf_opening (tokens : List Token) : primaryOf states (.punct .opening :: tokens) =
      (ternaryOf states tokens).bind fun (value, rest) => (behindMark .closing rest).map fun rest => (value, rest) := by
  rw [primaryOf, primary, ternaryOf]
  cases ternary states tokens with
  | none => rfl
  | some parsed =>
    change Option.map Parsed.pair ((parsed.eat .closing).bind _) = (behindMark .closing parsed.rest).map _
    rcases parsed.eat_cases .closing with ⟨missing, none⟩ | ⟨eaten, found, same, behind⟩
    · rw [missing, none]
      rfl
    · rw [found, behind, Option.map_some, ← same]
      rfl

theorem primaryOf_word {word : Text} (other : word ≠ "defined".toList) (tokens : List Token) :
    primaryOf states (.word word :: tokens) =
      if tokens.head? = some (.punct .opening) then (skipGroup 0 tokens).map fun rest => (.truth none, rest)
      else some (wordValue states word, tokens) := by
  rw [primaryOf, primary, if_neg other]
  by_cases opens : tokens.head? = some (.punct .opening)
  · rw [if_pos opens, if_pos opens]
    split
    · rename_i behind skipped
      exact (congrArg (Option.map fun rest => (Value.truth none, rest)) skipped).symm
    · rename_i skipped
      exact (congrArg (Option.map fun rest => (Value.truth none, rest)) skipped).symm
  · rw [if_neg opens, if_neg opens]
    rfl

theorem primaryOf_defined (tokens : List Token) :
    primaryOf states (.word "defined".toList :: tokens) = (definedOperand states tokens).map Parsed.pair := by
  rw [primaryOf, primary, if_pos rfl, Option.map_map]
  rfl

end Reading

section Answers

/-- The mark of an operator. -/
def markOf : BinaryOp → Punct
  | .or => .orOr
  | .and => .andAnd
  | .bitOr => .bar
  | .bitXor => .caret
  | .bitAnd => .amp
  | .eq => .eq
  | .ne => .ne
  | .lt => .lt
  | .le => .le
  | .gt => .gt
  | .ge => .ge
  | .shl => .shl
  | .shr => .shr
  | .add => .plus
  | .sub => .minus
  | .mul => .star
  | .div => .slash
  | .rem => .percent

def unaryMarkOf : UnaryOp → Punct
  | .not => .bang
  | .complement => .tilde
  | .neg => .minus
  | .plus => .plus

variable (states : Text → NameState) {rest : List Token}

/-- What is known of an operand. -/
def operandValue : Operand → Value
  | .constant number => if number.bits.msb then .truth none else .int number.bits
  | .name name => wordValue states name
  | .defined name => logical (states name).defined
  | .character _ | .call _ _ => .truth none

/-- What is known of an expression. -/
def answer : Expr Operand → Value
  | .leaf operand => operandValue states operand
  | .unary op operand => applyUnary (unaryMarkOf op) (answer operand)
  | .binary op left right => combine (markOf op) (answer left) (answer right)
  | .conditional condition yes no => select (answer condition) (answer yes) (answer no)

variable {states} {level : Nat} {mark : Punct} {op : BinaryOp}

theorem markOf_known (known : (mark, op) ∈ operatorsAt level) :
    markOf op = mark ∧ binaryPrecedence mark = some level := by
  have each (level : Nat) (small : level < 11) :
      ∀ pair ∈ operatorsAt level, markOf pair.2 = pair.1 ∧ binaryPrecedence pair.1 = some level := by
    revert level
    decide
  by_cases small : level < 11
  · exact each level small (mark, op) known
  · obtain ⟨more, rfl⟩ : ∃ more, level = more + 11 := ⟨level - 11, by omega⟩
    cases known

theorem unaryMarkOf_known {op : UnaryOp} (known : (mark, op) ∈ unaryOperators) :
    unaryMarkOf op = mark ∧ isUnary mark = true := by
  have each : ∀ pair ∈ unaryOperators, unaryMarkOf pair.2 = pair.1 ∧ isUnary pair.1 = true := by decide
  exact each (mark, op) known

/-- What may follow an expression of a level. -/
def MayFollow (level : Nat) (rest : List Token) : Prop :=
  ∀ token, rest.head? = some token → ∃ mark, token = .punct mark ∧ mark ≠ .opening ∧ (level = 0 → mark ≠ .question) ∧
    ∀ precedence, binaryPrecedence mark = some precedence → precedence ≤ level

theorem MayFollow.higher (follows : MayFollow level rest) : MayFollow (level + 1) rest := by
  intro token first
  obtain ⟨mark, same, opening, -, bound⟩ := follows token first
  exact ⟨mark, same, opening, nofun, fun precedence known => Nat.le_succ_of_le (bound precedence known)⟩

theorem MayFollow.noOperator (follows : MayFollow level rest) : NoOperator (level + 1) rest := by
  intro op first precedence known
  obtain ⟨mark, same, -, -, bound⟩ := follows _ first
  cases same
  exact Nat.lt_succ_of_le (bound precedence known)

theorem MayFollow.noQuestion (follows : MayFollow 0 rest) : behindMark .question rest = none := by
  cases rest with
  | nil => rfl
  | cons token rest =>
    obtain ⟨mark, rfl, -, question, -⟩ := follows token rfl
    exact if_neg (question rfl)

theorem MayFollow.of_mark (opening : mark ≠ .opening) (question : level = 0 → mark ≠ .question)
    (bound : ∀ precedence, binaryPrecedence mark = some precedence → precedence ≤ level) :
    MayFollow level (.punct mark :: rest) := by
  intro token first
  cases first
  exact ⟨mark, rfl, opening, question, bound⟩

/-- Some tokens are read as a value, by all functions of the parser that read expressions of a level. -/
structure Parses (states : Text → NameState) (level : Nat) (tokens : List Token) (value : Value) : Prop where
  ternary : level = 0 → ∀ rest, MayFollow 0 rest → ternaryOf states (tokens ++ rest) = some (value, rest)
  binary : 1 ≤ level → ∀ minimum ≤ level, ∀ rest, MayFollow level rest →
    binaryOf states minimum (tokens ++ rest) = climbOf states minimum value rest
  unary : 11 ≤ level → ∀ rest, MayFollow level rest → unaryOf states (tokens ++ rest) = some (value, rest)
  primary : 12 ≤ level → ∀ rest, MayFollow level rest → primaryOf states (tokens ++ rest) = some (value, rest)

variable {tokens : List Token} {value : Value}

theorem Parses.of_unary (reads : ∀ rest, MayFollow 11 rest → unaryOf states (tokens ++ rest) = some (value, rest)) :
    Parses states 11 tokens value where
  ternary := nofun
  binary _ minimum _ rest follows := by
    rw [binaryOf_eq, reads rest follows]
    rfl
  unary _ := reads
  primary := nofun

theorem Parses.of_primary (first : ∀ op, tokens.head? = some (.punct op) → isUnary op = false) (some_ : tokens ≠ [])
    (reads : ∀ rest, MayFollow 12 rest → primaryOf states (tokens ++ rest) = some (value, rest)) :
    Parses states 12 tokens value := by
  have unary (rest : List Token) (follows : MayFollow 12 rest) : unaryOf states (tokens ++ rest) =
    some (value, rest) := by
    rw [unaryOf_primary, reads rest follows]
    rwa [head?_append_of_ne_nil _ some_]
  refine ⟨nofun, fun _ minimum _ rest follows => ?_, fun _ => unary, fun _ => reads⟩
  rw [binaryOf_eq, unary rest follows]
  rfl

theorem Parses.narrower (parses : Parses states (level + 1) tokens value) : Parses states level tokens value where
  ternary zero rest follows := by
    subst zero
    rw [ternaryOf_eq, parses.binary (Nat.le_refl _) 1 (Nat.le_refl _) rest follows.higher,
      climbOf_stop follows.noOperator]
    simp only [Option.bind_some, follows.noQuestion]
  binary _ minimum le rest follows :=
    parses.binary (Nat.le_add_left _ _) minimum (Nat.le_succ_of_le le) rest follows.higher
  unary le rest follows := parses.unary (Nat.le_succ_of_le le) rest follows.higher
  primary le rest follows := parses.primary (Nat.le_succ_of_le le) rest follows.higher

/-- A question mark and a colon between expressions make a conditional one. -/
theorem Parses.conditional {first second third : List Token} {condition yes no : Value}
    (tested : Parses states 1 first condition)
    (chosen : Parses states 0 second yes) (otherwise : Parses states 0 third no) :
    Parses states 0 (first ++ .punct .question :: (second ++ .punct .colon :: third)) (select condition yes no) where
  ternary _ rest follows := by
    have question : MayFollow 1 (.punct .question :: (second ++ .punct .colon :: (third ++ rest))) :=
      .of_mark (by simp) (by simp) (by simp [binaryPrecedence])
    have colon : MayFollow 0 (.punct .colon :: (third ++ rest)) :=
      .of_mark (by simp) (by simp) (by simp [binaryPrecedence])
    have condition := tested.binary (Nat.le_refl _) 1 (Nat.le_refl _) _ question
    have stop : NoOperator 1 (.punct .question :: (second ++ .punct .colon :: (third ++ rest))) := by
      intro op first precedence known
      cases first
      cases known
    rw [climbOf_stop stop] at condition
    simp only [append_assoc, cons_append]
    rw [ternaryOf_eq, condition]
    simp only [Option.bind_some, behindMark, if_pos, chosen.ternary rfl _ colon, otherwise.ternary rfl _ follows,
      Option.map_some]
  binary := nofun
  unary := nofun
  primary := nofun

theorem binaryPrecedence_bounds {precedence : Nat} (known : binaryPrecedence mark = some precedence) :
    1 ≤ precedence ∧ precedence ≤ 10 ∧ mark ≠ .opening ∧ mark ≠ .question := by
  cases mark <;> cases known <;> decide

/-- An operator between an expression of its level and one of the next level makes one of its level. -/
theorem Parses.binary_op {first second : List Token} {left right : Value} (known : binaryPrecedence mark = some level)
    (leftward : Parses states level first left) (rightward : Parses states (level + 1) second right) :
    Parses states level (first ++ .punct mark :: second) (combine mark left right) := by
  obtain ⟨positive, small, opening, question⟩ := binaryPrecedence_bounds known
  refine ⟨fun zero => absurd zero (Nat.ne_of_gt positive), fun _ minimum le rest follows => ?_, fun large => by omega,
    fun large => by omega⟩
  have next : MayFollow level (.punct mark :: (second ++ rest)) :=
    .of_mark opening (fun _ => question) fun precedence found => Nat.le_of_eq (Option.some.inj (found.symm.trans known))
  rw [append_assoc, cons_append, leftward.binary positive minimum le _ next, climbOf_op known le,
    rightward.binary (Nat.le_add_left _ _) _ (Nat.le_refl _) rest follows.higher, climbOf_stop follows.noOperator]
  rfl

/-- Balanced parentheses are skipped as a whole. -/
theorem skipGroup_balanced {group : List CToken} {depth : Nat} (closes : balanced depth group) (rest : List Token) :
    skipGroup (depth + 1) (group.map CToken.read ++ .punct .closing :: rest) = some rest := by
  induction group generalizing depth with
  | nil =>
    have zero : depth = 0 := of_decide_eq_true closes
    subst zero
    rfl
  | cons token group ih =>
    rw [balanced] at closes
    rw [map_cons, cons_append, skipGroup.eq_def]
    simp only
    by_cases opens : token = .punct .opening
    · rw [if_pos opens] at closes
      rw [if_pos (opens ▸ rfl)]
      exact ih closes
    have notOpen : token.read ≠ .punct .opening := by
      cases token with
      | punct mark => exact fun same => opens (congrArg _ (Token.punct.inj same))
      | identifier | number | character | stray | foreign => nofun
    rw [if_neg opens] at closes
    rw [if_neg notOpen]
    by_cases ends : token = .punct .closing
    · rw [if_pos ends, Bool.and_eq_true] at closes
      rw [if_pos (ends ▸ rfl)]
      obtain ⟨less, rfl⟩ : ∃ less, depth = less + 1 := Nat.exists_eq_succ_of_ne_zero (of_decide_eq_true closes.1)
      exact ih closes.2
    · have notClose : token.read ≠ .punct .closing := by
        cases token with
        | punct mark => exact fun same => ends (congrArg _ (Token.punct.inj same))
        | identifier | number | character | stray | foreign => nofun
      rw [if_neg ends] at closes
      rw [if_neg notClose]
      exact ih closes

theorem constant_value {text : Text} {number : Number} (reads : constantNumber text = some number) :
    Value.known (integerLiteral text) = operandValue states (.constant number) := by
  obtain ⟨⟨value, unsigned⟩, constant, fits⟩ := Option.bind_eq_some_iff.mp reads
  simp only at fits
  split at fits
  case isFalse => cases fits
  cases fits
  rw [integerLiteral_constant constant, operandValue]
  have msb : (BitVec.ofNat 64 value).msb = decide (2 ^ 63 ≤ value) := by
    rw [BitVec.msb_eq_decide, BitVec.toNat_ofNat, Nat.mod_eq_of_lt ‹_›]
  simp only [msb, decide_eq_true_eq]
  by_cases small : value < 2 ^ 63
  · rw [if_pos small, if_neg (Nat.not_le_of_lt small)]
    rfl
  · rw [if_neg small, if_pos (Nat.le_of_not_lt small)]
    rfl

/-- What C reads as an expression is read as it, and its answer is what is known of the expression. -/
theorem parses_of_derives {tokens : List CToken} {expr : Expr Operand} (derives : Derives level tokens expr) :
    Parses states level (tokens.map CToken.read) (answer states expr) := by
  induction derives with
  | conditional _ _ _ tested chosen otherwise =>
    simp only [map_append, map_cons]
    exact tested.conditional chosen otherwise
  | narrower _ ih => exact ih.narrower
  | binary known _ _ leftward rightward =>
    obtain ⟨rfl, precedence⟩ := markOf_known known
    simp only [map_append, map_cons]
    exact leftward.binary_op precedence rightward
  | unary known _ ih =>
    obtain ⟨rfl, isUnary⟩ := unaryMarkOf_known known
    refine .of_unary fun rest follows => ?_
    rw [map_cons, cons_append, CToken.read, unaryOf_op isUnary, ih.unary (Nat.le_refl _) rest follows]
    rfl
  | parentheses _ ih =>
    refine .of_primary (fun op first => ?_) (cons_ne_nil _ _) fun rest follows => ?_
    · cases first
      rfl
    · have closing : MayFollow 0 (.punct .closing :: rest) :=
        .of_mark (by simp) (by simp) (by simp [binaryPrecedence])
      simp only [map_cons, map_append, map_nil, CToken.read, cons_append, append_assoc,
        nil_append]
      rw [primaryOf_opening, ih.ternary rfl _ closing]
      rfl
  | constant reads =>
    refine .of_primary (by simp [CToken.read]) (cons_ne_nil _ _) fun rest follows => ?_
    rw [answer, ← constant_value reads]
    rw [primaryOf, map_cons, cons_append, CToken.read, primary]
    rfl
  | character =>
    refine .of_primary (by simp [CToken.read]) (cons_ne_nil _ _) fun rest follows => ?_
    rw [primaryOf, map_cons, cons_append, CToken.read, primary]
    rfl
  | name other =>
    refine .of_primary (by simp [CToken.read]) (cons_ne_nil _ _) fun rest follows => ?_
    rw [map_cons, cons_append, CToken.read, primaryOf_word other, if_neg]
    · rfl
    · intro opens
      obtain ⟨mark, same, opening, -⟩ := follows _ opens
      exact opening (Token.punct.inj same).symm
  | defined =>
    refine .of_primary (by simp [CToken.read]) (cons_ne_nil _ _) fun rest follows => ?_
    exact primaryOf_defined _
  | definedIn =>
    refine .of_primary (by simp [CToken.read]) (cons_ne_nil _ _) fun rest follows => ?_
    exact primaryOf_defined _
  | call other plain closes =>
    refine .of_primary (by simp [CToken.read]) (cons_ne_nil _ _) fun rest follows => ?_
    simp only [map_cons, map_append, map_nil, CToken.read, cons_append, append_assoc,
      nil_append]
    rw [primaryOf_word other, if_pos (by rfl), skipGroup.eq_def]
    simp only [if_pos, skipGroup_balanced closes]
    rfl

end Answers

end Codegraph.Macros
