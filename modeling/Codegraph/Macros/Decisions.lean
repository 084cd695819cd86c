import Codegraph.Macros.Evaluation

/- This file proves what a decided `#if` says about the builds that agree with what is known. -/

namespace Codegraph.Macros
open Watch.Scope (Text)
open CExpressions

section Reading

variable {first second tokens : List CToken} {mark : Punct} {level : Nat} {expr : Expr Operand}

theorem Plain.behind_mark (plain : Plain tokens) : Plain (.punct mark :: tokens) := by
  refine ⟨fun member => ?_, plain.2.cons fun next _ text same => nomatch same⟩
  rcases List.mem_cons.mp member with same | member
  · cases same
  · exact plain.1 member

theorem Plain.around (before : Plain first) (behind : Plain second) : Plain (first ++ .punct mark :: second) := by
  refine ⟨fun member => ?_, List.isChain_append.mpr ⟨before.2, behind.behind_mark.2, ?_⟩⟩
  · exact (List.mem_append.mp member).elim before.1 behind.behind_mark.1
  · intro token _ next head text _ literal
    cases head
    nofun

theorem plain_nil : Plain [] := ⟨List.not_mem_nil, .nil⟩

theorem plain_single {token : CToken} (own : token ≠ .foreign) : Plain [token] :=
  ⟨fun member => own (List.mem_singleton.mp member).symm, .singleton _⟩

/-- An identifier does not stand before a literal as a number does. -/
theorem Plain.behind_identifier {name : Text} (plain : Plain tokens) : Plain (.identifier name :: tokens) := by
  refine ⟨fun member => ?_, plain.2.cons fun next _ text same => nomatch same⟩
  rcases List.mem_cons.mp member with same | member
  · cases same
  · exact plain.1 member

/-- The tokens of an expression are plain. -/
theorem Derives.plain (derives : Derives level tokens expr) : Plain tokens := by
  induction derives with
  | conditional _ _ _ tested chosen otherwise => exact tested.around (chosen.around otherwise)
  | narrower _ ih => exact ih
  | binary _ _ _ leftward rightward => exact leftward.around rightward
  | unary _ _ ih => exact ih.behind_mark
  | parentheses _ ih => exact (ih.around plain_nil).behind_mark
  | constant | character | name => exact plain_single nofun
  | defined => exact (@plain_single (.identifier _) nofun).behind_identifier
  | definedIn => exact (plain_nil.behind_mark.behind_identifier.behind_mark).behind_identifier
  | call _ plain _ => exact (plain.around plain_nil).behind_mark.behind_identifier

variable {text : Text} {states : Text → NameState}

/-- What C reads is decided as what is known of it. -/
theorem evaluate_reads (reads : Reads text expr) : evaluate text states = (answer states expr).truthOf := by
  have parsed := (@parses_of_derives states _ _ _ reads).ternary rfl [] nofun
  rw [List.append_nil, ← tokens_eq_read reads.plain, ternaryOf] at parsed
  obtain ⟨whole, found, same⟩ := Option.map_eq_some_iff.mp parsed
  obtain ⟨value, rest⟩ := Prod.mk.inj same
  rw [evaluate, found]
  change (if whole.rest = [] then whole.value.truthOf else none) = _
  rw [if_pos rest, value]

end Reading

section Soundness

/-- A value says nothing else than what some bits are. -/
def Value.Stands (value : Value) (bits : BitVec 64) : Prop :=
  match value with
  | int number => number = bits
  | truth decided => ∀ truth, decided = some truth → (bits != 0) = truth

namespace Value

variable {value left right : Value} {a b bits : BitVec 64}

theorem Stands.truthOf (stands : value.Stands bits) {truth : Bool} (decided : value.truthOf = some truth) :
    (bits != 0) = truth := by
  cases value with
  | int number =>
    obtain rfl : number = bits := stands
    exact Option.some.inj decided
  | truth known => exact stands truth decided

theorem Stands.intOf (stands : value.Stands bits) {number : BitVec 64} (known : value.intOf = some number) :
    number = bits := by
  cases value with
  | int found =>
    cases known
    exact stands
  | truth _ => cases known

theorem stands_unknown : (Value.truth none).Stands bits := nofun

theorem stands_known {number : Option (BitVec 64)} (same : ∀ found, number = some found → found = bits) :
    (Value.known number).Stands bits := by
  cases number with
  | none => exact stands_unknown
  | some found => exact same found rfl

theorem stands_logical {decided : Truth} {truth : Bool} (same : ∀ found, decided = some found → found = truth) :
    (logical decided).Stands (CExpressions.ofBool truth) := by
  cases decided with
  | none => exact stands_unknown
  | some found =>
    obtain rfl := same found rfl
    exact rfl

end Value

variable {value left right condition yes no : Value} {a b c bits : BitVec 64}

/-- A unary operator acts on what its operand stands for. -/
theorem applyUnary_stands (op : UnaryOp) (stands : value.Stands a) :
    (applyUnary (unaryMarkOf op) value).Stands (unaryResult op a) := by
  cases op with
  | not =>
    refine Value.stands_logical fun found decided => ?_
    obtain ⟨truth, known, rfl⟩ := Option.map_eq_some_iff.mp decided
    rw [← stands.truthOf known, bne, Bool.not_not]
  | complement =>
    refine Value.stands_known fun found same => ?_
    obtain ⟨number, known, rfl⟩ := Option.map_eq_some_iff.mp same
    rw [stands.intOf known, unaryResult]
  | neg =>
    refine Value.stands_known fun found same => ?_
    obtain ⟨number, known, fits⟩ := Option.bind_eq_some_iff.mp same
    rw [checkedNeg] at fits
    split at fits
    · cases fits
    · rw [← Option.some.inj fits, stands.intOf known, unaryResult]
  | plus => exact Value.stands_known fun found same => stands.intOf same

theorem or_decided {p q : Truth} {x y found : Bool} (left : ∀ truth, p = some truth → x = truth)
    (right : ∀ truth, q = some truth → y = truth) (decided : Truth.or p q = some found) : found = (x || y) := by
  rw [Truth.or] at decided
  split at decided
  · rename_i either
    rw [← Option.some.inj decided]
    rcases either with known | known
    · rw [left true known, Bool.true_or]
    · rw [right true known, Bool.or_true]
  · split at decided
    · rename_i both
      rw [← Option.some.inj decided, left false both.1, right false both.2, Bool.false_or]
    · cases decided

theorem and_decided {p q : Truth} {x y found : Bool} (left : ∀ truth, p = some truth → x = truth)
    (right : ∀ truth, q = some truth → y = truth) (decided : Truth.and p q = some found) : found = (x && y) := by
  rw [Truth.and] at decided
  split at decided
  · rename_i either
    rw [← Option.some.inj decided]
    rcases either with known | known
    · rw [left false known, Bool.false_and]
    · rw [right false known, Bool.and_false]
  · split at decided
    · rename_i both
      rw [← Option.some.inj decided, left true both.1, right true both.2, Bool.true_and]
    · cases decided

theorem of_guard {stop : Prop} [Decidable stop] {answer : BitVec 64}
    (computed : (if stop then none else some answer) = some bits) : bits = answer := by
  split at computed
  · cases computed
  · exact (Option.some.inj computed).symm

theorem of_bound {inside : Prop} [Decidable inside] {answer : BitVec 64}
    (computed : (if inside then some answer else none) = some bits) : bits = answer := by
  split at computed
  · exact (Option.some.inj computed).symm
  · cases computed

/-- What is computed of two numbers is their result in `intmax_t`. -/
theorem arithmetic_result (op : BinaryOp) (computed : arithmetic a b (markOf op) = some bits) :
    bits = result op false a b := by
  cases op with
  | or | and => cases computed
  | bitOr | bitXor | bitAnd | eq | ne | lt | le | gt | ge => exact (Option.some.inj computed).symm
  | shl | shr => exact of_bound computed
  | add | sub | mul | div | rem => exact of_guard computed

/-- A combined value stands for the result where its operands stand for theirs. -/
theorem combine_stands (op : BinaryOp) (leftward : left.Stands a) (rightward : right.Stands b) :
    (combine (markOf op) left right).Stands (result op false a b) := by
  have eager (reads : combine (markOf op) left right =
      .known (left.intOf.bind fun a => right.intOf.bind fun b => arithmetic a b (markOf op))) :
      (combine (markOf op) left right).Stands (result op false a b) := by
    rw [reads]
    refine Value.stands_known fun found same => ?_
    obtain ⟨x, first, same⟩ := Option.bind_eq_some_iff.mp same
    obtain ⟨y, second, same⟩ := Option.bind_eq_some_iff.mp same
    rw [leftward.intOf first, rightward.intOf second] at same
    exact arithmetic_result op same
  cases op with
  | or => exact Value.stands_logical fun found => or_decided (fun _ => leftward.truthOf) fun _ => rightward.truthOf
  | and => exact Value.stands_logical fun found => and_decided (fun _ => leftward.truthOf) fun _ => rightward.truthOf
  | _ => exact eager rfl

/-- A selection stands for the branch that the condition's number selects. -/
theorem select_stands (test : condition.Stands c) (chosen : yes.Stands a) (otherwise : no.Stands b) :
    (select condition yes no).Stands (if c ≠ 0 then a else b) := by
  rw [select]
  cases decided : condition.truthOf with
  | some truth =>
    have truthful := test.truthOf decided
    cases truth with
    | true =>
      rw [if_pos (bne_iff_ne.mp truthful)]
      exact chosen
    | false =>
      rw [if_neg (not_not.mpr (bne_eq_false_iff_eq.mp truthful))]
      exact otherwise
  | none =>
    simp only
    split
    · rename_i x y first second
      split
      · rename_i same
        obtain rfl := same
        rw [Value.Stands, ← chosen.intOf first, ← otherwise.intOf second, ite_self]
      · exact Value.stands_unknown
    · exact Value.stands_unknown

variable {states : Text → NameState} {assignment : Assignment}

/-- An operand stands for its number in every assignment that agrees. -/
theorem Assignment.Agrees.operand (agrees : assignment.Agrees states) (operand : Operand) :
    (operandValue states operand).Stands (assignment.number operand).bits := by
  cases operand with
  | constant number =>
    rw [operandValue]
    split
    · exact Value.stands_unknown
    · exact rfl
  | character | call => exact Value.stands_unknown
  | name name =>
    rw [operandValue, wordValue]
    split
    · rename_i undefined
      have missing := agrees.defined name false undefined
      rw [number, Option.isSome_eq_false_iff.mp missing |> Option.isNone_iff_eq_none.mp]
      exact rfl
    · exact fun truth => agrees.value name truth
  | defined name =>
    refine Value.stands_logical fun found decided => ?_
    exact (agrees.defined name found decided).symm

/-- What is known of an expression holds of its bits, in every build that agrees with what is known of the names. -/
theorem Assignment.Agrees.expression (agrees : assignment.Agrees states) (expr : Expr Operand) :
    (answer states expr).Stands (expr.signedBits assignment.number) := by
  induction expr with
  | leaf operand => exact agrees.operand operand
  | unary op operand ih => exact applyUnary_stands op ih
  | binary op left right leftward rightward => exact combine_stands op leftward rightward
  | conditional condition yes no test chosen otherwise => exact select_stands test chosen otherwise

/-- The truth of an expression with all of its operands read in `intmax_t`. -/
def Assignment.signedTruth (assignment : Assignment) (expr : Expr Operand) : Bool :=
  expr.signedBits assignment.number != 0

end Soundness

section Monotonicity

/-- What a truth says is said by another one too. -/
def Truth.Below (coarse fine : Truth) : Prop := ∀ truth, coarse = some truth → fine = some truth

/-- What is known of a name is known in another state too. -/
structure NameState.Below (coarse fine : NameState) : Prop where
  defined : Truth.Below coarse.defined fine.defined
  value : Truth.Below coarse.value fine.value

/-- No name that is not defined has a number that is true. -/
def Sensible (states : Text → NameState) : Prop :=
  ∀ name, (states name).defined = some false → (states name).value ≠ some true

def Value.Below (coarse fine : Value) : Prop :=
  match coarse with
  | int number => fine = int number
  | truth decided => ∀ truth, decided = some truth → fine.truthOf = some truth

namespace Value

variable {coarse fine coarse' fine' : Value}

theorem Below.refl (value : Value) : value.Below value := by
  cases value with
  | int number => exact rfl
  | truth decided => exact fun truth same => same

theorem Below.truthOf (below : coarse.Below fine) : Truth.Below coarse.truthOf fine.truthOf := by
  intro truth decided
  cases coarse with
  | int number =>
    obtain rfl : fine = int number := below
    exact decided
  | truth known => exact below truth decided

theorem Below.intOf (below : coarse.Below fine) {number : BitVec 64} (known : coarse.intOf = some number) :
    fine.intOf = some number := by
  cases coarse with
  | int found =>
    obtain rfl : fine = int found := below
    exact known
  | truth _ => cases known

theorem unknown_below (fine : Value) : (truth none).Below fine := nofun

theorem known_below {some_ other : Option (BitVec 64)} (same : ∀ number, some_ = some number → other = some number) :
    (known some_).Below (known other) := by
  cases some_ with
  | none => exact unknown_below _
  | some number =>
    rw [same number rfl]
    exact .refl _

theorem logical_below {p q : Truth} (below : p.Below q) : (logical p).Below (logical q) := by
  cases p with
  | none => exact unknown_below _
  | some truth =>
    rw [below truth rfl]
    exact .refl _

theorem applyUnary_below (op : Punct) (below : coarse.Below fine) :
    (applyUnary op coarse).Below (applyUnary op fine) := by
  cases op with
  | bang =>
    refine logical_below fun truth decided => ?_
    obtain ⟨found, known, rfl⟩ := Option.map_eq_some_iff.mp decided
    exact congrArg (Option.map _) (below.truthOf found known)
  | tilde =>
    refine known_below fun number same => ?_
    obtain ⟨found, known, rfl⟩ := Option.map_eq_some_iff.mp same
    rw [below.intOf known, Option.map_some]
  | minus =>
    refine known_below fun number same => ?_
    obtain ⟨found, known, fits⟩ := Option.bind_eq_some_iff.mp same
    rw [below.intOf known, Option.bind_some, fits]
  | _ => exact known_below fun number => below.intOf

theorem or_below {p q r s : Truth} (left : p.Below q) (right : r.Below s) : (Truth.or p r).Below (Truth.or q s) := by
  intro truth decided
  rw [Truth.or] at decided
  split at decided
  · rename_i either
    rw [Truth.or, if_pos (either.imp (left true) (right true)), ← decided]
  · split at decided
    · rename_i both
      rw [left false both.1, right false both.2, ← decided]
      rfl
    · cases decided

theorem and_below {p q r s : Truth} (left : p.Below q) (right : r.Below s) : (Truth.and p r).Below (Truth.and q s) := by
  intro truth decided
  rw [Truth.and] at decided
  split at decided
  · rename_i either
    rw [Truth.and, if_pos (either.imp (left false) (right false)), ← decided]
  · split at decided
    · rename_i both
      rw [left true both.1, right true both.2, ← decided]
      rfl
    · cases decided

/-- Coarser operands give coarser results. -/
theorem combine_below (op : Punct) (left : coarse.Below fine) (right : coarse'.Below fine') :
    (combine op coarse coarse').Below (combine op fine fine') := by
  have eager : (known (coarse.intOf.bind fun a => coarse'.intOf.bind fun b => arithmetic a b op)).Below
      (known (fine.intOf.bind fun a => fine'.intOf.bind fun b => arithmetic a b op)) := by
    refine known_below fun number same => ?_
    obtain ⟨a, first, same⟩ := Option.bind_eq_some_iff.mp same
    obtain ⟨b, second, same⟩ := Option.bind_eq_some_iff.mp same
    rw [left.intOf first, right.intOf second]
    exact same
  cases op with
  | orOr => exact logical_below (or_below left.truthOf right.truthOf)
  | andAnd => exact logical_below (and_below left.truthOf right.truthOf)
  | _ => exact eager

/-- A condition that becomes known chooses between branches that were equal before. -/
theorem select_below {condition condition' : Value} (test : condition.Below condition') (chosen : coarse.Below fine)
    (otherwise : coarse'.Below fine') : (select condition coarse coarse').Below (select condition' fine fine') := by
  rw [select, select]
  cases decided : condition.truthOf with
  | some truth =>
    rw [test.truthOf truth decided]
    cases truth with
    | true => exact chosen
    | false => exact otherwise
  | none =>
    simp only
    split
    · rename_i a b first second
      split
      · rename_i same
        subst same
        have yes := chosen.intOf first
        have no := otherwise.intOf second
        have whole {value : Value} {number : BitVec 64} (known : value.intOf = some number) : value = int number := by
          cases value with
          | int found => exact congrArg _ (Option.some.inj known)
          | truth _ => cases known
        rw [whole yes, whole no]
        cases condition'.truthOf with
        | some truth => cases truth <;> exact rfl
        | none => exact if_pos rfl
      · exact unknown_below _
    · exact unknown_below _

end Value

/-- Two readings of some tokens leave the same rest, and what the first one says is said by the second one too. -/
inductive Keeps : Option (Value × List Token) → Option (Value × List Token) → Prop
  | missing : Keeps none none
  | found {coarse fine rest} (below : Value.Below coarse fine) : Keeps (some (coarse, rest)) (some (fine, rest))

variable {coarse fine : Option (Value × List Token)} {states finer : Text → NameState}

theorem Keeps.bind {f g : Value × List Token → Option (Value × List Token)} (keeps : Keeps coarse fine)
    (next : ∀ value value' rest, coarse = some (value, rest) → value.Below value' →
      Keeps (f (value, rest)) (g (value', rest))) : Keeps (coarse.bind f) (fine.bind g) := by
  cases keeps with
  | missing => exact .missing
  | found below => exact next _ _ _ rfl below

theorem Keeps.map {change change' : Value → Value} (keeps : Keeps coarse fine)
    (next : ∀ value value' : Value, value.Below value' → (change value).Below (change' value')) :
    Keeps (coarse.map fun (value, rest) => (change value, rest))
    (fine.map fun (value, rest) => (change' value, rest)) := by
  cases keeps with
  | missing => exact .missing
  | found below => exact .found (next _ _ below)

theorem wordValue_below (below : ∀ name, (states name).Below (finer name)) (sensible : Sensible finer) (word : Text) :
    (wordValue states word).Below (wordValue finer word) := by
  rw [wordValue, wordValue]
  by_cases undefined : (states word).defined = some false
  · rw [if_pos undefined, if_pos ((below word).defined false undefined)]
    exact .refl _
  · rw [if_neg undefined]
    intro truth known
    have kept := (below word).value truth known
    by_cases missing : (finer word).defined = some false
    · rw [if_pos missing]
      cases truth with
      | true => exact absurd kept (sensible word missing)
      | false => rfl
    · rw [if_neg missing]
      exact kept

theorem pair_shorter {tokens : List Token} {parsed : Option (Parsed tokens)} {value : Value} {rest : List Token}
    (read : parsed.map Parsed.pair = some (value, rest)) : rest.length < tokens.length := by
  obtain ⟨found, -, same⟩ := Option.map_eq_some_iff.mp read
  obtain rfl := (Prod.mk.inj same).2
  exact found.shorter

theorem behindMark_shorter {mark : Punct} {tokens rest : List Token} (behind : behindMark mark tokens = some rest) :
    rest.length < tokens.length := by
  unfold behindMark at behind
  split at behind
  · split at behind
    · cases behind
      exact Nat.lt_succ_self _
    · cases behind
  · cases behind

/-- All functions of the parser say more in finer states, on the tokens of a length. -/
structure Grows (states finer : Text → NameState) (length : Nat) : Prop where
  ternary : ∀ tokens : List Token, tokens.length = length → Keeps (ternaryOf states tokens) (ternaryOf finer tokens)
  binary : ∀ minimum, ∀ tokens : List Token, tokens.length = length →
    Keeps (binaryOf states minimum tokens) (binaryOf finer minimum tokens)
  climb : ∀ minimum, ∀ left left' : Value, left.Below left' → ∀ tokens : List Token, tokens.length = length →
    Keeps (climbOf states minimum left tokens) (climbOf finer minimum left' tokens)
  unary : ∀ tokens : List Token, tokens.length = length → Keeps (unaryOf states tokens) (unaryOf finer tokens)

section Step

variable {length : Nat} (below : ∀ name, (states name).Below (finer name)) (sensible : Sensible finer)
  (shorter : ∀ less < length, Grows states finer less) {tokens : List Token} (enough : tokens.length = length)

include below in
theorem definedOperand_keeps (tokens : List Token) :
    Keeps ((definedOperand states tokens).map Parsed.pair) ((definedOperand finer tokens).map Parsed.pair) := by
  rw [definedOperand.eq_def, definedOperand.eq_def]
  split
  · exact .found (Value.logical_below (below _).defined)
  · exact .found (Value.logical_below (below _).defined)
  · exact .missing

include below sensible shorter enough

/-- Knowing more keeps what a primary expression is decided to be. -/
theorem primaryOf_keeps : Keeps (primaryOf states tokens) (primaryOf finer tokens) := by
  match tokens, enough with
  | [], _ =>
    rw [primaryOf, primaryOf, primary, primary]
    exact .missing
  | .number number :: rest, _ =>
    rw [primaryOf, primaryOf, primary, primary]
    exact .found (.refl _)
  | .opaqueText :: rest, _ =>
    rw [primaryOf, primaryOf, primary, primary]
    exact .found (.refl _)
  | .word word :: rest, _ =>
    by_cases isDefined : word = "defined".toList
    · subst isDefined
      rw [primaryOf_defined, primaryOf_defined]
      exact definedOperand_keeps below rest
    · rw [primaryOf_word isDefined, primaryOf_word isDefined]
      split
      · cases skipGroup 0 rest with
        | none => exact .missing
        | some behind => exact .found (.refl _)
      · exact .found (wordValue_below below sensible word)
  | .punct mark :: rest, enough =>
    by_cases opening : mark = .opening
    · subst opening
      rw [primaryOf_opening, primaryOf_opening]
      refine ((shorter rest.length (enough ▸ Nat.lt_succ_self _)).ternary rest rfl).bind
        fun value value' behind _ kept => ?_
      simp only
      cases behindMark .closing behind with
      | none => exact .missing
      | some behind => exact .found kept
    · have fails (states : Text → NameState) : primaryOf states (.punct mark :: rest) = none := by
        rw [primaryOf, primary]
        · rfl
        · exact fun same => opening same
      rw [fails, fails]
      exact .missing

theorem unaryOf_keeps : Keeps (unaryOf states tokens) (unaryOf finer tokens) := by
  by_cases operator : ∃ op rest, tokens = .punct op :: rest ∧ isUnary op
  · obtain ⟨op, rest, rfl, known⟩ := operator
    rw [unaryOf_op known, unaryOf_op known]
    exact ((shorter rest.length (enough ▸ Nat.lt_succ_self _)).unary rest rfl).map fun _ _ => Value.applyUnary_below op
  · have other : ∀ op, tokens.head? = some (.punct op) → isUnary op = false := by
      intro op first
      obtain ⟨rest, same⟩ := List.head?_eq_some_iff.mp first
      exact Bool.eq_false_iff.mpr fun known => operator ⟨op, rest, same, known⟩
    rw [unaryOf_primary other, unaryOf_primary other]
    exact primaryOf_keeps below sensible shorter enough

omit below sensible in
/-- Knowing more keeps what a chain of operators is decided to be. -/
theorem climbOf_keeps (minimum : Nat) {left left' : Value} (kept : left.Below left') :
    Keeps (climbOf states minimum left tokens) (climbOf finer minimum left' tokens) := by
  by_cases operator : ∃ op precedence rest, tokens = .punct op :: rest ∧ binaryPrecedence op = some precedence ∧
    precedence ≥ minimum
  · obtain ⟨op, precedence, rest, rfl, known, binds⟩ := operator
    rw [climbOf_op known binds, climbOf_op known binds]
    have less : rest.length < length := enough ▸ Nat.lt_succ_self _
    refine ((shorter _ less).binary (precedence + 1) rest rfl).bind fun right right' behind read right_kept => ?_
    exact (shorter _ (Nat.lt_trans (pair_shorter read) less)).climb minimum _ _
      (Value.combine_below op kept right_kept) behind rfl
  · have stop : NoOperator minimum tokens := by
      intro op first precedence known
      obtain ⟨rest, same⟩ := List.head?_eq_some_iff.mp first
      exact Nat.lt_of_not_le fun binds => operator ⟨op, precedence, rest, same, known, binds⟩
    rw [climbOf_stop stop, climbOf_stop stop]
    exact .found kept

theorem binaryOf_keeps (minimum : Nat) : Keeps (binaryOf states minimum tokens) (binaryOf finer minimum tokens) := by
  rw [binaryOf_eq, binaryOf_eq]
  refine (unaryOf_keeps below sensible shorter enough).bind fun left left' rest read kept => ?_
  exact (shorter _ (enough ▸ pair_shorter read)).climb minimum left left' kept rest rfl

/-- What is decided for a coarse state is decided for a finer one. -/
theorem ternaryOf_keeps : Keeps (ternaryOf states tokens) (ternaryOf finer tokens) := by
  rw [ternaryOf_eq, ternaryOf_eq]
  refine (binaryOf_keeps below sensible shorter enough 1).bind fun condition condition' rest read tested => ?_
  have first := pair_shorter read
  simp only
  cases question : behindMark .question rest with
  | none => exact .found tested
  | some behind =>
    have second := behindMark_shorter question
    have chosen := (shorter behind.length (by omega)).ternary behind rfl
    refine chosen.bind fun yes yes' rest read kept => ?_
    have third := pair_shorter read
    simp only
    cases colon : behindMark .colon rest with
    | none => exact .missing
    | some behind =>
      have fourth := behindMark_shorter colon
      have otherwise := (shorter behind.length (by omega)).ternary behind rfl
      exact otherwise.map fun _ _ => Value.select_below tested kept

end Step

/-- All functions of the parser say more in finer states. -/
theorem grows (below : ∀ name, (states name).Below (finer name)) (sensible : Sensible finer) (length : Nat) :
    Grows states finer length := by
  induction length using Nat.strongRecOn with
  | ind length shorter =>
    exact {
      ternary := fun tokens enough => ternaryOf_keeps below sensible shorter enough
      binary := fun minimum tokens enough => binaryOf_keeps below sensible shorter enough minimum
      climb := fun minimum left left' kept tokens enough => climbOf_keeps shorter enough minimum kept
      unary := fun tokens enough => unaryOf_keeps below sensible shorter enough }

/-- What is decided stays decided when more is known of the names. -/
theorem evaluate_grows (below : ∀ name, (states name).Below (finer name)) (sensible : Sensible finer) {text : Text}
    {truth : Bool} (decided : evaluate text states = some truth) : evaluate text finer = some truth := by
  have keeps := (grows below sensible (tokens text).length).ternary (tokens text) rfl
  rw [evaluate] at decided ⊢
  rw [ternaryOf, ternaryOf] at keeps
  generalize ternary states (tokens text) = coarse at decided keeps
  generalize ternary finer (tokens text) = fine at keeps ⊢
  cases coarse with
  | none => cases decided
  | some coarse =>
    cases fine with
    | none => cases keeps
    | some fine =>
      obtain ⟨value, rest, short⟩ := coarse
      obtain ⟨value', rest', short'⟩ := fine
      simp only [Option.map_some, Parsed.pair] at keeps
      cases keeps with
      | found below =>
        change (if rest = [] then value.truthOf else none) = some truth at decided
        change (if rest = [] then value'.truthOf else none) = some truth
        split at decided
        · rw [if_pos ‹_›]
          exact below.truthOf truth decided
        · cases decided

end Monotonicity

section Decided

variable {text : Text} {truth : Bool}

/-- A decided `#if` has its truth in a build that agrees with what is known exactly where its truth does not rest on
the types of its operands, as where no sign is read without them. What is decided stays decided. -/
theorem decided_truth (states : Text → NameState) (decided : evaluate text states = some truth) :
    (∀ (expr : Expr Operand) (assignment : Assignment) (found : Bool), Reads text expr → assignment.Agrees states →
      assignment.truth expr = some found →
        (found = truth ↔ found = assignment.signedTruth expr) ∧ (expr.Steady assignment.number → found = truth)) ∧
    ∀ finer : Text → NameState, (∀ name, (states name).Below (finer name)) → Sensible finer →
      evaluate text finer = some truth := by
  refine ⟨fun expr assignment found reads agrees computed => ?_,
    fun finer below sensible => evaluate_grows below sensible decided⟩
  have signed : assignment.signedTruth expr = truth := by
    rw [evaluate_reads reads] at decided
    exact (agrees.expression expr).truthOf decided
  refine ⟨by rw [signed], fun steady => ?_⟩
  obtain ⟨bits, evaluated, rfl⟩ := Option.map_eq_some_iff.mp computed
  rw [steady.eval evaluated]
  exact signed

theorem Derives.wider {level high : Nat} {tokens : List CToken} {expr : Expr Operand} (le : level ≤ high)
    (derives : Derives high tokens expr) : Derives level tokens expr := by
  induction high, le using Nat.le_induction with
  | base => exact derives
  | succ high _ ih => exact ih derives.narrower

/-- A comparison of a number with a name. -/
def boundText : Text := "FLAG < 2".toList

def boundExpr : Expr Operand := .binary .lt (.leaf (.name "FLAG".toList)) (.leaf (.constant ⟨2, false⟩))

theorem reads_bound : Reads boundText boundExpr := by
  have tokens : cTokens boundText = [.identifier "FLAG".toList] ++ .punct .lt :: [.number "2".toList] := by
    decide +kernel
  rw [Reads, tokens]
  have left : Derives 12 [.identifier "FLAG".toList] (.leaf (.name "FLAG".toList)) := .name (by decide)
  have right : Derives 12 [.number "2".toList] (.leaf (.constant ⟨2, false⟩)) := .constant rfl
  exact (@Derives.binary 7 _ _ _ _ _ _ (by decide) (left.wider (by decide)) (right.wider (by decide))).wider (by decide)

/-- No name is defined. -/
def bare : Assignment := ⟨fun _ => none, fun _ => 0, fun _ _ => ⟨0, false⟩⟩

/-- A flag that is not defined. -/
theorem decided_truth_bound : (true = true ↔ true = bare.signedTruth boundExpr) ∧
      evaluate boundText (fun _ => ⟨some false, some false⟩) = some true := by
  have decided : evaluate boundText (fun _ => ⟨some false, none⟩) = some true := by decide +kernel
  obtain ⟨sound, grows⟩ := decided_truth _ decided
  have agrees : bare.Agrees fun _ => ⟨some false, none⟩ := ⟨fun _ _ known => Option.some.inj known, nofun⟩
  refine ⟨(sound boundExpr bare true reads_bound agrees (by decide)).1,
    grows _ (fun _ => ⟨fun _ known => known, nofun⟩) nofun⟩

/-- A negative number is compared with an unsigned one. -/
def mixedText : Text := "-1 < 0u".toList

def mixedExpr : Expr Operand :=
  .binary .lt (.unary .neg (.leaf (.constant ⟨1, false⟩))) (.leaf (.constant ⟨0, true⟩))

theorem reads_mixed : Reads mixedText mixedExpr := by
  have tokens : cTokens mixedText = [.punct .minus, .number "1".toList] ++ .punct .lt :: [.number "0u".toList] := by
    decide +kernel
  rw [Reads, tokens]
  have one : Derives 12 [.number "1".toList] (.leaf (.constant ⟨1, false⟩)) := .constant rfl
  have left : Derives 11 [.punct .minus, .number "1".toList] (.unary .neg (.leaf (.constant ⟨1, false⟩))) :=
    .unary (by decide) one.narrower
  have right : Derives 12 [.number "0u".toList] (.leaf (.constant ⟨0, true⟩)) := .constant rfl
  exact (@Derives.binary 7 _ _ _ _ _ _ (by decide) (left.wider (by decide)) (right.wider (by decide))).wider (by decide)

/-- A comparison of a negative with an unsigned constant. -/
theorem mixed_comparison_is_decided_wrongly :
    ¬∀ (states : Text → NameState) (text : Text) (truth : Bool), evaluate text states = some truth →
      ∀ (expr : Expr Operand) (assignment : Assignment) (found : Bool), Reads text expr → assignment.Agrees states →
        assignment.truth expr = some found → found = truth := by
  intro sound
  have decided : evaluate mixedText (fun _ => ⟨none, none⟩) = some true := by decide +kernel
  cases sound _ _ _ decided mixedExpr bare false reads_mixed ⟨nofun, nofun⟩ (by decide)

end Decided

end Codegraph.Macros
