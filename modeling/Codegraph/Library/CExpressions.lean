import Mathlib.Data.BitVec

/- This file evaluates the integer expressions of the C preprocessor, whose operands are `intmax_t` or `uintmax_t`. -/

namespace CExpressions

inductive BinaryOp where
  | or | and | bitOr | bitXor | bitAnd | eq | ne | lt | le | gt | ge | shl | shr | add | sub | mul | div | rem
  deriving DecidableEq

inductive UnaryOp where
  | not | complement | neg | plus
  deriving DecidableEq

inductive Expr (Leaf : Type) where
  | leaf (leaf : Leaf)
  | unary (op : UnaryOp) (operand : Expr Leaf)
  | binary (op : BinaryOp) (left right : Expr Leaf)
  | conditional (condition yes no : Expr Leaf)

/-- A number of 64 bits with its type. -/
structure Number where
  bits : BitVec 64
  unsigned : Bool := false
  deriving DecidableEq

def ofBool (truth : Bool) : BitVec 64 := if truth then 1 else 0

/-- The operators whose result is a truth. -/
def BinaryOp.isTruth : BinaryOp → Bool
  | or | and | eq | ne | lt | le | gt | ge => true
  | _ => false

/-- The operators that work on the type of their left operand. -/
def BinaryOp.isShift : BinaryOp → Bool
  | shl | shr => true
  | _ => false

/-- The operators whose bits depend on the type of their operands. -/
def BinaryOp.readsSign : BinaryOp → Bool
  | div | rem | lt | le | gt | ge | shr => true
  | _ => false

/-- The type in which an operator works, from those of its operands. -/
def BinaryOp.worksUnsigned (op : BinaryOp) (left right : Bool) : Bool := if op.isShift then left else left || right

section Evaluation

variable {Leaf : Type} (value : Leaf → Number)

/-- The type of an expression, which needs no value of it. -/
def Expr.unsigned : Expr Leaf → Bool
  | leaf found => (value found).unsigned
  | unary op operand => op ≠ .not && operand.unsigned
  | binary op left right => !op.isTruth && op.worksUnsigned left.unsigned right.unsigned
  | conditional _ yes no => yes.unsigned || no.unsigned

def unaryResult (op : UnaryOp) (a : BitVec 64) : BitVec 64 :=
  match op with
  | .not => ofBool (a == 0)
  | .complement => ~~~a
  | .neg => -a
  | .plus => a

/-- The negation that does not fit is not defined. -/
def applyUnary (op : UnaryOp) (unsigned : Bool) (a : BitVec 64) : Option (BitVec 64) :=
  if op = .neg ∧ unsigned = false ∧ a.negOverflow then none else some (unaryResult op a)

/-- The bits that an operator computes from those of its operands. -/
def result (op : BinaryOp) (unsigned : Bool) (a b : BitVec 64) : BitVec 64 :=
  match op with
  | .or => ofBool (a != 0 || b != 0)
  | .and => ofBool (a != 0 && b != 0)
  | .bitOr => a ||| b
  | .bitXor => a ^^^ b
  | .bitAnd => a &&& b
  | .eq => ofBool (a == b)
  | .ne => ofBool (a != b)
  | .lt => ofBool (if unsigned then a.ult b else a.slt b)
  | .le => ofBool (if unsigned then a.ule b else a.sle b)
  | .gt => ofBool (if unsigned then b.ult a else b.slt a)
  | .ge => ofBool (if unsigned then b.ule a else b.sle a)
  | .shl => a <<< b.toNat
  | .shr => if unsigned then a >>> b.toNat else a.sshiftRight b.toNat
  | .add => a + b
  | .sub => a - b
  | .mul => a * b
  | .div => if unsigned then a.udiv b else a.sdiv b
  | .rem => if unsigned then a.umod b else a.srem b

/-- Signed results that do not fit, divisions by zero and shifts that are too far are not defined. -/
def isDefined (op : BinaryOp) (unsigned : Bool) (a b : BitVec 64) : Bool :=
  match op with
  | .shl => b.toNat < 64 && (unsigned || 0 ≤ a.toInt && a.toInt * 2 ^ b.toNat < 2 ^ 63)
  | .shr => b.toNat < 64
  | .add => unsigned || !a.saddOverflow b
  | .sub => unsigned || !a.ssubOverflow b
  | .mul => unsigned || !a.smulOverflow b
  | .div | .rem => b != 0 && (unsigned || !a.sdivOverflow b)
  | _ => true

def compute (op : BinaryOp) (unsigned : Bool) (a b : BitVec 64) : Option (BitVec 64) :=
  if isDefined op unsigned a b then some (result op unsigned a b) else none

/-- The bits of an expression, where they are defined. What is not needed is not evaluated. -/
def Expr.eval : Expr Leaf → Option (BitVec 64)
  | leaf found => some (value found).bits
  | unary op operand => operand.eval.bind (applyUnary op (operand.unsigned value))
  | binary .or left right => left.eval.bind fun a => if a ≠ 0 then some 1 else right.eval.map fun b => ofBool (b != 0)
  | binary .and left right => left.eval.bind fun a => if a = 0 then some 0 else right.eval.map fun b => ofBool (b != 0)
  | binary op left right => left.eval.bind fun a => right.eval.bind fun b =>
    compute op (op.worksUnsigned (left.unsigned value) (right.unsigned value)) a b
  | conditional condition yes no => condition.eval.bind fun a => if a ≠ 0 then yes.eval else no.eval

/-- The bits of an expression whose operands are all read with a sign, and whose results all wrap around. -/
def Expr.signedBits : Expr Leaf → BitVec 64
  | leaf found => (value found).bits
  | unary op operand => unaryResult op operand.signedBits
  | binary op left right => result op false left.signedBits right.signedBits
  | conditional condition yes no => if condition.signedBits ≠ 0 then yes.signedBits else no.signedBits

/-- No operator that reads signs works without them on an operand that would have one. -/
def Expr.Steady : Expr Leaf → Prop
  | leaf _ => True
  | unary _ operand => operand.Steady
  | binary op left right => left.Steady ∧ right.Steady ∧
      (op.readsSign → op.worksUnsigned (left.unsigned value) (right.unsigned value) →
        (left.signedBits value).msb = false ∧ (op = .shr ∨ (right.signedBits value).msb = false))
  | conditional condition yes no => condition.Steady ∧ yes.Steady ∧ no.Steady

end Evaluation

section Signs

variable {a b : BitVec 64}

theorem udiv_eq_sdiv (left : a.msb = false) (right : b.msb = false) : a.udiv b = a.sdiv b := by
  rw [BitVec.sdiv_eq, left, right]

theorem umod_eq_srem (left : a.msb = false) (right : b.msb = false) : a.umod b = a.srem b := by
  rw [BitVec.srem_eq, left, right]
  rfl

theorem ult_eq_slt (left : a.msb = false) (right : b.msb = false) : a.ult b = a.slt b := by
  rw [BitVec.slt_eq_ult, left, right]
  simp

theorem ule_eq_sle (left : a.msb = false) (right : b.msb = false) : a.ule b = a.sle b := by
  rw [BitVec.sle_eq_ule, left, right]
  simp

theorem ushiftRight_eq_sshiftRight (left : a.msb = false) (count : Nat) : a >>> count = a.sshiftRight count :=
  (BitVec.sshiftRight_eq_of_msb_false left).symm

/-- Where no operand is negative or no sign is read, the type does not change a result. -/
theorem result_signed {op : BinaryOp} {unsigned : Bool}
    (positive : op.readsSign → unsigned → a.msb = false ∧ (op = .shr ∨ b.msb = false)) :
    result op unsigned a b = result op false a b := by
  cases unsigned with
  | false => rfl
  | true =>
    cases op with
    | shr => exact ushiftRight_eq_sshiftRight (positive rfl rfl).1 _
    | div | rem | lt | le | gt | ge =>
      obtain ⟨left, shift | right⟩ := positive rfl rfl
      · cases shift
      · simp only [result, udiv_eq_sdiv left right, umod_eq_srem left right, ult_eq_slt left right,
          ule_eq_sle left right,
          ult_eq_slt right left, ule_eq_sle right left, ite_self]
    | _ => rfl

end Signs

section Steadiness

variable {Leaf : Type} {value : Leaf → Number}

theorem compute_result {op : BinaryOp} {unsigned : Bool} {a b bits : BitVec 64}
    (computed : compute op unsigned a b = some bits) : bits = result op unsigned a b := by
  rw [compute] at computed
  split at computed
  · exact (Option.some.inj computed).symm
  · cases computed

theorem applyUnary_result {op : UnaryOp} {unsigned : Bool} {a bits : BitVec 64}
    (computed : applyUnary op unsigned a = some bits) : bits = unaryResult op a := by
  rw [applyUnary] at computed
  split at computed
  · cases computed
  · exact (Option.some.inj computed).symm

/-- The bits of a steady expression do not depend on the types of its operands. -/
theorem Expr.Steady.eval {expr : Expr Leaf} (steady : expr.Steady value) {bits : BitVec 64}
    (computed : expr.eval value = some bits) : bits = expr.signedBits value := by
  induction expr generalizing bits with
  | leaf found => exact (Option.some.inj computed).symm
  | unary op operand ih =>
    obtain ⟨a, inner, applied⟩ := Option.bind_eq_some_iff.mp computed
    rw [signedBits, ← ih steady inner]
    exact applyUnary_result applied
  | conditional condition yes no test chosen otherwise =>
    obtain ⟨a, inner, branch⟩ := Option.bind_eq_some_iff.mp computed
    rw [signedBits, ← test steady.1 inner]
    split at branch
    · rw [if_pos ‹_›]
      exact chosen steady.2.1 branch
    · rw [if_neg ‹_›]
      exact otherwise steady.2.2 branch
  | binary op left right leftward rightward =>
    obtain ⟨steadyLeft, steadyRight, positive⟩ := steady
    have lazy (decides : BitVec 64 → Prop) [DecidablePred decides] (answer : BitVec 64)
        (reads : ((left.eval value).bind fun a => if decides a then some answer
          else (right.eval value).map fun b => ofBool (b != 0)) =
          some bits)
        (early : ∀ a b, decides a → answer = result op false a b)
        (late : ∀ a b, ¬decides a → ofBool (b != 0) = result op false a b) :
        bits = result op false (left.signedBits value) (right.signedBits value) := by
      obtain ⟨a, first, branch⟩ := Option.bind_eq_some_iff.mp reads
      rw [← leftward steadyLeft first]
      split at branch
      · rw [← Option.some.inj branch]
        exact early a _ ‹_›
      · obtain ⟨b, second, same⟩ := Option.map_eq_some_iff.mp branch
        rw [← rightward steadyRight second, ← same]
        exact late a b ‹_›
    have eager (reads : (left.eval value).bind (fun a => (right.eval value).bind fun b =>
        compute op (op.worksUnsigned (left.unsigned value) (right.unsigned value)) a b) = some bits) :
        bits = result op false (left.signedBits value) (right.signedBits value) := by
      obtain ⟨a, first, branch⟩ := Option.bind_eq_some_iff.mp reads
      obtain ⟨b, second, same⟩ := Option.bind_eq_some_iff.mp branch
      rw [compute_result same, leftward steadyLeft first, rightward steadyRight second]
      exact result_signed positive
    rw [signedBits]
    cases op with
    | or =>
      refine lazy (· ≠ 0) 1 computed (fun a b known => ?_) fun a b zero => ?_
      · rw [result, bne_iff_ne.mpr known, Bool.true_or]
        rfl
      · rw [result, not_not.mp zero, bne_self_eq_false, Bool.false_or]
    | and =>
      refine lazy (· = 0) 0 computed (fun a b known => ?_) fun a b other => ?_
      · rw [result, known, bne_self_eq_false, Bool.false_and]
        rfl
      · rw [result, bne_iff_ne.mpr other, Bool.true_and]
    | _ => exact eager computed

end Steadiness

end CExpressions
