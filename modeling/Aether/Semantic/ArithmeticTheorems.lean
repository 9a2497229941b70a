/-
Aether.Semantic.ArithmeticTheorems — compile-time arithmetic against the
specification.

A literal is a `u64`: arithmetic wraps, a shift takes its count modulo the
width, and a division by zero has no value (`ConstExpr.specValue`). What
`const_eval_expr` and `eval_constant_int` do is listed with the operands
(`constEvalOps`, `evalConstantOps`), since C leaves two operations undefined.
Both evaluators stay defined and follow the specification on an expression
and all its parts if and only if no negation, shift or comparison in it has
the operands that `ConstExpr.Safe` excludes (`arithmetic_follows_iff`).
-/
import Aether.Semantic.ConstantTheorems

namespace Aether.Semantic

open Optimizer

/-! ## §1 The specification -/

/-- The operators on `u64`. -/
def specBinary : BinOp → UInt64 → UInt64 → Option UInt64
  | .shl, a, b => some (a <<< (b % 64))
  | .shr, a, b => some (a >>> (b % 64))
  | op, a, b => wordBinary unsignedBelow op a b

/-- The value the specification gives an expression. -/
def ConstExpr.specValue : ConstExpr → Option UInt64
  | int value => some value
  | bool value => some (if value then 1 else 0)
  | char value => some value.toUInt64
  | unary op operand => operand.specValue.bind (wordUnary op)
  | binary op left right =>
    left.specValue.bind fun a => right.specValue.bind fun b => specBinary op a b

/-! ## §2 Operations that C may leave undefined -/

inductive COperation where
  /-- `-(int64_t)a` -/
  | negate (a : UInt64)
  /-- `<<` or `>>` of a `uint64_t` -/
  | shift (count : UInt64)
  deriving DecidableEq, Repr

/-- The least `int64_t` has no negative, and a shift takes less than 64. -/
def COperation.Undefined : COperation → Prop
  | negate a => a = 9223372036854775808
  | shift count => 64 ≤ count

instance (op : COperation) : Decidable op.Undefined := by
  cases op <;> unfold COperation.Undefined <;> infer_instance

def unaryOps : UnaryOp → Option UInt64 → List COperation
  | .neg, some a => [.negate a]
  | _, _ => []

def isShift (op : BinOp) : Bool := op == .shl || op == .shr

/-- The operators are reached when both operands have values. -/
def binaryOps (op : BinOp) (left right : Option UInt64) : List COperation :=
  match left, right with
  | some _, some b => if isShift op then [.shift b] else []
  | _, _ => []

/-- What `const_eval_expr` returns for a closed expression. -/
def constValue (sa : Analyzer) (e : ConstExpr) : Option UInt64 :=
  (constEvalExpr sa (e.depth + 1) (some e.toNode)).join

/-- `const_eval_expr` evaluates both operands. -/
def constEvalOps (sa : Analyzer) : ConstExpr → List COperation
  | .unary op operand => constEvalOps sa operand ++ unaryOps op (constValue sa operand)
  | .binary op left right =>
    constEvalOps sa left ++ constEvalOps sa right ++
      binaryOps op (constValue sa left) (constValue sa right)
  | _ => []

/-- `eval_constant_int` evaluates the right operand if the left one has a
value. -/
def evalConstantOps : ConstExpr → List COperation
  | .unary op operand => evalConstantOps operand ++ unaryOps op (evalConstantInt operand.toNode)
  | .binary op left right =>
    evalConstantOps left ++
      (if (evalConstantInt left.toNode).isSome then evalConstantOps right else []) ++
      binaryOps op (evalConstantInt left.toNode) (evalConstantInt right.toNode)
  | _ => []

/-- Neither evaluator does an undefined operation, and a value that one of
them returns is the value of the specification. -/
structure FollowsSpec (sa : Analyzer) (e : ConstExpr) : Prop where
  const_defined : ∀ op ∈ constEvalOps sa e, ¬ op.Undefined
  eval_defined : ∀ op ∈ evalConstantOps e, ¬ op.Undefined
  const_value : ∀ fuel v, constEvalExpr sa fuel (some e.toNode) = some (some v) →
    e.specValue = some v
  eval_value : ∀ v, evalConstantInt e.toNode = some v → e.specValue = some v

/-- No negation of the least word, no shift by 64 or more, and no ordering
comparison of words with different top bits. -/
def ConstExpr.Safe : ConstExpr → Prop
  | unary op operand =>
    operand.Safe ∧ (op = .neg → operand.specValue ≠ some 9223372036854775808)
  | binary op left right =>
    left.Safe ∧ right.Safe ∧ ∀ a b, left.specValue = some a → right.specValue = some b →
      (isShift op = true → b < 64) ∧ (isOrdering op = true → topBit a = topBit b)
  | _ => True

/-! ## §3 The values -/

theorem specBinary_eq (op : BinOp) (a b : UInt64) :
    specBinary op a b = wordBinary unsignedBelow op a b := by
  cases op with
  | shl =>
    have hshift : a <<< (b % 64) = a <<< b := by
      apply UInt64.toNat_inj.mp
      simp [UInt64.toNat_shiftLeft]
    rw [specBinary, wordBinary, hshift]
  | shr =>
    have hshift : a >>> (b % 64) = a >>> b := by
      apply UInt64.toNat_inj.mp
      simp [UInt64.toNat_shiftRight]
    rw [specBinary, wordBinary, hshift]
  | _ => rfl

theorem specValue_eq (e : ConstExpr) : e.specValue = e.value unsignedBelow := by
  induction e with
  | int value => rfl
  | bool value => rfl
  | char value => rfl
  | unary op operand ih => rw [ConstExpr.specValue, ih, ConstExpr.value]
  | binary op left right ihl ihr =>
    rw [ConstExpr.specValue, ihl, ihr, ConstExpr.value]
    simp only [specBinary_eq]

theorem evalConstantInt_eq_spec (e : ConstExpr) : evalConstantInt e.toNode = e.specValue := by
  rw [evalConstantInt_toNode, specValue_eq]

theorem constValue_eq (sa : Analyzer) (e : ConstExpr) : constValue sa e = e.value signedBelow := by
  rw [constValue, constEvalExpr_toNode sa e (Nat.lt_succ_self _)]
  rfl

/-- An evaluation that returns has returned the value, whatever its fuel. -/
theorem constEvalExpr_eq_value {sa : Analyzer} {e : ConstExpr} {fuel : Nat} {r : Option UInt64}
    (h : constEvalExpr sa fuel (some e.toNode) = some r) : r = e.value signedBelow := by
  induction e generalizing fuel r with
  | unary op operand ih =>
    cases fuel with
    | zero => cases h
    | succ fuel =>
      rw [ConstExpr.toNode, constEvalExpr_unary] at h
      obtain ⟨val, hval, hr⟩ := Option.bind_eq_some_iff.mp h
      obtain rfl := ih hval
      rw [← Option.some.inj hr, ConstExpr.value, funext (constUnary_eq op)]
  | binary op left right ihl ihr =>
    cases fuel with
    | zero => cases h
    | succ fuel =>
      rw [ConstExpr.toNode, constEvalExpr_binary] at h
      obtain ⟨l, hl, hrest⟩ := Option.bind_eq_some_iff.mp h
      obtain ⟨r', hr', hr⟩ := Option.bind_eq_some_iff.mp hrest
      obtain rfl := ihl hl
      obtain rfl := ihr hr'
      rw [← Option.some.inj hr]
      simp only [ConstExpr.value, constBinary_eq]
  | _ =>
    cases fuel with
    | zero => cases h
    | succ fuel => exact (Option.some.inj h).symm

/-- A value is right for `const_eval_expr` when the two orders give the
expression the same one. -/
theorem constEval_follows_iff (sa : Analyzer) (e : ConstExpr) :
    (∀ fuel v, constEvalExpr sa fuel (some e.toNode) = some (some v) → e.specValue = some v) ↔
      ∀ v, e.value signedBelow = some v → e.value unsignedBelow = some v := by
  rw [specValue_eq]
  constructor
  · intro h v hv
    exact h (e.depth + 1) v (by rw [constEvalExpr_toNode sa e (Nat.lt_succ_self _), hv])
  · intro h fuel v hv
    exact h v (constEvalExpr_eq_value hv).symm

/-! ## §4 Safe expressions -/

/-- Safe expressions have one value in both orders. -/
theorem value_of_safe {e : ConstExpr} (h : e.Safe) :
    e.value signedBelow = e.value unsignedBelow := by
  induction e with
  | unary op operand ih => rw [ConstExpr.value, ConstExpr.value, ih h.1]
  | binary op left right ihl ihr =>
    obtain ⟨hl, hr, hwords⟩ := h
    have hleft := ihl hl
    have hright := ihr hr
    refine (value_binary_eq_iff hleft hright).mpr fun hop a b ha hb => ?_
    rw [hleft, ← specValue_eq] at ha
    rw [hright, ← specValue_eq] at hb
    exact (hwords a b ha hb).2 hop
  | _ => rfl

theorem constValue_of_safe (sa : Analyzer) {e : ConstExpr} (h : e.Safe) :
    constValue sa e = e.specValue := by
  rw [constValue_eq, value_of_safe h, specValue_eq]

/-- The operation of a negation is defined unless its operand is the least
word. -/
theorem unaryOps_defined_iff (op : UnaryOp) (a : Option UInt64) :
    (∀ o ∈ unaryOps op a, ¬ o.Undefined) ↔ (op = .neg → a ≠ some 9223372036854775808) := by
  cases op with
  | neg => cases a <;> simp [unaryOps, COperation.Undefined]
  | _ => simp [unaryOps]

theorem binaryOps_defined_iff (op : BinOp) (a b : Option UInt64) :
    (∀ o ∈ binaryOps op a b, ¬ o.Undefined) ↔
      ∀ v w, a = some v → b = some w → isShift op = true → w < 64 := by
  cases a with
  | none => simp [binaryOps]
  | some v =>
    cases b with
    | none => simp [binaryOps]
    | some w => by_cases hop : isShift op = true <;> simp [binaryOps, COperation.Undefined, hop]

theorem constEvalOps_defined {sa : Analyzer} {e : ConstExpr} (h : e.Safe) :
    ∀ op ∈ constEvalOps sa e, ¬ op.Undefined := by
  induction e with
  | unary op operand ih =>
    intro o ho
    rw [constEvalOps, constValue_of_safe sa h.1] at ho
    cases List.mem_append.mp ho with
    | inl ho => exact ih h.1 o ho
    | inr ho => exact (unaryOps_defined_iff op _).mpr h.2 o ho
  | binary op left right ihl ihr =>
    obtain ⟨hl, hr, hwords⟩ := h
    intro o ho
    rw [constEvalOps, constValue_of_safe sa hl, constValue_of_safe sa hr] at ho
    simp only [List.mem_append] at ho
    obtain (ho | ho) | ho := ho
    · exact ihl hl o ho
    · exact ihr hr o ho
    · exact (binaryOps_defined_iff op _ _).mpr (fun a b ha hb => (hwords a b ha hb).1) o ho
  | _ => simp [constEvalOps]

theorem evalConstantOps_defined {e : ConstExpr} (h : e.Safe) :
    ∀ op ∈ evalConstantOps e, ¬ op.Undefined := by
  induction e with
  | unary op operand ih =>
    intro o ho
    rw [evalConstantOps, evalConstantInt_eq_spec] at ho
    cases List.mem_append.mp ho with
    | inl ho => exact ih h.1 o ho
    | inr ho => exact (unaryOps_defined_iff op _).mpr h.2 o ho
  | binary op left right ihl ihr =>
    obtain ⟨hl, hr, hwords⟩ := h
    intro o ho
    rw [evalConstantOps, evalConstantInt_eq_spec, evalConstantInt_eq_spec] at ho
    simp only [List.mem_append] at ho
    obtain (ho | ho) | ho := ho
    · exact ihl hl o ho
    · split at ho
      · exact ihr hr o ho
      · simp at ho
    · exact (binaryOps_defined_iff op _ _).mpr (fun a b ha hb => (hwords a b ha hb).1) o ho
  | _ => simp [evalConstantOps]

theorem followsSpec_of_safe (sa : Analyzer) {e : ConstExpr} (h : e.Safe) : FollowsSpec sa e where
  const_defined := constEvalOps_defined h
  eval_defined := evalConstantOps_defined h
  const_value := (constEval_follows_iff sa e).mpr fun v hv => by rwa [← value_of_safe h]
  eval_value v hv := by rwa [← evalConstantInt_eq_spec]

/-! ## §5 Expressions and all their parts -/

/-- The words of the operands, where a binary operator follows the
specification. -/
theorem words_of_followsSpec {sa : Analyzer} {op : BinOp} {left right : ConstExpr}
    (hl : left.Safe) (hr : right.Safe) (h : FollowsSpec sa (.binary op left right)) {a b : UInt64}
    (ha : left.specValue = some a) (hb : right.specValue = some b) :
    (isShift op = true → b < 64) ∧ (isOrdering op = true → topBit a = topBit b) := by
  constructor
  · refine (binaryOps_defined_iff op _ _).mp (fun o ho => h.eval_defined o ?_) a b ha hb
    rw [evalConstantOps, evalConstantInt_eq_spec, evalConstantInt_eq_spec]
    exact List.mem_append_right _ ho
  · intro hop
    have hvalue := (constEval_follows_iff sa _).mp h.const_value
    rw [specValue_eq] at ha hb
    have hla := (value_of_safe hl).trans ha
    have hrb := (value_of_safe hr).trans hb
    simp only [ConstExpr.value, hla, hrb, ha, hb, Option.bind_some] at hvalue
    refine (wordBinary_eq_iff op a b).mp ?_ hop
    cases hsigned : wordBinary signedBelow op a b with
    | some v => exact (hvalue v hsigned).symm
    | none => cases op <;> simp [wordBinary] at hsigned <;> simp [isOrdering] at hop

/-- On an expression and all its parts both evaluators are defined and
follow the specification if and only if the expression is safe. -/
theorem arithmetic_follows_iff (sa : Analyzer) (e : ConstExpr) :
    e.Everywhere (FollowsSpec sa) ↔ e.Safe := by
  induction e with
  | unary op operand ih =>
    constructor
    · intro ⟨hroot, hparts⟩
      have hsafe := ih.mp hparts
      refine ⟨hsafe, (unaryOps_defined_iff op _).mp fun o ho => hroot.eval_defined o ?_⟩
      rw [evalConstantOps, evalConstantInt_eq_spec]
      exact List.mem_append_right _ ho
    · intro h
      exact ⟨followsSpec_of_safe sa h, ih.mpr h.1⟩
  | binary op left right ihl ihr =>
    constructor
    · intro ⟨hroot, hl, hr⟩
      have hleft := ihl.mp hl
      have hright := ihr.mp hr
      exact ⟨hleft, hright, fun a b ha hb => words_of_followsSpec hleft hright hroot ha hb⟩
    · intro h
      exact ⟨followsSpec_of_safe sa h, ihl.mpr h.1, ihr.mpr h.2.1⟩
  | _ => exact ⟨fun _ => trivial, fun _ => followsSpec_of_safe sa trivial⟩

/-- `1 << 64`. -/
def shiftByWidth : ConstExpr := .binary .shl (.int 1) (.int 64)

theorem shiftByWidth_undefined :
    ¬ ∀ (sa : Analyzer) (e : ConstExpr), FollowsSpec sa e := by
  intro hclaim
  exact (hclaim semanticCreate shiftByWidth).eval_defined (.shift 64) (by decide) (by decide)

end Aether.Semantic
