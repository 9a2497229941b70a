/-
Aether.Semantic.ConstantTheorems — the two evaluators of constant
expressions: `const_eval_expr` of `src/semantic.c` and `eval_constant_int`
of `src/optimizer.c`.

`ConstExpr` are the closed expressions over integer, boolean and character
literals; `ConstExpr.value below` is their meaning in 64-bit words when
`below` orders the words. The semantic analyser computes the meaning for
the signed order (`constEvalExpr_toNode`), the optimizer the one for the
unsigned order (`evalConstantInt_toNode`), and the two orders differ on
exactly the pairs of words of which one has its top bit set
(`below_eq_iff`). So the evaluators agree on an expression and all its
parts if and only if every ordering comparison in it compares two words
with the same top bit (`evaluators_agree_iff`).
-/
import Aether.Optimizer.Fold
import Aether.Semantic.Analyzer

namespace Aether.Semantic

open Optimizer

/-! ## §1 Constant expressions -/

inductive ConstExpr where
  | int (value : UInt64)
  | bool (value : Bool)
  | char (value : UInt32)
  | unary (op : UnaryOp) (operand : ConstExpr)
  | binary (op : BinOp) (left right : ConstExpr)
  deriving DecidableEq, Repr

namespace ConstExpr

/-- The node the parser builds. -/
def toNode : ConstExpr → AstNode
  | int value => .literalInt value false
  | bool value => .literalBool value
  | char value => .literalChar value
  | unary op operand => .unaryOp op (some operand.toNode)
  | binary op left right => .binaryOp op (some left.toNode) (some right.toNode) []

def depth : ConstExpr → Nat
  | unary _ operand => operand.depth + 1
  | binary _ left right => max left.depth right.depth + 1
  | _ => 0

/-- A property of an expression and all its parts. -/
def Everywhere (P : ConstExpr → Prop) : ConstExpr → Prop
  | unary op operand => P (unary op operand) ∧ operand.Everywhere P
  | binary op left right => P (binary op left right) ∧ left.Everywhere P ∧ right.Everywhere P
  | e => P e

end ConstExpr

/-! ## §2 Their meaning, for an order on the words -/

def wordUnary : UnaryOp → UInt64 → Option UInt64
  | .neg, a => some (0 - a)
  | .not, a => some (if a = 0 then 1 else 0)
  | .bitNot, a => some (~~~a)
  | _, _ => none

def wordBinary (below : UInt64 → UInt64 → Bool) : BinOp → UInt64 → UInt64 → Option UInt64
  | .add, a, b => some (a + b)
  | .sub, a, b => some (a - b)
  | .mul, a, b => some (a * b)
  | .div, a, b => if b = 0 then none else some (a / b)
  | .mod, a, b => if b = 0 then none else some (a % b)
  | .eq, a, b => some (if a = b then 1 else 0)
  | .neq, a, b => some (if a = b then 0 else 1)
  | .lt, a, b => some (if below a b then 1 else 0)
  | .gt, a, b => some (if below b a then 1 else 0)
  | .le, a, b => some (if below b a then 0 else 1)
  | .ge, a, b => some (if below a b then 0 else 1)
  | .and, a, b => some (if a = 0 ∨ b = 0 then 0 else 1)
  | .or, a, b => some (if a = 0 ∧ b = 0 then 0 else 1)
  | .bitAnd, a, b => some (a &&& b)
  | .bitOr, a, b => some (a ||| b)
  | .bitXor, a, b => some (a ^^^ b)
  | .shl, a, b => some (a <<< b)
  | .shr, a, b => some (a >>> b)
  | _, _, _ => none

-- the equations, before the proofs that share them
section
attribute [local simp] wordBinary constBinary evalBinary
end

/-- The word an expression denotes, if it denotes one. -/
def ConstExpr.value (below : UInt64 → UInt64 → Bool) : ConstExpr → Option UInt64
  | int value => some value
  | bool value => some (if value then 1 else 0)
  | char value => some value.toUInt64
  | unary op operand => (operand.value below).bind (wordUnary op)
  | binary op left right =>
    (left.value below).bind fun a => (right.value below).bind fun b => wordBinary below op a b

def signedBelow (a b : UInt64) : Bool := decide (signed a < signed b)

def unsignedBelow (a b : UInt64) : Bool := decide (a < b)

/-! ## §3 What the two evaluators compute -/

theorem constUnary_eq (op : UnaryOp) (a : UInt64) : constUnary op a = wordUnary op a := by
  cases op with
  | not => by_cases h : a = 0 <;> simp [constUnary, wordUnary, boolValue, h]
  | _ => rfl

theorem evalUnary_eq (op : UnaryOp) (a : UInt64) : evalUnary op a = wordUnary op a := by
  cases op with
  | not => by_cases h : a = 0 <;> simp [evalUnary, wordUnary, truth, h]
  | _ => rfl

theorem constBinary_eq (op : BinOp) (a b : UInt64) :
    constBinary op a b = wordBinary signedBelow op a b := by
  cases op with
  | eq => by_cases h : a = b <;> simp [constBinary, wordBinary, boolValue, h]
  | neq => by_cases h : a = b <;> simp [constBinary, wordBinary, boolValue, h]
  | and => by_cases h : a = 0 <;> by_cases h' : b = 0 <;>
      simp [constBinary, wordBinary, boolValue, h, h']
  | or => by_cases h : a = 0 <;> by_cases h' : b = 0 <;>
      simp [constBinary, wordBinary, boolValue, h, h']
  | le => by_cases h : signed b < signed a <;>
      simp [constBinary, wordBinary, boolValue, signedBelow, h, ← Int.not_lt]
  | ge => by_cases h : signed a < signed b <;>
      simp [constBinary, wordBinary, boolValue, signedBelow, h, ← Int.not_lt]
  | _ => rfl

theorem evalBinary_eq (op : BinOp) (a b : UInt64) :
    evalBinary a b op = wordBinary unsignedBelow op a b := by
  cases op with
  | eq => by_cases h : a = b <;> simp [evalBinary, wordBinary, truth, h]
  | neq => by_cases h : a = b <;> simp [evalBinary, wordBinary, truth, h]
  | and => by_cases h : a = 0 <;> by_cases h' : b = 0 <;>
      simp [evalBinary, wordBinary, truth, h, h']
  | or => by_cases h : a = 0 <;> by_cases h' : b = 0 <;>
      simp [evalBinary, wordBinary, truth, h, h']
  | le => by_cases h : b < a <;>
      simp [evalBinary, wordBinary, truth, unsignedBelow, h, ← UInt64.not_lt]
  | ge => by_cases h : a < b <;>
      simp [evalBinary, wordBinary, truth, unsignedBelow, h, ← UInt64.not_lt]
  | _ => rfl

/-- The optimizer computes the meaning for the unsigned order. -/
theorem evalConstantInt_toNode (e : ConstExpr) :
    evalConstantInt e.toNode = e.value unsignedBelow := by
  induction e with
  | int value => rfl
  | bool value => rfl
  | char value => rfl
  | unary op operand ih =>
    rw [ConstExpr.toNode, evalConstantInt, ih, ConstExpr.value]
    congr 1
    funext a
    exact evalUnary_eq op a
  | binary op left right ihl ihr =>
    rw [ConstExpr.toNode, evalConstantInt, ihl, ihr, ConstExpr.value]
    congr 1
    funext a
    congr 1
    funext b
    exact evalBinary_eq op a b

theorem constEvalExpr_unary (sa : Analyzer) (fuel : Nat) (op : UnaryOp) (operand : AstNode) :
    constEvalExpr sa (fuel + 1) (some (.unaryOp op (some operand))) =
      (constEvalExpr sa fuel (some operand)).bind fun val => some (val.bind (constUnary op)) := rfl

theorem constEvalExpr_binary (sa : Analyzer) (fuel : Nat) (op : BinOp) (left right : AstNode) :
    constEvalExpr sa (fuel + 1) (some (.binaryOp op (some left) (some right) [])) =
      (constEvalExpr sa fuel (some left)).bind fun left =>
        (constEvalExpr sa fuel (some right)).bind fun right =>
          some (left.bind fun left => right.bind fun right => constBinary op left right) := rfl

/-- The semantic analyser computes the meaning for the signed order. -/
theorem constEvalExpr_toNode (sa : Analyzer) (e : ConstExpr) {fuel : Nat} (hfuel : e.depth < fuel) :
    constEvalExpr sa fuel (some e.toNode) = some (e.value signedBelow) := by
  obtain ⟨fuel, rfl⟩ := Nat.exists_eq_succ_of_ne_zero (Nat.ne_zero_of_lt hfuel)
  induction e generalizing fuel with
  | int value => rfl
  | bool value => rfl
  | char value => rfl
  | unary op operand ih =>
    have hdepth : operand.depth < fuel := Nat.lt_of_succ_lt_succ hfuel
    obtain ⟨fuel, rfl⟩ := Nat.exists_eq_succ_of_ne_zero (Nat.ne_zero_of_lt hdepth)
    have hfun : constUnary op = wordUnary op := funext (constUnary_eq op)
    rw [ConstExpr.toNode, constEvalExpr_unary, ih fuel hdepth, hfun]
    rfl
  | binary op left right ihl ihr =>
    have hmax : max left.depth right.depth < fuel := Nat.lt_of_succ_lt_succ hfuel
    obtain ⟨fuel, rfl⟩ := Nat.exists_eq_succ_of_ne_zero (Nat.ne_zero_of_lt hmax)
    have hleft := ihl fuel (by omega)
    have hright := ihr fuel (by omega)
    rw [ConstExpr.toNode, constEvalExpr_binary, hleft, hright]
    simp only [Option.bind_some, ConstExpr.value, constBinary_eq]

/-! ## §4 Where the two orders agree -/

def topBit (a : UInt64) : Bool := decide (2 ^ 63 ≤ a.toNat)

theorem signed_eq (a : UInt64) :
    signed a = if topBit a then (a.toNat : Int) - 18446744073709551616 else (a.toNat : Int) := by
  have hlt := a.toNat_lt
  have hint : signed a = a.toBitVec.toInt := rfl
  have hnat : a.toBitVec.toNat = a.toNat := rfl
  rw [hint, BitVec.toInt_eq_toNat_cond, hnat]
  by_cases h : topBit a
  · have : 2 ^ 63 ≤ a.toNat := by simpa [topBit] using h
    rw [if_pos h, if_neg (by omega)]
    rfl
  · have : ¬ 2 ^ 63 ≤ a.toNat := by simpa [topBit] using h
    rw [if_neg h, if_pos (by omega)]

/-- The signed and the unsigned order agree on two words exactly when
their top bits do. -/
theorem below_eq_iff (a b : UInt64) : signedBelow a b = unsignedBelow a b ↔ topBit a = topBit b := by
  have ha := a.toNat_lt
  have hb := b.toNat_lt
  have htop : ∀ c : UInt64, topBit c = decide (2 ^ 63 ≤ c.toNat) := fun _ => rfl
  rw [signedBelow, unsignedBelow, decide_eq_decide, signed_eq, signed_eq, UInt64.lt_iff_toNat_lt]
  by_cases h : 2 ^ 63 ≤ a.toNat <;> by_cases h' : 2 ^ 63 ≤ b.toNat <;>
    simp only [htop, h, h', decide_true, decide_false, if_true, if_false, reduceCtorEq, iff_true,
      iff_false] <;> omega

def isOrdering (op : BinOp) : Bool := op == .lt || op == .gt || op == .le || op == .ge

/-- The two orders give an operator the same meaning on two words when it
compares no order, or the words have the same top bit. -/
theorem wordBinary_eq_iff (op : BinOp) (a b : UInt64) :
    wordBinary signedBelow op a b = wordBinary unsignedBelow op a b ↔
      (isOrdering op = true → topBit a = topBit b) := by
  have hbit : ∀ x y : Bool, ((if x then (1 : UInt64) else 0) = if y then 1 else 0) ↔ x = y := by
    decide
  have hflip : ∀ x y : Bool, ((if x then (0 : UInt64) else 1) = if y then 0 else 1) ↔ x = y := by
    decide
  have hforth := below_eq_iff a b
  have hback := below_eq_iff b a
  cases op with
  | lt => simp [wordBinary, isOrdering, hbit, hforth]
  | gt => simp [wordBinary, isOrdering, hbit, hback, Eq.comm (a := topBit b)]
  | le => simp [wordBinary, isOrdering, hflip, hback, Eq.comm (a := topBit b)]
  | ge => simp [wordBinary, isOrdering, hflip, hforth]
  | _ => simp [wordBinary, isOrdering]

/-! ## §5 Agreement -/

/-- `const_eval_expr` ends, and its result is that of `eval_constant_int`:
both give no value, or both the same word. -/
def EvaluatorsAgree (sa : Analyzer) (e : ConstExpr) : Prop :=
  ∃ n, ∀ fuel, n ≤ fuel → constEvalExpr sa fuel (some e.toNode) = some (evalConstantInt e.toNode)

/-- Every ordering comparison whose operands have values compares two words
with the same top bit. -/
def ConstExpr.SameSigns : ConstExpr → Prop
  | unary _ operand => operand.SameSigns
  | binary op left right =>
    left.SameSigns ∧ right.SameSigns ∧
      (isOrdering op = true → ∀ a b, left.value signedBelow = some a →
        right.value signedBelow = some b → topBit a = topBit b)
  | _ => True

theorem evaluatorsAgree_iff (sa : Analyzer) (e : ConstExpr) :
    EvaluatorsAgree sa e ↔ e.value signedBelow = e.value unsignedBelow := by
  constructor
  · rintro ⟨n, hn⟩
    have hsome := hn (max n (e.depth + 1)) (by omega)
    rw [constEvalExpr_toNode sa e (by omega), evalConstantInt_toNode] at hsome
    exact Option.some.inj hsome
  · intro heq
    refine ⟨e.depth + 1, fun fuel hfuel => ?_⟩
    rw [constEvalExpr_toNode sa e (by omega), evalConstantInt_toNode, heq]

/-- Below operands the orders agree on, they agree on a binary operator
exactly when they agree on it at the operands' words. -/
theorem value_binary_eq_iff {op : BinOp} {left right : ConstExpr}
    (hleft : left.value signedBelow = left.value unsignedBelow)
    (hright : right.value signedBelow = right.value unsignedBelow) :
    (ConstExpr.binary op left right).value signedBelow
        = (ConstExpr.binary op left right).value unsignedBelow ↔
      (isOrdering op = true → ∀ a b, left.value signedBelow = some a →
        right.value signedBelow = some b → topBit a = topBit b) := by
  simp only [ConstExpr.value, ← hleft, ← hright]
  cases left.value signedBelow with
  | none => simp
  | some a =>
    cases right.value signedBelow with
    | none => simp
    | some b => simpa using wordBinary_eq_iff op a b

/-- The two evaluators agree on a closed expression and on all its parts if
and only if every ordering comparison in it compares words with the same
top bit. -/
theorem evaluators_agree_iff (sa : Analyzer) (e : ConstExpr) :
    e.Everywhere (EvaluatorsAgree sa) ↔ e.SameSigns := by
  -- the root of an expression that agrees everywhere agrees
  have hroot : ∀ e : ConstExpr, e.Everywhere (EvaluatorsAgree sa) →
      e.value signedBelow = e.value unsignedBelow := by
    intro e h
    rw [← evaluatorsAgree_iff sa]
    cases e with
    | unary op operand => exact h.1
    | binary op left right => exact h.1
    | _ => exact h
  induction e with
  | int value => exact ⟨fun _ => trivial, fun _ => (evaluatorsAgree_iff sa _).mpr rfl⟩
  | bool value => exact ⟨fun _ => trivial, fun _ => (evaluatorsAgree_iff sa _).mpr rfl⟩
  | char value => exact ⟨fun _ => trivial, fun _ => (evaluatorsAgree_iff sa _).mpr rfl⟩
  | unary op operand ih =>
    rw [ConstExpr.Everywhere, ConstExpr.SameSigns, evaluatorsAgree_iff]
    refine ⟨fun h => ih.mp h.2, fun h => ⟨?_, ih.mpr h⟩⟩
    rw [ConstExpr.value, ConstExpr.value, hroot operand (ih.mpr h)]
  | binary op left right ihl ihr =>
    rw [ConstExpr.Everywhere, ConstExpr.SameSigns, evaluatorsAgree_iff]
    constructor
    · rintro ⟨hthis, hl, hr⟩
      exact ⟨ihl.mp hl, ihr.mp hr,
        (value_binary_eq_iff (hroot left hl) (hroot right hr)).mp hthis⟩
    · rintro ⟨hl, hr, hsame⟩
      have hleft := ihl.mpr hl
      have hright := ihr.mpr hr
      exact ⟨(value_binary_eq_iff (hroot left hleft) (hroot right hright)).mpr hsame, hleft, hright⟩

/-- `0 - 1 < 1`. -/
def negativeBelowOne : ConstExpr := .binary .lt (.binary .sub (.int 0) (.int 1)) (.int 1)

theorem evaluators_disagree :
    ¬ ∀ (sa : Analyzer) (e : ConstExpr), EvaluatorsAgree sa e := by
  intro hclaim
  have heq := (evaluatorsAgree_iff _ _).mp (hclaim semanticCreate negativeBelowOne)
  exact absurd heq (by decide)

end Aether.Semantic
