/-
Aether.CTranspiler.Range — ranges in the emitted C: the loop that
`c_emit_for` writes, and the tests that a `match` makes of its value, as a
statement (`c_stmt.c`) and as an expression (`c_expr.c`).

A match arm has a first pattern and alternatives after commas; each of the
two emitters treats the first pattern and the alternatives differently.
-/
import Aether.CTranspiler.Expr

namespace Aether.CTranspiler

open Aether.Lib.CInteger

/-! ## §1 Match arms -/

/-- `_` -/
def isWildcard : Option AstNode → Bool
  | some (.ident name) => name == bytes "_"
  | _ => false

def matchVal : CExpr := .ident (bytes "__match_val")

/-- What is tested of `val` for the first pattern of an arm. -/
def cPatternTest (val : CExpr) (pattern : AstNode) : Option CExpr :=
  match pattern with
  | .binaryOp .range left right _ | .binaryOp .rangeInclusive left right _ => do
    let left ← cEmitOperand left
    let right ← cEmitOperand right
    some (.binary .and (.binary .ge val left) (.binary .le val right))
  | _ => do
    let pattern ← cEmitExpr pattern
    some (.binary .eq val pattern)

/-- What is tested of `val` for an alternative, a range or not. -/
def cAlternativeTest (val : CExpr) (pattern : AstNode) : Option CExpr := do
  let pattern ← cEmitExpr pattern
  some (.binary .eq val pattern)

def cAlternatives (val : CExpr) : CExpr → List AstNode → Option CExpr
  | cond, [] => some cond
  | cond, extra :: patterns => do
    let test ← cAlternativeTest val extra
    cAlternatives val (.binary .or cond test) patterns

/-- The condition of an arm whose first pattern is `pattern`. -/
def cArmCondition (val : CExpr) (pattern : AstNode) (patterns : List AstNode) : Option CExpr :=
  if isWildcard pattern then some (.constant 1)
  else do
    let cond ← cPatternTest val pattern
    cAlternatives val cond patterns

/-- The condition in a match statement, whose value is in
`uint64_t __match_val`. -/
def stmtArmCondition : AstNode → Option CExpr
  | .matchArm (some pattern) patterns _ => cArmCondition matchVal pattern patterns
  | .matchArm none [] _ => some (.constant 1)
  | _ => none

/-- The condition in a match expression, which repeats the value. -/
def exprArmCondition (value : AstNode) : AstNode → Option CExpr
  | .matchArm (some pattern) patterns _ => do
    let val ← cEmitExpr value
    cArmCondition val pattern patterns
  | _ => none

/-- The variables inside a match statement on a value `x`. -/
def withMatchVal (env : Env) (x : CValue) : Env :=
  { env with
    var := fun name => if name = bytes "__match_val" then convert .ulong x.val else env.var name }

/-! ## §2 Loops -/

/-- How an iteration of a loop ends; the last one leaves the loop. -/
inductive BodyExit where
  | fallThrough | continueLoop | leave
  deriving DecidableEq, Repr

section

variable {σ : Type}

/-- `while (__i < __range_end) { …; __i++; }` and the values for which the
body runs. -/
def whileRange (body : σ → UInt64 → σ × BodyExit) (rangeEnd : UInt64) :
    (fuel : Nat) → UInt64 → σ → Option (List UInt64)
  | 0, _, _ => none
  | fuel + 1, i, s =>
    if i < rangeEnd then
      match body s i with
      | (_, .leave) => some [i]
      | (s, .continueLoop) => (whileRange body rangeEnd fuel i s).map (i :: ·)
      | (s, .fallThrough) => (whileRange body rangeEnd fuel (i + 1) s).map (i :: ·)
    else some []

/-- The loop for a range, inclusive or not. -/
def cForRange (env : Env) (iterable : AstNode) (body : σ → UInt64 → σ × BodyExit) (fuel : Nat)
    (s : σ) : Option (List UInt64) :=
  match iterable with
  | .binaryOp .range left right _ | .binaryOp .rangeInclusive left right _ => do
    let (rangeStart, _) ← evalC env (← cEmitOperand left)
    let (rangeEnd, _) ← evalC env (← cEmitOperand right)
    whileRange body (toWord rangeEnd.val) fuel (toWord rangeStart.val) s
  | _ => none

end

/-! ## §3 What a range denotes -/

def rangeOp (inclusive : Bool) : BinOp := if inclusive then .rangeInclusive else .range

/-- `a..b` and `a..=b` -/
def rangeNode (inclusive : Bool) (a b : AstNode) : AstNode :=
  .binaryOp (rangeOp inclusive) (some a) (some b) []

/-- `x` is in the range. -/
def InRange (inclusive : Bool) (a b x : Int) : Prop :=
  a ≤ x ∧ if inclusive then x ≤ b else x < b

/-- Where a range can stand in a match. -/
inductive RangePlace where
  | stmtPattern | stmtAlternative | exprPattern | exprAlternative
  deriving DecidableEq, Repr

/-- The test for the pattern at that place, of the value of `val`. -/
def rangeTest (place : RangePlace) (val : CExpr) (pattern : AstNode) : Option CExpr :=
  match place with
  | .stmtPattern => cPatternTest matchVal pattern
  | .stmtAlternative => cAlternativeTest matchVal pattern
  | .exprPattern => cPatternTest val pattern
  | .exprAlternative => cAlternativeTest val pattern

/-- The variables where the test stands. -/
def testEnv (place : RangePlace) (env : Env) (x : CValue) : Env :=
  match place with
  | .stmtPattern | .stmtAlternative => withMatchVal env x
  | .exprPattern | .exprAlternative => env

/-- How many integers the range has. -/
def rangeSize (inclusive : Bool) (a b : Int) : Nat :=
  (if inclusive then b - a + 1 else b - a).toNat

/-- The `n` integers from `a` on, as 64-bit words. -/
def wordsFrom (a : Int) : Nat → List UInt64
  | 0 => []
  | n + 1 => toWord a :: wordsFrom (a + 1) n

/-- A value of a 64-bit type, signed or not. -/
def Integer64 (v : Int) : Prop := -9223372036854775808 ≤ v ∧ v ≤ 18446744073709551615

instance (v : Int) : Decidable (Integer64 v) := inferInstanceAs (Decidable (_ ∧ _))

/-- The iterable of a loop, where its bounds have values. -/
structure RangeLoop where
  env : Env
  inclusive : Bool
  left : AstNode
  right : AstNode
  start : CValue
  stop : CValue
  left_eval : ((cEmitExpr left).bind (evalC env)).map (·.1) = some start
  right_eval : ((cEmitExpr right).bind (evalC env)).map (·.1) = some stop
  start_word : Integer64 start.val
  stop_word : Integer64 stop.val

namespace RangeLoop

variable (r : RangeLoop)

def iterable : AstNode := rangeNode r.inclusive r.left r.right

/-- The integers in the range, in increasing order. -/
def values : List UInt64 :=
  wordsFrom r.start.val (rangeSize r.inclusive r.start.val r.stop.val)

/-- How many words there are from the start up to the end. -/
def walkSize : Nat := (toWord r.stop.val).toNat - (toWord r.start.val).toNat

end RangeLoop

section

variable {σ : Type} (body : σ → UInt64 → σ × BodyExit)

/-- The values for which a loop over `values` runs its body: all of them, up
to one at which the body leaves the loop. -/
def visits : σ → List UInt64 → List UInt64
  | _, [] => []
  | s, i :: values =>
    i :: match body s i with
      | (_, .leave) => []
      | (s, _) => visits s values

/-- No iteration ends with `continue`. -/
def NoContinue : σ → List UInt64 → Prop
  | _, [] => True
  | s, i :: values =>
    match body s i with
    | (_, .leave) => True
    | (_, .continueLoop) => False
    | (s, .fallThrough) => NoContinue s values

/-- The body leaves the loop at one of the values. -/
def Leaves : σ → List UInt64 → Prop
  | _, [] => False
  | s, i :: values =>
    match body s i with
    | (_, .leave) => True
    | (s, _) => Leaves s values

end

end Aether.CTranspiler
