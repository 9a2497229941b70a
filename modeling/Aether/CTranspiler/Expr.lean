/-
Aether.CTranspiler.Expr — the C expressions that `c_expr.c` writes for the
expressions over integers and truth values, and what they evaluate to.

The emitter puts every operation in parentheses, so the text and the tree
say the same. Expressions of strings, slices and structs, assignments and
overloaded operators are not part of the fragment.
-/
import Mathlib.Data.Int.Bitwise
import Aether.Ast
import Aether.Lib.CInteger

namespace Aether.CTranspiler

open Aether.Lib.CInteger

/-! ## §1 The emitted expressions -/

inductive COp where
  | add | sub | mul | div | mod
  | eq | ne | lt | gt | le | ge
  | bitAnd | bitOr | bitXor | shl | shr
  | and | or
  deriving DecidableEq, Repr

inductive CUnaryOp where
  | neg | not | bitNot
  deriving DecidableEq, Repr

inductive CExpr where
  | constant (value : Nat)
  | ident (name : Bytes)
  | binary (op : COp) (left right : CExpr)
  | unary (op : CUnaryOp) (operand : CExpr)
  | call (name : Bytes) (args : List CExpr)

/-- The operator of `c_emit_binary_op`. Ranges and powers come out as `+`. -/
def cBinaryOp : BinOp → Option COp
  | .add => some .add
  | .sub => some .sub
  | .mul => some .mul
  | .div => some .div
  | .mod => some .mod
  | .eq => some .eq
  | .neq => some .ne
  | .lt => some .lt
  | .gt => some .gt
  | .le => some .le
  | .ge => some .ge
  | .bitAnd => some .bitAnd
  | .bitOr => some .bitOr
  | .bitXor => some .bitXor
  | .shl => some .shl
  | .shr => some .shr
  | .and => some .and
  | .or => some .or
  | .orElse => some .or
  | .range | .rangeInclusive | .power => some .add
  | .assign | .addAssign | .subAssign | .mulAssign | .divAssign => none
  | .concat | .custom | .errorContext => none

def cUnaryOp : UnaryOp → Option CUnaryOp
  | .neg => some .neg
  | .not => some .not
  | .bitNot => some .bitNot
  | _ => none

/-- The constant that `c_emit_literal_int` prints. -/
def cLiteralInt (value : UInt64) (isNegative : Bool) : Nat :=
  (if isNegative then ~~~value + 1 else value).toNat

mutual

/-- `c_emit_expr` on the fragment, `none` outside of it. -/
def cEmitExpr : AstNode → Option CExpr
  | .literalInt value isNegative => some (.constant (cLiteralInt value isNegative))
  | .literalBool value => some (.constant (if value then 1 else 0))
  | .ident name => some (.ident name)
  | .binaryOp op left right _ => do
    let op ← cBinaryOp op
    let left ← cEmitOperand left
    let right ← cEmitOperand right
    some (.binary op left right)
  | .unaryOp op operand => do
    let op ← cUnaryOp op
    let operand ← cEmitOperand operand
    some (.unary op operand)
  | .call (some (.ident name)) args => do
    let args ← cEmitArgs args
    some (.call name args)
  | _ => none

def cEmitOperand : Option AstNode → Option CExpr
  | none => none
  | some node => cEmitExpr node

def cEmitArgs : List AstNode → Option (List CExpr)
  | [] => some []
  | arg :: args => do
    let arg ← cEmitExpr arg
    let args ← cEmitArgs args
    some (arg :: args)

end

/-! ## §2 Evaluation -/

/-- A call of a function on `uint64_t` arguments. -/
structure Call where
  name : Bytes
  args : List UInt64
  deriving DecidableEq, Repr

/-- The values of the variables and the results of the functions. -/
structure Env where
  var : Bytes → CValue
  result : Call → UInt64

/-- `(uint64_t)v` -/
def toWord (v : Int) : UInt64 := UInt64.ofNat (CType.ulong.wrap v).toNat

def ofWord (w : UInt64) : CValue := convert .ulong w.toNat

/-- The value of an operation whose operands are both evaluated. -/
def evalBinary : COp → CValue → CValue → Option CValue
  | .add => arithmetic (· + ·)
  | .sub => arithmetic (· - ·)
  | .mul => arithmetic (· * ·)
  | .div => division Int.tdiv
  | .mod => division Int.tmod
  | .eq => fun a b => some (truth (relation (fun v w => v = w) a b))
  | .ne => fun a b => some (truth (relation (fun v w => v ≠ w) a b))
  | .lt => fun a b => some (truth (relation (fun v w => v < w) a b))
  | .gt => fun a b => some (truth (relation (fun v w => v > w) a b))
  | .le => fun a b => some (truth (relation (fun v w => v ≤ w) a b))
  | .ge => fun a b => some (truth (relation (fun v w => v ≥ w) a b))
  | .bitAnd => arithmetic Int.land
  | .bitOr => arithmetic Int.lor
  | .bitXor => arithmetic Int.xor
  | .shl => shiftLeft
  | .shr => shiftRight
  | .and => fun a b => some (truth (isTrue a && isTrue b))
  | .or => fun a b => some (truth (isTrue a || isTrue b))

def evalUnary : CUnaryOp → CValue → Option CValue
  | .neg => fun a => compute a.type (-a.val)
  | .not => fun a => some (truth (!isTrue a))
  | .bitNot => fun a => compute a.type (-a.val - 1)

/-- Whether the left operand decides a logical operation. -/
def decides : COp → CValue → Bool
  | .and, a => !isTrue a
  | .or, a => isTrue a
  | _, _ => false

mutual

/-- The value of an expression and the calls that it makes, `none` where C
gives it no value. C leaves the order of the operands open; they are
evaluated from left to right here. -/
def evalC (env : Env) : CExpr → Option (CValue × List Call)
  | .constant value => (constant value).map (·, [])
  | .ident name => some (env.var name, [])
  | .binary op left right => do
    let (a, calls) ← evalC env left
    if decides op a then some (truth (isTrue a), calls)
    else
      let (b, more) ← evalC env right
      let v ← evalBinary op a b
      some (v, calls ++ more)
  | .unary op operand => do
    let (a, calls) ← evalC env operand
    let v ← evalUnary op a
    some (v, calls)
  | .call name args => do
    let (args, calls) ← evalArgs env args
    some (ofWord (env.result ⟨name, args⟩), calls ++ [⟨name, args⟩])

def evalArgs (env : Env) : List CExpr → Option (List UInt64 × List Call)
  | [] => some ([], [])
  | arg :: args => do
    let (v, calls) ← evalC env arg
    let (vs, more) ← evalArgs env args
    some (toWord v.val :: vs, calls ++ more)

end

theorem evalC_binary {env : Env} {op : COp} {left right : CExpr} {a b : CValue}
    {calls more : List Call} (hleft : evalC env left = some (a, calls))
    (hnot : decides op a = false) (hright : evalC env right = some (b, more)) :
    evalC env (.binary op left right) = (evalBinary op a b).map (·, calls ++ more) := by
  rw [evalC, hleft, Option.bind_eq_bind, Option.bind_some]
  dsimp only
  rw [hnot, if_neg Bool.false_ne_true, hright, Option.bind_some]
  dsimp only
  cases evalBinary op a b with
  | none => rfl
  | some v => rfl

end Aether.CTranspiler
