/-
Aether.Optimizer.Fold — constant folding of `src/optimizer.c`.

`foldNode` gives what the pass puts in a node's place, `none` for NULL. A
tree of `AstNode` has no NULL in a list, so a pass that stores one there, or
that reads through NULL, ends in a `Fault` and the model stops with it.
Shifts by 64 and more, which C leaves open, are taken modulo 64.
-/
import Aether.Ast

namespace Aether.Optimizer

/-! ## §1 Constants -/

def isConstantExpr : AstNode → Bool
  | .literalInt .. => true
  | .literalFloat _ => true
  | .literalBool _ => true
  | .literalChar _ => true
  | .literalString _ => true
  | .literalNone => true
  | .unaryOp op (some operand) =>
    (op == .neg || op == .not || op == .bitNot) && isConstantExpr operand
  | .binaryOp op (some left) (some right) _ =>
    [BinOp.add, .sub, .mul, .div, .mod, .eq, .neq, .lt, .gt, .le, .ge, .and, .or, .bitAnd, .bitOr,
      .bitXor, .shl, .shr].contains op && isConstantExpr left && isConstantExpr right
  | _ => false

/-- C's truth value of a comparison. -/
def truth (b : Bool) : UInt64 := if b then 1 else 0

def evalUnary : UnaryOp → UInt64 → Option UInt64
  | .neg, val => some (0 - val)
  | .not, val => some (truth (val == 0))
  | .bitNot, val => some (~~~val)
  | _, _ => none

def evalBinary (left right : UInt64) : BinOp → Option UInt64
  | .add => some (left + right)
  | .sub => some (left - right)
  | .mul => some (left * right)
  | .div => if right = 0 then none else some (left / right)
  | .mod => if right = 0 then none else some (left % right)
  | .eq => some (truth (left == right))
  | .neq => some (truth (left != right))
  | .lt => some (truth (left < right))
  | .gt => some (truth (left > right))
  | .le => some (truth (left ≤ right))
  | .ge => some (truth (left ≥ right))
  | .and => some (truth (left != 0 && right != 0))
  | .or => some (truth (left != 0 || right != 0))
  | .bitAnd => some (left &&& right)
  | .bitOr => some (left ||| right)
  | .bitXor => some (left ^^^ right)
  | .shl => some (left <<< right)
  | .shr => some (left >>> right)
  | _ => none

def evalConstantInt : AstNode → Option UInt64
  | .literalInt value isNegative => some (if isNegative then 0 - value else value)
  | .literalBool value => some (truth value)
  | .literalChar value => some value.toUInt64
  | .unaryOp op (some operand) => do
    let val ← evalConstantInt operand
    evalUnary op val
  | .binaryOp op (some left) (some right) _ => do
    let left ← evalConstantInt left
    let right ← evalConstantInt right
    evalBinary left right op
  | _ => none

/-! ## §2 Folding -/

inductive Fault where
  | nullInList
  | nullDereferenced
  deriving DecidableEq, Repr

/-- The operators that may be overloaded, left to the transpiler. -/
def overloadable : List BinOp :=
  [.add, .sub, .mul, .div, .mod, .eq, .neq, .lt, .gt, .le, .ge, .bitAnd, .bitOr, .bitXor, .shl, .shr]

/-- The literal of a constant node, or the node. -/
def literalOr (node : AstNode) : AstNode :=
  match evalConstantInt node with
  | some result => .literalInt result false
  | none => node

/-- `fold_binary_op`, on the folded operands. -/
def foldBinaryOp (op : BinOp) (left right : Option AstNode) (customOp : Bytes) : AstNode :=
  if !overloadable.contains op && left.any isConstantExpr && right.any isConstantExpr then
    literalOr (.binaryOp op left right customOp)
  else .binaryOp op left right customOp

def foldUnaryOp (op : UnaryOp) (operand : Option AstNode) : AstNode :=
  if operand.any isConstantExpr then literalOr (.unaryOp op operand) else .unaryOp op operand

/-- The branches of an if/elif/else chain, elifs by number; the last one is
the else block, if there is one. -/
inductive Branch where
  | thenBlock
  | elif (i : Nat)
  | otherwise
  deriving DecidableEq, Repr

/-- The branch that `fold_if_node` puts in place of a chain, if it does. -/
def constantBranch : AstNode → Option Branch
  | .literalBool true => some .thenBlock
  | .literalBool false => some .otherwise
  | _ => none

/-- `fold_if_node`, on what was folded; the elif chain stays as it is. -/
def foldIfNode (condition thenBlock elifChain elseBlock : Option AstNode) :
    Except Fault (Option AstNode) :=
  match condition with
  | none => .error .nullDereferenced
  | some c =>
    .ok (match constantBranch c with
      | some .thenBlock => thenBlock
      | some _ => elseBlock
      | none => some (.ifNode condition thenBlock elifChain elseBlock))

/-- The same function on an `if let`, which has no other branches. -/
def foldIfLet (pattern condition thenBlock : Option AstNode) : Except Fault (Option AstNode) :=
  match condition with
  | none => .error .nullDereferenced
  | some c =>
    .ok (match constantBranch c with
      | some .thenBlock => thenBlock
      | some _ => none
      | none => some (.ifLet pattern condition thenBlock))

mutual

def foldNode : AstNode → Except Fault (Option AstNode)
  | .program decls => do
    let decls ← foldItems decls
    return some (.program decls)
  | .block stmts => do
    let stmts ← foldItems stmts
    return some (.block stmts)
  | .funcDecl name typeParams params returnType pre post body info => do
    let body ← foldOpt body
    return some (.funcDecl name typeParams params returnType pre post body info)
  | .letNode name type value isMut isGlobal => do
    let value ← foldOpt value
    return some (.letNode name type value isMut isGlobal)
  | .ifNode condition thenBlock elifChain elseBlock => do
    let condition ← foldOpt condition
    let thenBlock ← foldOpt thenBlock
    let elseBlock ← foldOpt elseBlock
    foldIfNode condition thenBlock elifChain elseBlock
  | .ifLet pattern condition thenBlock => do
    let condition ← foldOpt condition
    let thenBlock ← foldOpt thenBlock
    foldIfLet pattern condition thenBlock
  | .whileNode condition body => do
    let condition ← foldOpt condition
    let body ← foldOpt body
    return some (.whileNode condition body)
  | .forNode var indexVar iterable body => do
    let iterable ← foldOpt iterable
    let body ← foldOpt body
    return some (.forNode var indexVar iterable body)
  | .returnNode value => do
    let value ← foldOpt value
    return some (.returnNode value)
  | .call callee args => do
    let callee ← foldOpt callee
    let args ← foldItems args
    return some (.call callee args)
  | .index target index => do
    let target ← foldOpt target
    let index ← foldOpt index
    return some (.index target index)
  | .fieldAccess target field => do
    let target ← foldOpt target
    return some (.fieldAccess target field)
  | .matchNode value arms => do
    let value ← foldOpt value
    let arms ← foldItems arms
    return some (.matchNode value arms)
  | .tryNode body catchArms finallyBody => do
    let body ← foldOpt body
    let catchArms ← foldItems catchArms
    return some (.tryNode body catchArms finallyBody)
  | .throwNode value => do
    let value ← foldOpt value
    return some (.throwNode value)
  | .deferNode body => do
    let body ← foldOpt body
    return some (.deferNode body)
  | .region name body => do
    let body ← foldOpt body
    return some (.region name body)
  | .lambda params body => do
    let body ← foldOpt body
    return some (.lambda params body)
  | .arrayLit elements => do
    let elements ← foldItems elements
    return some (.arrayLit elements)
  | .binaryOp op left right customOp => do
    let left ← foldOpt left
    let right ← foldOpt right
    return some (foldBinaryOp op left right customOp)
  | .unaryOp op operand => do
    let operand ← foldOpt operand
    return some (foldUnaryOp op operand)
  | node => return some node

def foldOpt : Option AstNode → Except Fault (Option AstNode)
  | none => return none
  | some node => foldNode node

/-- The items of a list; NULL is stored where an item was folded to it. -/
def foldItems : List AstNode → Except Fault (List AstNode)
  | [] => return []
  | node :: nodes => do
    match ← foldNode node with
    | none => throw .nullInList
    | some node =>
      let nodes ← foldItems nodes
      return node :: nodes

end

def optConstantFold (node : AstNode) : Except Fault (Option AstNode) := foldNode node

end Aether.Optimizer
