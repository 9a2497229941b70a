/-
Aether.CTranspiler.Lambda — lambdas: the pre-pass `collect_lambdas` of
`c_transpiler.c`, and the function name that `c_expr.c` writes for a
lambda.

The pass numbers the lambdas it meets and stores the number in the node
(`captures`, NULL before). A node is known by its place in the tree, the
steps that lead to it, and `captures` is a function of the place. The
counter of type `int` is a 32-bit word that wraps around.
-/
import Mathlib.Logic.Function.Basic
import Aether.CTranspiler.Names
import Aether.Tree

namespace Aether.CTranspiler

open Lib.Numerals

abbrev Place := List Step

/-- What the pass leaves in the `CCodegen` and in the lambda nodes. -/
structure LambdaPass where
  lambdaCounter : UInt32
  lambdaDecls : List AstNode
  captures : Place → UInt32

/-- `"__lambda_%d"`. -/
def lambdaName (lambdaId : UInt32) : Bytes := bytes "__lambda_" ++ signedDecimal lambdaId

/-- The return type of the function: `i64` for the value of an expression. -/
def lambdaReturnType : Option AstNode → Option AstNode
  | some (.block _) => none
  | some _ => some (.typePrimitive .i64)
  | none => none

/-- The function of a lambda. -/
def lambdaFunc (lambdaId : UInt32) (params : List AstNode) (body : Option AstNode) : AstNode :=
  .funcDecl (lambdaName lambdaId) [] params (lambdaReturnType body) [] [] body { isStatic := true }

/-- The `NODE_LAMBDA` case, up to the descent into the body. -/
def registerLambda (cg : LambdaPass) (place : Place) (params : List AstNode)
    (body : Option AstNode) : LambdaPass where
  lambdaCounter := cg.lambdaCounter + 1
  lambdaDecls := cg.lambdaDecls ++ [lambdaFunc cg.lambdaCounter params body]
  captures := Function.update cg.captures place cg.lambdaCounter

mutual

def collectLambdas (cg : LambdaPass) (place : Place) : AstNode → LambdaPass
  | .lambda params body => collectOpt (registerLambda cg place params body) place 1 body
  | .block stmts => collectItems cg place 0 0 stmts
  | .funcDecl _ _ _ _ _ _ body _ => collectOpt cg place 5 body
  | .letNode _ _ value _ _ => collectOpt cg place 1 value
  | .returnNode value => collectOpt cg place 0 value
  | .ifNode condition thenBlock elifChain elseBlock =>
    let cg := collectOpt cg place 0 condition
    let cg := collectOpt cg place 1 thenBlock
    let cg := collectOpt cg place 2 elifChain
    collectOpt cg place 3 elseBlock
  | .ifLet _ condition thenBlock =>
    let cg := collectOpt cg place 1 condition
    collectOpt cg place 2 thenBlock
  | .whileNode condition body =>
    let cg := collectOpt cg place 0 condition
    collectOpt cg place 1 body
  | .forNode _ _ iterable body =>
    let cg := collectOpt cg place 0 iterable
    collectOpt cg place 1 body
  | .binaryOp _ left right _ =>
    let cg := collectOpt cg place 0 left
    collectOpt cg place 1 right
  | .unaryOp _ operand => collectOpt cg place 0 operand
  | .call callee args =>
    let cg := collectOpt cg place 0 callee
    collectItems cg place 1 0 args
  | .exprStmt expr => collectOpt cg place 0 expr
  | _ => cg

def collectOpt (cg : LambdaPass) (place : Place) (field : Nat) : Option AstNode → LambdaPass
  | none => cg
  | some node => collectLambdas cg (place ++ [(field, 0)]) node

def collectItems (cg : LambdaPass) (place : Place) (field i : Nat) : List AstNode → LambdaPass
  | [] => cg
  | node :: nodes =>
    collectItems (collectLambdas cg (place ++ [(field, i)]) node) place field (i + 1) nodes

end

-- the equations, before the proofs that share them
section
attribute [local simp] collectLambdas
end

/-- The pre-pass of `c_generate` over the declarations of a program. -/
def collectProgram (decls : List AstNode) : LambdaPass :=
  collectItems { lambdaCounter := 0, lambdaDecls := [], captures := fun _ => 0 } [] 0 0 decls

/-- The name in `"(int64_t(*)())__lambda_%d"`, which `c_emit_expr` writes
for the lambda at a place. -/
def emittedLambdaName (cg : LambdaPass) (place : Place) : Bytes := lambdaName (cg.captures place)

end Aether.CTranspiler
