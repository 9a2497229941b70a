/-
Aether.Codegen.Contracts — the contract checks in the code of a function,
as `cg_func` and `cg_stmt` in `codegen.c` write it and as
`c_emit_func_decl` in `c_func.c` does.

Statements are followed as far as control goes: what a statement evaluates
is an act, and a return is the end of the function. Deferred bodies, which
stand behind the checks, and the text of assembly blocks are not followed.
`c_emit_precondition` and `c_emit_postcondition` have no caller.
-/
import Aether.CTranspiler.Stmt
import Aether.Lib.GuardedCode

namespace Aether.Codegen

open Lib.GuardedCode

/-- What the code of a function does between its checks. -/
abbrev Body := List (Code (List AstNode))

/-! ## §1 NASM -/

/-- The targets of `codegen.h`; `host` is replaced by that of the machine. -/
inductive Target where
  | freestanding | macho64 | host | elf64Host | kernel | module | binary | boot
  | asmX8664 | asmArm64 | asmRiscv64 | universal | universalAll | lib
  deriving DecidableEq, Repr

/-- A check that fails makes the system call 0x2000001, the exit of macOS;
elsewhere the call is 60, as the built-in `exit` has it. -/
def Target.exits (target : Target) : Bool := target == .macho64

mutual

/-- `cg_stmt`. Other statements are not supported and have no code. -/
def cgStmt : AstNode → Body
  | .returnNode value => [.act value.toList, .exit]
  | .letNode _ _ value _ _ => [.act value.toList]
  | .exprStmt expr => [.act expr.toList]
  | .block stmts => cgStmts stmts
  | .ifLet _ condition thenBlock => [.act condition.toList, .choice (cgStmtOpt thenBlock) []]
  | .ifNode condition thenBlock elifChain elseBlock =>
    -- the else block also follows an elif that was taken
    [.act condition.toList,
      .choice (cgStmtOpt thenBlock) (cgStmtOpt elifChain ++ cgStmtOpt elseBlock)]
  | .whileNode condition body =>
    [.loop (.act condition.toList :: cgStmtOpt body), .act condition.toList]
  | .forNode _ _ none _ => []
  | .forNode _ _ (some (.binaryOp op left right customOp)) body =>
    if op = .range ∨ op = .rangeInclusive then
      [.act left.toList, .loop (.act right.toList :: cgStmtOpt body), .act right.toList]
    else [.act [.binaryOp op left right customOp], .loop (cgStmtOpt body)]
  | .forNode _ _ (some iterable) body => [.act [iterable], .loop (cgStmtOpt body)]
  | .matchNode value arms => .act value.toList :: cgArms arms
  | .region _ body => cgStmtOpt body
  | .tryNode body catchArms finallyBody =>
    cgStmtOpt body ++ [.choice [] (cgCatchArms catchArms)] ++ cgStmtOpt finallyBody
  | .throwNode value => [.act value.toList, .leave]
  | .unsafeNode body => cgStmts body
  | .asmBlock _ _ => [.act []]
  | _ => []

def cgStmts : List AstNode → Body
  | [] => []
  | stmt :: stmts => cgStmt stmt ++ cgStmts stmts

def cgStmtOpt : Option AstNode → Body
  | none => []
  | some stmt => cgStmt stmt

/-- The body of an arm goes through `cg_expr`, which has no returns. -/
def cgArms : List AstNode → Body
  | [] => []
  | arm :: arms => [.choice (cgArm arm) (cgArms arms)]

def cgArm : AstNode → Body
  | .matchArm _ _ body => [.act body.toList]
  | _ => []

/-- Where no arm catches the error, it is handed on to the caller. -/
def cgCatchArms : List AstNode → Body
  | [] => [.leave]
  | arm :: arms => cgCatchArm arm (cgCatchArms arms)

def cgCatchArm : AstNode → Body → Body
  | .catchArm _ _ body isCatchAll, others =>
    if isCatchAll then cgStmtOpt body else [.choice (cgStmtOpt body) others]
  | _, others => others

end

/-! ## §2 C -/

mutual

/-- The code of a C statement. A break and a continue end a turn of the
loop, and an error may come before a `try` body does anything. -/
def cStmtCode : CTranspiler.CStmt → Body
  | .comment => []
  | .decl _ init _ => [.act (init.elim [] (·.nodes))]
  | .unprinted _ => []
  | .expr text => [.act text.nodes]
  | .ret value => [.act (value.elim [] (·.nodes)), .exit]
  | .brk => [.jump]
  | .cont => [.jump]
  | .goto _ => [.leave]
  | .longjmp => [.leave]
  | .braces body => cStmtsCode body
  | .ite none thenBody _ => cStmtsCode thenBody
  | .ite (some cond) thenBody elseBody =>
    [.act cond.nodes, .choice (cStmtsCode thenBody) (cStmtsCode elseBody)]
  | .while cond body => [.loop (.act cond.nodes :: cStmtsCode body), .act cond.nodes]
  | .forCounter _ cond body => [.loop (.act cond.nodes :: cStmtsCode body), .act cond.nodes]
  | .tryCatch body handlers => [.choice (cStmtsCode body) (cStmtsCode handlers)]
  | .inlined body => cStmtsCode body
  | .deferred printed body => if printed then cStmtsCode body else []

def cStmtsCode : List CTranspiler.CStmt → Body
  | [] => []
  | stmt :: stmts => cStmtCode stmt ++ cStmtsCode stmts

end

/-! ## §3 Functions -/

inductive Backend where
  | c (classes : List Bytes) (labels : AstNode → Nat)
  | nasm (target : Target)

namespace Backend

/-- The code of the statements of a function. -/
def bodyCode : Backend → AstNode → Body
  | c classes labels, func =>
    match (CTranspiler.cEmitFuncDecl classes labels func 0).1 with
    | some f => cStmtsCode f.body
    | none => []
  | nasm _, .funcDecl _ _ _ _ _ _ (some body) _ => cgStmt body
  | nasm _, _ => []

/-- The code of a function with these contract conditions. -/
def funcCode (b : Backend) (pre post : List AstNode) (func : AstNode) :
    List (Segment (List AstNode) AstNode) :=
  match b with
  | c .. => uncheckedCode (b.bodyCode func)
  | nasm target => checkedCode target.exits pre post (b.bodyCode func)

end Backend

/-- A function with a body, with its contract conditions. -/
structure ContractFunc where
  name : Bytes
  typeParams : List AstNode
  params : List AstNode
  returnType : Option AstNode
  preConditions : List AstNode
  postConditions : List AstNode
  body : AstNode
  info : FuncInfo

namespace ContractFunc

def node (f : ContractFunc) : AstNode :=
  .funcDecl f.name f.typeParams f.params f.returnType f.preConditions f.postConditions
    (some f.body) f.info

def code (b : Backend) (f : ContractFunc) : List (Segment (List AstNode) AstNode) :=
  b.funcCode f.preConditions f.postConditions f.node

/-- The preconditions are checked before the body and the postconditions
before each return, and the program stops when one is false. -/
def Enforced (b : Backend) (f : ContractFunc) : Prop :=
  Enforces f.preConditions f.postConditions (f.code b)

end ContractFunc

/-! ## §4 Enforcement -/

/-- Whether the function can come to its end or to a return. -/
def canReturn (b : Backend) (f : ContractFunc) : Bool :=
  canEnd (b.bodyCode f.node ++ [.exit]) .returned

/-- Whether a statement of the function can return. -/
def canReturnEarly (b : Backend) (f : ContractFunc) : Bool :=
  canEnd (b.bodyCode f.node) .returned

/-- What contracts need to be enforced. -/
def ContractsHold : Backend → ContractFunc → Prop
  | .nasm .macho64, f => f.postConditions = [] ∨ canReturnEarly (.nasm .macho64) f = false
  | b, f => f.preConditions = [] ∧ (f.postConditions = [] ∨ canReturn b f = false)

/-- `func f(x: i64): i64 pre(x) post(x) { return x }` -/
def checkedIdentity : ContractFunc where
  name := bytes "f"
  typeParams := []
  params := [.param (bytes "x") (some (.typePrimitive .i64)) false false none]
  returnType := some (.typePrimitive .i64)
  preConditions := [.ident (bytes "x")]
  postConditions := [.ident (bytes "x")]
  body := .block [.returnNode (some (.ident (bytes "x")))]
  info := {}

end Aether.Codegen
