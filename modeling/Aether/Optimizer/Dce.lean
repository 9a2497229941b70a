/-
Aether.Optimizer.Dce — dead code elimination of `src/optimizer.c`.

`dceCollect` enters functions and variables in a table and marks the names
that are mentioned; `dceRemoveDead` takes the unused ones out of the lists it
reaches. What it takes out is recorded beside the tree. The table keeps
pointers to buffers that are gone when it is read; here an entry keeps the
name that was in the buffer.
-/
import Aether.Ast

namespace Aether.Optimizer

/-! ## §1 The symbol table -/

structure SymbolEntry where
  name : Bytes
  isUsed : Bool
  deriving DecidableEq, Repr

abbrev SymbolTable := List SymbolEntry

def maxSymbols : Nat := 4096

/-- The text of `name_buf`. -/
def nameBuf (name : Bytes) : Bytes := name.take 255

def findSymbol (st : SymbolTable) (name : Bytes) : Option SymbolEntry :=
  st.find? fun entry => entry.name == nameBuf name

def addSymbol (st : SymbolTable) (name : Bytes) : SymbolTable :=
  if st.length ≥ maxSymbols then st else st ++ [⟨nameBuf name, false⟩]

/-- Mark the first entry of that name. -/
def markUsed (name : Bytes) : SymbolTable → SymbolTable
  | [] => []
  | entry :: st =>
    if entry.name = nameBuf name then { entry with isUsed := true } :: st
    else entry :: markUsed name st

/-! ## §2 Collecting -/

/-- `main`, and functions that are called from outside. -/
def isEntry (name : Bytes) (info : FuncInfo) : Bool :=
  svEqCstr name "main" || info.isExported || info.isSys || decide (info.entryAddr ≥ 0)

mutual

def dceCollect : AstNode → SymbolTable → SymbolTable
  | .program decls, st => dceCollectBodies decls (dceDeclare decls st)
  | .funcDecl name _ _ _ _ _ body info, st =>
    dceCollectOpt body (if isEntry name info || info.hasTest then st else addSymbol st name)
  | .letNode name _ value _ _, st => dceCollectOpt value (addSymbol st name)
  | .ident name, st => markUsed name st
  | .block stmts, st => dceCollectItems stmts st
  | .ifNode condition thenBlock _ elseBlock, st =>
    dceCollectOpt elseBlock (dceCollectOpt thenBlock (dceCollectOpt condition st))
  | .ifLet _ condition thenBlock, st => dceCollectOpt thenBlock (dceCollectOpt condition st)
  | .whileNode condition body, st => dceCollectOpt body (dceCollectOpt condition st)
  | .forNode _ _ iterable body, st => dceCollectOpt body (dceCollectOpt iterable st)
  | .returnNode value, st => dceCollectOpt value st
  | .call callee args, st => dceCollectItems args (dceCollectOpt callee st)
  | .binaryOp _ left right _, st => dceCollectOpt right (dceCollectOpt left st)
  | .unaryOp _ operand, st => dceCollectOpt operand st
  | .index target index, st => dceCollectOpt index (dceCollectOpt target st)
  | .fieldAccess target _, st => dceCollectOpt target st
  | .matchNode value arms, st => dceCollectItems arms (dceCollectOpt value st)
  | .tryNode body catchArms finallyBody, st =>
    dceCollectOpt finallyBody (dceCollectItems catchArms (dceCollectOpt body st))
  | .throwNode value, st => dceCollectOpt value st
  | .exprStmt expr, st => dceCollectOpt expr st
  | .deferNode body, st => dceCollectOpt body st
  | .region _ body, st => dceCollectOpt body st
  | .lambda _ body, st => dceCollectOpt body st
  | .arrayLit elements, st => dceCollectItems elements st
  | _, st => st

def dceCollectOpt : Option AstNode → SymbolTable → SymbolTable
  | none, st => st
  | some node, st => dceCollect node st

def dceCollectItems : List AstNode → SymbolTable → SymbolTable
  | [], st => st
  | node :: nodes, st => dceCollectItems nodes (dceCollect node st)

/-- The first pass over a program: its functions. -/
def dceDeclare : List AstNode → SymbolTable → SymbolTable
  | [], st => st
  | .funcDecl name _ _ _ _ _ _ info :: decls, st =>
    dceDeclare decls (if isEntry name info || info.hasTest then st else addSymbol st name)
  | _ :: decls, st => dceDeclare decls st

/-- The second pass: their bodies. -/
def dceCollectBodies : List AstNode → SymbolTable → SymbolTable
  | [], st => st
  | .funcDecl _ _ _ _ _ _ body _ :: decls, st => dceCollectBodies decls (dceCollectOpt body st)
  | _ :: decls, st => dceCollectBodies decls st

end

/-! ## §3 Removing -/

def isUnused (st : SymbolTable) (name : Bytes) : Bool :=
  (findSymbol st name).any fun entry => !entry.isUsed

/-- `has_side_effects`: the initialiser itself, not what is in it. -/
def hasSideEffects : Option AstNode → Bool
  | some (.call ..) => true
  | some (.asmBlock ..) => true
  | some (.binaryOp ..) => true
  | _ => false

/-- `keep`, for an item of a statement list. -/
def keeps (st : SymbolTable) : AstNode → Bool
  | .funcDecl name _ _ _ _ _ _ info => isEntry name info || !isUnused st name
  | .letNode name _ value _ _ => !isUnused st name || hasSideEffects value
  | _ => true

section Sweep

variable (keep : AstNode → Bool)

mutual

/-- The tree without the items that are not kept, and these items. -/
def sweep : AstNode → AstNode × List AstNode
  | .program decls =>
    let (decls, removed) := sweepItems decls
    (.program decls, removed)
  | .block stmts =>
    let (stmts, removed) := sweepItems stmts
    (.block stmts, removed)
  | .funcDecl name typeParams params returnType pre post body info =>
    let (body, removed) := sweepOpt body
    (.funcDecl name typeParams params returnType pre post body info, removed)
  | .ifNode condition thenBlock elifChain elseBlock =>
    let (condition, removed₁) := sweepOpt condition
    let (thenBlock, removed₂) := sweepOpt thenBlock
    let (elseBlock, removed₃) := sweepOpt elseBlock
    (.ifNode condition thenBlock elifChain elseBlock, removed₁ ++ removed₂ ++ removed₃)
  | .ifLet pattern condition thenBlock =>
    let (condition, removed₁) := sweepOpt condition
    let (thenBlock, removed₂) := sweepOpt thenBlock
    (.ifLet pattern condition thenBlock, removed₁ ++ removed₂)
  | .whileNode condition body =>
    let (condition, removed₁) := sweepOpt condition
    let (body, removed₂) := sweepOpt body
    (.whileNode condition body, removed₁ ++ removed₂)
  | .forNode var indexVar iterable body =>
    let (iterable, removed₁) := sweepOpt iterable
    let (body, removed₂) := sweepOpt body
    (.forNode var indexVar iterable body, removed₁ ++ removed₂)
  | .exprStmt expr =>
    let (expr, removed) := sweepOpt expr
    (.exprStmt expr, removed)
  | node => (node, [])

def sweepOpt : Option AstNode → Option AstNode × List AstNode
  | none => (none, [])
  | some node =>
    let (node, removed) := sweep node
    (some node, removed)

def sweepItems : List AstNode → List AstNode × List AstNode
  | [] => ([], [])
  | stmt :: stmts =>
    let (rest, removed) := sweepItems stmts
    if keep stmt then
      let (stmt, removed') := sweep stmt
      (stmt :: rest, removed' ++ removed)
    else (rest, stmt :: removed)

end

end Sweep

def dceRemoveDead (st : SymbolTable) (node : AstNode) : AstNode × List AstNode :=
  sweep (keeps st) node

/-- The table starts empty. -/
def optDeadCodeElim (node : AstNode) : AstNode × List AstNode :=
  dceRemoveDead (dceCollect node []) node

end Aether.Optimizer
