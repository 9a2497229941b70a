/-
Aether.Semantic.Substitution — what a copy of a generic function is for.

`substNode` replaces the named types that a substitution knows, and changes
nothing else. Which trees the clones of `semantic.c` copy faithfully is
said kind by kind: `TypeKept`, `ExprKept`, `NodeKept`, `ParamKept`.
-/
import Aether.Semantic.Monomorphize

namespace Aether.Semantic

/-! ## §1 Substitution -/

section Substitution

variable (σ : Bytes → Option AstNode)

mutual

/-- The tree with each named type that `σ` knows replaced, all at once. -/
def substNode : AstNode → AstNode
  | .program decls => .program (substNodes decls)
  | .funcDecl name typeParams params returnType pre post body info =>
    .funcDecl name typeParams (substNodes params) (substOpt returnType) (substNodes pre)
      (substNodes post) (substOpt body) info
  | .param name type isMut isVarargs defaultValue =>
    .param name (substOpt type) isMut isVarargs (substOpt defaultValue)
  | .structDecl name fields methods contracts isPub =>
    .structDecl name (substNodes fields) (substNodes methods) (substNodes contracts) isPub
  | .field name type => .field name (substOpt type)
  | .enumDecl name variants isPub => .enumDecl name (substNodes variants) isPub
  | .enumVariant name payloadTypes => .enumVariant name (substNodes payloadTypes)
  | .constDecl name value => .constDecl name (substOpt value)
  | .importNode path => .importNode path
  | .moduleDecl name moduleAbiVersion => .moduleDecl name moduleAbiVersion
  | .typeAlias name underlying => .typeAlias name (substOpt underlying)
  | .traitDecl name methods isPub => .traitDecl name (substNodes methods) isPub
  | .implBlock traitName typeName methods => .implBlock traitName typeName (substNodes methods)
  | .classDecl name fields methods contracts isPub =>
    .classDecl name (substNodes fields) (substNodes methods) (substNodes contracts) isPub
  | .poolDecl name size count alignment => .poolDecl name size count alignment
  | .protocolDecl name methods => .protocolDecl name (substNodes methods)
  | .block stmts => .block (substNodes stmts)
  | .letNode name type value isMut isGlobal =>
    .letNode name (substOpt type) (substOpt value) isMut isGlobal
  | .ifNode condition thenBlock elifChain elseBlock =>
    .ifNode (substOpt condition) (substOpt thenBlock) (substOpt elifChain) (substOpt elseBlock)
  | .ifLet pattern condition thenBlock =>
    .ifLet (substOpt pattern) (substOpt condition) (substOpt thenBlock)
  | .whileNode condition body => .whileNode (substOpt condition) (substOpt body)
  | .forNode var indexVar iterable body => .forNode var indexVar (substOpt iterable) (substOpt body)
  | .returnNode value => .returnNode (substOpt value)
  | .breakNode label => .breakNode label
  | .continueNode label => .continueNode label
  | .deferNode body => .deferNode (substOpt body)
  | .exprStmt expr => .exprStmt (substOpt expr)
  | .matchNode value arms => .matchNode (substOpt value) (substNodes arms)
  | .matchArm pattern patterns body =>
    .matchArm (substOpt pattern) (substNodes patterns) (substOpt body)
  | .tryNode body catchArms finallyBody =>
    .tryNode (substOpt body) (substNodes catchArms) (substOpt finallyBody)
  | .throwNode value => .throwNode (substOpt value)
  | .catchArm type var body isCatchAll => .catchArm (substOpt type) var (substOpt body) isCatchAll
  | .literalInt value isNegative => .literalInt value isNegative
  | .literalFloat text => .literalFloat text
  | .literalString text => .literalString text
  | .literalChar value => .literalChar value
  | .literalBool value => .literalBool value
  | .literalNone => .literalNone
  | .ident name => .ident name
  | .binaryOp op left right customOp => .binaryOp op (substOpt left) (substOpt right) customOp
  | .unaryOp op operand => .unaryOp op (substOpt operand)
  | .call callee args => .call (substOpt callee) (substNodes args)
  | .index target index => .index (substOpt target) (substOpt index)
  | .slice target start stop => .slice (substOpt target) (substOpt start) (substOpt stop)
  | .fieldAccess target field => .fieldAccess (substOpt target) field
  | .cast left right => .cast (substOpt left) (substOpt right)
  | .ternary items => .ternary (substNodes items)
  | .lambda params body => .lambda (substNodes params) (substOpt body)
  | .arrayLit elements => .arrayLit (substNodes elements)
  | .typePrimitive prim => .typePrimitive prim
  | .typeNamed name => (σ name).getD (.typeNamed name)
  | .typeArray elemType arraySize => .typeArray (substOpt elemType) arraySize
  | .typeSlice elemType => .typeSlice (substOpt elemType)
  | .typeTuple tupleTypes => .typeTuple (substNodes tupleTypes)
  | .typeOptional elemType => .typeOptional (substOpt elemType)
  | .typeRef elemType kind => .typeRef (substOpt elemType) kind
  | .typePtr elemType => .typePtr (substOpt elemType)
  | .typeFn paramTypes returnType => .typeFn (substNodes paramTypes) (substOpt returnType)
  | .typeInfer => .typeInfer
  | .asmBlock text outputs => .asmBlock text outputs
  | .unsafeNode body => .unsafeNode (substNodes body)
  | .attr data => .attr data
  | .region name body => .region name (substOpt body)
  | .runBlock body => .runBlock (substNodes body)
  | .typeParam name constraint => .typeParam name (substOpt constraint)
  | .spawn call => .spawn (substOpt call)
  | .yieldNode => .yieldNode

def substOpt : Option AstNode → Option AstNode
  | none => none
  | some node => some (substNode node)

def substNodes : List AstNode → List AstNode
  | [] => []
  | node :: nodes => substNode node :: substNodes nodes

end

-- the equations, before the proofs that share them
section
attribute [local simp] substNode
end

/-! ## §2 Types that are kept -/

mutual

/-- A type in which nothing is left to replace, and nothing to drop. -/
def ClosedType : AstNode → Prop
  | .typeNamed name => σ name = none
  | .typeRef elemType kind => ClosedTypeOpt elemType ∧ kind = { isRef := kind.isRef }
  | .typePtr elemType => ClosedTypeOpt elemType
  | .typeArray elemType _ => ClosedTypeOpt elemType
  | .typeSlice elemType => ClosedTypeOpt elemType
  | .typeOptional elemType => ClosedTypeOpt elemType
  | .typeTuple tupleTypes => tupleTypes = []
  | .typeFn paramTypes returnType => ClosedTypes paramTypes ∧ ClosedTypeOpt returnType
  | _ => True

def ClosedTypeOpt : Option AstNode → Prop
  | none => True
  | some type => ClosedType type

def ClosedTypes : List AstNode → Prop
  | [] => True
  | type :: types => ClosedType type ∧ ClosedTypes types

end

mutual

/-- No owned or counted reference, no tuple, and a parameter only where its
type is closed. -/
def TypeKept : AstNode → Prop
  | .typeNamed name => ∀ type, σ name = some type → ClosedType σ type
  | .typeRef elemType kind => TypeKeptOpt elemType ∧ kind = { isRef := kind.isRef }
  | .typePtr elemType => TypeKeptOpt elemType
  | .typeArray elemType _ => TypeKeptOpt elemType
  | .typeSlice elemType => TypeKeptOpt elemType
  | .typeOptional elemType => TypeKeptOpt elemType
  | .typeTuple tupleTypes => tupleTypes = []
  | .typeFn paramTypes returnType => TypesKept paramTypes ∧ TypeKeptOpt returnType
  -- what is no type is passed through
  | node => substNode σ node = node

def TypeKeptOpt : Option AstNode → Prop
  | none => True
  | some type => TypeKept type

def TypesKept : List AstNode → Prop
  | [] => True
  | type :: types => TypeKept type ∧ TypesKept types

end

/-! ## §3 Expressions and statements that are kept -/

mutual

/-- Slices, ternaries, lambdas and all that is no expression are kept only
when there is nothing in them. -/
def ExprKept : AstNode → Prop
  | .literalInt _ isNegative => isNegative = false
  | .literalFloat _ => True
  | .literalString _ => True
  | .literalChar _ => True
  | .literalBool _ => True
  | .literalNone => True
  | .ident _ => True
  | .binaryOp _ left right customOp => ExprKeptOpt left ∧ ExprKeptOpt right ∧ customOp = []
  | .unaryOp _ operand => ExprKeptOpt operand
  | .call callee args => ExprKeptOpt callee ∧ ExprsKept args
  | .index target index => ExprKeptOpt target ∧ ExprKeptOpt index
  | .fieldAccess target _ => ExprKeptOpt target
  | .cast left right => ExprKeptOpt left ∧ TypeKeptOpt σ right
  | .arrayLit elements => ExprsKept elements
  | node => substNode σ node = node.blank

def ExprKeptOpt : Option AstNode → Prop
  | none => True
  | some node => ExprKept node

def ExprsKept : List AstNode → Prop
  | [] => True
  | node :: nodes => ExprKept node ∧ ExprsKept nodes

end

mutual

/-- An `if let` is not kept, a catch arm only without a type, and what has
no case of its own (labels, `unsafe`, regions, expressions) only when there
is nothing in it. -/
def NodeKept : AstNode → Prop
  | .block stmts => NodesKept stmts
  | .letNode _ type value _ _ => TypeKeptOpt σ type ∧ ExprKeptOpt σ value
  | .returnNode value => ExprKeptOpt σ value
  | .ifNode condition thenBlock elifChain elseBlock =>
    ExprKeptOpt σ condition ∧ NodeKeptOpt thenBlock ∧ NodeKeptOpt elifChain ∧ NodeKeptOpt elseBlock
  | .ifLet _ _ _ => False
  | .whileNode condition body => ExprKeptOpt σ condition ∧ NodeKeptOpt body
  | .forNode _ _ iterable body => ExprKeptOpt σ iterable ∧ NodeKeptOpt body
  | .exprStmt expr => ExprKeptOpt σ expr
  | .matchNode value arms => ExprKeptOpt σ value ∧ NodesKept arms
  | .matchArm pattern patterns body =>
    ExprKeptOpt σ pattern ∧ NodeKeptOpt body ∧ ExprsKept σ patterns
  | .tryNode body catchArms finallyBody =>
    NodeKeptOpt body ∧ NodesKept catchArms ∧ NodeKeptOpt finallyBody
  | .catchArm type _ body isCatchAll => NodeKeptOpt body ∧ type = none ∧ isCatchAll = false
  | .throwNode value => ExprKeptOpt σ value
  | .deferNode body => NodeKeptOpt body
  | .asmBlock _ _ => True
  | .spawn call => NodeKeptOpt call
  | .yieldNode => True
  | node => substNode σ node = node.blank

def NodeKeptOpt : Option AstNode → Prop
  | none => True
  | some node => NodeKept node

def NodesKept : List AstNode → Prop
  | [] => True
  | node :: nodes => NodeKept node ∧ NodesKept nodes

end

/-- A parameter is kept without `mut` and without a default. -/
def ParamKept : AstNode → Prop
  | .param _ type isMut _ defaultValue =>
    TypeKeptOpt σ type ∧ isMut = false ∧ defaultValue = none
  | node => substNode σ node = node.blank

end Substitution

end Aether.Semantic
