/-
Aether.Semantic.Monomorphize — the copies of generic functions of
`src/semantic.c`.

`monomorphize_type` follows a type parameter to its concrete type and goes
on there, so it need not return: it takes a fuel, and `none` is a call that
has not returned. The clones keep what the C functions copy; a node of any
other kind is cloned to an empty one (`AstNode.blank`).
-/
import Aether.Ast

namespace Aether.Semantic

/-! ## §1 Types -/

/-- The name of an entry of `type_params`. -/
def typeParamName : AstNode → Option Bytes
  | .typeParam name _ => some name
  | .ident name => some name
  | _ => none

/-- The concrete type of the first parameter of that name that has one. -/
def concreteFor (typeParams concreteTypes : List AstNode) (name : Bytes) : Option AstNode :=
  (typeParams.zip concreteTypes).findSome? fun (tp, type) =>
    if typeParamName tp = some name then some type else none

def monomorphizeType (typeParams concreteTypes : List AstNode) : Nat → AstNode → Option AstNode
  | 0, _ => none
  | fuel + 1, node =>
    let mono := monomorphizeType typeParams concreteTypes fuel
    match node with
    | .typeNamed name =>
      match concreteFor typeParams concreteTypes name with
      | some type => mono type
      | none => some (.typeNamed name)
    | .typeRef elemType kind => do
      let elemType ← elemType.mapM mono
      some (.typeRef elemType { isRef := kind.isRef })
    | .typePtr elemType => do
      let elemType ← elemType.mapM mono
      some (.typePtr elemType)
    | .typeArray elemType arraySize => do
      let elemType ← elemType.mapM mono
      some (.typeArray elemType arraySize)
    | .typeSlice elemType => do
      let elemType ← elemType.mapM mono
      some (.typeSlice elemType)
    | .typeOptional elemType => do
      let elemType ← elemType.mapM mono
      some (.typeOptional elemType)
    -- the parser fills `tuple_types`, the clone copies `param_types`
    | .typeTuple _ => some (.typeTuple [])
    | .typeFn paramTypes returnType => do
      let paramTypes ← paramTypes.mapM mono
      let returnType ← returnType.mapM mono
      some (.typeFn paramTypes returnType)
    | node => some node

/-! ## §2 Clones -/

end Aether.Semantic

namespace Aether

/-- `node_create`: a node of the same kind, all data zero. -/
def AstNode.blank : AstNode → AstNode
  | .program _ => .program []
  | .funcDecl .. => .funcDecl [] [] [] none [] [] none {}
  | .param .. => .param [] none false false none
  | .structDecl .. => .structDecl [] [] [] [] false
  | .field .. => .field [] none
  | .enumDecl .. => .enumDecl [] [] false
  | .enumVariant .. => .enumVariant [] []
  | .constDecl .. => .constDecl [] none
  | .importNode _ => .importNode []
  | .moduleDecl .. => .moduleDecl [] 0
  | .typeAlias .. => .typeAlias [] none
  | .traitDecl .. => .traitDecl [] [] false
  | .implBlock .. => .implBlock [] [] []
  | .classDecl .. => .classDecl [] [] [] [] false
  | .poolDecl .. => .poolDecl [] 0 0 0
  | .protocolDecl .. => .protocolDecl [] []
  | .block _ => .block []
  | .letNode .. => .letNode [] none none false false
  | .ifNode .. => .ifNode none none none none
  | .ifLet .. => .ifNode none none none none
  | .whileNode .. => .whileNode none none
  | .forNode .. => .forNode none none none none
  | .returnNode _ => .returnNode none
  | .breakNode _ => .breakNode none
  | .continueNode _ => .continueNode none
  | .deferNode _ => .deferNode none
  | .exprStmt _ => .exprStmt none
  | .matchNode .. => .matchNode none []
  | .matchArm .. => .matchArm none [] none
  | .tryNode .. => .tryNode none [] none
  | .throwNode _ => .throwNode none
  | .catchArm .. => .catchArm none none none false
  | .literalInt .. => .literalInt 0 false
  | .literalFloat _ => .literalFloat []
  | .literalString _ => .literalString []
  | .literalChar _ => .literalChar 0
  | .literalBool _ => .literalBool false
  | .literalNone => .literalNone
  | .ident _ => .ident []
  | .binaryOp .. => .binaryOp .add none none []
  | .unaryOp .. => .unaryOp .neg none
  | .call .. => .call none []
  | .index .. => .index none none
  | .slice .. => .slice none none none
  | .fieldAccess .. => .fieldAccess none []
  | .cast .. => .cast none none
  | .ternary _ => .ternary []
  | .lambda .. => .lambda [] none
  | .arrayLit _ => .arrayLit []
  | .typePrimitive _ => .typePrimitive .void
  | .typeNamed _ => .typeNamed []
  | .typeArray .. => .typeArray none 0
  | .typeSlice _ => .typeSlice none
  | .typeTuple _ => .typeTuple []
  | .typeOptional _ => .typeOptional none
  | .typeRef .. => .typeRef none {}
  | .typePtr _ => .typePtr none
  | .typeFn .. => .typeFn [] none
  | .typeInfer => .typeInfer
  | .asmBlock .. => .asmBlock none []
  | .unsafeNode _ => .unsafeNode []
  | .attr _ => .attr { name := [], intValue := 0, moduleAbiVersion := 0 }
  | .region .. => .region [] none
  | .runBlock _ => .runBlock []
  | .typeParam .. => .typeParam [] none
  | .spawn _ => .spawn none
  | .yieldNode => .yieldNode

end Aether

namespace Aether.Semantic

section Clones

variable (typeParams concreteTypes : List AstNode) (fuel : Nat)

mutual

def monomorphizeExpr : AstNode → Option AstNode
  | .literalInt value _ => some (.literalInt value false)
  | .literalFloat text => some (.literalFloat text)
  | .literalString text => some (.literalString text)
  | .literalChar value => some (.literalChar value)
  | .literalBool value => some (.literalBool value)
  | .literalNone => some .literalNone
  | .ident name => some (.ident name)
  | .binaryOp op left right _ => do
    let left ← monomorphizeExprOpt left
    let right ← monomorphizeExprOpt right
    some (.binaryOp op left right [])
  | .unaryOp op operand => do
    let operand ← monomorphizeExprOpt operand
    some (.unaryOp op operand)
  | .call callee args => do
    let callee ← monomorphizeExprOpt callee
    let args ← monomorphizeExprs args
    some (.call callee args)
  | .index target index => do
    let target ← monomorphizeExprOpt target
    let index ← monomorphizeExprOpt index
    some (.index target index)
  | .fieldAccess target field => do
    let target ← monomorphizeExprOpt target
    some (.fieldAccess target field)
  | .cast left right => do
    let left ← monomorphizeExprOpt left
    let right ← right.mapM (monomorphizeType typeParams concreteTypes fuel)
    some (.cast left right)
  | .arrayLit elements => do
    let elements ← monomorphizeExprs elements
    some (.arrayLit elements)
  | node => some node.blank

def monomorphizeExprOpt : Option AstNode → Option (Option AstNode)
  | none => some none
  | some node => do
    let node ← monomorphizeExpr node
    some (some node)

def monomorphizeExprs : List AstNode → Option (List AstNode)
  | [] => some []
  | node :: nodes => do
    let node ← monomorphizeExpr node
    let nodes ← monomorphizeExprs nodes
    some (node :: nodes)

end

mutual

def monomorphizeNode : AstNode → Option AstNode
  | .block stmts => do
    let stmts ← monomorphizeNodes stmts
    some (.block stmts)
  | .letNode name type value isMut isGlobal => do
    let type ← type.mapM (monomorphizeType typeParams concreteTypes fuel)
    let value ← monomorphizeExprOpt typeParams concreteTypes fuel value
    some (.letNode name type value isMut isGlobal)
  | .returnNode value => do
    let value ← monomorphizeExprOpt typeParams concreteTypes fuel value
    some (.returnNode value)
  | .ifNode condition thenBlock elifChain elseBlock => do
    let condition ← monomorphizeExprOpt typeParams concreteTypes fuel condition
    let thenBlock ← monomorphizeNodeOpt thenBlock
    let elifChain ← monomorphizeNodeOpt elifChain
    let elseBlock ← monomorphizeNodeOpt elseBlock
    some (.ifNode condition thenBlock elifChain elseBlock)
  -- `is_if_let` and the pattern are not copied
  | .ifLet _ condition thenBlock => do
    let condition ← monomorphizeExprOpt typeParams concreteTypes fuel condition
    let thenBlock ← monomorphizeNodeOpt thenBlock
    some (.ifNode condition thenBlock none none)
  | .whileNode condition body => do
    let condition ← monomorphizeExprOpt typeParams concreteTypes fuel condition
    let body ← monomorphizeNodeOpt body
    some (.whileNode condition body)
  | .forNode var indexVar iterable body => do
    let iterable ← monomorphizeExprOpt typeParams concreteTypes fuel iterable
    let body ← monomorphizeNodeOpt body
    some (.forNode var indexVar iterable body)
  | .exprStmt expr => do
    let expr ← monomorphizeExprOpt typeParams concreteTypes fuel expr
    some (.exprStmt expr)
  | .matchNode value arms => do
    let value ← monomorphizeExprOpt typeParams concreteTypes fuel value
    let arms ← monomorphizeNodes arms
    some (.matchNode value arms)
  | .matchArm pattern patterns body => do
    let pattern ← monomorphizeExprOpt typeParams concreteTypes fuel pattern
    let body ← monomorphizeNodeOpt body
    let patterns ← monomorphizeExprs typeParams concreteTypes fuel patterns
    some (.matchArm pattern patterns body)
  | .tryNode body catchArms finallyBody => do
    let body ← monomorphizeNodeOpt body
    let catchArms ← monomorphizeNodes catchArms
    let finallyBody ← monomorphizeNodeOpt finallyBody
    some (.tryNode body catchArms finallyBody)
  | .catchArm _ var body _ => do
    let body ← monomorphizeNodeOpt body
    some (.catchArm none var body false)
  | .throwNode value => do
    let value ← monomorphizeExprOpt typeParams concreteTypes fuel value
    some (.throwNode value)
  | .deferNode body => do
    let body ← monomorphizeNodeOpt body
    some (.deferNode body)
  | .asmBlock text outputs => some (.asmBlock text outputs)
  | .spawn call => do
    let call ← monomorphizeNodeOpt call
    some (.spawn call)
  | .yieldNode => some .yieldNode
  | node => some node.blank

def monomorphizeNodeOpt : Option AstNode → Option (Option AstNode)
  | none => some none
  | some node => do
    let node ← monomorphizeNode node
    some (some node)

def monomorphizeNodes : List AstNode → Option (List AstNode)
  | [] => some []
  | node :: nodes => do
    let node ← monomorphizeNode node
    let nodes ← monomorphizeNodes nodes
    some (node :: nodes)

end

/-- A parameter of the copy; `is_mut` and the default are not copied. -/
def monomorphizeParam : AstNode → Option AstNode
  | .param name type _ isVarargs _ => do
    let type ← type.mapM (monomorphizeType typeParams concreteTypes fuel)
    some (.param name type false isVarargs none)
  | node => some node.blank

end Clones

/-! ## §3 Functions -/

/-- The part of a concrete type in a mangled name. -/
def primName : PrimType → String
  | .void => "void" | .bool => "bool" | .byte => "u8" | .u8 => "u8" | .u16 => "u16"
  | .u32 => "u32" | .u64 => "u64" | .u128 => "u128" | .i8 => "i8" | .i16 => "i16"
  | .i32 => "i32" | .i64 => "i64" | .f32 => "f32" | .f64 => "f64" | .string => "string"

def mangleType : AstNode → Bytes
  | .typePrimitive prim => bytes (primName prim)
  | .typeNamed name => name
  | _ => []

/-- Append to the buffer of 256 bytes, if it fits. -/
def appendName (name part : Bytes) : Bytes :=
  if name.length + part.length < 256 then name ++ part else name

/-- `funcName_T_U`; the loop stops when the buffer is nearly full. -/
def mangledName (name : Bytes) (concreteTypes : List AstNode) : Bytes :=
  concreteTypes.foldl (fun name type =>
    if name.length < 250 then appendName (name ++ bytes "_") (mangleType type) else name)
    (appendName [] name)

/-- `monomorphize_func`, without the append to the program. -/
def monomorphizeFunc (fuel : Nat) (concreteTypes : List AstNode) : AstNode → Option AstNode
  | .funcDecl name typeParams params returnType _ _ body info => do
    let returnType ← returnType.mapM (monomorphizeType typeParams concreteTypes fuel)
    let params ← params.mapM (monomorphizeParam typeParams concreteTypes fuel)
    let body ← monomorphizeNodeOpt typeParams concreteTypes fuel body
    some (.funcDecl (mangledName name concreteTypes) [] params returnType [] [] body
      { isPub := info.isPub, isStatic := info.isStatic, isSys := info.isSys,
        isThrows := info.isThrows, isOperator := info.isOperator, isInline := info.isInline,
        isForceInline := info.isForceInline, isNoInline := info.isNoInline, access := info.access })
  | node => some node

end Aether.Semantic
