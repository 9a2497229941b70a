/-
Aether.Semantic.Analyzer — `src/semantic.c`: scopes, constant evaluation,
the visitor, and `semantic_analyze`.

Where the visitor goes does not depend on the scopes, so the visitor is in
two parts: `semanticVisitNode` and `semanticVisitExpr` list what it does in
order, and `Action.run` does it. Calls that need not return take a fuel,
and `none` is a call that has not returned or has no defined result.
-/
import Aether.Semantic.Monomorphize
import Aether.Parser.Decl

namespace Aether.Semantic

/-! ## §1 Scopes -/

structure Symbol where
  name : Bytes
  decl : AstNode

/-- `SemanticAnalyzer`: the open scopes, innermost first and each with its
latest symbol first, and the declarations of `program`. -/
structure Analyzer where
  scopes : List (List Symbol)
  errorCount : Nat
  program : List AstNode

def semanticCreate : Analyzer := { scopes := [[]], errorCount := 0, program := [] }

namespace Analyzer

def scopeDeclare (sa : Analyzer) (name : Bytes) (decl : AstNode) : Analyzer :=
  match sa.scopes with
  | [] => sa
  | scope :: scopes => { sa with scopes := (⟨name, decl⟩ :: scope) :: scopes }

def scopeLookup (sa : Analyzer) (name : Bytes) : Option AstNode :=
  (sa.scopes.flatten.find? fun symbol => symbol.name == name).map Symbol.decl

def scopeEnter (sa : Analyzer) : Analyzer := { sa with scopes := [] :: sa.scopes }

/-- The global scope stays open. -/
def scopeExit (sa : Analyzer) : Analyzer :=
  match sa.scopes with
  | _ :: parent :: scopes => { sa with scopes := parent :: scopes }
  | _ => sa

def error (sa : Analyzer) : Analyzer := { sa with errorCount := sa.errorCount + 1 }

end Analyzer

/-! ## §2 Constant evaluation -/

def boolValue (b : Bool) : UInt64 := if b then 1 else 0

/-- The signed value of a 64-bit word. -/
def signed (v : UInt64) : Int := v.toInt64.toInt

def constUnary : UnaryOp → UInt64 → Option UInt64
  | .neg, val => some (0 - val)
  | .not, val => some (boolValue (val == 0))
  | .bitNot, val => some (~~~val)
  | _, _ => none

/-- A shift by 64 or more, undefined in C, takes the low six bits. -/
def constBinary : BinOp → UInt64 → UInt64 → Option UInt64
  | .add, left, right => some (left + right)
  | .sub, left, right => some (left - right)
  | .mul, left, right => some (left * right)
  | .div, left, right => if right = 0 then none else some (left / right)
  | .mod, left, right => if right = 0 then none else some (left % right)
  | .eq, left, right => some (boolValue (left == right))
  | .neq, left, right => some (boolValue (left != right))
  | .lt, left, right => some (boolValue (decide (signed left < signed right)))
  | .gt, left, right => some (boolValue (decide (signed right < signed left)))
  | .le, left, right => some (boolValue (decide (signed left ≤ signed right)))
  | .ge, left, right => some (boolValue (decide (signed right ≤ signed left)))
  | .bitAnd, left, right => some (left &&& right)
  | .bitOr, left, right => some (left ||| right)
  | .bitXor, left, right => some (left ^^^ right)
  | .shl, left, right => some (left <<< right)
  | .shr, left, right => some (left >>> right)
  | .and, left, right => some (boolValue (left != 0 && right != 0))
  | .or, left, right => some (boolValue (left != 0 || right != 0))
  | _, _, _ => none

/-- `sizeof` of a primitive type; the switch has no case for `u128`. -/
def primSize : PrimType → Option UInt64
  | .void => some 0
  | .bool | .byte | .u8 | .i8 => some 1
  | .u16 | .i16 => some 2
  | .u32 | .i32 | .f32 => some 4
  | .u64 | .i64 | .f64 => some 8
  | .string => some 8
  | .u128 => none

def constSizeof : AstNode → Option UInt64
  | .typePrimitive prim => primSize prim
  | .typeNamed _ => some 8
  | _ => none

def constAlignof : AstNode → Option UInt64
  | .typePrimitive .void => some 1
  | .typePrimitive .u128 => some 8
  | .typePrimitive prim => primSize prim
  | _ => some 8

/-- `sizeof(type)` and `alignof(type)`. -/
def constCall (callee : Option AstNode) (args : List AstNode) : Option UInt64 :=
  match callee, args with
  | some (.ident name), arg :: _ =>
    if name = bytes "sizeof" then constSizeof arg
    else if name = bytes "alignof" then constAlignof arg
    else none
  | _, _ => none

/-- `const_eval_expr`: inside, `none` when `*ok` is false. -/
def constEvalExpr (sa : Analyzer) : Nat → Option AstNode → Option (Option UInt64)
  | 0, _ => none
  | _ + 1, none => some none
  | fuel + 1, some node =>
    match node with
    | .literalInt value _ => some (some value)
    | .literalBool value => some (some (boolValue value))
    | .literalChar value => some (some value.toUInt64)
    | .literalNone => some (some 0)
    | .unaryOp op operand => do
      let val ← constEvalExpr sa fuel operand
      some (val.bind (constUnary op))
    | .binaryOp op left right _ => do
      let left ← constEvalExpr sa fuel left
      let right ← constEvalExpr sa fuel right
      some (left.bind fun left => right.bind fun right => constBinary op left right)
    | .ident name =>
      match sa.scopeLookup name with
      | some (.constDecl _ (some value)) => constEvalExpr sa fuel (some value)
      | _ =>
        if name = bytes "true" then some (some 1)
        else if name = bytes "false" then some (some 0)
        else some none
    | .call callee args => some (constCall callee args)
    | _ => some none

-- the equations, before the proofs that share them
section
attribute [local simp] constEvalExpr
end

/-! ## §3 What the visitor does -/

inductive Action where
  | scopeEnter
  | scopeExit
  | scopeDeclare (name : Bytes) (decl : AstNode)
  -- an identifier, an error if it is not declared
  | resolve (name : Bytes)
  -- a call, a copy of the function if it is generic
  | checkGeneric (callee : Bytes) (args : List AstNode)
  | constDecl (name : Bytes) (value : Option AstNode)
  | missingReturn

/-- The primitive types that are constructors when called. -/
def constructorNames : List Bytes :=
  ["string", "u8", "u16", "u32", "u64", "i8", "i16", "i32", "i64", "f32", "f64", "bool",
    "byte"].map bytes

/-- The functions that take types as arguments, and `panic`. -/
def builtinCalls : List Bytes := ["sizeof", "alignof", "offsetof", "typeName", "panic"].map bytes

/-- The identifiers that are types in a call of a builtin. -/
def typeNames : List Bytes :=
  ["u8", "u16", "u32", "u64", "i8", "i16", "i32", "i64", "f32", "f64", "bool", "byte", "string",
    "void", "int", "float", "double"].map bytes

def isTypeName : AstNode → Bool
  | .ident name => typeNames.contains name
  | _ => false

/-- The name of the called function, if the callee is an identifier. -/
def calleeName : Option AstNode → Option Bytes
  | some (.ident name) => some name
  | _ => none

def isConstructorCall (callee : Option AstNode) (args : List AstNode) : Bool :=
  match calleeName callee with
  | some name => args.length == 1 && constructorNames.contains name
  | none => false

def isBuiltinCall (callee : Option AstNode) : Bool :=
  match calleeName callee with
  | some name => builtinCalls.contains name
  | none => false

/-- The last check of a call. -/
def checkCall (callee : Option AstNode) (args : List AstNode) : List Action :=
  match calleeName callee with
  | some name => [.checkGeneric name args]
  | none => []

def declareIdent : Option Bytes → List Action
  | some name => [.scopeDeclare name (.ident name)]
  | none => []

/-- The pattern variable of `if let`. -/
def declarePattern : Option AstNode → List Action
  | some (.ident name) => [.scopeDeclare name (.ident name)]
  | _ => []

/-- Only identifiers are declared; the parser makes `NODE_TYPE_PARAM`. -/
def declareTypeParam : AstNode → List Action
  | .ident name => [.scopeDeclare name (.ident name)]
  | _ => []

def declareParam : AstNode → List Action
  | .param name type isMut isVarargs defaultValue =>
    [.scopeDeclare name (.param name type isMut isVarargs defaultValue)]
  | _ => []

def endsFunction : AstNode → Bool
  | .returnNode _ => true
  | .asmBlock .. => true
  | _ => false

def hasReturn : AstNode → Bool
  | .returnNode _ => true
  | .asmBlock .. => true
  | .block stmts => stmts.getLast?.any endsFunction
  | _ => false

/-- A function with a result type must end with a return. -/
def checkReturn (returnType body : Option AstNode) : List Action :=
  match returnType, body with
  | some (.typePrimitive .void), _ => []
  | some _, some body => if hasReturn body then [] else [.missingReturn]
  | _, _ => []

mutual

def semanticVisitExpr : AstNode → List Action
  | .ident name => [.resolve name]
  | .binaryOp _ left right _ => semanticVisitExprOpt left ++ semanticVisitExprOpt right
  | .unaryOp _ operand => semanticVisitExprOpt operand
  | .call callee args =>
    if isConstructorCall callee args then semanticVisitExprs args
    else if isBuiltinCall callee then semanticVisitArgs args
    else semanticVisitExprOpt callee ++ semanticVisitExprs args ++ checkCall callee args
  | .index target index => semanticVisitExprOpt target ++ semanticVisitExprOpt index
  | .fieldAccess target _ => semanticVisitExprOpt target
  -- the arms go to `semantic_visit_node`, which has no case for them
  | .matchNode value _ => semanticVisitExprOpt value
  | .lambda params body =>
    .scopeEnter :: params.flatMap declareParam ++ semanticVisitExprOpt body ++ [.scopeExit]
  | .arrayLit elements => semanticVisitExprs elements
  | _ => []

def semanticVisitExprOpt : Option AstNode → List Action
  | none => []
  | some node => semanticVisitExpr node

def semanticVisitExprs : List AstNode → List Action
  | [] => []
  | node :: nodes => semanticVisitExpr node ++ semanticVisitExprs nodes

/-- The arguments of a builtin, without type names. -/
def semanticVisitArgs : List AstNode → List Action
  | [] => []
  | node :: nodes =>
    (if isTypeName node then [] else semanticVisitExpr node) ++ semanticVisitArgs nodes

end

mutual

def semanticVisitNode : AstNode → List Action
  | .funcDecl name typeParams params returnType pre post body info =>
    .scopeDeclare name (.funcDecl name typeParams params returnType pre post body info) ::
      .scopeEnter :: typeParams.flatMap declareTypeParam ++ params.flatMap declareParam ++
      semanticVisitNodeOpt body ++ checkReturn returnType body ++ [.scopeExit]
  | .block stmts => .scopeEnter :: semanticVisitNodes stmts ++ [.scopeExit]
  | .letNode name type value isMut isGlobal =>
    semanticVisitExprOpt value ++ [.scopeDeclare name (.letNode name type value isMut isGlobal)]
  | .constDecl name value => [.constDecl name value]
  | .typeAlias name underlying => [.scopeDeclare name (.typeAlias name underlying)]
  | .structDecl name fields methods contracts isPub =>
    .scopeDeclare name (.structDecl name fields methods contracts isPub) ::
      semanticVisitNodes methods
  | .classDecl name fields methods contracts isPub =>
    .scopeDeclare name (.classDecl name fields methods contracts isPub) ::
      semanticVisitNodes methods
  | .enumDecl name variants isPub => [.scopeDeclare name (.enumDecl name variants isPub)]
  | .returnNode value => semanticVisitExprOpt value
  | .ifLet pattern condition thenBlock =>
    semanticVisitExprOpt condition ++ declarePattern pattern ++ semanticVisitNodeOpt thenBlock
  | .ifNode condition thenBlock elifChain elseBlock =>
    semanticVisitExprOpt condition ++ semanticVisitNodeOpt thenBlock ++
      semanticVisitNodeOpt elifChain ++ semanticVisitNodeOpt elseBlock
  | .whileNode condition body => semanticVisitExprOpt condition ++ semanticVisitNodeOpt body
  | .forNode var indexVar iterable body =>
    declareIdent var ++ declareIdent indexVar ++ semanticVisitExprOpt iterable ++
      semanticVisitNodeOpt body
  | .exprStmt expr => semanticVisitExprOpt expr
  | .tryNode body catchArms finallyBody =>
    semanticVisitNodeOpt body ++ semanticVisitCatchArms catchArms ++
      semanticVisitNodeOpt finallyBody
  | .throwNode value => semanticVisitExprOpt value
  | .runBlock body => semanticVisitNodes body
  -- the call of `spawn` goes to `semantic_visit_node`, which has no case for it
  | _ => []

def semanticVisitNodeOpt : Option AstNode → List Action
  | none => []
  | some node => semanticVisitNode node

def semanticVisitNodes : List AstNode → List Action
  | [] => []
  | node :: nodes => semanticVisitNode node ++ semanticVisitNodes nodes

/-- The arms of a `try`, each with its variable. -/
def semanticVisitCatchArms : List AstNode → List Action
  | [] => []
  | .catchArm _ var body _ :: arms =>
    declareIdent var ++ semanticVisitNodeOpt body ++ semanticVisitCatchArms arms
  | _ :: arms => semanticVisitCatchArms arms

end

/-! ## §4 What it does to the analyzer -/

/-- The concrete type that an argument gives a type parameter. -/
def inferType (sa : Analyzer) : Option AstNode → AstNode
  | some (.ident name) =>
    match sa.scopeLookup name with
    | some (.letNode _ (some type) _ _ _) => type
    | some (.param _ (some type) _ _ _) => type
    | _ => .typePrimitive .i64
  | some (.literalInt ..) => .typePrimitive .i64
  | some (.literalFloat _) => .typePrimitive .f64
  | some (.literalString _) => .typePrimitive .string
  | some (.literalBool _) => .typePrimitive .bool
  | _ => .typePrimitive .i64

def inferTypes (sa : Analyzer) (typeParams args : List AstNode) : List AstNode :=
  (List.range typeParams.length).map fun i => inferType sa args[i]?

/-- The end of a call: `monomorphize_func` for a generic function. -/
def instantiate (fuel : Nat) (callee : Bytes) (args : List AstNode) (sa : Analyzer) :
    Option Analyzer :=
  match sa.scopeLookup callee with
  | some (.funcDecl name (tp :: typeParams) params returnType pre post body info) => do
    let func := .funcDecl name (tp :: typeParams) params returnType pre post body info
    let mono ← monomorphizeFunc fuel (inferTypes sa (tp :: typeParams) args) func
    some { sa with program := sa.program ++ [mono] }
  | _ => some sa

/-- A constant that evaluates is replaced by its value. -/
def evalConst (fuel : Nat) (name : Bytes) (value : Option AstNode) (sa : Analyzer) :
    Option Analyzer := do
  let val ← constEvalExpr sa fuel value
  let value := match val with
    | some val => some (.literalInt val false)
    | none => value
  some (sa.scopeDeclare name (.constDecl name value))

def Action.run (fuel : Nat) : Action → Analyzer → Option Analyzer
  | .scopeEnter, sa => some sa.scopeEnter
  | .scopeExit, sa => some sa.scopeExit
  | .scopeDeclare name decl, sa => some (sa.scopeDeclare name decl)
  | .resolve name, sa => if (sa.scopeLookup name).isSome then some sa else some sa.error
  | .checkGeneric callee args, sa => instantiate fuel callee args sa
  | .constDecl name value, sa => evalConst fuel name value sa
  | .missingReturn, sa => some sa.error

def runActions (fuel : Nat) (actions : List Action) (sa : Analyzer) : Option Analyzer :=
  actions.foldlM (fun sa action => action.run fuel sa) sa

/-! ## §5 Programs -/

/-- The names of the first pass. -/
def firstPass : AstNode → List Action
  | .funcDecl name typeParams params returnType pre post body info =>
    [.scopeDeclare name (.funcDecl name typeParams params returnType pre post body info)]
  | .constDecl name value => [.scopeDeclare name (.constDecl name value)]
  | .letNode name type value isMut true => [.scopeDeclare name (.letNode name type value isMut true)]
  | .structDecl name fields methods contracts isPub =>
    [.scopeDeclare name (.structDecl name fields methods contracts isPub)]
  | .enumDecl name variants isPub => [.scopeDeclare name (.enumDecl name variants isPub)]
  | .traitDecl name methods isPub => [.scopeDeclare name (.traitDecl name methods isPub)]
  | .classDecl name fields methods contracts isPub =>
    [.scopeDeclare name (.classDecl name fields methods contracts isPub)]
  | _ => []

/-- The second pass from declaration `i` on: a visit may append copies, which are
visited in their turn. -/
def secondPass (fuel : Nat) : Nat → Nat → Analyzer → Option Analyzer
  | 0, _, _ => none
  | steps + 1, i, sa =>
    match sa.program[i]? with
    | none => some sa
    | some decl => do
      let sa ← runActions fuel (semanticVisitNode decl) sa
      secondPass fuel steps (i + 1) sa

/-- `semantic_visit_node` on the program. -/
def visitProgram (fuel : Nat) (sa : Analyzer) : Option Analyzer := do
  let sa ← runActions fuel (sa.program.flatMap firstPass) sa
  secondPass fuel fuel 0 sa

def builtinNames : List Bytes :=
  ["print", "exit", "sizeof", "alignof", "offsetof", "typeName", "panic", "emit",
    "target_arch"].map bytes

/-- A zeroed function declaration. -/
def builtinDecl : AstNode := .funcDecl [] [] [] none [] [] none {}

def declareBuiltins : List Action := builtinNames.map fun name => .scopeDeclare name builtinDecl

/-- The text without its quotes. -/
def stripQuotes (code : Bytes) : Bytes :=
  if 2 ≤ code.length ∧ code.head? = some 0x22 ∧ code.getLast? = some 0x22 then
    code.tail.dropLast
  else code

/-- The text of `emit("text")`, as a statement of a `#run` block. -/
def emitText : AstNode → Option Bytes
  | .exprStmt (some (.call (some (.ident name)) (.literalString code :: _))) =>
    if name = bytes "emit" ∧ stripQuotes code ≠ [] then some (stripQuotes code) else none
  | .call (some (.ident name)) (.literalString code :: _) =>
    if name = bytes "emit" ∧ stripQuotes code ≠ [] then some (stripQuotes code) else none
  | _ => none

/-- The copy of a generated declaration. It is read after the arena of the
generated tree is gone: a function keeps its name only, so one with children
has no defined copy, and the other kinds are empty nodes, of which those with
a name are read through NULL. An alias has its name in a list, which is empty
in the copy. -/
def copyGenerated : AstNode → Option (List AstNode)
  | .funcDecl name [] [] none [] [] none info => some [.funcDecl name [] [] none [] [] none info]
  | .funcDecl .. | .constDecl .. | .letNode .. | .structDecl .. | .enumDecl .. | .traitDecl ..
  | .classDecl .. => none
  | decl => some [decl.blank]

def declareGenerated (sa : Analyzer) : AstNode → Analyzer
  | .funcDecl name typeParams params returnType pre post body info =>
    sa.scopeDeclare name (.funcDecl name typeParams params returnType pre post body info)
  | _ => sa

def addGenerated (sa : Analyzer) (decl : AstNode) : Option Analyzer := do
  let copy ← copyGenerated decl
  let sa := declareGenerated sa decl
  some { sa with program := sa.program ++ copy }

section

-- what the parser gives for a text, `none` if it does not return
variable (parse : Bytes → Option (List AstNode)) (fuel : Nat)

def emitCode (sa : Analyzer) (code : Bytes) : Option Analyzer := do
  let decls ← parse code
  decls.foldlM addGenerated sa

/-- A `#run` block before the first pass: its statements, then its `emit` calls. -/
def runRunBlock (stmts : List AstNode) (sa : Analyzer) : Option Analyzer := do
  let sa ← runActions fuel (semanticVisitNodes stmts) sa
  (stmts.filterMap emitText).foldlM (emitCode parse) sa

def prePass : List AstNode → Analyzer → Option Analyzer
  | [], sa => some sa
  | .runBlock stmts :: decls, sa => do
    let sa ← runRunBlock parse fuel stmts sa
    prePass decls sa
  | _ :: decls, sa => prePass decls sa

def semanticAnalyze (decls : List AstNode) : Option Analyzer := do
  let sa ← runActions fuel declareBuiltins { semanticCreate with program := decls }
  let sa ← prePass parse fuel decls sa
  visitProgram fuel sa

end

/-- The parser gives the declarations for the text. -/
def ParsesTo (code : Bytes) (decls : List AstNode) : Prop :=
  ∃ p, Lib.Procedures.Steps procs parserParse (parserCreate code) (.program decls) p

open Classical in
/-- What `parser_parse` gives for a text. -/
noncomputable def parserTree (code : Bytes) : Option (List AstNode) :=
  if h : ∃ decls, ParsesTo code decls then some h.choose else none

end Aether.Semantic
