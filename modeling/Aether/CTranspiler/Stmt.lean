/-
Aether.CTranspiler.Stmt — the C statements that `c_stmt.c` and `c_error.c`
write for the statements of a function.

Expressions stay nodes of the program, printed by `c_emit_expr`. The
statements keep the calls of `c_emit_block` apart (`inlined`): such a call
writes the statements of a block without braces around them, and the drop
calls for the managed variables that it declares after them. What the
emitter leaves out of the text is kept too, marked as not printed.

The statements are those that `parse_statement` makes.
-/
import Aether.CTranspiler.Range
import Aether.Semantic.Scoping

namespace Aether.CTranspiler

/-! ## §1 Statements -/

/-- A variable of the program, or one of the emitter's `own`. -/
structure CVar where
  text : Bytes
  own : Bool
  deriving DecidableEq, Repr

/-- A piece of text with the emitter's own variables and expressions of the
program in it. -/
structure CText where
  own : List Bytes := []
  nodes : List AstNode := []

/-- The kinds of an `AutoDropEntry`. -/
inductive DropKind where
  | classDrop (className : Bytes) | ownedFree | rcRelease
  deriving DecidableEq, Repr

/-- A variable that is released at the end of its block. -/
structure Managed where
  var : Bytes
  kind : DropKind
  deriving DecidableEq, Repr

/-- The names in an `AutoDropEntry` are cut after 63 bytes. -/
def Managed.printed (m : Managed) : Managed where
  var := m.var.take 63
  kind := match m.kind with
    | .classDrop className => .classDrop (className.take 63)
    | kind => kind

inductive CStmt where
  | comment
  /-- `T name = init;` -/
  | decl (name : CVar) (init : Option CText) (managed : List Managed)
  /-- A variable of the program that is not declared in the C text. -/
  | unprinted (name : Bytes)
  | expr (text : CText)
  | ret (value : Option CText)
  | brk
  | cont
  | goto (label : Bytes)
  /-- `longjmp(__aether_jmp_buf, 1);` -/
  | longjmp
  /-- `{ … }` -/
  | braces (body : List CStmt)
  /-- `if (cond) { … } else { … }`, where no condition is `1`. -/
  | ite (cond : Option CText) (thenBody elseBody : List CStmt)
  | while (cond : CText) (body : List CStmt)
  /-- `for (uint64_t counter = 0; cond; counter++) { … }` -/
  | forCounter (counter : Bytes) (cond : CText) (body : List CStmt)
  /-- `if (__aether_try_val == 0) { … } else { … }` after `setjmp` -/
  | tryCatch (body handlers : List CStmt)
  /-- What a call of `c_emit_block` prints: no braces. -/
  | inlined (body : List CStmt)
  /-- What stands after `// defer`. -/
  | deferred (printed : Bool) (body : List CStmt)

def managedOf : CStmt → List Managed
  | .decl _ _ managed => managed
  | _ => []

/-! ## §2 Emission -/

/-- What the emitter knows around a statement: the classes of the program,
whether the function throws, and how many labels an expression takes. -/
structure EmitContext where
  classes : List Bytes
  throws : Bool
  labels : AstNode → Nat

/-- The entries that `c_emit_let` pushes. -/
def managedBy (classes : List Bytes) (name : Bytes) : Option AstNode → List Managed
  | some (.typeNamed className) =>
    if className ∈ classes then [⟨name, .classDrop className⟩] else []
  | some (.typeRef _ kind) =>
    (if kind.isOwned then [⟨name, .ownedFree⟩] else []) ++
      (if kind.isRc then [⟨name, .rcRelease⟩] else [])
  | _ => []

/-- Emission counts labels. -/
abbrev Emit (α : Type) := StateM Nat α

section

variable (cg : EmitContext)

def emitText (node : AstNode) : Emit CText := do
  modify (· + cg.labels node)
  return { nodes := [node] }

/-- `c_emit_expr` prints nothing for NULL. -/
def emitTextOpt : Option AstNode → Emit CText
  | none => return {}
  | some node => emitText cg node

def emitInit : Option AstNode → Emit (Option CText)
  | none => return none
  | some node => do return some (← emitText cg node)

def emitTexts : List AstNode → Emit CText
  | [] => return {}
  | node :: nodes => do
    let text ← emitText cg node
    let rest ← emitTexts nodes
    return { nodes := text.nodes ++ rest.nodes }

def cEmitLet (name : Bytes) (type value : Option AstNode) : Emit (List CStmt) := do
  let init ← emitInit cg value
  return [.decl ⟨name, false⟩ init (managedBy cg.classes name type)]

/-- The declaration of an own variable. -/
def ownDecl (name : String) (init : Option CText) : CStmt := .decl ⟨bytes name, true⟩ init []

def ownText (names : List String) : CText := { own := names.map bytes }

/-- `uint64_t var = …;` for a variable of the program, from own ones. -/
def varDecl (names : List String) : Option Bytes → List CStmt
  | none => []
  | some name => [.decl ⟨name, false⟩ (some (ownText names)) []]

def unprintedVars (names : List Bytes) : List CStmt := names.map .unprinted

/-- The names that the patterns of an arm bind. -/
def armNames (pattern : Option AstNode) (patterns : List AstNode) : List Bytes :=
  Semantic.patternNames pattern ++ patterns.flatMap fun pattern => Semantic.patternNames (some pattern)

def cEmitReturn (value : Option AstNode) : Emit (List CStmt) := do
  if cg.throws then
    let assign ← match value with
      | none => pure []
      | some node => do
        let text ← emitText cg node
        pure [CStmt.expr { text with own := [bytes "__ret"] }]
    return ownDecl "__ret" none :: assign ++ [.ret (some (ownText ["__ret"]))]
  else return [.ret (← emitInit cg value)]

def cEmitThrow (value : Option AstNode) : Emit (List CStmt) := do
  if cg.throws then
    return [.comment, ownDecl "__err" none, .expr (ownText ["__err"]), .ret (some (ownText ["__err"]))]
  else
    let assign ← match value with
      | none => pure []
      | some node => do
        let text ← emitText cg node
        pure [CStmt.expr { text with own := [bytes "__aether_error_value"] }]
    return [.comment, .expr (ownText ["__aether_error_tag"])] ++ assign ++ [.longjmp]

/-- The callee and the arguments of a spawned call. -/
def spawnExprs : Option AstNode → List AstNode
  | some (.call (some callee) args) => callee :: args
  | _ => []

def cEmitSpawn : List AstNode → Emit (List CStmt)
  | [] => return [.comment]
  | exprs => do return [.expr (← emitTexts cg exprs)]

/-- A break or a continue with a label is a goto. -/
def cEmitJump (jump : CStmt) (suffix : String) : Option Bytes → List CStmt
  | none => [jump]
  | some [] => [jump]
  | some label => [.goto (label ++ bytes suffix)]

/-- A loop over a range counts; an inclusive range is no different. -/
def cEmitForRange (var indexVar : Option Bytes) (body : Emit (List CStmt))
    (left right : Option AstNode) : Emit (List CStmt) := do
  let label ← modifyGet fun n => (n, n + 2)
  let counter := "__i_" ++ toString label
  let rangeStart ← emitTextOpt cg left
  let rangeEnd ← emitTextOpt cg right
  let body ← body
  return [.braces [ownDecl "__range_start" (some rangeStart), ownDecl "__range_end" (some rangeEnd),
    ownDecl counter (some (ownText ["__range_start"])),
    .while (ownText [counter, "__range_end"]) (varDecl [counter] var ++
      varDecl [counter] indexVar ++ body ++ [.expr (ownText [counter])])]]

def cEmitFor (var indexVar : Option Bytes) (body : Emit (List CStmt)) :
    AstNode → Emit (List CStmt)
  | .binaryOp .range left right _ => cEmitForRange cg var indexVar body left right
  | .binaryOp .rangeInclusive left right _ => cEmitForRange cg var indexVar body left right
  | iterable => do
    let init ← emitText cg iterable
    let body ← body
    return [.braces [ownDecl "__arr" (some init),
      .forCounter (bytes "__i") (ownText ["__i", "__arr"]) (varDecl ["__arr", "__i"] var ++
        varDecl ["__i"] indexVar ++ body)]]

/-- The expressions printed for the first pattern of an arm. -/
def patternExprs : Option AstNode → List AstNode
  | some (.binaryOp .range left right _) => left.toList ++ right.toList
  | some (.binaryOp .rangeInclusive left right _) => left.toList ++ right.toList
  | pattern => pattern.toList

/-- The condition of a match arm; none for a wildcard and for no pattern. -/
def emitArmCondition : Option AstNode → List AstNode → Emit (Option CText)
  | none, [] => return none
  | pattern, patterns =>
    if isWildcard pattern then return none
    else do
      let text ← emitTexts cg (patternExprs pattern ++ patterns)
      return some { text with own := [bytes "__match_val"] }

mutual

def cEmitStmt : AstNode → Emit (List CStmt)
  | .letNode name type value _ _ => cEmitLet cg name type value
  | .constDecl name value => cEmitLet cg name none value
  | .ifNode condition thenBlock elifChain elseBlock => do
    let cond ← emitTextOpt cg condition
    let thenBody ← cEmitBlock [] thenBlock
    let elifs ← cEmitElifs elifChain
    let elseBody ← cEmitBlock [] elseBlock
    return [.ite (some cond) thenBody
      (elifs.foldr (fun arm rest => [.ite (some arm.1) arm.2 rest]) elseBody)]
  | .ifLet pattern condition thenBlock => do
    let init ← emitTextOpt cg condition
    let thenBody ← cEmitBlock [] thenBlock
    return [.braces [ownDecl "__iflet_val" (some init),
      .ite (some (ownText ["__iflet_val"]))
        (varDecl ["__iflet_val"] (Semantic.patternNames pattern).head? ++ thenBody) []]]
  | .whileNode condition body => do
    let cond ← emitTextOpt cg condition
    let body ← cEmitBlock [] body
    return [.while cond body]
  | .forNode var indexVar none body => do
    let body ← cEmitBlock (unprintedVars (var.toList ++ indexVar.toList)) body
    return .comment :: body
  | .forNode var indexVar (some iterable) body => cEmitFor cg var indexVar (cEmitBlock [] body) iterable
  | .returnNode value => cEmitReturn cg value
  | .breakNode label => return cEmitJump .brk "_end" label
  | .continueNode label => return cEmitJump .cont "_continue" label
  | .deferNode none => return [.comment, .deferred true []]
  | .deferNode (some (.block stmts)) => do
    let body ← cEmitStmts stmts
    return [.comment, .deferred true [.inlined body]]
  | .deferNode (some stmt) => do
    let n ← get
    return [.comment, .deferred false (cEmitStmt stmt n).1]
  | .exprStmt expr => do return [.expr (← emitTextOpt cg expr)]
  | .block stmts => do return [.inlined (← cEmitStmts stmts)]
  | .matchNode value arms => do
    let init ← emitTextOpt cg value
    let arms ← cEmitArms arms
    return [.braces (ownDecl "__match_val" (some init) :: arms)]
  | .tryNode body catchArms finallyBody => do
    let body ← cEmitBlock [] body
    let handlers ← cEmitHandlers catchArms
    let finally_ ← cEmitBlock [] finallyBody
    return [.braces ([ownDecl "__aether_try_val" none, .tryCatch body handlers] ++ finally_)]
  | .throwNode value => cEmitThrow cg value
  | .unsafeNode body => cEmitFirst body
  | .region _ body => cEmitBlock [] body
  | .spawn call => cEmitSpawn cg (spawnExprs call)
  | .yieldNode => return [.expr {}]
  | _ => return []

def cEmitStmts : List AstNode → Emit (List CStmt)
  | [] => return []
  | stmt :: stmts => do
    let first ← cEmitStmt stmt
    let rest ← cEmitStmts stmts
    return first ++ rest

/-- `c_emit_block`, which prints nothing for anything but a block. Variables
that the program has in the block but the text has not come first. -/
def cEmitBlockNode (unprinted : List CStmt) : AstNode → Emit (List CStmt)
  | .block stmts => do return [.inlined (unprinted ++ (← cEmitStmts stmts))]
  | _ => return []

def cEmitBlock (unprinted : List CStmt) : Option AstNode → Emit (List CStmt)
  | none => return []
  | some node => cEmitBlockNode unprinted node

def cEmitFirst : List AstNode → Emit (List CStmt)
  | [] => return []
  | node :: _ => cEmitBlockNode [] node

def cEmitElifs : Option AstNode → Emit (List (CText × List CStmt))
  | none => return []
  | some node => cEmitElif node

def cEmitElif : AstNode → Emit (List (CText × List CStmt))
  | .ifNode condition thenBlock elifChain _ => do
    let cond ← emitTextOpt cg condition
    let thenBody ← cEmitBlock [] thenBlock
    let rest ← cEmitElifs elifChain
    return (cond, thenBody) :: rest
  | _ => return []

/-- The arms of a match statement, as a chain of ifs. -/
def cEmitArms : List AstNode → Emit (List CStmt)
  | [] => return []
  | arm :: arms => cEmitArm arm (cEmitArms arms)

/-- Patterns are printed as expressions and bind nothing. -/
def cEmitArm : AstNode → Emit (List CStmt) → Emit (List CStmt)
  | .matchArm pattern patterns body, others => do
    let cond ← emitArmCondition cg pattern patterns
    let body ← cEmitBlock [] body
    let rest ← others
    return [.ite cond (unprintedVars (armNames pattern patterns) ++ body) rest]
  | _, others => others

/-- The bodies of the catch arms, one after the other. -/
def cEmitHandlers : List AstNode → Emit (List CStmt)
  | [] => return []
  | arm :: arms => do
    let body ← cEmitHandler arm
    let rest ← cEmitHandlers arms
    return body ++ rest

def cEmitHandler : AstNode → Emit (List CStmt)
  | .catchArm _ var body _ => cEmitBlock (unprintedVars var.toList) body
  | _ => return []

end

-- the equations, before the proofs that share them
section
attribute [local simp] cEmitStmt
end

end

/-! ## §3 Functions -/

/-- A function in C: its parameters, and the statements between its braces. -/
structure CFunction where
  params : List CVar
  body : List CStmt

def isStringType : Option AstNode → Bool
  | some (.typePrimitive .string) => true
  | _ => false

/-- `main` gets C's parameters, and a first parameter of type `string` from
`argv`; the other parameters are not declared. -/
def cMainParams : List AstNode → List CStmt
  | [] => []
  | .param name type isMut isVarargs defaultValue :: params =>
    if isStringType type then
      [.decl ⟨name, false⟩ none [],
        .ite (some (ownText ["argc"]))
          [.expr { own := [name, bytes "argv"] }, .expr { own := [name, bytes "argv"] }] []] ++
        unprintedVars (params.flatMap Semantic.paramName)
    else
      unprintedVars
        ((.param name type isMut isVarargs defaultValue :: params).flatMap Semantic.paramName)
  | _ :: params => unprintedVars (params.flatMap Semantic.paramName)

/-- A body that is no block is the value of the function. -/
def cEmitFuncBody (cg : EmitContext) : AstNode → Emit (List CStmt)
  | .block stmts => cEmitBlockNode cg [] (.block stmts)
  | expr => do return [.ret (some (← emitText cg expr))]

/-- `c_emit_func_decl` for a function with a body. -/
def cEmitFuncDecl (classes : List Bytes) (labels : AstNode → Nat) : AstNode → Emit (Option CFunction)
  | .funcDecl name _ params _ _ _ (some body) info => do
    let body ← cEmitFuncBody ⟨classes, info.isThrows, labels⟩ body
    if name = bytes "main" then
      return some ⟨[⟨bytes "argc", true⟩, ⟨bytes "argv", true⟩], cMainParams params ++ body⟩
    else return some ⟨(params.flatMap Semantic.paramName).map (⟨·, false⟩), body⟩
  | _ => return none

section

variable {classes : List Bytes} {labels : AstNode → Nat} {name : Bytes}
  {typeParams params pre post : List AstNode} {returnType : Option AstNode} {body : AstNode}
  {info : FuncInfo}

theorem cEmitFuncDecl_main (hmain : name = bytes "main") (label : Nat) :
    (cEmitFuncDecl classes labels (.funcDecl name typeParams params returnType pre post (some body)
      info) label).1 = some ⟨[⟨bytes "argc", true⟩, ⟨bytes "argv", true⟩],
        cMainParams params ++ (cEmitFuncBody ⟨classes, info.isThrows, labels⟩ body label).1⟩ := by
  simp only [cEmitFuncDecl, if_pos hmain]
  rfl

theorem cEmitFuncDecl_other (hmain : name ≠ bytes "main") (label : Nat) :
    (cEmitFuncDecl classes labels (.funcDecl name typeParams params returnType pre post (some body)
      info) label).1 = some ⟨(params.flatMap Semantic.paramName).map (⟨·, false⟩),
        (cEmitFuncBody ⟨classes, info.isThrows, labels⟩ body label).1⟩ := by
  simp only [cEmitFuncDecl, if_neg hmain]
  rfl

end

end Aether.CTranspiler
