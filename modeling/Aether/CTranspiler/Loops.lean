/-
Aether.CTranspiler.Loops — loops over ranges, in the language and in the
emitted C.

`LoopStmt` is the part of the statements that loops are made of: blocks,
conditionals, loops and jumps around statements without statements inside.
`run` gives it a meaning under a rule for loops over ranges; `langLoop` is
the rule of the language. `emitStmt` is the emitter for this part, with its
own variables as data, and `exec` runs the C statements, which keep them in
an environment with C's scopes.
-/
import Aether.CTranspiler.Stmt
import Aether.Lib.LoopTraces

namespace Aether.CTranspiler.Loops

open Aether.Lib.Recorded (Exit)
open Aether.Lib.LoopTraces

/-! ## §1 Statements -/

/-- Statements with no statement inside that are printed. -/
def isSimple : AstNode → Bool
  | .exprStmt _ | .letNode .. | .constDecl .. | .returnNode _ | .throwNode _ | .spawn _
  | .yieldNode => true
  | _ => false

/-- What `c_emit_stmt` passes to `c_emit_block` as it is. -/
inductive BlockKind where
  | bare | unsafe_ | region (name : Bytes)

mutual

inductive LoopStmt where
  | simple (node : AstNode) (h : isSimple node = true)
  | block (kind : BlockKind) (body : LoopBody)
  | ifNode (cond : AstNode) (thenBody : LoopBody) (rest : Branches)
  | whileNode (cond : AstNode) (body : LoopBody)
  | forRange (var indexVar : Option Bytes) (inclusive : Bool) (left right : AstNode)
      (body : LoopBody)
  | breakNode (label : Option Bytes)
  | continueNode (label : Option Bytes)

inductive LoopBody where
  | nil
  | cons (stmt : LoopStmt) (rest : LoopBody)

/-- What follows the block of an `if`. -/
inductive Branches where
  | none
  | elseBody (body : LoopBody)
  | elif (cond : AstNode) (body : LoopBody) (rest : Branches)

end

def BlockKind.node (stmts : List AstNode) : BlockKind → AstNode
  | .bare => .block stmts
  | .unsafe_ => .unsafeNode [.block stmts]
  | .region name => .region name (some (.block stmts))

mutual

def LoopStmt.node : LoopStmt → AstNode
  | .simple node _ => node
  | .block kind body => kind.node body.nodes
  | .ifNode cond thenBody rest =>
    .ifNode (some cond) (some (.block thenBody.nodes)) rest.elifChain rest.elseBlock
  | .whileNode cond body => .whileNode (some cond) (some (.block body.nodes))
  | .forRange var indexVar inclusive left right body =>
    .forNode var indexVar (some (rangeNode inclusive left right)) (some (.block body.nodes))
  | .breakNode label => .breakNode label
  | .continueNode label => .continueNode label

def LoopBody.nodes : LoopBody → List AstNode
  | .nil => []
  | .cons stmt rest => stmt.node :: rest.nodes

def Branches.elifChain : Branches → Option AstNode
  | .none => none
  | .elseBody _ => none
  | .elif cond body rest => some (.ifNode (some cond) (some (.block body.nodes)) rest.elifChain none)

def Branches.elseBlock : Branches → Option AstNode
  | .none => none
  | .elseBody body => some (.block body.nodes)
  | .elif _ _ rest => rest.elseBlock

end

/-- A break and a continue have a label when it is not empty. -/
def hasLabel : Option Bytes → Bool
  | none => false
  | some label => !label.isEmpty

mutual

/-- A jump in the text has a label. -/
def LoopStmt.labelled : LoopStmt → Bool
  | .simple _ _ => false
  | .block _ body => body.labelled
  | .ifNode _ thenBody rest => thenBody.labelled || rest.labelled
  | .whileNode _ body => body.labelled
  | .forRange _ _ _ _ _ body => body.labelled
  | .breakNode label => hasLabel label
  | .continueNode label => hasLabel label

def LoopBody.labelled : LoopBody → Bool
  | .nil => false
  | .cons stmt rest => stmt.labelled || rest.labelled

def Branches.labelled : Branches → Bool
  | .none => false
  | .elseBody body => body.labelled
  | .elif _ body rest => body.labelled || rest.labelled

end

/-! ## §2 Meaning -/

/-- What the parts that are no loops do in the states `S`. -/
structure Meaning (S : Type) where
  /-- A simple statement, and whether it leaves the function. -/
  simple : AstNode → S → Option (S × Bool)
  test : AstNode → S → Option (S × Bool)
  /-- The value of an end of a range. -/
  bound : AstNode → S → Option (S × {v : Int // Integer64 v})
  /-- A loop variable gets its value. -/
  enter : Bytes → UInt64 → S → S

/-- How a loop over a range goes: whether it is inclusive, its ends and what
its body does for a value. -/
abbrev LoopRule (S : Type) := Bool → Int → Int → (UInt64 → Cmd S) → S → Option (Walk S)

/-- No loop of the language has a label to jump to. -/
def jump (e : Exit) (label : Option Bytes) {S : Type} : Cmd S :=
  if hasLabel label then fail else ended e

section

variable {S : Type} (M : Meaning S)

/-- The variables of a loop get the value of a turn. -/
def Meaning.enterAll (names : List Bytes) (v : UInt64) (s : S) : S :=
  names.foldl (fun s name => M.enter name v s) s

/-- The ends of a range, the left one first. -/
def Meaning.ends (left right : AstNode) (s : S) :
    Option (S × {v : Int // Integer64 v} × {v : Int // Integer64 v}) :=
  (M.bound left s).bind fun (s₁, a) => (M.bound right s₁).map fun (s₂, b) => (s₂, a, b)

def Meaning.runSimple (node : AstNode) : Cmd S := fun s =>
  (M.simple node s).map fun (s', leaves) => ⟨s', if leaves then .returned else .fallThrough, []⟩

/-- A loop over a range under a rule. -/
def Meaning.runRange (rule : LoopRule S) (names : List Bytes) (inclusive : Bool)
    (left right : AstNode) (body : Cmd S) : Cmd S := fun s =>
  (M.ends left right s).bind fun (s', a, b) =>
    (rule inclusive a.val b.val (fun v s => body (M.enterAll names v s)) s').map Walk.outcome

variable (rule : LoopRule S) (fuel : Nat)

mutual

/-- A statement; `fuel` bounds the turns of each `while`. -/
def LoopStmt.run : LoopStmt → Cmd S
  | .simple node _ => M.runSimple node
  | .block _ body => body.run
  | .ifNode cond thenBody rest => choose (M.test cond) thenBody.run rest.run
  | .whileNode cond body => whileTest (M.test cond) body.run fuel
  | .forRange var indexVar inclusive left right body =>
    M.runRange rule (var.toList ++ indexVar.toList) inclusive left right body.run
  | .breakNode label => jump .leaveLoop label
  | .continueNode label => jump .nextTurn label

def LoopBody.run : LoopBody → Cmd S
  | .nil => ended .fallThrough
  | .cons stmt rest => andThen stmt.run rest.run

def Branches.run : Branches → Cmd S
  | .none => ended .fallThrough
  | .elseBody body => body.run
  | .elif cond body rest => choose (M.test cond) body.run rest.run

end

/-- The language: the body once for each value in the range, upward. -/
def langLoop : LoopRule S := fun inclusive a b body =>
  forValues body (wordsFrom a (rangeSize inclusive a b))

end

/-! ## §3 The emitted statements -/

/-- The emitter's own variables in a loop over a range. -/
inductive Own where
  | rangeStart | rangeEnd | counter (label : Nat)
  deriving DecidableEq, Repr

def Own.name : Own → String
  | .rangeStart => "__range_start"
  | .rangeEnd => "__range_end"
  | .counter label => "__i_" ++ toString label

inductive Code where
  /-- A simple statement, and what is printed for it. -/
  | simple (node : AstNode) (printed : List CStmt)
  /-- `uint64_t var = init;` -/
  | declWord (var : Own) (init : AstNode)
  | declCopy (var source : Own)
  /-- `uint64_t name = source;` for a variable of the program. -/
  | declVar (name : Bytes) (source : Own)
  /-- `var++;` -/
  | incr (var : Own)
  | brk
  | cont
  | goto (label : Bytes)
  | ite (cond : AstNode) (thenBody elseBody : List Code)
  | while (cond : AstNode) (body : List Code)
  /-- `while (counter < stop) { … }` -/
  | whileLess (counter stop : Own) (body : List Code)
  | braces (body : List Code)
  /-- What a call of `c_emit_block` prints: no braces. -/
  | inlined (body : List Code)

section

variable (cg : EmitContext)

/-- Printing an expression takes its labels. -/
def countLabels (node : AstNode) : Emit Unit := modify (· + cg.labels node)

def emitJump (jump : Code) (suffix : String) : Option Bytes → List Code
  | none => [jump]
  | some [] => [jump]
  | some label => [.goto (label ++ bytes suffix)]

/-- The declarations of a loop variable. -/
def emitVar (counter : Own) : Option Bytes → List Code
  | none => []
  | some name => [.declVar name counter]

/-- `c_emit_for` for a range, inclusive or not. -/
def emitForRange (var indexVar : Option Bytes) (left right : AstNode) (body : Emit (List Code)) :
    Emit (List Code) := do
  let label ← modifyGet fun n => (n, n + 2)
  countLabels cg left
  countLabels cg right
  let body ← body
  return [.braces [.declWord .rangeStart left, .declWord .rangeEnd right,
    .declCopy (.counter label) .rangeStart,
    .whileLess (.counter label) .rangeEnd (emitVar (.counter label) var ++
      emitVar (.counter label) indexVar ++ [.inlined body] ++ [.incr (.counter label)])]]

mutual

def emitStmt : LoopStmt → Emit (List Code)
  | .simple node _ => do return [.simple node (← cEmitStmt cg node)]
  | .block _ body => do return [.inlined (← emitBody body)]
  | .ifNode cond thenBody rest => do
    countLabels cg cond
    let thenBody ← emitBody thenBody
    let rest ← emitBranches rest
    return [.ite cond [.inlined thenBody] rest]
  | .whileNode cond body => do
    countLabels cg cond
    let body ← emitBody body
    return [.while cond [.inlined body]]
  | .forRange var indexVar _ left right body =>
    emitForRange cg var indexVar left right (emitBody body)
  | .breakNode label => return emitJump .brk "_end" label
  | .continueNode label => return emitJump .cont "_continue" label

def emitBody : LoopBody → Emit (List Code)
  | .nil => return []
  | .cons stmt rest => do
    let first ← emitStmt stmt
    let rest ← emitBody rest
    return first ++ rest

def emitBranches : Branches → Emit (List Code)
  | .none => return []
  | .elseBody body => do return [.inlined (← emitBody body)]
  | .elif cond body rest => do
    countLabels cg cond
    let body ← emitBody body
    let rest ← emitBranches rest
    return [.ite cond [.inlined body] rest]

end

end

mutual

/-- The statements as `cEmitStmt` has them. -/
def Code.print : Code → List CStmt
  | .simple _ printed => printed
  | .declWord var init => [ownDecl var.name (some { nodes := [init] })]
  | .declCopy var source => [ownDecl var.name (some (ownText [source.name]))]
  | .declVar name source => [.decl ⟨name, false⟩ (some (ownText [source.name])) []]
  | .incr var => [.expr (ownText [var.name])]
  | .brk => [.brk]
  | .cont => [.cont]
  | .goto label => [.goto label]
  | .ite cond thenBody elseBody =>
    [.ite (some { nodes := [cond] }) (printCodes thenBody) (printCodes elseBody)]
  | .while cond body => [.while { nodes := [cond] } (printCodes body)]
  | .whileLess counter stop body => [.while (ownText [counter.name, stop.name]) (printCodes body)]
  | .braces body => [.braces (printCodes body)]
  | .inlined body => [.inlined (printCodes body)]

def printCodes : List Code → List CStmt
  | [] => []
  | code :: codes => code.print ++ printCodes codes

end

/-- A simple statement prints no statement inside another one. -/
def printedGotos (printed : List CStmt) : List Bytes :=
  printed.flatMap fun
    | .goto label => [label]
    | _ => []

mutual

/-- The labels that a statement jumps to. -/
def Code.gotos : Code → List Bytes
  | .simple _ printed => printedGotos printed
  | .goto label => [label]
  | .ite _ thenBody elseBody => gotosOf thenBody ++ gotosOf elseBody
  | .while _ body => gotosOf body
  | .whileLess _ _ body => gotosOf body
  | .braces body => gotosOf body
  | .inlined body => gotosOf body
  | .declWord _ _ | .declCopy _ _ | .declVar _ _ | .incr _ | .brk | .cont => []

def gotosOf : List Code → List Bytes
  | [] => []
  | code :: codes => code.gotos ++ gotosOf codes

end

/-- The labels that statements define: `c_stmt.c` prints no label. -/
def labelsOf (_ : List Code) : List Bytes := []

/-! ## §4 Runs of the emitted statements -/

/-- The own variables in scope, the latest first. -/
abbrev OwnEnv := List (Own × UInt64)

namespace OwnEnv

def get (var : Own) (env : OwnEnv) : UInt64 := (env.lookup var).getD 0

def set (var : Own) (x : UInt64) : OwnEnv → OwnEnv
  | [] => []
  | (w, y) :: env => if w = var then (w, x) :: env else (w, y) :: set var x env

/-- The variables that were there when `outer` was the environment. -/
def leave (outer env : OwnEnv) : OwnEnv := env.drop (env.length - outer.length)

end OwnEnv

section

variable {S : Type} (M : Meaning S)

/-- A command on the state of the program. -/
def liftTest (test : S → Option (S × Bool)) : S × OwnEnv → Option ((S × OwnEnv) × Bool) :=
  fun (s, env) => (test s).map fun (s', b) => ((s', env), b)

/-- The declarations in a C block end with it. -/
def inBlock (x : Cmd (S × OwnEnv)) : Cmd (S × OwnEnv) := fun (s, env) =>
  (x (s, env)).map fun o => { o with state := (o.state.1, env.leave o.state.2) }

def declare (var : Own) (x : UInt64) (s : S) (env : OwnEnv) : Outcome (S × OwnEnv) :=
  ⟨(s, (var, x) :: env), .fallThrough, []⟩

variable (fuel : Nat)

mutual

/-- A statement; `fuel` bounds the turns of each loop. No statement has the
label of a `goto`. -/
def exec : Code → Cmd (S × OwnEnv)
  | .simple node _ => fun (s, env) =>
    (M.runSimple node s).map fun o => ⟨(o.state, env), o.exit, o.loops⟩
  | .declWord var init => fun (s, env) =>
    (M.bound init s).map fun (s', v) => declare var (toWord v.val) s' env
  | .declCopy var source => fun (s, env) => some (declare var (env.get source) s env)
  | .declVar name source => fun (s, env) =>
    some ⟨(M.enter name (env.get source) s, env), .fallThrough, []⟩
  | .incr var => fun (s, env) => some ⟨(s, env.set var (env.get var + 1)), .fallThrough, []⟩
  | .brk => ended .leaveLoop
  | .cont => ended .nextTurn
  | .goto _ => fail
  | .ite cond thenBody elseBody =>
    choose (liftTest (M.test cond)) (inBlock (execCodes thenBody)) (inBlock (execCodes elseBody))
  | .while cond body => whileTest (liftTest (M.test cond)) (inBlock (execCodes body)) fuel
  | .whileLess counter stop body => fun st =>
    (whileValue (fun st => st.2.get counter) (fun st => st.2.get counter < st.2.get stop)
      (inBlock (execCodes body)) fuel st).map Walk.outcome
  | .braces body => inBlock (execCodes body)
  | .inlined body => execCodes body

def execCodes : List Code → Cmd (S × OwnEnv)
  | [] => ended .fallThrough
  | code :: codes => andThen (exec code) (execCodes codes)

end

end

end Aether.CTranspiler.Loops
