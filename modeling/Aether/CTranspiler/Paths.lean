/-
Aether.CTranspiler.Paths — where the control paths of a C body come out.

`exits` reads the C text, `stmtExits` the statements of the program; the
emitter keeps the one as the other, statement by statement.
-/
import Aether.CTranspiler.Stmt
import Aether.Lib.Exits

namespace Aether.CTranspiler

open Aether.Lib

/-! ## §1 Paths -/

section

-- what is known of a condition: its value, or nothing if it can go both ways
variable (known : AstNode → Option Bool)

/-- A condition that is one expression of the program. -/
def knownText (text : CText) : Option Bool :=
  match text.own, text.nodes with
  | [], [node] => known node
  | _, _ => none

mutual

/-- Where a C statement comes out. The label of a `goto` is nowhere in the
text, and a `longjmp` goes to the handlers of a `setjmp`. -/
def exits : CStmt → Exits
  | .comment => .skip
  | .decl .. => .skip
  | .unprinted _ => .skip
  | .expr _ => .skip
  | .ret _ => .leave
  | .brk => .brk
  | .cont => .leave
  | .goto _ => .leave
  | .longjmp => .leave
  | .braces body => exitsList body
  | .ite none thenBody _ => exitsList thenBody
  | .ite (some cond) thenBody elseBody =>
    .branch (knownText known cond) (exitsList thenBody) (exitsList elseBody)
  | .while cond body => .loop (knownText known cond) (exitsList body)
  | .forCounter _ cond body => .loop (knownText known cond) (exitsList body)
  | .tryCatch body handlers => .branch none (exitsList body) (exitsList handlers)
  | .inlined body => exitsList body
  | .deferred printed body => if printed then exitsList body else .skip

def exitsList : List CStmt → Exits
  | [] => .skip
  | stmt :: stmts => (exits stmt).seq (exitsList stmts)

end

/-- The closing brace of the function is reached. -/
def CFunction.FallsOff (f : CFunction) : Prop := (exitsList known f.body).falls = true

/-! ## §2 The statements of the program -/

def knownOpt : Option AstNode → Option Bool
  | none => none
  | some node => known node

def jumpExits (jump : Exits) : Option Bytes → Exits
  | none => jump
  | some [] => jump
  | some (_ :: _) => .leave

/-- The last arm of a match is taken if its pattern is a wildcard, or missing. -/
def armKnown : Option AstNode → List AstNode → Option Bool
  | none, [] => some true
  | pattern, _ => if isWildcard pattern then some true else none

mutual

def stmtExits : AstNode → Exits
  | .ifNode condition thenBlock elifChain elseBlock =>
    .branch (knownOpt known condition) (blockExits thenBlock)
      (elifsExits elifChain (blockExits elseBlock))
  | .ifLet _ _ thenBlock => .branch none (blockExits thenBlock) .skip
  | .whileNode condition body => .loop (knownOpt known condition) (blockExits body)
  | .forNode _ _ none body => blockExits body
  | .returnNode _ => .leave
  | .breakNode label => jumpExits .brk label
  | .continueNode _ => .leave
  | .deferNode (some (.block stmts)) => stmtsExits stmts
  | .block stmts => stmtsExits stmts
  | .matchNode _ arms => armsExits arms
  | .tryNode body catchArms finallyBody =>
    (Exits.branch none (blockExits body) (handlersExits catchArms)).seq (blockExits finallyBody)
  | .throwNode _ => .leave
  | .unsafeNode body => firstExits body
  | .region _ body => blockExits body
  | _ => .skip

def stmtsExits : List AstNode → Exits
  | [] => .skip
  | stmt :: stmts => (stmtExits stmt).seq (stmtsExits stmts)

def blockNodeExits : AstNode → Exits
  | .block stmts => stmtsExits stmts
  | _ => .skip

def blockExits : Option AstNode → Exits
  | none => .skip
  | some node => blockNodeExits node

def firstExits : List AstNode → Exits
  | [] => .skip
  | node :: _ => blockNodeExits node

def elifsExits : Option AstNode → Exits → Exits
  | none, last => last
  | some node, last => elifExits node last

def elifExits : AstNode → Exits → Exits
  | .ifNode condition thenBlock elifChain _, last =>
    .branch (knownOpt known condition) (blockExits thenBlock) (elifsExits elifChain last)
  | _, last => last

def armsExits : List AstNode → Exits
  | [] => .skip
  | arm :: arms => armExits arm (armsExits arms)

def armExits : AstNode → Exits → Exits
  | .matchArm pattern patterns body, others =>
    .branch (armKnown pattern patterns) (blockExits body) others
  | _, others => others

/-- The bodies of the catch arms stand one after the other. -/
def handlersExits : List AstNode → Exits
  | [] => .skip
  | arm :: arms => (handlerExits arm).seq (handlersExits arms)

def handlerExits : AstNode → Exits
  | .catchArm _ _ body _ => blockExits body
  | _ => .skip

end

/-- A body that is no block is the value of the function. -/
def bodyExits : AstNode → Exits
  | .block stmts => stmtsExits known stmts
  | _ => .leave

-- the equations, before the proofs that share them
section
attribute [local simp] exits exitsList stmtExits stmtsExits blockNodeExits blockExits elifExits
  armExits
end

/-! ## §3 Emission keeps the paths -/

theorem exitsList_append (stmts stmts' : List CStmt) :
    exitsList known (stmts ++ stmts') = (exitsList known stmts).seq (exitsList known stmts') := by
  induction stmts with
  | nil => simp [exitsList]
  | cons stmt stmts ih => simp [exitsList, ih, Exits.seq_assoc]

theorem exitsList_singleton (stmt : CStmt) : exitsList known [stmt] = exits known stmt := by
  simp [exitsList]

@[simp] theorem exitsList_unprintedVars (vars : List Bytes) :
    exitsList known (unprintedVars vars) = .skip := by
  induction vars with
  | nil => simp [unprintedVars, exitsList]
  | cons var vars ih =>
    rw [unprintedVars] at ih
    simp [unprintedVars, exitsList, exits, ih]

@[simp] theorem exitsList_varDecl (names : List String) (var : Option Bytes) :
    exitsList known (varDecl names var) = .skip := by
  cases var <;> simp [varDecl, exitsList, exits]

theorem known_emitTextOpt (cg : EmitContext) (node : Option AstNode) (n : Nat) :
    knownText known (emitTextOpt cg node n).1 = knownOpt known node := by
  cases node <;> rfl

variable (cg : EmitContext) (n : Nat)

theorem exits_let (name : Bytes) (type value : Option AstNode) :
    exitsList known (cEmitLet cg name type value n).1 = .skip := by
  cases value <;> rfl

theorem exits_return (value : Option AstNode) :
    exitsList known (cEmitReturn cg value n).1 = .leave := by
  unfold cEmitReturn
  split <;> cases value <;> rfl

theorem exits_throw (value : Option AstNode) :
    exitsList known (cEmitThrow cg value n).1 = .leave := by
  unfold cEmitThrow
  split <;> cases value <;> rfl

theorem exits_jump (jump : CStmt) (suffix : String) (label : Option Bytes) :
    exitsList known (cEmitJump jump suffix label) = jumpExits (exits known jump) label := by
  cases label with
  | none => exact exitsList_singleton known jump
  | some label =>
    cases label with
    | nil => exact exitsList_singleton known jump
    | cons c label => rfl

/-- The loop over a range or an array comes out when it has counted. -/
theorem exits_for (var indexVar : Option Bytes) (body : Emit (List CStmt)) (iterable : AstNode) :
    exitsList known (cEmitFor cg var indexVar body iterable n).1 = .skip := by
  unfold cEmitFor
  split <;> rfl

theorem exits_spawn (exprs : List AstNode) :
    exitsList known (cEmitSpawn cg exprs n).1 = .skip := by
  cases exprs <;> rfl

theorem emitArmCondition_cases (pattern : Option AstNode) (patterns : List AstNode) :
    (emitArmCondition cg pattern patterns n).1 = none ∧ armKnown pattern patterns = some true ∨
      ∃ text, (emitArmCondition cg pattern patterns n).1 = some text ∧
        knownText known text = none ∧ armKnown pattern patterns = none := by
  unfold emitArmCondition armKnown
  split
  · exact .inl ⟨rfl, rfl⟩
  · by_cases hwild : isWildcard pattern = true
    · simp only [if_pos hwild]
      exact .inl ⟨rfl, trivial⟩
    · simp only [if_neg hwild]
      exact .inr ⟨_, rfl, rfl, trivial⟩

theorem exits_arm (pattern : Option AstNode) (patterns : List AstNode) (body rest : List CStmt) :
    exitsList known [.ite (emitArmCondition cg pattern patterns n).1
        (unprintedVars (armNames pattern patterns) ++ body) rest] =
      .branch (armKnown pattern patterns) (exitsList known body) (exitsList known rest) := by
  rw [exitsList_singleton]
  obtain ⟨hcond, hknown⟩ | ⟨text, hcond, htext, hknown⟩ :=
    emitArmCondition_cases known cg n pattern patterns
  · rw [hcond, hknown, exits, exitsList_append, exitsList_unprintedVars, Exits.skip_seq]
    rfl
  · rw [hcond, hknown, exits, htext, exitsList_append, exitsList_unprintedVars, Exits.skip_seq]

theorem jumpExits_leave (label : Option Bytes) : jumpExits .leave label = .leave := by
  unfold jumpExits
  split <;> rfl

mutual

theorem exits_stmt (stmt : AstNode) (n : Nat) :
    exitsList known (cEmitStmt cg stmt n).1 = stmtExits known stmt := by
  cases stmt with
  | letNode name type value isMut isGlobal => exact exits_let known cg n name type value
  | constDecl name value => exact exits_let known cg n name none value
  | ifNode condition thenBlock elifChain elseBlock =>
    refine (exitsList_singleton known _).trans ?_
    refine congr (congr (congrArg Exits.branch (known_emitTextOpt known cg condition n)) ?_) ?_
    · exact exits_block [] thenBlock _
    · refine (exits_elifs elifChain _ _).trans (congrArg (elifsExits known elifChain) ?_)
      exact exits_block [] elseBlock _
  | ifLet pattern condition thenBlock =>
    refine (exitsList_singleton known _).trans ?_
    show (Exits.skip).seq ((Exits.branch none (exitsList known (_ ++ _)) .skip).seq .skip) = _
    rw [exitsList_append, exitsList_varDecl, Exits.skip_seq, Exits.skip_seq, Exits.seq_skip]
    exact congrArg (Exits.branch none · .skip) (exits_block [] thenBlock _)
  | whileNode condition body =>
    refine (exitsList_singleton known _).trans ?_
    exact congr (congrArg Exits.loop (known_emitTextOpt known cg condition n)) (exits_block [] body _)
  | forNode var indexVar iterable body =>
    cases iterable with
    | none =>
      refine (Exits.skip_seq _).trans ?_
      exact exits_block (var.toList ++ indexVar.toList) body n
    | some iterable => exact exits_for known cg n var indexVar _ iterable
  | returnNode value => exact exits_return known cg n value
  | breakNode label => exact exits_jump known .brk "_end" label
  | continueNode label => exact (exits_jump known .cont "_continue" label).trans (jumpExits_leave label)
  | deferNode body =>
    cases body with
    | none => rfl
    | some body =>
      cases body with
      | block stmts =>
        refine (Exits.skip_seq _).trans ((exitsList_singleton known _).trans ?_)
        exact (exitsList_singleton known _).trans (exits_stmts stmts n)
      | _ => rfl
  | exprStmt expr => rfl
  | block stmts => exact (exitsList_singleton known _).trans (exits_stmts stmts n)
  | matchNode value arms =>
    refine (exitsList_singleton known _).trans ((Exits.skip_seq _).trans ?_)
    exact exits_arms arms _
  | tryNode body catchArms finallyBody =>
    refine (exitsList_singleton known _).trans ((Exits.skip_seq _).trans ?_)
    refine congr (congrArg Exits.seq (congr (congrArg (Exits.branch none) ?_) ?_)) ?_
    · exact exits_block [] body n
    · exact exits_handlers catchArms _
    · exact exits_block [] finallyBody _
  | throwNode value => exact exits_throw known cg n value
  | unsafeNode body =>
    cases body with
    | nil => rfl
    | cons node rest => exact exits_blockNode [] node n
  | region name body => exact exits_block [] body n
  | spawn call => exact exits_spawn known cg n (spawnExprs call)
  | _ => rfl

theorem exits_stmts : (stmts : List AstNode) → (n : Nat) →
    exitsList known (cEmitStmts cg stmts n).1 = stmtsExits known stmts
  | [], _ => rfl
  | stmt :: stmts, n =>
    (exitsList_append known _ _).trans
      (congr (congrArg Exits.seq (exits_stmt stmt n)) (exits_stmts stmts _))

theorem exits_blockNode (vars : List Bytes) (node : AstNode) (n : Nat) :
    exitsList known (cEmitBlockNode cg (unprintedVars vars) node n).1 = blockNodeExits known node := by
  cases node with
  | block stmts =>
    refine (exitsList_singleton known _).trans ((exitsList_append known _ _).trans ?_)
    rw [exitsList_unprintedVars, Exits.skip_seq]
    exact exits_stmts stmts n
  | _ => rfl

theorem exits_block (vars : List Bytes) : (node : Option AstNode) → (n : Nat) →
    exitsList known (cEmitBlock cg (unprintedVars vars) node n).1 = blockExits known node
  | none, _ => rfl
  | some node, n => exits_blockNode vars node n

/-- The chain of the elifs, with the else block at its end. -/
theorem exits_elifs : (elifs : Option AstNode) → (n : Nat) → (last : List CStmt) →
    exitsList known ((cEmitElifs cg elifs n).1.foldr (fun arm rest => [.ite (some arm.1) arm.2 rest])
      last) = elifsExits known elifs (exitsList known last)
  | none, _, _ => rfl
  | some node, n, last => exits_elif node n last

theorem exits_elif (node : AstNode) (n : Nat) (last : List CStmt) :
    exitsList known ((cEmitElif cg node n).1.foldr (fun arm rest => [.ite (some arm.1) arm.2 rest])
      last) = elifExits known node (exitsList known last) := by
  cases node with
  | ifNode condition thenBlock elifChain elseBlock =>
    refine (exitsList_singleton known _).trans ?_
    refine congr (congr (congrArg Exits.branch (known_emitTextOpt known cg condition n)) ?_) ?_
    · exact exits_block [] thenBlock _
    · exact exits_elifs elifChain _ last
  | _ => rfl

theorem exits_arms : (arms : List AstNode) → (n : Nat) →
    exitsList known (cEmitArms cg arms n).1 = armsExits known arms
  | [], _ => rfl
  | arm :: arms, n => by
    cases arm with
    | matchArm pattern patterns body =>
      refine (exits_arm known cg n pattern patterns _ _).trans ?_
      exact congr (congrArg (Exits.branch _) (exits_block [] body _)) (exits_arms arms _)
    | _ => exact exits_arms arms n

theorem exits_handlers : (arms : List AstNode) → (n : Nat) →
    exitsList known (cEmitHandlers cg arms n).1 = handlersExits known arms
  | [], _ => rfl
  | arm :: arms, n =>
    (exitsList_append known _ _).trans
      (congr (congrArg Exits.seq (exits_handler arm n)) (exits_handlers arms _))

theorem exits_handler (node : AstNode) (n : Nat) :
    exitsList known (cEmitHandler cg node n).1 = handlerExits known node := by
  cases node with
  | catchArm type var body isCatchAll => exact exits_block var.toList body n
  | _ => rfl

end

end

end Aether.CTranspiler
