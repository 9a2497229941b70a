/-
Aether.Codegen.Branches — how the NASM generator selects a branch.

`cgIf` is `NODE_IF` of `cg_stmt` (without `if let`); `cgStmtMatch` and
`cgExprMatch` are `NODE_MATCH` of `cg_stmt` and of `cg_expr`. They emit the
same but for the ranges, which only the expression tests.

The code of a condition, a subject, a bound and a body is one item here:
`Outcome` has what it leaves in the registers, and whether it comes back. It
leaves the stack as it was. Labels come from one counter, of which the code
of a node takes `labels node`.
-/
import Aether.Ast
import Aether.Lib.Listing

namespace Aether.Codegen.Branches

open Aether.Lib

abbrev Word := BitVec 64

/-! ## §1 Items -/

/-- A line of the emitted code, or the code of a node. -/
inductive Item where
  | label (l : Nat)
  | eval (node : AstNode)
  | run (node : AstNode)
  /-- `cmp rax, n`. -/
  | cmpImm (n : UInt64)
  /-- `cmp rax, rcx`. -/
  | cmp
  /-- `test rax, rax`. -/
  | test
  | jz (l : Nat)
  | je (l : Nat)
  | jl (l : Nat)
  | jg (l : Nat)
  | jge (l : Nat)
  | jmp (l : Nat)
  /-- `push rax`. -/
  | push
  /-- `pop rcx`. -/
  | pop
  /-- `mov rax, [rsp]`. -/
  | loadTop
  /-- `mov rax, [rsp+8]`. -/
  | loadSecond
  /-- `mov rcx, rax`. -/
  | copy
  /-- `add rsp, 8`. -/
  | drop

def Item.labelOf : Item → Option Nat
  | .label l => some l
  | _ => none

/-! ## §2 Emission -/

/-- `cg_expr` and `cg_stmt` emit nothing for NULL. -/
def evalOpt (node : Option AstNode) : List Item := (node.map Item.eval).toList

def runOpt (node : Option AstNode) : List Item := (node.map Item.run).toList

section

variable (labels : AstNode → Nat)

def labelsOpt (node : Option AstNode) : Nat := (node.map labels).getD 0

mutual

/-- `cg_stmt` on `NODE_IF`: the code, and the counter after it. -/
def cgIf (k : Nat) : AstNode → List Item × Nat
  | .ifNode condition thenBlock elifChain elseBlock =>
    let elseLabel := k
    let endLabel := k + 1
    let elif := cgElif (k + 2 + labelsOpt labels condition + labelsOpt labels thenBlock) elifChain
    (evalOpt condition ++ [.test, .jz elseLabel] ++
      (runOpt thenBlock ++ [.jmp endLabel]) ++
      .label elseLabel :: elif.1 ++
      runOpt elseBlock ++
      [.label endLabel], elif.2 + labelsOpt labels elseBlock)
  | node => ([.run node], k + labels node)

def cgElif (k : Nat) : Option AstNode → List Item × Nat
  | none => ([], k)
  | some node => cgIf k node

end

def isUnderscore : AstNode → Bool
  | .ident name => name == bytes "_"
  | _ => false

/-- `cmp` and `je` for an integer literal. -/
def literalTest (bodyLabel : Nat) : AstNode → List Item
  | .literalInt n _ => [.cmpImm n, .je bodyLabel]
  | _ => []

/-- The tests of a range, and how many labels they take. -/
def rangeTest (nextLabel bodyLabel : Nat) (inclusive : Bool) (left right : Option AstNode) :
    List Item × Nat :=
  (evalOpt left ++ [.push, .loadSecond, .pop, .cmp, .jl nextLabel] ++
    (evalOpt right ++ [.copy, .loadTop, .cmp,
      if inclusive then .jg nextLabel else .jge nextLabel, .jmp bodyLabel]),
    labelsOpt labels left + labelsOpt labels right)

/-- The tests of the pattern of an arm, in `cg_stmt` and in `cg_expr`. -/
def stmtTest (_nextLabel bodyLabel : Nat) (pattern : AstNode) : List Item × Nat :=
  (literalTest bodyLabel pattern, 0)

def exprTest (nextLabel bodyLabel : Nat) : AstNode → List Item × Nat
  | .binaryOp .range left right _ => rangeTest labels nextLabel bodyLabel false left right
  | .binaryOp .rangeInclusive left right _ => rangeTest labels nextLabel bodyLabel true left right
  | pattern => (literalTest bodyLabel pattern, 0)

section

variable (patternTest : Nat → Nat → AstNode → List Item × Nat)

/-- The code of an arm. Its pattern is read without a test for NULL. -/
def cgArm (endLabel k : Nat) (isLast : Bool) : AstNode → Option (List Item × Nat)
  | .matchArm (some pattern) patterns body =>
    let nextLabel := k
    let bodyLabel := k + 1
    let first := patternTest nextLabel bodyLabel pattern
    some (.loadTop :: first.1 ++ patterns.flatMap (literalTest bodyLabel) ++
        (if isUnderscore pattern then [] else [.jmp nextLabel]) ++
        .label bodyLabel :: (runOpt body ++ [.jmp endLabel]) ++
        .label nextLabel :: (if isLast then runOpt body else []),
      k + 2 + first.2 + labelsOpt labels body + if isLast then labelsOpt labels body else 0)
  | _ => none

def cgArms (endLabel k : Nat) : List AstNode → Option (List Item)
  | [] => some []
  | arm :: arms => do
    let code ← cgArm labels patternTest endLabel k arms.isEmpty arm
    let rest ← cgArms endLabel code.2 arms
    return code.1 ++ rest

def cgMatch (k : Nat) : AstNode → Option (List Item)
  | .matchNode value arms => do
    let endLabel := k
    let code ← cgArms labels patternTest endLabel (k + 1 + labelsOpt labels value) arms
    return evalOpt value ++ .push :: code ++ [.label endLabel, .drop]
  | _ => none

end

/-- `cg_stmt` on `NODE_MATCH`; nothing where the generator reads NULL. -/
def cgStmtMatch (k : Nat) (node : AstNode) : Option (List Item) := cgMatch labels stmtTest k node

/-- `cg_expr` on `NODE_MATCH`. -/
def cgExprMatch (k : Nat) (node : AstNode) : Option (List Item) :=
  cgMatch labels (exprTest labels) k node

end

/-! ## §3 Execution -/

structure State where
  rax : Word
  rcx : Word
  /-- What is pushed here, the last word first. -/
  stack : List Word
  zero : Bool
  less : Bool
  /-- The expressions evaluated so far. -/
  clock : Nat
  /-- The bodies that have run. -/
  trace : List AstNode

/-- What the code of the nodes does: the words an expression leaves when it
is evaluated, and the bodies that leave the function. -/
structure Outcome where
  word : Nat → AstNode → Word
  scratch : Nat → AstNode → Word
  leaves : AstNode → Bool
  literal : ∀ t n negative, word t (.literalInt n negative) = n.toBitVec

/-- The immediate of `cmp rax, n` has 32 bits and is extended with its sign. -/
def imm32 (n : UInt64) : Word := (n.toBitVec.setWidth 32).signExtend 64

/-- The flags of `cmp a, b` that a jump of this code reads. -/
def State.compare (s : State) (a b : Word) : State := { s with zero := a == b, less := a.slt b }

def Item.exec (o : Outcome) (s : State) : Item → Flow Nat Unit State
  | .label _ => .next s
  | .eval node =>
    .next { s with
      rax := o.word s.clock node, rcx := o.scratch s.clock node, clock := s.clock + 1 }
  | .run node =>
    let s' := { s with trace := s.trace ++ [node] }
    if o.leaves node then .leave () s' else .next s'
  | .cmpImm n => .next (s.compare s.rax (imm32 n))
  | .cmp => .next (s.compare s.rax s.rcx)
  | .test => .next { s with zero := s.rax == 0 }
  | .jz l => if s.zero then .goto l s else .next s
  | .je l => if s.zero then .goto l s else .next s
  | .jl l => if s.less then .goto l s else .next s
  | .jg l => if s.less || s.zero then .next s else .goto l s
  | .jge l => if s.less then .next s else .goto l s
  | .jmp l => .goto l s
  | .push => .next { s with stack := s.rax :: s.stack }
  | .pop => .next { s with rcx := s.stack.headD 0, stack := s.stack.tail }
  | .loadTop => .next { s with rax := s.stack.headD 0 }
  | .loadSecond => .next { s with rax := s.stack.tail.headD 0 }
  | .copy => .next { s with rcx := s.rax }
  | .drop => .next { s with stack := s.stack.tail }

def code (o : Outcome) (items : List Item) : Listing Item Nat Unit State where
  items := items
  labelOf := Item.labelOf
  exec := fun item s => item.exec o s

end Aether.Codegen.Branches
