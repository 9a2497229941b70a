/-
Aether.Optimizer.Pipeline — the passes in a row.

`optimize` runs the passes that are on. Folding and dead code elimination
change the tree; `opt_inline` walks over it and puts back what it finds, and
the other passes give it back as it is.
-/
import Aether.Optimizer.Dce
import Aether.Optimizer.Fold

namespace Aether.Optimizer

/-! ## §1 The passes that change nothing -/

mutual

def optInline : AstNode → AstNode
  | .program decls => .program (optInlineItems decls)
  | .block stmts => .block (optInlineItems stmts)
  | .funcDecl name typeParams params returnType pre post body info =>
    .funcDecl name typeParams params returnType pre post (optInlineOpt body) info
  | .call callee args => .call callee (optInlineItems args)
  | .ifNode condition thenBlock elifChain elseBlock =>
    .ifNode (optInlineOpt condition) (optInlineOpt thenBlock) elifChain (optInlineOpt elseBlock)
  | .whileNode condition body => .whileNode (optInlineOpt condition) (optInlineOpt body)
  | .forNode var indexVar iterable body =>
    .forNode var indexVar (optInlineOpt iterable) (optInlineOpt body)
  | .returnNode value => .returnNode (optInlineOpt value)
  | .letNode name type value isMut isGlobal => .letNode name type (optInlineOpt value) isMut isGlobal
  | .binaryOp op left right customOp => .binaryOp op (optInlineOpt left) (optInlineOpt right) customOp
  | .unaryOp op operand => .unaryOp op (optInlineOpt operand)
  | node => node

def optInlineOpt : Option AstNode → Option AstNode
  | none => none
  | some node => some (optInline node)

def optInlineItems : List AstNode → List AstNode
  | [] => []
  | node :: nodes => optInline node :: optInlineItems nodes

end

mutual

theorem optInline_eq (node : AstNode) : optInline node = node := by
  cases node with
  | program decls | block decls => simp only [optInline, optInlineItems_eq decls]
  | funcDecl name typeParams params returnType pre post body info =>
    simp only [optInline, optInlineOpt_eq body]
  | call callee args => simp only [optInline, optInlineItems_eq args]
  | ifNode condition thenBlock elifChain elseBlock =>
    simp only [optInline, optInlineOpt_eq condition, optInlineOpt_eq thenBlock,
      optInlineOpt_eq elseBlock]
  | whileNode condition body =>
    simp only [optInline, optInlineOpt_eq condition, optInlineOpt_eq body]
  | forNode var indexVar iterable body =>
    simp only [optInline, optInlineOpt_eq iterable, optInlineOpt_eq body]
  | returnNode value => simp only [optInline, optInlineOpt_eq value]
  | letNode name type value isMut isGlobal => simp only [optInline, optInlineOpt_eq value]
  | binaryOp op left right customOp =>
    simp only [optInline, optInlineOpt_eq left, optInlineOpt_eq right]
  | unaryOp op operand => simp only [optInline, optInlineOpt_eq operand]
  | _ => rfl

theorem optInlineOpt_eq (node : Option AstNode) : optInlineOpt node = node := by
  cases node with
  | none => rfl
  | some node => simp only [optInlineOpt, optInline_eq node]

theorem optInlineItems_eq (nodes : List AstNode) : optInlineItems nodes = nodes := by
  cases nodes with
  | nil => rfl
  | cons node nodes => simp only [optInlineItems, optInline_eq node, optInlineItems_eq nodes]

end

def optEscapeAnalysis (node : AstNode) : AstNode := node

def optRegionElision (node : AstNode) : AstNode := node

def optDevirtualize (node : AstNode) : AstNode := node

def optLoopUnroll (node : AstNode) : AstNode := node

def optMemoryFusion (node : AstNode) : AstNode := node

/-! ## §2 `optimize` -/

/-- `OptimizerConfig`, as `optimizer_config_init` fills it in. -/
structure OptimizerConfig where
  constantFolding : Bool := true
  deadCodeElimination : Bool := true
  inlining : Bool := true
  escapeAnalysis : Bool := true
  regionElision : Bool := true
  devirtualization : Bool := true
  loopUnrolling : Bool := true
  memoryFusion : Bool := true
  deriving DecidableEq, Repr

/-- The passes of `-O1`, and those of every higher level. -/
def levelConfig (optLevel : Int) : Option OptimizerConfig :=
  if optLevel ≤ 0 then none
  else if optLevel = 1 then
    some { escapeAnalysis := false, regionElision := false, devirtualization := false,
           loopUnrolling := false, memoryFusion := false }
  else some {}

/-- A pass on a tree, where it is on. -/
def runPass (isOn : Bool) (pass : AstNode → AstNode) (program : AstNode) : AstNode :=
  if isOn then pass program else program

def foldPass (cfg : OptimizerConfig) (program : AstNode) : Except Fault (Option AstNode) :=
  if cfg.constantFolding then optConstantFold program else .ok (some program)

def optimize (cfg : OptimizerConfig) (program : AstNode) : Except Fault (Option AstNode) := do
  let program ← foldPass cfg program
  return program.map fun program =>
    let program := runPass cfg.deadCodeElimination (fun node => (optDeadCodeElim node).1) program
    let program := runPass cfg.inlining optInline program
    let program := runPass cfg.escapeAnalysis optEscapeAnalysis program
    let program := runPass cfg.regionElision optRegionElision program
    let program := runPass cfg.devirtualization optDevirtualize program
    let program := runPass cfg.loopUnrolling optLoopUnroll program
    runPass cfg.memoryFusion optMemoryFusion program

theorem runPass_same {pass : AstNode → AstNode} (h : ∀ node, pass node = node) (isOn : Bool)
    (program : AstNode) : runPass isOn pass program = program := by
  cases isOn with
  | false => rfl
  | true => exact h program

/-- Two passes make the result. -/
theorem optimize_eq (cfg : OptimizerConfig) (program : AstNode) :
    optimize cfg program = (foldPass cfg program).map fun folded =>
      folded.map (runPass cfg.deadCodeElimination fun node => (optDeadCodeElim node).1) := by
  have hinline := runPass_same optInline_eq
  have hescape := runPass_same (fun _ => rfl : ∀ node, optEscapeAnalysis node = node)
  have hregion := runPass_same (fun _ => rfl : ∀ node, optRegionElision node = node)
  have hdevirtualize := runPass_same (fun _ => rfl : ∀ node, optDevirtualize node = node)
  have hunroll := runPass_same (fun _ => rfl : ∀ node, optLoopUnroll node = node)
  have hfusion := runPass_same (fun _ => rfl : ∀ node, optMemoryFusion node = node)
  simp only [optimize, hinline, hescape, hregion, hdevirtualize, hunroll, hfusion]
  cases foldPass cfg program with
  | error fault => rfl
  | ok folded => rfl

end Aether.Optimizer
