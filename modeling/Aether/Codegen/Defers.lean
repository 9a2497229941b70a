/-
Aether.Codegen.Defers — deferred bodies in the NASM generator, and when
generating ends.

`cg_stmt` emits a statement's code. A defer only puts its body on a list of
the function (`cg_defer_push`); a return, a throw, a `try` that rethrows and
the end of the function call `cg_emit_defers`, which emits every body on the
list through `cg_stmt` again. Here a statement is followed as far as it does
one or the other. No expression has a statement in it, so all the recursion
that is not on the tree is here.

The list only grows until the function is done. A body that returns or
throws is therefore emitted again while it is emitted, without end, and
`codegenGenerate_iff` says for which programs no body does.
-/
import Aether.Ast
import Aether.Lib.Deferred

namespace Aether.Codegen.Defers

open Aether.Lib.Deferred

/-! ## §1 Emission -/

def isCatchAll : AstNode → Bool
  | .catchArm _ _ _ all => all
  | _ => false

mutual

/-- `cg_stmt`: the bodies it puts off and the places where it emits them. -/
def cgStmt : AstNode → List (Event AstNode)
  | .returnNode _ => [.flush]
  | .block stmts => cgStmts stmts
  | .ifLet _ _ thenBlock => cgStmtOpt thenBlock
  | .ifNode _ thenBlock elifChain elseBlock =>
    cgStmtOpt thenBlock ++ cgStmtOpt elifChain ++ cgStmtOpt elseBlock
  | .whileNode _ body => cgStmtOpt body
  | .forNode _ _ none _ => []
  | .forNode _ _ (some _) body => cgStmtOpt body
  | .deferNode body => (body.map Event.push).toList
  | .region _ body => cgStmtOpt body
  | .tryNode body catchArms finallyBody =>
    -- an error that no arm catches leaves the function
    cgStmtOpt body ++ cgCatchArms catchArms ++
      (if catchArms.any isCatchAll then [] else [.flush]) ++ cgStmtOpt finallyBody
  | .throwNode _ => [.flush]
  | .unsafeNode body => cgStmts body
  | _ => []

def cgStmts : List AstNode → List (Event AstNode)
  | [] => []
  | stmt :: stmts => cgStmt stmt ++ cgStmts stmts

def cgStmtOpt : Option AstNode → List (Event AstNode)
  | none => []
  | some stmt => cgStmt stmt

def cgCatchArms : List AstNode → List (Event AstNode)
  | [] => []
  | arm :: arms => cgCatchArm arm ++ cgCatchArms arms

def cgCatchArm : AstNode → List (Event AstNode)
  | .catchArm _ _ body _ => cgStmtOpt body
  | _ => []

end

/-- `cg_emit_defers`: the list when all is emitted, if it ever is. -/
def cgEmitDefers (fuel : Nat) (deferList : List AstNode) : Option (List AstNode) :=
  flushAll cgStmt fuel deferList

/-- `cg_func`: the body and the defers behind it, from an empty list. -/
def cgFunc (fuel : Nat) (body : AstNode) : Option (List AstNode) :=
  runEvents (cgEmitDefers fuel) (cgStmt body ++ [.flush]) []

/-- The functions that `codegen_generate` emits: those with a body. -/
def functionBody : AstNode → Option AstNode
  | .funcDecl _ _ _ _ _ _ body _ => body
  | _ => none

def functionBodies : AstNode → List AstNode
  | .program decls => decls.filterMap functionBody
  | _ => []

/-- `codegen_generate`, with an empty list for each function. -/
def codegenGenerate (fuel : Nat) (program : AstNode) : Option (List (List AstNode)) :=
  (functionBodies program).mapM (cgFunc fuel)

/-! ## §2 Termination -/

/-- Each body that the function puts off stays quiet: with `n` returns,
throws or rethrowing `try`s emitted after it, neither the body nor the
bodies that it puts off, down to `n` deep, have any of these in them. -/
def DefersQuiet (body : AstNode) : Prop := Orderly cgStmt (cgStmt body ++ [.flush])

theorem cgFunc_isSome_iff (fuel : Nat) (body : AstNode) :
    (cgFunc (fuel + 1) body).isSome ↔ DefersQuiet body := by
  rw [cgFunc, DefersQuiet]
  exact (isSome_iff fuel _ []).trans (by simp)

theorem cgFunc_zero (body : AstNode) : cgFunc 0 body = none := by
  have hend : ∀ (es : List (Event AstNode)) (pending : List AstNode),
      runEvents (cgEmitDefers 0) (es ++ [.flush]) pending = none := by
    intro es
    induction es with
    | nil => intro pending; rfl
    | cons e es ih =>
      intro pending
      cases e with
      | push a => exact ih _
      | flush => rfl
  exact hend _ _

theorem mapM_isSome_iff {α β : Type*} {f : α → Option β} (xs : List α) :
    (xs.mapM f).isSome ↔ ∀ x ∈ xs, (f x).isSome := by
  induction xs with
  | nil => simp
  | cons x xs ih =>
    rw [List.mapM_cons, List.forall_mem_cons, ← ih]
    cases f x with
    | none => simp
    | some y => cases xs.mapM f <;> simp

theorem generate_isSome_iff (fuel : Nat) (program : AstNode) :
    (codegenGenerate (fuel + 1) program).isSome ↔
      ∀ body ∈ functionBodies program, DefersQuiet body := by
  rw [codegenGenerate, mapM_isSome_iff]
  exact forall₂_congr fun body _ => cgFunc_isSome_iff fuel body

theorem returns_iff (program : AstNode) :
    (∃ fuel, (codegenGenerate fuel program).isSome) ↔
      ∀ body ∈ functionBodies program, DefersQuiet body := by
  constructor
  · intro ⟨fuel, h⟩
    cases fuel with
    | zero =>
      intro body hbody
      have hsome := (mapM_isSome_iff _).mp h body hbody
      rw [cgFunc_zero] at hsome
      exact absurd hsome (by simp)
    | succ fuel => exact (generate_isSome_iff fuel program).mp h
  · intro h
    exact ⟨1, (generate_isSome_iff 0 program).mpr h⟩

/-- `func f() { defer return }`. -/
def deferredReturn : AstNode :=
  .program [.funcDecl (bytes "f") [] [] none [] [] (some (.block [.deferNode (some (.returnNode none))])) {}]

end Aether.Codegen.Defers
