/-
Aether.Codegen.OptimizeTheorems — the optimizer keeps what a program does.

A program carries on another one when its functions do what those of the
other did. Folding gives a program that carries on, so does dead code
elimination, and at every level `optimize` is these two, where they are on.
-/
import Aether.Codegen.DropTheorems
import Aether.Optimizer.Pipeline

namespace Aether.Codegen.Functions

open Aether.Lib Layout Optimizer
open Aether.Lib.Fuel (Follows)
open RangeLoops (Word)

/-! ## §1 Programs that carry on -/

/-- The functions that are still there do what they did. -/
structure Carries (decls decls' : List AstNode) : Prop where
  layouts : buildLayouts decls' = buildLayouts decls
  arity : ∀ name, (arity decls' name).isSome = true → (arity decls name).isSome = true
  calls : ∀ n, CallsFollow (buildLayouts decls) decls decls' n

theorem Carries.refl (decls : List AstNode) : Carries decls decls where
  layouts := rfl
  arity := fun _ h => h
  calls := fun _ _ _ _ => .refl _

theorem Carries.trans {a b c : List AstNode} (h : Carries a b) (h' : Carries b c) : Carries a c where
  layouts := h'.layouts.trans h.layouts
  arity := fun name hc => h.arity name (h'.arity name hc)
  calls := by
    intro n name ws harity
    have hfirst := h.calls n name ws (h'.arity name harity)
    have hsecond := h'.calls n name ws harity
    rw [h.layouts] at hsecond
    exact hfirst.trans hsecond

/-- What follows a run does for its caller what the run says. -/
theorem Meets.of_follows {items : List Instr} {s : State} {r r' : Run Word}
    (h : Follows IsDivide Eq r r') (hmeets : Meets items s r') : Meets items s r := by
  cases r with
  | ok w =>
    obtain ⟨w', rfl, rfl⟩ := h
    exact hmeets
  | error e =>
    cases e with
    | divideError =>
      obtain rfl := h rfl
      exact hmeets
    | outOfFuel | stuck => trivial

/-- The code of a program that carries on. -/
theorem Carries.meets {decls decls' : List AstNode} {code : Code} (h : Carries decls decls')
    (hcode : cgProgram decls' = some code) (n : Nat) (name : Bytes) (ws : List Word) (s : State)
    (harity : Functions.arity decls' name = some ws.length) (hargs : HoldsArgs s ws) :
    Meets (calling code name) s (callFunc (buildLayouts decls) decls n name ws) := by
  have hmeets := (calling_linked name hcode).meets n ws s harity hargs
  rw [h.layouts] at hmeets
  exact .of_follows (h.calls n name ws (by simp [harity])) hmeets

theorem carries_folded {decls decls' : List AstNode} (hsteady : SteadyProgram decls)
    (hfold : optConstantFold (.program decls) = .ok (some (.program decls'))) :
    Carries decls decls' := by
  simp only [optConstantFold, foldNode] at hfold
  obtain ⟨folded, hitems, hfold⟩ := exists_of_bind hfold
  obtain rfl : folded = decls' := AstNode.program.inj (Option.some.inj (Except.ok.inj hfold))
  have hdecls := foldItems_decls decls hsteady.declarations hitems
  refine ⟨buildLayouts_folded hdecls, fun name h => ?_, fun n name ws _ => ?_⟩
  · rwa [arity_folded hdecls] at h
  · exact Follows.after (.refl _) (callsAgree hsteady hdecls n name ws) not_divide_outOfFuel

theorem carries_swept {decls decls' removed : List AstNode} {st : SymbolTable} {code₀ code : Code}
    (hsource : cgProgram decls = some code₀)
    (hsweep : dceRemoveDead st (.program decls) = (.program decls', removed))
    (hquiet : ∀ item ∈ removed, isQuiet item = true) (hcode : cgProgram decls' = some code) :
    Carries decls decls' := by
  simp only [dceRemoveDead, sweep, Prod.mk.injEq, AstNode.program.injEq] at hsweep
  obtain ⟨rfl, rfl⟩ := hsweep
  obtain ⟨hnames, -⟩ := cgProgram_inv hsource
  exact ⟨buildLayouts_swept hquiet, fun name => arity_swept hnames hquiet,
    callsFollow hsource hquiet hcode⟩

/-! ## §2 Dead code elimination -/

/-- `fn negated(n: u64) -> u64 { let idle: u64 = 3 return n * -1 }`, with
what stands before the return and for the factor. -/
def negatedFunc (before : List AstNode) (factor : AstNode) : List AstNode :=
  let product := AstNode.binaryOp .mul (some (.ident (bytes "n"))) (some factor) []
  [.funcDecl (bytes "negated") []
    [.param (bytes "n") (some (.typePrimitive .u64)) false false none]
    (some (.typePrimitive .u64)) [] []
    (some (.block (before ++ [.returnNode (some product)]))) { isExported := true }]

def idleLet : AstNode :=
  .letNode (bytes "idle") (some (.typePrimitive .u64)) (some (.literalInt 3 false)) false false

def minusOne : AstNode := .unaryOp .neg (some (.literalInt 1 false))

/-- A program that the passes of a configuration keep: steady where it is
folded, and then, where dead code is taken out, code without it is code with
it as long as what is taken out does nothing. -/
structure Optimizable (cfg : OptimizerConfig) (decls : List AstNode) : Prop where
  steady : cfg.constantFolding = true → SteadyProgram decls
  quiet : cfg.deadCodeElimination = true → ∀ folded,
    foldPass cfg (.program decls) = .ok (some (.program folded)) →
      (cgProgram folded).isSome = true ∧
        ∀ item ∈ (optDeadCodeElim (.program folded)).2, isQuiet item = true

theorem carries_foldPass {cfg : OptimizerConfig} {decls folded : List AstNode}
    (hsteady : cfg.constantFolding = true → SteadyProgram decls)
    (hfold : foldPass cfg (.program decls) = .ok (some (.program folded))) : Carries decls folded := by
  unfold foldPass at hfold
  split at hfold
  · next hon => exact carries_folded (hsteady hon) hfold
  · obtain rfl := AstNode.program.inj (Option.some.inj (Except.ok.inj hfold))
    exact .refl decls

/-- Folding leaves a program, if it leaves anything. -/
theorem foldPass_program {cfg : OptimizerConfig} {decls : List AstNode} {program : AstNode}
    (h : foldPass cfg (.program decls) = .ok (some program)) : ∃ folded, program = .program folded := by
  unfold foldPass at h
  split at h
  · simp only [optConstantFold, foldNode] at h
    obtain ⟨folded, -, h⟩ := exists_of_bind h
    exact ⟨folded, (Option.some.inj (Except.ok.inj h)).symm⟩
  · exact ⟨decls, (Option.some.inj (Except.ok.inj h)).symm⟩

/-- The two passes that change a program. -/
theorem optimize_inv {cfg : OptimizerConfig} {decls decls' : List AstNode}
    (h : optimize cfg (.program decls) = .ok (some (.program decls'))) :
    ∃ folded, foldPass cfg (.program decls) = .ok (some (.program folded)) ∧
      runPass cfg.deadCodeElimination (fun node => (optDeadCodeElim node).1) (.program folded) =
        .program decls' := by
  rw [optimize_eq] at h
  cases hfold : foldPass cfg (.program decls) with
  | error fault =>
    rw [hfold] at h
    cases h
  | ok program =>
    rw [hfold] at h
    cases program with
    | none => cases h
    | some program =>
      obtain ⟨folded, rfl⟩ := foldPass_program hfold
      exact ⟨folded, rfl, Option.some.inj (Except.ok.inj h)⟩

def minusOneFolded : AstNode := .literalInt (0 - 1) false

theorem negated_steady : SteadyProgram (negatedFunc [idleLet] minusOne) where
  declarations := rfl
  bodies := by
    intro name typeParams params returnType pre post body info h
    obtain ⟨-, -, -, -, -, -, hbody, -⟩ := AstNode.funcDecl.inj (List.mem_singleton.mp h)
    refine ⟨_, Option.some.inj hbody, ?_⟩
    simp [idleLet, minusOne, SteadyAll, Steady, FoldsTrue, isOrdering]

end Aether.Codegen.Functions
