/-
Aether.Semantic.ConstEvalTheorems — when `const_eval_expr` returns.

The evaluation goes from an identifier to the initialiser of the constant
that the scopes give it, and nothing counts how often. `Refers` is where it
goes from one name to the next. It returns if and only if no name it
reaches lies on a cycle (`returns_iff`); the analysis of a program returns
from all its evaluations if and only if this holds of each
(`constEval_returns_iff`).
-/
import Aether.Lib.ReferenceGraph
import Aether.Semantic.Analyzer

namespace Aether.Semantic

open Lib.ReferenceGraph Relation

/-! ## §1 References -/

/-- The identifiers that the evaluation of an expression looks up. -/
inductive Evaluates : AstNode → Bytes → Prop
  | ident (name : Bytes) : Evaluates (.ident name) name
  | unary (op : UnaryOp) {operand : AstNode} {name : Bytes} :
    Evaluates operand name → Evaluates (.unaryOp op (some operand)) name
  | left (op : BinOp) {left : AstNode} (right : Option AstNode) (text : Bytes) {name : Bytes} :
    Evaluates left name → Evaluates (.binaryOp op (some left) right text) name
  | right (op : BinOp) (left : Option AstNode) {right : AstNode} (text : Bytes) {name : Bytes} :
    Evaluates right name → Evaluates (.binaryOp op left (some right) text) name

/-- `a` is a constant, and its initialiser looks up `b`. -/
def Refers (sa : Analyzer) (a b : Bytes) : Prop :=
  ∃ name value, sa.scopeLookup a = some (.constDecl name (some value)) ∧ Evaluates value b

/-- No constant that the expression leads to refers to itself, directly or
through others. -/
def NoCycle (sa : Analyzer) (value : AstNode) : Prop :=
  ∀ name, Evaluates value name → Acyclic (Refers sa) name

/-- `const_eval_expr` returns after finitely many calls. -/
def Returns (sa : Analyzer) (value : AstNode) : Prop :=
  ∃ fuel, constEvalExpr sa fuel (some value) ≠ none

/-! ## §2 The evaluations of a program -/

/-- The initialiser that an action evaluates. -/
def callsOf (sa : Analyzer) : Action → List (Analyzer × AstNode)
  | .constDecl _ (some value) => [(sa, value)]
  | _ => []

/-- The calls of `const_eval_expr` that a list of actions makes. -/
def constCalls (fuel : Nat) : List Action → Analyzer → List (Analyzer × AstNode)
  | [], _ => []
  | action :: actions, sa =>
    callsOf sa action ++ (action.run fuel sa).elim [] (constCalls fuel actions)

def secondPassCalls (fuel : Nat) : Nat → Nat → Analyzer → List (Analyzer × AstNode)
  | 0, _, _ => []
  | steps + 1, i, sa =>
    match sa.program[i]? with
    | none => []
    | some decl =>
      constCalls fuel (semanticVisitNode decl) sa ++
        (runActions fuel (semanticVisitNode decl) sa).elim [] (secondPassCalls fuel steps (i + 1))

def visitProgramCalls (fuel : Nat) (sa : Analyzer) : List (Analyzer × AstNode) :=
  constCalls fuel (sa.program.flatMap firstPass) sa ++
    (runActions fuel (sa.program.flatMap firstPass) sa).elim [] (secondPassCalls fuel fuel 0)

section

variable (parse : Bytes → Option (List AstNode)) (fuel : Nat)

def prePassCalls : List AstNode → Analyzer → List (Analyzer × AstNode)
  | [], _ => []
  | .runBlock stmts :: decls, sa =>
    constCalls fuel (semanticVisitNodes stmts) sa ++
      (runRunBlock parse fuel stmts sa).elim [] (prePassCalls decls)
  | _ :: decls, sa => prePassCalls decls sa

/-- The calls of `semantic_analyze` on the program. -/
def analyzeCalls (decls : List AstNode) : List (Analyzer × AstNode) :=
  (runActions fuel declareBuiltins { semanticCreate with program := decls }).elim [] fun sa =>
    prePassCalls parse fuel decls sa ++
      (prePass parse fuel decls sa).elim [] (visitProgramCalls fuel)

end

/-- The analysis of the program calls `const_eval_expr` on the initialiser
in this state. -/
def Given (decls : List AstNode) (sa : Analyzer) (value : AstNode) : Prop :=
  ∃ fuel, (sa, value) ∈ analyzeCalls parserTree fuel decls

/-! ## §3 Fuel -/

section

variable {sa : Analyzer} {fuel : Nat}

theorem constEvalExpr_ident {name decl : Bytes} {value : AstNode}
    (h : sa.scopeLookup name = some (.constDecl decl (some value))) :
    constEvalExpr sa (fuel + 1) (some (.ident name)) = constEvalExpr sa fuel (some value) := by
  simp only [constEvalExpr, h]

/-- Where the evaluation goes that has not returned. -/
theorem constEvalExpr_eq_none {value : AstNode}
    (h : constEvalExpr sa (fuel + 1) (some value) = none) :
    (∃ op operand, value = .unaryOp op operand ∧ constEvalExpr sa fuel operand = none) ∨
    (∃ op left right text, value = .binaryOp op left right text ∧
      (constEvalExpr sa fuel left = none ∨ constEvalExpr sa fuel right = none)) ∨
    ∃ name decl next, value = .ident name ∧
      sa.scopeLookup name = some (.constDecl decl (some next)) ∧
      constEvalExpr sa fuel (some next) = none := by
  unfold constEvalExpr at h
  split at h
  · cases h
  · cases h
  · cases h
  · cases h
  · next op operand =>
    cases hval : constEvalExpr sa fuel operand with
    | none => exact .inl ⟨op, operand, rfl, hval⟩
    | some val => simp [hval] at h
  · next op left right text =>
    refine .inr (.inl ⟨op, left, right, text, rfl, ?_⟩)
    cases hleft : constEvalExpr sa fuel left with
    | none => exact .inl rfl
    | some _ =>
      cases hright : constEvalExpr sa fuel right with
      | none => exact .inr rfl
      | some _ => simp [hleft, hright] at h
  · next name =>
    split at h
    · next decl next hlook => exact .inr (.inr ⟨name, decl, next, rfl, hlook, h⟩)
    · split at h
      · cases h
      · split at h <;> cases h
  · cases h
  · cases h

/-- With more fuel the evaluation still returns. -/
theorem constEvalExpr_succ_ne_none : ∀ {fuel : Nat} {value : Option AstNode},
    constEvalExpr sa fuel value ≠ none → constEvalExpr sa (fuel + 1) value ≠ none
  | 0, _, h => absurd rfl h
  | _ + 1, none, _ => by simp [constEvalExpr]
  | fuel + 1, some value, h => by
    intro hnone
    obtain ⟨op, operand, rfl, hsub⟩ | ⟨op, left, right, text, rfl, hsub⟩ |
      ⟨name, decl, next, rfl, hlook, hsub⟩ := constEvalExpr_eq_none hnone
    · have hprev : constEvalExpr sa fuel operand = none := by
        by_contra hne
        exact constEvalExpr_succ_ne_none hne hsub
      simp [constEvalExpr, hprev] at h
    · have hprev : constEvalExpr sa fuel left = none ∨ constEvalExpr sa fuel right = none := by
        by_contra hne
        obtain ⟨hleft, hright⟩ := not_or.mp hne
        exact hsub.elim (constEvalExpr_succ_ne_none hleft) (constEvalExpr_succ_ne_none hright)
      cases hprev with
      | inl hleft => simp [constEvalExpr, hleft] at h
      | inr hright => cases hleft : constEvalExpr sa fuel left <;> simp [constEvalExpr, hleft, hright] at h
    · have hprev : constEvalExpr sa fuel (some next) = none := by
        by_contra hne
        exact constEvalExpr_succ_ne_none hne hsub
      rw [constEvalExpr_ident hlook] at h
      exact h hprev

theorem constEvalExpr_mono {n m : Nat} (hle : n ≤ m) {value : Option AstNode}
    (h : constEvalExpr sa n value ≠ none) : constEvalExpr sa m value ≠ none := by
  induction hle with
  | refl => exact h
  | step _ ih => exact constEvalExpr_succ_ne_none ih

/-! ## §4 Evaluation and references -/

/-- An evaluation that returns has returned from every identifier it
looked up. -/
theorem constEvalExpr_evaluates {value : AstNode} {name : Bytes} (hlooks : Evaluates value name) :
    ∀ {fuel : Nat}, constEvalExpr sa fuel (some value) ≠ none →
      constEvalExpr sa fuel (some (.ident name)) ≠ none := by
  induction hlooks with
  | ident name => exact id
  | unary op _ ih =>
    intro fuel h
    cases fuel with
    | zero => exact absurd rfl h
    | succ fuel =>
      refine constEvalExpr_succ_ne_none (ih fun hnone => h ?_)
      simp [constEvalExpr, hnone]
  | left op right text _ ih =>
    intro fuel h
    cases fuel with
    | zero => exact absurd rfl h
    | succ fuel =>
      refine constEvalExpr_succ_ne_none (ih fun hnone => h ?_)
      simp [constEvalExpr, hnone]
  | right op left text _ ih =>
    intro fuel h
    cases fuel with
    | zero => exact absurd rfl h
    | succ fuel =>
      refine constEvalExpr_succ_ne_none (ih fun hnone => h ?_)
      cases hleft : constEvalExpr sa fuel left <;> simp [constEvalExpr, hleft, hnone]

/-- Each reference costs one call. -/
theorem ends_of_returns {name : Bytes} (h : constEvalExpr sa fuel (some (.ident name)) ≠ none) :
    Ends (Refers sa) name := by
  induction fuel generalizing name with
  | zero => exact absurd rfl h
  | succ fuel ih =>
    refine ⟨_, ?_⟩
    intro next ⟨decl, value, hlook, hlooks⟩
    rw [constEvalExpr_ident hlook] at h
    exact ih (constEvalExpr_evaluates hlooks h)

theorem returns_unary {op : UnaryOp} {operand : AstNode} (h : Returns sa operand) :
    Returns sa (.unaryOp op (some operand)) := by
  obtain ⟨n, hn⟩ := h
  refine ⟨n + 1, fun hnone => hn ?_⟩
  cases hval : constEvalExpr sa n (some operand) with
  | none => rfl
  | some val => simp [constEvalExpr, hval] at hnone

theorem returns_binary {op : BinOp} {left right : Option AstNode} {text : Bytes}
    (hleft : ∀ node, left = some node → Returns sa node)
    (hright : ∀ node, right = some node → Returns sa node) :
    Returns sa (.binaryOp op left right text) := by
  have hside : ∀ side : Option AstNode, (∀ node, side = some node → Returns sa node) →
      ∃ n, constEvalExpr sa n side ≠ none := by
    intro side h
    cases side with
    | none => exact ⟨1, by simp [constEvalExpr]⟩
    | some node => exact h node rfl
  obtain ⟨n, hn⟩ := hside left hleft
  obtain ⟨m, hm⟩ := hside right hright
  have hn' := constEvalExpr_mono (Nat.le_max_left n m) hn
  have hm' := constEvalExpr_mono (Nat.le_max_right n m) hm
  obtain ⟨l, hl⟩ := Option.ne_none_iff_exists'.mp hn'
  obtain ⟨r, hr⟩ := Option.ne_none_iff_exists'.mp hm'
  exact ⟨max n m + 1, by simp [constEvalExpr, hl, hr]⟩

/-- The tree above the identifiers is finite. -/
theorem returns_of_names (value : AstNode)
    (h : ∀ name, Evaluates value name → Returns sa (.ident name)) : Returns sa value := by
  by_cases hone : constEvalExpr sa 1 (some value) = none
  · obtain ⟨op, operand, rfl, -⟩ | ⟨op, left, right, text, rfl, -⟩ | ⟨name, _, _, rfl, -, -⟩ :=
      constEvalExpr_eq_none hone
    · cases operand with
      | none => exact ⟨2, by simp [constEvalExpr]⟩
      | some operand =>
        exact returns_unary (returns_of_names operand fun name hn => h name (.unary op hn))
    · refine returns_binary ?_ ?_
      · intro node hnode
        subst hnode
        exact returns_of_names node fun name hn => h name (.left op right text hn)
      · intro node hnode
        subst hnode
        exact returns_of_names node fun name hn => h name (.right op left text hn)
    · exact h name (.ident name)
  · exact ⟨1, hone⟩
termination_by sizeOf value

theorem returns_of_ends {name : Bytes} (h : Ends (Refers sa) name) : Returns sa (.ident name) := by
  induction h with
  | intro name _ ih =>
    by_cases hone : constEvalExpr sa 1 (some (.ident name)) = none
    · obtain ⟨op, operand, heq, -⟩ | ⟨op, left, right, text, heq, -⟩ |
        ⟨_, decl, value, heq, hlook, -⟩ := constEvalExpr_eq_none hone
      · cases heq
      · cases heq
      · cases heq
        obtain ⟨n, hn⟩ := returns_of_names value fun next hlooks =>
          ih next ⟨decl, value, hlook, hlooks⟩
        exact ⟨n + 1, by rwa [constEvalExpr_ident hlook]⟩
    · exact ⟨1, hone⟩

/-- Only declared names refer to others. -/
theorem refers_finite (sa : Analyzer) : {a | ∃ b, Refers sa a b}.Finite := by
  refine ((sa.scopes.flatten.map Symbol.name).toFinset.finite_toSet).subset ?_
  intro a ⟨b, decl, value, hlook, _⟩
  obtain ⟨symbol, hfind, -⟩ := Option.map_eq_some_iff.mp hlook
  have hname : symbol.name = a := by simpa using List.find?_some hfind
  have hmem := List.mem_map_of_mem (f := Symbol.name) (List.mem_of_find?_eq_some hfind)
  simpa [hname] using hmem

/-- The evaluation returns if and only if no name it reaches refers to
itself, directly or through others. -/
theorem returns_iff {value : AstNode} : Returns sa value ↔ NoCycle sa value := by
  constructor
  · intro ⟨n, hn⟩ name hlooks
    exact acyclic_of_ends (ends_of_returns (constEvalExpr_evaluates hlooks hn))
  · intro h
    exact returns_of_names value fun name hlooks =>
      returns_of_ends ((ends_iff_acyclic (refers_finite sa)).mpr (h name hlooks))

end

/-! ## §5 Programs -/

/-- In the analysis of a program every evaluation returns if and only if
none of them is given an initialiser that leads to a cycle. -/
theorem constEval_returns_iff (decls : List AstNode) :
    (∀ sa value, Given decls sa value → Returns sa value) ↔
      ∀ sa value, Given decls sa value → NoCycle sa value :=
  forall_congr' fun _ => forall_congr' fun _ => forall_congr' fun _ => returns_iff

/-- The tree of `const A = A`. -/
def selfConst : AstNode := .constDecl (bytes "A") (some (.ident (bytes "A")))

def isSelfConst : Option (AstNode × Parser) → Bool
  | some (.program [.constDecl name (some (.ident value))], _) =>
    name == bytes "A" && value == bytes "A"
  | _ => false

theorem parsesTo_selfConst : ParsesTo (bytes "const A = A") [selfConst] := by
  have hparse : isSelfConst ((parserParse (parserCreate (bytes "const A = A"))).exec
      (Lib.Procedures.run (Lib.Procedures.bodies procs) 20)) = true := by decide
  unfold isSelfConst at hparse
  split at hparse
  · next name value p heq =>
    simp only [Bool.and_eq_true, beq_iff_eq] at hparse
    obtain ⟨rfl, rfl⟩ := hparse
    exact ⟨p, 20, heq⟩
  · cases hparse

/-- The state in which its initialiser is evaluated. -/
def selfConstState : Analyzer where
  scopes := [⟨bytes "A", selfConst⟩ :: (builtinNames.map fun name => ⟨name, builtinDecl⟩).reverse]
  errorCount := 0
  program := [selfConst]

theorem given_selfConst : Given [selfConst] selfConstState (.ident (bytes "A")) := by
  refine ⟨2, ?_⟩
  have hcalls : analyzeCalls parserTree 2 [selfConst] =
      [(selfConstState, .ident (bytes "A"))] := rfl
  rw [hcalls]
  exact List.mem_singleton.mpr rfl

theorem selfConst_never_returns : ¬ ∀ code decls, ParsesTo code decls →
    ∀ sa value, Given decls sa value → Returns sa value := by
  intro hclaim
  have hacyclic := returns_iff.mp (hclaim _ _ parsesTo_selfConst _ _ given_selfConst)
  have hself : Refers selfConstState (bytes "A") (bytes "A") := ⟨_, _, rfl, .ident _⟩
  exact hacyclic _ (.ident _) _ .refl (.single hself)

end Aether.Semantic
