/-
Aether.Semantic.EmitTheorems — declarations that a `#run` block emits.

`emission_iff`: a program that emits a text has the declarations of the text
after semantic analysis if and only if what stands between the quotes, as it
is written there, gives declarations that the copies keep: functions of which
nothing but the name is given, and nodes without a name and contents.
-/
import Aether.Semantic.ResolutionTheorems
import Aether.CTranspiler.Interpolation

namespace Aether.Semantic

open Lib.Procedures

-- the equations, before the proofs that share them
section
attribute [local simp] Action.run semanticVisitExpr semanticVisitExprOpt semanticVisitExprs
  semanticVisitArgs firstPass semanticVisitNode semanticVisitNodeOpt isGeneric semanticVisitNodes
  secondPass prePass semanticAnalyze AstNode.blank
end

/-! ## §1 Texts and programs that emit them -/

/-- The text parses to the declarations, without an error. -/
def AcceptedAs (text : Bytes) (decls : List AstNode) : Prop :=
  ∃ p, Steps procs parserParse (parserCreate text) (.program decls) p ∧ p.errors = []

/-- The content of a literal is the text as it is, or has it as its meaning. -/
def Spells (content text : Bytes) : Prop :=
  content = text ∨ ∃ s : CTranspiler.StringContent, s.bytes = content ∧
    (∀ item ∈ s.items, item.isExpr = false) ∧ s.meaning (fun _ => []) = text

/-- Declarations, their text, and the argument of an `emit` of it: what the
parser makes of a literal that spells the text. -/
structure Emission where
  text : Bytes
  decls : List AstNode
  content : Bytes
  arg : AstNode
  accepted : AcceptedAs text decls
  spells : Spells content text
  literal : ∃ token p q, token.text = quote content ∧
    Steps procs (parseStringLiteral token) p (some arg) q

/-- `emit(arg)`. -/
def emitCall (arg : AstNode) : AstNode :=
  .exprStmt (some (.call (some (.ident (bytes "emit"))) [arg]))

namespace Emission

variable (e : Emission)

/-- `#run { emit(arg) }`. -/
def runBlock : AstNode := .runBlock [emitCall e.arg]

/-- The analysis of the program that emits the text and that of the text
itself both return, with the same declarations after the block. -/
def Same : Prop :=
  ∃ fuel fuel' sa sa', semanticAnalyze parserTree fuel [e.runBlock] = some sa ∧
    semanticAnalyze parserTree fuel' e.decls = some sa' ∧ sa.program = e.runBlock :: sa'.program

/-- What `emit` has to parse gives the declarations. -/
def Generates (generated : List AstNode) : Prop :=
  match emitText (emitCall e.arg) with
  | some code => ParsesTo code generated
  | none => generated = []

end Emission

/-- The declarations of which a named copy would be read through NULL. -/
def isNamed : AstNode → Bool
  | .funcDecl .. | .constDecl .. | .letNode .. | .structDecl .. | .enumDecl .. | .traitDecl ..
  | .classDecl .. => true
  | _ => false

/-- A generated declaration and its copy in the program. -/
inductive KeptAs : AstNode → AstNode → Prop where
  | func (name : Bytes) (info : FuncInfo) :
    KeptAs (.funcDecl name [] [] none [] [] none info) (.funcDecl name [] [] none [] [] none info)
  | nameless (decl : AstNode) (h : isNamed decl = false) : KeptAs decl decl.blank

/-- The text between the quotes gives the declarations, as far as the copies
keep them. -/
def Emission.Carried (e : Emission) : Prop :=
  ∃ generated, e.Generates generated ∧ List.Forall₂ KeptAs generated e.decls

/-! ## §2 Copies -/

variable {fuel : Nat} {sa sa' : Analyzer} {decl copy : AstNode} {decls copies : List AstNode}

theorem copyGenerated_iff :
    copyGenerated decl = some copies ↔ ∃ copy, copies = [copy] ∧ KeptAs decl copy := by
  constructor
  · intro h
    cases decl with
    | funcDecl name typeParams params returnType pre post body info =>
      cases typeParams <;> cases params <;> cases returnType <;> cases pre <;> cases post <;>
        cases body <;> cases h
      exact ⟨_, rfl, .func name info⟩
    | constDecl | letNode | structDecl | enumDecl | traitDecl | classDecl => cases h
    | _ =>
      cases h
      exact ⟨_, rfl, .nameless _ rfl⟩
  · rintro ⟨copy, rfl, h⟩
    cases h with
    | func name info => rfl
    | nameless decl h =>
      cases decl with
      | funcDecl | constDecl | letNode | structDecl | enumDecl | traitDecl | classDecl => cases h
      | _ => rfl

theorem isNamed_blank (decl : AstNode) : isNamed decl.blank = isNamed decl := by
  cases decl <;> rfl

theorem blank_blank (decl : AstNode) : decl.blank.blank = decl.blank := by
  cases decl <;> rfl

/-- A copy is kept as it is. -/
theorem keptAs_self (h : KeptAs decl copy) : KeptAs copy copy := by
  cases h with
  | func name info => exact .func name info
  | nameless decl h =>
    have hblank := KeptAs.nameless decl.blank ((isNamed_blank decl).trans h)
    rwa [blank_blank] at hblank

theorem keptAs_copies (h : List.Forall₂ KeptAs decls copies) : ∀ copy ∈ copies, KeptAs copy copy := by
  induction h with
  | nil => exact nofun
  | cons h _ ih => exact List.forall_mem_cons.mpr ⟨keptAs_self h, ih⟩

/-! ## §3 Actions that neither fail nor make copies -/

/-- Not the evaluation of a constant, and not the declaration of a generic
function. -/
def PlainAction : Action → Prop
  | .scopeDeclare _ decl => isGeneric decl = false
  | .constDecl .. => False
  | _ => True

-- the equations, before the proofs that share them
section
attribute [local simp] PlainAction
end

/-- Nothing but plain actions. -/
def PlainActions (actions : List Action) : Prop := ∀ a ∈ actions, PlainAction a

variable {actions actions' : List Action}

@[simp] theorem plainActions_nil : PlainActions [] := nofun

@[simp] theorem plainActions_cons {a : Action} :
    PlainActions (a :: actions) ↔ PlainAction a ∧ PlainActions actions :=
  List.forall_mem_cons

@[simp] theorem plainActions_append :
    PlainActions (actions ++ actions') ↔ PlainActions actions ∧ PlainActions actions' :=
  List.forall_mem_append

theorem plain_returns (fuel : Nat) {a : Action} (h : Plain sa) (ha : PlainAction a) :
    ∃ sa', a.run fuel sa = some sa' := by
  cases a with
  | resolve name =>
    rw [Action.run]
    split
    · exact ⟨_, rfl⟩
    · exact ⟨_, rfl⟩
  | checkGeneric callee args =>
    rw [Action.run, instantiate]
    split
    · next hlookup => cases plain_lookup h hlookup
    · exact ⟨_, rfl⟩
  | constDecl name value => exact ha.elim
  | _ => exact ⟨_, rfl⟩

/-- Plain actions return in a plain analyzer, and leave it plain. -/
theorem runActions_plain (fuel : Nat) (h : Plain sa) (hactions : PlainActions actions) :
    ∃ sa', runActions fuel actions sa = some sa' ∧ Plain sa' ∧ sa'.program = sa.program := by
  induction actions generalizing sa with
  | nil => exact ⟨sa, rfl, h, rfl⟩
  | cons a actions ih =>
    obtain ⟨ha, hactions⟩ := plainActions_cons.mp hactions
    obtain ⟨sa₁, hrun⟩ := plain_returns fuel h ha
    have hdecl : ∀ name decl, a = .scopeDeclare name decl → isGeneric decl = false := by
      rintro name decl rfl
      exact ha
    obtain ⟨h₁, hprogram₁⟩ := plain_run h hdecl hrun
    obtain ⟨sa', hrest, h', hprogram⟩ := ih h₁ hactions
    refine ⟨sa', ?_, h', hprogram.trans hprogram₁⟩
    rw [runActions_cons, hrun]
    exact hrest

/-! ## §4 What is visited -/

theorem plainActions_params (params : List AstNode) : PlainActions (params.flatMap declareParam) := by
  intro a ha
  obtain ⟨param, _, ha⟩ := List.mem_flatMap.mp ha
  unfold declareParam at ha
  split at ha
  · obtain rfl := List.mem_singleton.mp ha
    rfl
  · cases ha

theorem plainActions_checkCall (callee : Option AstNode) (args : List AstNode) :
    PlainActions (checkCall callee args) := by
  unfold checkCall
  split <;> simp [PlainAction]

mutual

theorem plainActions_expr (node : AstNode) : PlainActions (semanticVisitExpr node) := by
  cases node with
  | ident name => simp [semanticVisitExpr, PlainAction]
  | binaryOp op left right captures =>
    simp [semanticVisitExpr, plainActions_exprOpt left, plainActions_exprOpt right]
  | unaryOp op operand => simp [semanticVisitExpr, plainActions_exprOpt operand]
  | call callee args =>
    have hcallee := plainActions_exprOpt callee
    have hargs := plainActions_exprs args
    have hbuiltin := plainActions_args args
    rw [semanticVisitExpr]
    split_ifs
    · exact hargs
    · exact hbuiltin
    · simp [hcallee, hargs, plainActions_checkCall]
  | index target position =>
    simp [semanticVisitExpr, plainActions_exprOpt target, plainActions_exprOpt position]
  | fieldAccess target field => simp [semanticVisitExpr, plainActions_exprOpt target]
  | matchNode value arms => simp [semanticVisitExpr, plainActions_exprOpt value]
  | lambda params body =>
    simp [semanticVisitExpr, PlainAction, plainActions_params, plainActions_exprOpt body]
  | arrayLit elements => simp [semanticVisitExpr, plainActions_exprs elements]
  | _ => simp [semanticVisitExpr]

theorem plainActions_exprOpt : ∀ node, PlainActions (semanticVisitExprOpt node)
  | none => by simp [semanticVisitExprOpt]
  | some node => by simpa [semanticVisitExprOpt] using plainActions_expr node

theorem plainActions_exprs : ∀ nodes, PlainActions (semanticVisitExprs nodes)
  | [] => by simp [semanticVisitExprs]
  | node :: nodes => by
    simp [semanticVisitExprs, plainActions_expr node, plainActions_exprs nodes]

theorem plainActions_args : ∀ nodes, PlainActions (semanticVisitArgs nodes)
  | [] => by simp [semanticVisitArgs]
  | node :: nodes => by
    have hnode := plainActions_expr node
    have hnodes := plainActions_args nodes
    rw [semanticVisitArgs]
    split
    · simpa using hnodes
    · simp [hnode, hnodes]

end

/-- A declaration without effects in both passes. -/
def PlainDecl (decl : AstNode) : Prop :=
  PlainActions (firstPass decl) ∧ PlainActions (semanticVisitNode decl)

-- the equations, before the proofs that share them
section
attribute [local simp] PlainDecl
end

theorem plainDecl_copy (h : KeptAs decl copy) : PlainDecl copy := by
  cases h with
  | func name info =>
    simp [PlainDecl, firstPass, semanticVisitNode, semanticVisitNodeOpt, checkReturn, PlainAction,
      isGeneric]
  | nameless decl h =>
    cases decl with
    | funcDecl | constDecl | letNode | structDecl | enumDecl | traitDecl | classDecl => cases h
    | _ =>
      simp [PlainDecl, AstNode.blank, firstPass, semanticVisitNode, semanticVisitNodeOpt,
        semanticVisitNodes, semanticVisitCatchArms, semanticVisitExprOpt, declareIdent, PlainAction,
        isGeneric]

theorem plainDecl_runBlock (e : Emission) : PlainDecl e.runBlock := by
  have hcall := plainActions_expr (.call (some (.ident (bytes "emit"))) [e.arg])
  simpa [PlainDecl, Emission.runBlock, emitCall, firstPass, semanticVisitNode, semanticVisitNodes,
    semanticVisitExprOpt] using hcall

/-! ## §5 Both passes -/

theorem secondPass_plain (fuel : Nat) {steps : Nat} : ∀ {i : Nat} {sa : Analyzer}, Plain sa →
    (∀ decl ∈ sa.program, PlainDecl decl) →
    (∀ sa', secondPass fuel steps i sa = some sa' → sa'.program = sa.program) ∧
      (i ≤ sa.program.length → sa.program.length < i + steps →
        ∃ sa', secondPass fuel steps i sa = some sa') := by
  induction steps with
  | zero =>
    intro i sa _ _
    refine ⟨nofun, fun hle hlt => ?_⟩
    omega
  | succ steps ih =>
    intro i sa hplain hdecls
    rw [secondPass]
    cases hget : sa.program[i]? with
    | none =>
      refine ⟨fun sa' h => ?_, fun _ _ => ⟨sa, rfl⟩⟩
      cases h
      rfl
    | some decl =>
      have hdecl := hdecls decl (List.mem_of_getElem? hget)
      obtain ⟨sa₁, hrun, hplain₁, hprogram₁⟩ := runActions_plain fuel hplain hdecl.2
      simp only [hrun, Option.bind_eq_bind, Option.bind_some]
      have ih := ih (i := i + 1) hplain₁ (by rwa [hprogram₁])
      rw [hprogram₁] at ih
      have hi : i < sa.program.length := (List.getElem?_eq_some_iff.mp hget).1
      refine ⟨ih.1, fun _ hlt => ih.2 hi ?_⟩
      omega

/-- Plain declarations stay as they are. -/
theorem visitProgram_plain (fuel : Nat) (hplain : Plain sa) (hdecls : ∀ decl ∈ sa.program, PlainDecl decl) :
    (∀ sa', visitProgram fuel sa = some sa' → sa'.program = sa.program) ∧
      (sa.program.length < fuel → ∃ sa', visitProgram fuel sa = some sa') := by
  have hfirst : PlainActions (sa.program.flatMap firstPass) := by
    intro a ha
    obtain ⟨decl, hdecl, ha⟩ := List.mem_flatMap.mp ha
    exact (hdecls decl hdecl).1 a ha
  obtain ⟨sa₁, hrun, hplain₁, hprogram₁⟩ := runActions_plain fuel hplain hfirst
  have hsecond : (∀ sa', secondPass fuel fuel 0 sa₁ = some sa' → sa'.program = sa₁.program) ∧
      (0 ≤ sa₁.program.length → sa₁.program.length < 0 + fuel →
        ∃ sa', secondPass fuel fuel 0 sa₁ = some sa') :=
    secondPass_plain fuel hplain₁ (by rwa [hprogram₁])
  rw [hprogram₁, Nat.zero_add] at hsecond
  rw [visitProgram, hrun]
  exact ⟨hsecond.1, hsecond.2 (Nat.zero_le _)⟩

/-! ## §6 Emitting -/

theorem addGenerated_keeps (hplain : Plain sa) (h : KeptAs decl copy) :
    ∃ sa', addGenerated sa decl = some sa' ∧ Plain sa' ∧ sa'.program = sa.program ++ [copy] := by
  have hcopy : copyGenerated decl = some [copy] := copyGenerated_iff.mpr ⟨copy, rfl, h⟩
  refine ⟨{ declareGenerated sa decl with program := (declareGenerated sa decl).program ++ [copy] },
    ?_, ?_, ?_⟩
  · rw [addGenerated, hcopy]
    rfl
  · show Plain (declareGenerated sa decl)
    unfold declareGenerated
    split
    · exact plain_scopeDeclare hplain (copyGenerated_plain hcopy)
    · exact hplain
  · show (declareGenerated sa decl).program ++ [copy] = sa.program ++ [copy]
    rw [program_declareGenerated]

theorem addGenerated_kept (h : addGenerated sa decl = some sa') : ∃ copy, KeptAs decl copy := by
  obtain ⟨copies, hcopy, _⟩ := Option.bind_eq_some_iff.mp h
  obtain ⟨copy, _, hkept⟩ := copyGenerated_iff.mp hcopy
  exact ⟨copy, hkept⟩

/-- Declarations that are kept are appended. -/
theorem foldlM_addGenerated (h : List.Forall₂ KeptAs decls copies) : ∀ {sa : Analyzer}, Plain sa →
    ∃ sa', decls.foldlM addGenerated sa = some sa' ∧ Plain sa' ∧
      sa'.program = sa.program ++ copies := by
  induction h with
  | nil => exact fun hplain => ⟨_, rfl, hplain, by simp⟩
  | @cons decl copy decls copies h _ ih =>
    intro sa hplain
    obtain ⟨sa₁, hadd, hplain₁, hprogram₁⟩ := addGenerated_keeps hplain h
    obtain ⟨sa', hfold, hplain', hprogram⟩ := ih hplain₁
    refine ⟨sa', ?_, hplain', ?_⟩
    · rw [List.foldlM_cons, hadd]
      exact hfold
    · rw [hprogram, hprogram₁, List.append_assoc, List.singleton_append]

/-- Only declarations that are kept can be added. -/
theorem kept_of_foldlM : ∀ {sa : Analyzer}, decls.foldlM addGenerated sa = some sa' →
    ∃ copies, List.Forall₂ KeptAs decls copies := by
  induction decls with
  | nil => exact fun _ => ⟨[], .nil⟩
  | cons decl decls ih =>
    intro sa h
    rw [List.foldlM_cons] at h
    obtain ⟨sa₁, hadd, hfold⟩ := Option.bind_eq_some_iff.mp h
    obtain ⟨copy, hcopy⟩ := addGenerated_kept hadd
    obtain ⟨copies, hcopies⟩ := ih hfold
    exact ⟨copy :: copies, .cons hcopy hcopies⟩

/-- `parserTree` gives what the parser returns. -/
theorem parserTree_eq_some_iff {code : Bytes} : parserTree code = some decls ↔ ParsesTo code decls := by
  constructor
  · intro h
    unfold parserTree at h
    split at h
    · next hparses =>
      cases h
      exact hparses.choose_spec
    · cases h
  · intro h
    have hparses : ∃ decls, ParsesTo code decls := ⟨decls, h⟩
    obtain ⟨p, hp⟩ := h
    obtain ⟨q, hq⟩ := hparses.choose_spec
    have heq := evals_det hq hp
    simp only [Prod.mk.injEq, AstNode.program.injEq] at heq
    rw [parserTree, dif_pos hparses, heq.1]

/-! ## §7 Whole programs -/

theorem builtins_plain (fuel : Nat) (decls : List AstNode) :
    ∃ sa, runActions fuel declareBuiltins { semanticCreate with program := decls } = some sa ∧
      Plain sa ∧ sa.program = decls := by
  have hactions : PlainActions declareBuiltins := by
    intro a ha
    obtain ⟨name, _, rfl⟩ := List.mem_map.mp ha
    rfl
  exact runActions_plain fuel (by simp [Plain, semanticCreate]) hactions

/-- The statements of the block, and then what it emits. -/
theorem prePass_runBlock (e : Emission) {sa₁ : Analyzer}
    (hrun : runActions fuel (semanticVisitNodes [emitCall e.arg]) sa = some sa₁) :
    prePass parserTree fuel [e.runBlock] sa =
      (emitText (emitCall e.arg)).elim (some sa₁) (emitCode parserTree sa₁) := by
  rw [Emission.runBlock, prePass, runRunBlock, hrun]
  cases htext : emitText (emitCall e.arg) with
  | none => simp [htext, prePass]
  | some code => simp [htext, prePass]

theorem emit_returns (e : Emission) {generated : List AstNode} (hplain : Plain sa)
    (hgenerates : e.Generates generated) (hcopies : List.Forall₂ KeptAs generated copies) :
    ∃ sa', (emitText (emitCall e.arg)).elim (some sa) (emitCode parserTree sa) = some sa' ∧
      Plain sa' ∧ sa'.program = sa.program ++ copies := by
  rw [Emission.Generates] at hgenerates
  cases htext : emitText (emitCall e.arg) with
  | none =>
    rw [htext] at hgenerates
    subst hgenerates
    cases hcopies
    exact ⟨sa, rfl, hplain, by simp⟩
  | some code =>
    rw [htext] at hgenerates
    obtain ⟨sa', hfold, hkeeps⟩ := foldlM_addGenerated hcopies hplain
    refine ⟨sa', ?_, hkeeps⟩
    rw [Option.elim_some, emitCode, parserTree_eq_some_iff.mpr hgenerates]
    exact hfold

theorem generates_of_emit (e : Emission)
    (h : (emitText (emitCall e.arg)).elim (some sa) (emitCode parserTree sa) = some sa') :
    ∃ generated copies, e.Generates generated ∧ List.Forall₂ KeptAs generated copies := by
  cases htext : emitText (emitCall e.arg) with
  | none =>
    refine ⟨[], [], ?_, .nil⟩
    rw [Emission.Generates, htext]
  | some code =>
    rw [htext] at h
    obtain ⟨generated, hparse, hfold⟩ := Option.bind_eq_some_iff.mp h
    obtain ⟨copies, hcopies⟩ := kept_of_foldlM hfold
    refine ⟨generated, copies, ?_, hcopies⟩
    rw [Emission.Generates, htext]
    exact parserTree_eq_some_iff.mp hparse

/-- The analysis of a program that emits: the block, and the copies. -/
theorem analyze_runBlock (fuel : Nat) (e : Emission) {generated : List AstNode}
    (hgenerates : e.Generates generated) (hcopies : List.Forall₂ KeptAs generated copies) :
    (∀ sa, semanticAnalyze parserTree fuel [e.runBlock] = some sa →
        sa.program = e.runBlock :: copies) ∧
      (copies.length + 1 < fuel →
        ∃ sa, semanticAnalyze parserTree fuel [e.runBlock] = some sa) := by
  obtain ⟨sa₁, hbuiltins, hplain₁, hprogram₁⟩ := builtins_plain fuel [e.runBlock]
  have hvisit := (plainDecl_runBlock e).2
  rw [Emission.runBlock, semanticVisitNode] at hvisit
  obtain ⟨sa₂, hrun, hplain₂, hprogram₂⟩ := runActions_plain fuel hplain₁ hvisit
  obtain ⟨sa₃, hemit, hplain₃, hprogram₃⟩ := emit_returns e hplain₂ hgenerates hcopies
  have hprogram : sa₃.program = e.runBlock :: copies := by
    rw [hprogram₃, hprogram₂, hprogram₁, List.singleton_append]
  have hdecls : ∀ decl ∈ sa₃.program, PlainDecl decl := by
    rw [hprogram]
    exact List.forall_mem_cons.mpr ⟨plainDecl_runBlock e, fun decl hdecl =>
      plainDecl_copy (keptAs_copies hcopies decl hdecl)⟩
  have hpasses := visitProgram_plain fuel hplain₃ hdecls
  rw [hprogram] at hpasses
  rw [semanticAnalyze, hbuiltins, Option.bind_eq_bind, Option.bind_some, prePass_runBlock e hrun,
    hemit]
  exact hpasses

theorem generates_of_analyze (e : Emission)
    (h : semanticAnalyze parserTree fuel [e.runBlock] = some sa) :
    ∃ generated copies, e.Generates generated ∧ List.Forall₂ KeptAs generated copies := by
  obtain ⟨sa₁, hbuiltins, hplain₁, hprogram₁⟩ := builtins_plain fuel [e.runBlock]
  have hvisit := (plainDecl_runBlock e).2
  rw [Emission.runBlock, semanticVisitNode] at hvisit
  obtain ⟨sa₂, hrun, _⟩ := runActions_plain fuel hplain₁ hvisit
  rw [semanticAnalyze, hbuiltins, Option.bind_eq_bind, Option.bind_some, prePass_runBlock e hrun]
    at h
  obtain ⟨sa₃, hemit, _⟩ := Option.bind_eq_some_iff.mp h
  exact generates_of_emit e hemit

theorem prePass_copies {parse : Bytes → Option (List AstNode)} (h : ∀ decl ∈ decls, KeptAs decl decl) :
    prePass parse fuel decls sa = some sa := by
  induction decls with
  | nil => rfl
  | cons decl decls ih =>
    obtain ⟨hdecl, hdecls⟩ := List.forall_mem_cons.mp h
    have ih := ih hdecls
    cases decl with
    | runBlock stmts =>
      cases hdecl
      exact ih
    | _ => exact ih

/-- The analysis of copies changes nothing. -/
theorem analyze_copies (fuel : Nat) (h : ∀ decl ∈ decls, KeptAs decl decl) :
    (∀ sa, semanticAnalyze parserTree fuel decls = some sa → sa.program = decls) ∧
      (decls.length < fuel → ∃ sa, semanticAnalyze parserTree fuel decls = some sa) := by
  obtain ⟨sa₁, hbuiltins, hplain₁, hprogram₁⟩ := builtins_plain fuel decls
  have hdecls : ∀ decl ∈ sa₁.program, PlainDecl decl := by
    rw [hprogram₁]
    exact fun decl hdecl => plainDecl_copy (h decl hdecl)
  have hpasses := visitProgram_plain fuel hplain₁ hdecls
  rw [hprogram₁] at hpasses
  rw [semanticAnalyze, hbuiltins, Option.bind_eq_bind, Option.bind_some, prePass_copies h]
  exact hpasses

/-! ## §8 Declarations are never taken away -/

/-- What returns has only appended to the program. -/
def Appends (f : Analyzer → Option Analyzer) : Prop :=
  ∀ sa sa', f sa = some sa' → sa.program <+: sa'.program

theorem appends_bind {f g : Analyzer → Option Analyzer} (hf : Appends f) (hg : Appends g) :
    Appends fun sa => (f sa).bind g := by
  intro sa sa' h
  obtain ⟨sa₁, h₁, h₂⟩ := Option.bind_eq_some_iff.mp h
  exact (hf sa sa₁ h₁).trans (hg sa₁ sa' h₂)

theorem appends_some : Appends some := by
  intro sa sa' h
  cases h
  exact List.prefix_rfl

theorem appends_foldlM {α : Type} {f : Analyzer → α → Option Analyzer}
    (h : ∀ x, Appends fun sa => f sa x) : ∀ xs : List α, Appends fun sa => xs.foldlM f sa
  | [] => appends_some
  | x :: xs => appends_bind (h x) (appends_foldlM h xs)

theorem appends_runActions (actions : List Action) : Appends (runActions fuel actions) := by
  intro sa sa' h
  obtain ⟨monos, hmonos⟩ := program_runActions h
  exact ⟨monos, hmonos.symm⟩

theorem appends_addGenerated (decl : AstNode) : Appends fun sa => addGenerated sa decl := by
  intro sa sa' h
  obtain ⟨copies, _, h⟩ := Option.bind_eq_some_iff.mp h
  cases h
  exact ⟨copies, by rw [program_declareGenerated]⟩

theorem appends_emitCode (parse : Bytes → Option (List AstNode)) (code : Bytes) :
    Appends fun sa => emitCode parse sa code := by
  intro sa sa' h
  obtain ⟨generated, _, h⟩ := Option.bind_eq_some_iff.mp h
  exact appends_foldlM appends_addGenerated generated sa sa' h

theorem appends_prePass (parse : Bytes → Option (List AstNode)) (decls : List AstNode) :
    Appends (prePass parse fuel decls) := by
  induction decls with
  | nil => exact appends_some
  | cons decl decls ih =>
    cases decl with
    | runBlock stmts =>
      exact appends_bind (appends_bind (appends_runActions _)
        (appends_foldlM (appends_emitCode parse) _)) ih
    | _ => exact ih

theorem appends_secondPass {steps : Nat} : ∀ {i : Nat}, Appends (secondPass fuel steps i) := by
  induction steps with
  | zero => exact nofun
  | succ steps ih =>
    intro i sa sa' h
    rw [secondPass] at h
    split at h
    · cases h
      exact List.prefix_rfl
    · exact appends_bind (appends_runActions _) ih sa sa' h

theorem program_semanticAnalyze {parse : Bytes → Option (List AstNode)}
    (h : semanticAnalyze parse fuel decls = some sa) : decls <+: sa.program := by
  have hvisit : Appends (visitProgram fuel) := fun sa sa' hrun =>
    appends_bind (appends_runActions (sa.program.flatMap firstPass)) appends_secondPass sa sa' hrun
  have hpre : Appends fun sa => (prePass parse fuel decls sa).bind (visitProgram fuel) :=
    appends_bind (appends_prePass parse decls) hvisit
  obtain ⟨sa₁, hbuiltins, _, hprogram₁⟩ := builtins_plain fuel decls
  rw [semanticAnalyze, hbuiltins] at h
  exact hprogram₁ ▸ hpre sa₁ sa h

/-! ## §9 Emission equals source -/

theorem carried_of_same {e : Emission} (h : e.Same) : e.Carried := by
  obtain ⟨fuel, fuel', sa, sa', hrun, hrun', hsame⟩ := h
  obtain ⟨generated, copies, hgenerates, hcopies⟩ := generates_of_analyze e hrun
  have hprogram := (analyze_runBlock fuel e hgenerates hcopies).1 sa hrun
  rw [hsame, List.cons.injEq] at hprogram
  have hpre : e.decls <+: copies := hprogram.2 ▸ program_semanticAnalyze hrun'
  have hkept : ∀ decl ∈ e.decls, KeptAs decl decl := fun decl hdecl =>
    keptAs_copies hcopies decl (hpre.subset hdecl)
  have hdecls := (analyze_copies fuel' hkept).1 sa' hrun'
  refine ⟨generated, hgenerates, ?_⟩
  rw [← hdecls, hprogram.2]
  exact hcopies

theorem same_of_carried {e : Emission} (h : e.Carried) : e.Same := by
  obtain ⟨generated, hgenerates, hcopies⟩ := h
  have hemitted := analyze_runBlock (e.decls.length + 2) e hgenerates hcopies
  have hwritten := analyze_copies (e.decls.length + 1) (keptAs_copies hcopies)
  obtain ⟨sa, hrun⟩ := hemitted.2 (by omega)
  obtain ⟨sa', hrun'⟩ := hwritten.2 (by omega)
  refine ⟨_, _, sa, sa', hrun, hrun', ?_⟩
  rw [hemitted.1 sa hrun, hwritten.1 sa' hrun']

/-- A program that emits the text has the declarations of the text if and
only if they are carried through the copies. -/
theorem emission_iff (e : Emission) : e.Same ↔ e.Carried := ⟨carried_of_same, same_of_carried⟩

/-- The tree of `const N = 42`, and no errors. -/
def isConstTree : Option (AstNode × Parser) → Bool
  | some (.program [.constDecl name (some (.literalInt value false))], p) =>
    name == bytes "N" && value == 42 && p.errors.isEmpty
  | _ => false

theorem accepted_const : AcceptedAs (bytes "const N = 42")
    [.constDecl (bytes "N") (some (.literalInt 42 false))] := by
  have hparse : isConstTree ((parserParse (parserCreate (bytes "const N = 42"))).exec
      (run (bodies procs) 20)) = true := by decide
  unfold isConstTree at hparse
  split at hparse
  · next name value p heq =>
    simp only [Bool.and_eq_true, beq_iff_eq, List.isEmpty_iff] at hparse
    obtain ⟨⟨rfl, rfl⟩, herrors⟩ := hparse
    exact ⟨p, ⟨20, heq⟩, herrors⟩
  · cases hparse

/-- `#run { emit("const N = 42") }`. -/
def constEmission : Emission where
  text := bytes "const N = 42"
  decls := [.constDecl (bytes "N") (some (.literalInt 42 false))]
  content := bytes "const N = 42"
  arg := .literalString (quote (bytes "const N = 42"))
  accepted := accepted_const
  spells := .inl rfl
  literal := ⟨{ Token.zero with text := quote (bytes "const N = 42") }, parserCreate [],
    parserCreate [], rfl, steps_pure.mpr ⟨rfl, rfl⟩⟩

/-- A constant does not come through. -/
theorem const_not_same : ¬ ∀ e : Emission, e.Same := by
  intro h
  obtain ⟨generated, hgenerates, hcopies⟩ := carried_of_same (h constEmission)
  cases hcopies with
  | cons hcopy _ =>
    have hself := copyGenerated_iff.mpr ⟨_, rfl, keptAs_self hcopy⟩
    cases hself

end Aether.Semantic
