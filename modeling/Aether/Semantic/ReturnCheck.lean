/-
Aether.Semantic.ReturnCheck — which functions of an accepted program have
passed the check for a missing return.

The check is in the visitor's case for functions. The visitor comes to the
functions of the program and to the methods of structs and classes, and has
no case for impl blocks.
-/
import Aether.Semantic.EmitTheorems

namespace Aether.Semantic

/-! ## §1 What the analyzer has checked -/

/-- The functions that are visited with a declaration. -/
def declFuncs : AstNode → List AstNode
  | .funcDecl name typeParams params returnType pre post body info =>
    [.funcDecl name typeParams params returnType pre post body info]
  | .structDecl _ _ methods _ _ => methods
  | .classDecl _ _ methods _ _ => methods
  | _ => []

/-- The visitor has no case for `NODE_IMPL_BLOCK`. -/
def implMethods : AstNode → List AstNode
  | .implBlock _ _ methods => methods
  | _ => []

def isVoid : AstNode → Bool
  | .typePrimitive .void => true
  | _ => false

def isAsm : AstNode → Bool
  | .asmBlock .. => true
  | _ => false

def endsInAsm : Option AstNode → Bool
  | some (.block stmts) => stmts.getLast?.any isAsm
  | some body => isAsm body
  | none => false

/-- A function with a result whose body does not end in an asm block. -/
def mustReturn : AstNode → Bool
  | .funcDecl _ _ _ (some type) _ _ body _ => !isVoid type && !endsInAsm body
  | _ => false

variable {fuel : Nat} {sa sa' : Analyzer} {decls : List AstNode}
  {parse : Bytes → Option (List AstNode)}

theorem not_missingReturn_of_run {actions : List Action} (herr : sa'.errorCount = 0) :
    ∀ {sa : Analyzer}, runActions fuel actions sa = some sa' → .missingReturn ∉ actions := by
  induction actions with
  | nil => exact fun _ => List.not_mem_nil
  | cons a actions ih =>
    intro sa h hmem
    obtain ⟨sa₁, ha, h⟩ := Option.bind_eq_some_iff.mp h
    rcases List.mem_cons.mp hmem with rfl | hmem
    · cases ha
      have hle : sa.errorCount + 1 ≤ sa'.errorCount := errorCount_runActions h
      omega
    · exact ih h hmem

/-- Without an error, no visit of the second pass has missed a return. -/
theorem secondPass_visits {steps : Nat} (herr : sa'.errorCount = 0) : ∀ {i : Nat} {sa : Analyzer},
    secondPass fuel steps i sa = some sa' → ∀ j decl, i ≤ j → sa'.program[j]? = some decl →
      .missingReturn ∉ semanticVisitNode decl := by
  induction steps with
  | zero => exact nofun
  | succ steps ih =>
    intro i sa h j decl hij hdecl
    rw [secondPass] at h
    split at h
    · next hnone =>
      cases h
      have hlen := List.getElem?_eq_none_iff.mp hnone
      have hj := (List.getElem?_eq_some_iff.mp hdecl).1
      omega
    · next first hfirst =>
      obtain ⟨sa₁, hrun, h⟩ := Option.bind_eq_some_iff.mp h
      rcases Nat.eq_or_lt_of_le hij with rfl | hlt
      · have hprefix : sa.program <+: sa'.program :=
          (appends_runActions _ sa sa₁ hrun).trans (appends_secondPass sa₁ sa' h)
        obtain ⟨added, hadded⟩ := hprefix
        have hsame : sa'.program[i]? = some first := by
          rw [← hadded, List.getElem?_append_left (List.getElem?_eq_some_iff.mp hfirst).1, hfirst]
        obtain rfl : first = decl := Option.some.inj (hsame.symm.trans hdecl)
        have herr₁ : sa₁.errorCount = 0 := by
          have hle := errorCount_secondPass h
          omega
        exact not_missingReturn_of_run herr₁ hrun
      · exact ih h j decl hlt hdecl

theorem missingReturn_of_mem {node : AstNode} {nodes : List AstNode} (h : node ∈ nodes)
    (hmissing : .missingReturn ∈ semanticVisitNode node) :
    .missingReturn ∈ semanticVisitNodes nodes := by
  induction nodes with
  | nil => cases h
  | cons first nodes ih =>
    rw [semanticVisitNodes, List.mem_append]
    rcases List.mem_cons.mp h with rfl | h
    · exact .inl hmissing
    · exact .inr (ih h)

/-- A visited function that must return, and does not, is an error. -/
theorem hasReturn_of_visit {name : Bytes} {typeParams params : List AstNode} {type : AstNode}
    {pre post : List AstNode} {body : AstNode} {info : FuncInfo}
    (h : .missingReturn ∉
      semanticVisitNode (.funcDecl name typeParams params (some type) pre post (some body) info))
    (hvoid : isVoid type = false) : hasReturn body = true := by
  by_contra hreturn
  have hcheck : checkReturn (some type) (some body) = [.missingReturn] := by
    unfold checkReturn
    split
    · next htype =>
      cases htype
      cases hvoid
    · next htype hbody =>
      cases htype
      cases hbody
      rw [if_neg hreturn]
    · next hnone => exact absurd rfl (hnone _ _ rfl)
  refine h ?_
  rw [semanticVisitNode, hcheck]
  simp

theorem visited_of_mem {decl node : AstNode} (h : node ∈ declFuncs decl)
    (hdecl : .missingReturn ∉ semanticVisitNode decl) : .missingReturn ∉ semanticVisitNode node := by
  cases decl with
  | funcDecl name typeParams params returnType pre post body info =>
    obtain rfl := List.mem_singleton.mp h
    exact hdecl
  | structDecl name fields methods contracts isPub =>
    intro hmissing
    refine hdecl ?_
    rw [semanticVisitNode]
    exact List.mem_cons_of_mem _ (missingReturn_of_mem h hmissing)
  | classDecl name fields methods contracts isPub =>
    intro hmissing
    refine hdecl ?_
    rw [semanticVisitNode]
    exact List.mem_cons_of_mem _ (missingReturn_of_mem h hmissing)
  | _ => cases h

/-- In an accepted program no visited function has missed a return. -/
theorem accepted_visits (h : semanticAnalyze parse fuel decls = some sa) (herr : sa.errorCount = 0) :
    ∀ decl ∈ sa.program, ∀ node ∈ declFuncs decl, .missingReturn ∉ semanticVisitNode node := by
  intro decl hdecl node hnode
  have h : (runActions fuel declareBuiltins { semanticCreate with program := decls }).bind
      (fun sa => (prePass parse fuel decls sa).bind (visitProgram fuel)) = some sa := h
  obtain ⟨sa₁, _, h⟩ := Option.bind_eq_some_iff.mp h
  obtain ⟨sa₂, _, h⟩ := Option.bind_eq_some_iff.mp h
  obtain ⟨sa₃, _, hsecond⟩ := Option.bind_eq_some_iff.mp h
  obtain ⟨j, hj⟩ := List.mem_iff_getElem?.mp hdecl
  exact visited_of_mem hnode (secondPass_visits herr hsecond j decl (Nat.zero_le j) hj)

/-! ## §2 The impl blocks stay -/

/-- The impl blocks are those of the program. -/
def ImplsOf (decls : List AstNode) (sa : Analyzer) : Prop :=
  sa.program.flatMap implMethods = decls.flatMap implMethods

theorem impls_run {a : Action} (h : a.run fuel sa = some sa') (himpls : ImplsOf decls sa) :
    ImplsOf decls sa' := by
  cases a with
  | scopeEnter =>
    cases h
    exact himpls
  | scopeExit =>
    cases h
    unfold Analyzer.scopeExit
    split <;> exact himpls
  | scopeDeclare name decl =>
    cases h
    rwa [ImplsOf, program_scopeDeclare]
  | resolve name =>
    rw [Action.run] at h
    split at h <;> cases h <;> exact himpls
  | checkGeneric callee args =>
    rw [Action.run, instantiate] at h
    split at h
    · next name tp typeParams params returnType pre post body info _ =>
      obtain ⟨mono, hmono, h⟩ := Option.bind_eq_some_iff.mp h
      cases h
      have hnone : implMethods mono = [] := by
        obtain ⟨_, _, hmono⟩ := Option.bind_eq_some_iff.mp hmono
        obtain ⟨_, _, hmono⟩ := Option.bind_eq_some_iff.mp hmono
        obtain ⟨_, _, hmono⟩ := Option.bind_eq_some_iff.mp hmono
        cases hmono
        rfl
      rw [ImplsOf, List.flatMap_append, himpls]
      simp [hnone]
    · cases h
      exact himpls
  | constDecl name value =>
    obtain ⟨val, _, h⟩ := Option.bind_eq_some_iff.mp h
    cases h
    rwa [ImplsOf, program_scopeDeclare]
  | missingReturn =>
    cases h
    exact himpls

theorem impls_runActions (actions : List Action) :
    Keeps (ImplsOf decls) (runActions fuel actions) := by
  refine keeps_foldlM fun a _ sa sa' h => ⟨errorCount_run h, fun _ => impls_run h⟩

/-- A copied declaration has no methods. -/
theorem impls_copyGenerated {decl : AstNode} {copies : List AstNode}
    (h : copyGenerated decl = some copies) : copies.flatMap implMethods = [] := by
  unfold copyGenerated at h
  split at h
  case h_1 => cases h; rfl
  case h_9 =>
    cases h
    cases decl <;> rfl
  all_goals cases h

theorem impls_addGenerated (decl : AstNode) :
    Keeps (ImplsOf decls) fun sa => addGenerated sa decl := by
  intro sa sa' h
  obtain ⟨copies, hcopies, h⟩ := Option.bind_eq_some_iff.mp h
  cases h
  refine ⟨Nat.le_of_eq (errorCount_declareGenerated decl).symm, fun _ himpls => ?_⟩
  rw [ImplsOf] at himpls ⊢
  rw [List.flatMap_append, program_declareGenerated, himpls, impls_copyGenerated hcopies, List.append_nil]

theorem impls_prePass (nodes : List AstNode) : Keeps (ImplsOf decls) (prePass parse fuel nodes) := by
  induction nodes with
  | nil => exact keeps_some
  | cons node nodes ih =>
    cases node with
    | runBlock stmts =>
      refine keeps_bind (keeps_bind (impls_runActions _) (keeps_foldlM fun code _ => ?_)) ih
      intro sa sa' h
      obtain ⟨generated, _, h⟩ := Option.bind_eq_some_iff.mp h
      exact keeps_foldlM (fun decl _ => impls_addGenerated decl) sa sa' h
    | _ => exact ih

theorem impls_secondPass {steps : Nat} : ∀ {i : Nat},
    Keeps (ImplsOf decls) (secondPass fuel steps i) := by
  induction steps with
  | zero => exact nofun
  | succ steps ih =>
    intro i sa sa' h
    rw [secondPass] at h
    split at h
    · cases h
      exact ⟨Nat.le_refl _, fun _ himpls => himpls⟩
    · exact keeps_bind (impls_runActions _) ih sa sa' h

theorem impls_semanticAnalyze (h : semanticAnalyze parse fuel decls = some sa)
    (herr : sa.errorCount = 0) : ImplsOf decls sa := by
  have hvisit : Keeps (ImplsOf decls) (visitProgram fuel) := fun sa sa' hrun =>
    keeps_bind (impls_runActions (sa.program.flatMap firstPass)) impls_secondPass sa sa' hrun
  have hall : Keeps (ImplsOf decls) fun sa => (runActions fuel declareBuiltins sa).bind
      fun sa => (prePass parse fuel decls sa).bind (visitProgram fuel) :=
    keeps_bind (impls_runActions _) (keeps_bind (impls_prePass decls) hvisit)
  exact (hall _ sa h).2 herr rfl

end Aether.Semantic
