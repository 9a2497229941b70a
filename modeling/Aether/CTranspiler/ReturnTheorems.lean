/-
Aether.CTranspiler.ReturnTheorems — no function of an accepted program comes
to the closing brace of its C body, but for the methods of impl blocks.
-/
import Aether.CTranspiler.Paths
import Aether.Semantic.ReturnCheck

namespace Aether.CTranspiler

open Aether.Lib
open Aether.Semantic (declFuncs implMethods mustReturn hasReturn endsInAsm isAsm isVoid)

section

variable (known : AstNode → Option Bool)

/-! ## §1 Functions -/

/-- `c_emit_stmt` writes the methods of an impl block before all functions, so
none of them throws. A missing body is an empty one. -/
def cEmitImplMethod (classes : List Bytes) (labels : AstNode → Nat) :
    AstNode → Emit (Option CFunction)
  | .funcDecl _ _ params _ _ _ body _ => do
    let body ← match body with
      | none => pure []
      | some body => cEmitFuncBody ⟨classes, false, labels⟩ body
    return some ⟨(params.flatMap Semantic.paramName).map (⟨·, false⟩), body⟩
  | _ => return none

/-- Where the body of a method comes out. -/
def methodExits : AstNode → Exits
  | .funcDecl _ _ _ _ _ _ (some body) _ => bodyExits known body
  | _ => .skip

/-- The functions whose C bodies are written, and the methods of impl blocks,
never come to their closing brace if they must return. -/
structure NeverFallsOff (classes : List Bytes) (labels : AstNode → Nat) (program : List AstNode) :
    Prop where
  functions : ∀ decl ∈ program, ∀ node ∈ declFuncs decl, mustReturn node = true → ∀ label f,
    (cEmitFuncDecl classes labels node label).1 = some f → ¬ f.FallsOff known
  methods : ∀ decl ∈ program, ∀ node ∈ implMethods decl, mustReturn node = true → ∀ label f,
    (cEmitImplMethod classes labels node label).1 = some f → ¬ f.FallsOff known

theorem exits_funcBody (cg : EmitContext) (body : AstNode) (n : Nat) :
    exitsList known (cEmitFuncBody cg body n).1 = bodyExits known body := by
  cases body with
  | block stmts => exact exits_blockNode known cg [] (.block stmts) n
  | _ => rfl

theorem stmtsExits_append (stmts stmts' : List AstNode) :
    stmtsExits known (stmts ++ stmts') = (stmtsExits known stmts).seq (stmtsExits known stmts') := by
  induction stmts with
  | nil => simp [stmtsExits]
  | cons stmt stmts ih => simp [stmtsExits, ih, Exits.seq_assoc]

/-- The check looks at the last statement, and a return there is enough. -/
theorem bodyExits_of_hasReturn {body : AstNode} (h : hasReturn body = true)
    (hasm : endsInAsm (some body) = false) : (bodyExits known body).falls = false := by
  cases body with
  | block stmts =>
    cases hlast : stmts.getLast? with
    | none => simp [hasReturn, hlast] at h
    | some last =>
      simp only [hasReturn, endsInAsm, hlast, Option.any_some] at h hasm
      obtain ⟨before, rfl⟩ := List.getLast?_eq_some_iff.mp hlast
      cases last with
      | returnNode value => simp [bodyExits, stmtsExits_append, stmtsExits, stmtExits]
      | asmBlock => cases hasm
      | _ => cases h
  | _ => rfl

/-- The body of a function stands behind the parameters of `main`. -/
theorem cEmitFuncDecl_body {classes : List Bytes} {labels : AstNode → Nat} {name : Bytes}
    {typeParams params pre post : List AstNode} {returnType : Option AstNode} {body : AstNode}
    {info : FuncInfo} {label : Nat} {f : CFunction}
    (hf : (cEmitFuncDecl classes labels
      (.funcDecl name typeParams params returnType pre post (some body) info) label).1 = some f) :
    ∃ before, f.body = before ++ (cEmitFuncBody ⟨classes, info.isThrows, labels⟩ body label).1 := by
  by_cases hmain : name = bytes "main"
  · obtain rfl := Option.some.inj ((cEmitFuncDecl_main hmain label).symm.trans hf)
    exact ⟨cMainParams params, rfl⟩
  · obtain rfl := Option.some.inj ((cEmitFuncDecl_other hmain label).symm.trans hf)
    exact ⟨[], rfl⟩

theorem functions_never {classes : List Bytes} {labels : AstNode → Nat} {node : AstNode}
    (hmust : mustReturn node = true) (hvisit : .missingReturn ∉ Semantic.semanticVisitNode node)
    {label : Nat} {f : CFunction} (hf : (cEmitFuncDecl classes labels node label).1 = some f) :
    ¬ f.FallsOff known := by
  cases node with
  | funcDecl name typeParams params returnType pre post body info =>
    cases returnType with
    | none => cases hmust
    | some type =>
      cases body with
      | none => cases hf
      | some body =>
        obtain ⟨hvoid, hasm⟩ : isVoid type = false ∧ endsInAsm (some body) = false := by
          simpa [mustReturn] using hmust
        have hfalls := bodyExits_of_hasReturn known (Semantic.hasReturn_of_visit hvisit hvoid) hasm
        obtain ⟨before, hbody⟩ := cEmitFuncDecl_body hf
        rw [CFunction.FallsOff, hbody, exitsList_append, Exits.falls_seq, exits_funcBody, hfalls]
        simp
  | _ => cases hmust

/-- A method of an impl block comes to its closing brace as its body does. -/
theorem implMethod_falls (classes : List Bytes) (labels : AstNode → Nat) {node : AstNode}
    (hmust : mustReturn node = true) (label : Nat) : ∃ f,
    (cEmitImplMethod classes labels node label).1 = some f ∧
      (f.FallsOff known ↔ (methodExits known node).falls = true) := by
  cases node with
  | funcDecl name typeParams params returnType pre post body info =>
    cases body with
    | none => exact ⟨_, rfl, Iff.rfl⟩
    | some body =>
      refine ⟨_, rfl, ?_⟩
      have hexits := exits_funcBody known ⟨classes, false, labels⟩ body label
      exact iff_of_eq (congrArg (Exits.falls · = true) hexits)
  | _ => cases hmust

end

/-! ## §2 Accepted programs -/

section

variable {parse : Bytes → Option (List AstNode)} {fuel : Nat} {decls : List AstNode}
  {sa : Semantic.Analyzer}

/-- In an accepted program no function falls off its end exactly if no method
of an impl block does: these are not visited. -/
theorem never_falls_off_iff (known : AstNode → Option Bool) (classes : List Bytes)
    (labels : AstNode → Nat) (h : Semantic.semanticAnalyze parse fuel decls = some sa)
    (herr : sa.errorCount = 0) :
    NeverFallsOff known classes labels sa.program ↔
      ∀ decl ∈ decls, ∀ node ∈ implMethods decl, mustReturn node = true →
        (methodExits known node).falls = false := by
  have himpls : sa.program.flatMap implMethods = decls.flatMap implMethods :=
    Semantic.impls_semanticAnalyze h herr
  constructor
  · intro hnever decl hdecl node hnode hmust
    obtain ⟨f, hf, hfalls⟩ := implMethod_falls known classes labels hmust 0
    have hmem : node ∈ sa.program.flatMap implMethods := by
      rw [himpls]
      exact List.mem_flatMap.mpr ⟨decl, hdecl, hnode⟩
    obtain ⟨decl', hdecl', hnode'⟩ := List.mem_flatMap.mp hmem
    have hoff := hnever.methods decl' hdecl' node hnode' hmust 0 f hf
    rw [hfalls] at hoff
    simpa using hoff
  · intro hmethods
    refine ⟨fun decl hdecl node hnode hmust label f hf => ?_,
      fun decl hdecl node hnode hmust label f hf => ?_⟩
    · exact functions_never known hmust (Semantic.accepted_visits h herr decl hdecl node hnode) hf
    · obtain ⟨f', hf', hfalls⟩ := implMethod_falls known classes labels hmust label
      obtain rfl : f' = f := Option.some.inj (hf'.symm.trans hf)
      have hmem : node ∈ decls.flatMap implMethods := by
        rw [← himpls]
        exact List.mem_flatMap.mpr ⟨decl, hdecl, hnode⟩
      obtain ⟨decl', hdecl', hnode'⟩ := List.mem_flatMap.mp hmem
      rw [hfalls, hmethods decl' hdecl' node hnode' hmust]
      simp

end

/-- The literals are known. -/
def knownLiteral : AstNode → Option Bool
  | .literalBool value => some value
  | .literalInt value _ => some (value != 0)
  | _ => none

/-- `impl Shape for Square { func area(): i64 { … } }`, a method with this body. -/
def shapeOfSquare (body : List AstNode) : AstNode :=
  .implBlock (bytes "Shape") (bytes "Square") [.funcDecl (bytes "area") [] []
    (some (.typePrimitive .i64)) [] [] (some (.block body)) {}]

theorem shapeOfSquare_accepted (body : List AstNode) : ∃ sa,
    Semantic.semanticAnalyze (fun _ => none) 3 [shapeOfSquare body] = some sa ∧ sa.errorCount = 0 :=
  ⟨_, rfl, rfl⟩

/-- A method that loops for ever is accepted rightly. -/
theorem never_falls_off_iff_endless : ∃ sa,
    Semantic.semanticAnalyze (fun _ => none) 3
      [shapeOfSquare [.whileNode (some (.literalBool true)) (some (.block []))]] = some sa ∧
    sa.errorCount = 0 ∧ NeverFallsOff knownLiteral [] (fun _ => 0) sa.program := by
  obtain ⟨sa, h, herr⟩ :=
    shapeOfSquare_accepted [.whileNode (some (.literalBool true)) (some (.block []))]
  refine ⟨sa, h, herr, (never_falls_off_iff knownLiteral [] (fun _ => 0) h herr).mpr ?_⟩
  intro decl hdecl node hnode _
  obtain rfl := List.mem_singleton.mp hdecl
  obtain rfl := List.mem_singleton.mp hnode
  rfl

/-- `let x = 1` is accepted as the body of a method with a result. -/
theorem impl_method_falls_off : ∃ sa,
    Semantic.semanticAnalyze (fun _ => none) 3
      [shapeOfSquare [.letNode (bytes "x") none (some (.literalInt 1 false)) false false]] = some sa ∧
    sa.errorCount = 0 ∧ ¬ NeverFallsOff knownLiteral [] (fun _ => 0) sa.program := by
  obtain ⟨sa, h, herr⟩ :=
    shapeOfSquare_accepted [.letNode (bytes "x") none (some (.literalInt 1 false)) false false]
  refine ⟨sa, h, herr, fun hnever => ?_⟩
  have hmem := (Semantic.program_semanticAnalyze h).subset (List.mem_singleton_self _)
  exact hnever.methods _ hmem _ (List.mem_singleton_self _) rfl 0 _ rfl rfl

end Aether.CTranspiler
