/-
Aether.Semantic.ResolutionTheorems — which identifiers are declared in a
program without errors.

`Follows` compares what the visitor does with the occurrences of the same
node: without an error, every name it looked up is declared around the
occurrence, or outlives its scope. `resolution_complete_iff`: in a program
for which `semantic_analyze` reports no error, every identifier is declared
if and only if those are that the visitor does not come to, and those with
the name of one that outlives its scope.
-/
import Aether.Semantic.Scoping

namespace Aether.Semantic

/-! ## §1 Errors and names -/

variable {fuel : Nat} {sa sa' : Analyzer} {F env env' : List Bytes}

@[simp] theorem runActions_nil : runActions fuel [] sa = some sa := rfl

theorem runActions_cons {a : Action} {actions : List Action} :
    runActions fuel (a :: actions) sa = (a.run fuel sa).bind (runActions fuel actions) := rfl

theorem runActions_append {xs ys : List Action} :
    runActions fuel (xs ++ ys) sa = (runActions fuel xs sa).bind (runActions fuel ys) := by
  simp [runActions, List.foldlM_append]
  rfl

theorem errorCount_scopeDeclare (name : Bytes) (decl : AstNode) :
    (sa.scopeDeclare name decl).errorCount = sa.errorCount := by
  unfold Analyzer.scopeDeclare
  split <;> rfl

theorem errorCount_scopeExit : sa.scopeExit.errorCount = sa.errorCount := by
  unfold Analyzer.scopeExit
  split <;> rfl

theorem errorCount_run {a : Action} (h : a.run fuel sa = some sa') :
    sa.errorCount ≤ sa'.errorCount := by
  cases a with
  | scopeEnter =>
    cases h
    exact Nat.le_refl _
  | scopeExit =>
    cases h
    exact Nat.le_of_eq errorCount_scopeExit.symm
  | scopeDeclare name decl =>
    cases h
    exact Nat.le_of_eq (errorCount_scopeDeclare ..).symm
  | resolve name =>
    rw [Action.run] at h
    split at h
    · cases h
      exact Nat.le_refl _
    · cases h
      exact Nat.le_succ _
  | checkGeneric callee args =>
    rw [Action.run, instantiate] at h
    split at h
    · obtain ⟨mono, _, h⟩ := Option.bind_eq_some_iff.mp h
      cases h
      exact Nat.le_refl _
    · cases h
      exact Nat.le_refl _
  | constDecl name value =>
    obtain ⟨val, _, h⟩ := Option.bind_eq_some_iff.mp h
    cases h
    exact Nat.le_of_eq (errorCount_scopeDeclare ..).symm
  | missingReturn =>
    cases h
    exact Nat.le_succ _

theorem errorCount_runActions {actions : List Action} :
    ∀ {sa : Analyzer}, runActions fuel actions sa = some sa' → sa.errorCount ≤ sa'.errorCount := by
  induction actions with
  | nil =>
    intro sa h
    cases h
    exact Nat.le_refl _
  | cons a actions ih =>
    intro sa h
    obtain ⟨sa₁, ha, h⟩ := Option.bind_eq_some_iff.mp h
    exact Nat.le_trans (errorCount_run ha) (ih h)

/-- Every name that the analyzer finds is in `env` or in `F`. -/
structure Within (F env : List Bytes) (sa : Analyzer) : Prop where
  names : ∀ scope ∈ sa.scopes, ∀ symbol ∈ scope, symbol.name ∈ env ∨ symbol.name ∈ F
  nonempty : sa.scopes ≠ []

theorem Within.mono (h : Within F env sa) (hsub : ∀ x ∈ env, x ∈ env' ∨ x ∈ F) :
    Within F env' sa where
  names := by
    intro scope hscope symbol hsymbol
    rcases h.names scope hscope symbol hsymbol with hmem | hmem
    · exact hsub _ hmem
    · exact .inr hmem
  nonempty := h.nonempty

theorem Within.lookup (h : Within F env sa) {name : Bytes}
    (hfound : (sa.scopeLookup name).isSome = true) : name ∈ env ∨ name ∈ F := by
  unfold Analyzer.scopeLookup at hfound
  rw [Option.isSome_map, List.find?_isSome] at hfound
  obtain ⟨symbol, hsymbol, hname⟩ := hfound
  obtain ⟨scope, hscope, hsymbol⟩ := List.mem_flatten.mp hsymbol
  obtain rfl : symbol.name = name := by simpa using hname
  exact h.names scope hscope symbol hsymbol

/-! ## §2 The visitor and the occurrences -/

/-- Without an error, the visitor leaves the scopes around as they are, adds
names of `env'` or `F` to the innermost one, and has found the names of the
visited occurrences in scopes of their names or in `F`. -/
def Follows (F : List Bytes) (actions : List Action) (occs : List Occurrence)
    (env env' : List Bytes) : Prop :=
  ∀ fuel sa sa', runActions fuel actions sa = some sa' → sa'.errorCount = 0 → Within F env sa →
    (∀ o ∈ occs, o.visited = true → o.Declared ∨ o.name ∈ F) ∧ Within F env' sa' ∧
      sa'.scopes.tail = sa.scopes.tail

variable {actions actions' : List Action} {occs occs' : List Occurrence} {env'' : List Bytes}

theorem Follows.append (h : Follows F actions occs env env')
    (h' : Follows F actions' occs' env' env'') :
    Follows F (actions ++ actions') (occs ++ occs') env env'' := by
  intro fuel sa sa' hrun herr hwithin
  rw [runActions_append] at hrun
  obtain ⟨sa₁, hrun₁, hrun₂⟩ := Option.bind_eq_some_iff.mp hrun
  have herr₁ : sa₁.errorCount = 0 := by
    have hle := errorCount_runActions hrun₂
    omega
  obtain ⟨hoccs₁, hwithin₁, htail₁⟩ := h fuel sa sa₁ hrun₁ herr₁ hwithin
  obtain ⟨hoccs₂, hwithin₂, htail₂⟩ := h' fuel sa₁ sa' hrun₂ herr hwithin₁
  refine ⟨fun o ho => ?_, hwithin₂, htail₂.trans htail₁⟩
  rcases List.mem_append.mp ho with ho | ho
  · exact hoccs₁ o ho
  · exact hoccs₂ o ho

/-- Other names before and after, other occurrences that are not visited. -/
theorem Follows.change (h : Follows F actions occs env env') {env₀ env₁ : List Bytes}
    (hin : ∀ x ∈ env₀, x ∈ env ∨ x ∈ F) (hout : ∀ x ∈ env', x ∈ env₁ ∨ x ∈ F)
    (hoccs : ∀ o ∈ occs', o.visited = true → o ∈ occs) : Follows F actions occs' env₀ env₁ := by
  intro fuel sa sa' hrun herr hwithin
  obtain ⟨hdecl, hwithin', htail⟩ := h fuel sa sa' hrun herr (hwithin.mono hin)
  exact ⟨fun o ho hvisited => hdecl o (hoccs o ho hvisited) hvisited, hwithin'.mono hout, htail⟩

/-- Occurrences that the visitor does not come to. -/
def Unvisited (occs : List Occurrence) : Prop := ∀ o ∈ occs, o.visited = false

@[simp] theorem unvisited_nil : Unvisited [] := nofun

@[simp] theorem unvisited_append : Unvisited (occs ++ occs') ↔ Unvisited occs ∧ Unvisited occs' :=
  List.forall_mem_append

theorem Follows.unvisited (h : Follows F actions occs env env') (hocc : Unvisited occs') :
    Follows F actions (occs' ++ occs) env env' := by
  refine h.change (fun x hx => .inl hx) (fun x hx => .inl hx) fun o ho hvisited => ?_
  rcases List.mem_append.mp ho with ho | ho
  · rw [hocc o ho] at hvisited
    cases hvisited
  · exact ho

theorem follows_nil : Follows F [] [] env env := by
  intro fuel sa sa' hrun _ hwithin
  cases hrun
  exact ⟨nofun, hwithin, rfl⟩

theorem follows_unvisited (hocc : Unvisited occs) : Follows F [] occs env env := by
  have h : Follows F [] (occs ++ []) env env := follows_nil.unvisited hocc
  rwa [List.append_nil] at h

theorem follows_resolve (name : Bytes) : Follows F [.resolve name] [⟨name, env, true⟩] env env := by
  intro fuel sa sa' hrun herr hwithin
  rw [runActions_cons] at hrun
  obtain ⟨sa₁, hrun, hnil⟩ := Option.bind_eq_some_iff.mp hrun
  cases hnil
  rw [Action.run] at hrun
  split at hrun
  · next hfound =>
    cases hrun
    refine ⟨fun o ho _ => ?_, hwithin, rfl⟩
    obtain rfl := List.mem_singleton.mp ho
    exact hwithin.lookup hfound
  · cases hrun
    simp [Analyzer.error] at herr

theorem within_declare (h : Within F env sa) (name : Bytes) (decl : AstNode) :
    Within F (name :: env) (sa.scopeDeclare name decl) ∧
      (sa.scopeDeclare name decl).scopes.tail = sa.scopes.tail := by
  cases hscopes : sa.scopes with
  | nil => exact absurd hscopes h.nonempty
  | cons scope scopes =>
    simp only [Analyzer.scopeDeclare, hscopes, List.tail_cons, and_true]
    refine ⟨fun scope' hscope' symbol hsymbol => ?_, by simp⟩
    have hnames := h.names
    rw [hscopes] at hnames
    rcases List.mem_cons.mp hscope' with rfl | hscope'
    · rcases List.mem_cons.mp hsymbol with rfl | hsymbol
      · simp
      · have hmem := hnames scope (List.mem_cons_self ..) symbol hsymbol
        simp only [List.mem_cons]
        tauto
    · have hmem := hnames scope' (List.mem_cons_of_mem _ hscope') symbol hsymbol
      simp only [List.mem_cons]
      tauto

theorem follows_declare (name : Bytes) (decl : AstNode) :
    Follows F [.scopeDeclare name decl] [] env (name :: env) := by
  intro fuel sa sa' hrun _ hwithin
  cases hrun
  exact ⟨nofun, within_declare hwithin name decl⟩

theorem follows_constDecl (name : Bytes) (value : Option AstNode) :
    Follows F [.constDecl name value] [] env (name :: env) := by
  intro fuel sa sa' hrun _ hwithin
  obtain ⟨sa₁, hrun, hnil⟩ := Option.bind_eq_some_iff.mp hrun
  cases hnil
  obtain ⟨val, _, hrun⟩ := Option.bind_eq_some_iff.mp hrun
  cases hrun
  exact ⟨nofun, within_declare hwithin name _⟩

theorem follows_checkCall (callee : Option AstNode) (args : List AstNode) :
    Follows F (checkCall callee args) [] env env := by
  unfold checkCall
  split
  · intro fuel sa sa' hrun _ hwithin
    rw [runActions_cons] at hrun
    obtain ⟨sa₁, hrun, hnil⟩ := Option.bind_eq_some_iff.mp hrun
    cases hnil
    rw [Action.run, instantiate] at hrun
    split at hrun
    · obtain ⟨mono, _, hrun⟩ := Option.bind_eq_some_iff.mp hrun
      cases hrun
      exact ⟨nofun, ⟨hwithin.names, hwithin.nonempty⟩, rfl⟩
    · cases hrun
      exact ⟨nofun, hwithin, rfl⟩
  · exact follows_nil

theorem follows_checkReturn (returnType body : Option AstNode) :
    Follows F (checkReturn returnType body) [] env env := by
  have hmissing : Follows F [.missingReturn] [] env env := by
    intro fuel sa sa' hrun herr _
    cases hrun
    simp [Analyzer.error] at herr
  unfold checkReturn
  split
  · exact follows_nil
  · split
    · exact follows_nil
    · exact hmissing
  · exact follows_nil

/-- A scope of its own. -/
theorem Follows.scope (h : Follows F actions occs env env') :
    Follows F (.scopeEnter :: actions ++ [.scopeExit]) occs env env := by
  intro fuel sa sa' hrun herr hwithin
  rw [List.cons_append, runActions_cons, Action.run, Option.bind_some, runActions_append] at hrun
  obtain ⟨sa₁, hinner, hexit⟩ := Option.bind_eq_some_iff.mp hrun
  cases hexit
  rw [errorCount_scopeExit] at herr
  have henter : Within F env sa.scopeEnter := by
    refine ⟨fun scope hscope symbol hsymbol => ?_, by simp [Analyzer.scopeEnter]⟩
    rcases List.mem_cons.mp hscope with rfl | hscope
    · cases hsymbol
    · exact hwithin.names scope hscope symbol hsymbol
  obtain ⟨hoccs, hwithin₁, htail⟩ := h fuel sa.scopeEnter sa₁ hinner herr henter
  have hscopes : sa₁.scopeExit.scopes = sa.scopes := by
    cases hsa : sa.scopes with
    | nil => exact absurd hsa hwithin.nonempty
    | cons parent scopes =>
      have htail : sa₁.scopes.tail = parent :: scopes := by
        rw [htail, ← hsa]
        rfl
      cases hsa₁ : sa₁.scopes with
      | nil => exact absurd hsa₁ hwithin₁.nonempty
      | cons scope rest =>
        rw [hsa₁] at htail
        obtain rfl : rest = parent :: scopes := htail
        simp [Analyzer.scopeExit, hsa₁]
  refine ⟨hoccs, ⟨?_, ?_⟩, ?_⟩
  · rw [hscopes]
    exact hwithin.names
  · rw [hscopes]
    exact hwithin.nonempty
  · rw [hscopes]

theorem follows_declareIdent (name : Option Bytes) :
    Follows F (declareIdent name) [] env (name.toList ++ env) := by
  cases name with
  | none => exact follows_nil
  | some name => exact follows_declare name _

theorem follows_declarePattern (pattern : Option AstNode) :
    Follows F (declarePattern pattern) [] env (patternNames pattern ++ env) := by
  unfold declarePattern
  split
  · exact follows_declare _ _
  · next hne =>
    have hnames : patternNames pattern = [] := by
      unfold patternNames
      split
      · next name => exact absurd rfl (hne name)
      · rfl
    rw [hnames]
    exact follows_nil

theorem follows_params (params : List AstNode) :
    Follows F (params.flatMap declareParam) [] env (params.flatMap paramName ++ env) := by
  induction params generalizing env with
  | nil => exact follows_nil
  | cons param params ih =>
    have hparam : Follows F (declareParam param) [] env (paramName param ++ env) := by
      unfold declareParam
      split
      · exact follows_declare _ _
      · next hne =>
        have hnames : paramName param = [] := by
          unfold paramName
          split
          · exact absurd rfl (hne _ _ _ _ _)
          · rfl
        rw [hnames]
        exact follows_nil
    refine (hparam.append ih).change (fun x hx => .inl hx) (fun x hx => .inl ?_)
      fun o ho => absurd ho List.not_mem_nil
    simp only [List.mem_append, List.flatMap_cons] at hx ⊢
    tauto

theorem follows_typeParams (typeParams : List AstNode) :
    ∃ names, Follows F (typeParams.flatMap declareTypeParam) [] env (names ++ env) := by
  induction typeParams generalizing env with
  | nil => exact ⟨[], follows_nil⟩
  | cons tp typeParams ih =>
    have htp : ∃ names, Follows F (declareTypeParam tp) [] env (names ++ env) := by
      unfold declareTypeParam
      split
      · exact ⟨[_], follows_declare _ _⟩
      · exact ⟨[], follows_nil⟩
    obtain ⟨names, htp⟩ := htp
    have ih' : ∃ names', Follows F (typeParams.flatMap declareTypeParam) [] (names ++ env)
        (names' ++ (names ++ env)) := ih
    obtain ⟨names', ih'⟩ := ih'
    refine ⟨names' ++ names, ?_⟩
    rw [List.append_assoc]
    exact htp.append ih'

/-! ## §3 Occurrences that are not visited -/

mutual

theorem unvisited_occurrences (env : List Bytes) : ∀ n, Unvisited (occurrences .none env n)
  | .ident name => by simp [occurrences, Unvisited]
  | .binaryOp _ left right _ => by
    simp [occurrences, Visitor.child, unvisited_opt env left, unvisited_opt env right]
  | .unaryOp _ operand => by simp [occurrences, Visitor.child, unvisited_opt env operand]
  | .call callee args => by
    have hcallee := unvisited_opt env callee
    have hargs := unvisited_list env args
    have hbuiltin := unvisited_args env args
    unfold occurrences
    split_ifs <;> simp [Visitor.child, hcallee, hargs, hbuiltin]
  | .index target index => by
    simp [occurrences, Visitor.child, unvisited_opt env target, unvisited_opt env index]
  | .slice target start stop => by
    simp [occurrences, unvisited_opt env target, unvisited_opt env start, unvisited_opt env stop]
  | .fieldAccess target _ => by simp [occurrences, Visitor.child, unvisited_opt env target]
  | .cast left _ => by simp [occurrences, unvisited_opt env left]
  | .ternary items => by simp [occurrences, unvisited_list env items]
  | .lambda params body => by simp [occurrences, Visitor.child, unvisited_opt _ body]
  | .arrayLit elements => by simp [occurrences, Visitor.child, unvisited_list env elements]
  | .matchNode value arms => by
    simp [occurrences, Visitor.child, unvisited_opt env value, unvisited_list env arms]
  | .matchArm _ _ body => by simp [occurrences, unvisited_opt _ body]
  | .block stmts => by simp [occurrences, Visitor.child, unvisited_seq env stmts]
  | .letNode _ _ value _ _ => by simp [occurrences, Visitor.child, unvisited_opt env value]
  | .constDecl _ value => by simp [occurrences, unvisited_opt env value]
  | .exprStmt expr => by simp [occurrences, Visitor.child, unvisited_opt env expr]
  | .returnNode value => by simp [occurrences, Visitor.child, unvisited_opt env value]
  | .throwNode value => by simp [occurrences, Visitor.child, unvisited_opt env value]
  | .ifNode condition thenBlock elifChain elseBlock => by
    simp [occurrences, Visitor.child, unvisited_opt env condition, unvisited_opt env thenBlock,
      unvisited_opt env elifChain, unvisited_opt env elseBlock]
  | .ifLet _ condition thenBlock => by
    simp [occurrences, Visitor.child, unvisited_opt env condition, unvisited_opt _ thenBlock]
  | .whileNode condition body => by
    simp [occurrences, Visitor.child, unvisited_opt env condition, unvisited_opt env body]
  | .forNode _ _ iterable body => by
    simp [occurrences, Visitor.child, unvisited_opt env iterable, unvisited_opt _ body]
  | .tryNode body catchArms finallyBody => by
    simp [occurrences, Visitor.child, unvisited_opt env body, unvisited_arms env catchArms,
      unvisited_opt env finallyBody]
  | .deferNode body => by simp [occurrences, unvisited_opt env body]
  | .unsafeNode body => by simp [occurrences, unvisited_seq env body]
  | .region _ body => by simp [occurrences, unvisited_opt env body]
  | .spawn call => by simp [occurrences, unvisited_opt env call]
  | .runBlock body => by simp [occurrences, Visitor.child, unvisited_seq env body]
  | .funcDecl _ typeParams params _ pre post body _ => by
    have hpre := fun env => unvisited_list env pre
    have hpost := fun env => unvisited_list env post
    have hbody := fun env => unvisited_opt env body
    unfold occurrences
    split_ifs <;> simp [Visitor.child, unvisited_defaults _ params, hpre, hpost, hbody]
  | .structDecl _ _ methods _ _ => by simp [occurrences, Visitor.child, unvisited_list _ methods]
  | .classDecl _ _ methods _ _ => by simp [occurrences, Visitor.child, unvisited_list _ methods]
  | .implBlock _ _ methods => by simp [occurrences, unvisited_list _ methods]
  | .traitDecl _ methods _ => by simp [occurrences, unvisited_list _ methods]
  | .protocolDecl _ methods => by simp [occurrences, unvisited_list _ methods]
  | .program _ | .param .. | .field .. | .enumDecl .. | .enumVariant .. | .importNode _
  | .moduleDecl .. | .typeAlias .. | .poolDecl .. | .breakNode _ | .continueNode _ | .catchArm ..
  | .literalInt .. | .literalFloat _ | .literalString _ | .literalChar _ | .literalBool _
  | .literalNone | .typePrimitive _ | .typeNamed _ | .typeArray .. | .typeSlice _ | .typeTuple _
  | .typeOptional _ | .typeRef .. | .typePtr _ | .typeFn .. | .typeInfer | .asmBlock .. | .attr _
  | .typeParam .. | .yieldNode => by simp [occurrences]

theorem unvisited_opt (env : List Bytes) : ∀ n, Unvisited (occurrencesOpt .none env n)
  | none => by simp [occurrencesOpt]
  | some node => by
    rw [occurrencesOpt]
    exact unvisited_occurrences env node

theorem unvisited_list (env : List Bytes) : ∀ nodes, Unvisited (occurrencesList .none env nodes)
  | [] => by simp [occurrencesList]
  | node :: nodes => by
    simp [occurrencesList, unvisited_occurrences env node, unvisited_list env nodes]

theorem unvisited_seq (env : List Bytes) : ∀ nodes, Unvisited (occurrencesSeq .none env nodes)
  | [] => by simp [occurrencesSeq]
  | node :: nodes => by
    simp [occurrencesSeq, unvisited_occurrences env node, unvisited_seq _ nodes]

theorem unvisited_args (env : List Bytes) : ∀ nodes, Unvisited (occurrencesArgs .none env nodes)
  | [] => by simp [occurrencesArgs]
  | node :: nodes => by
    have hnode := unvisited_occurrences env node
    have hnodes := unvisited_args env nodes
    unfold occurrencesArgs
    split_ifs <;> simp [hnode, hnodes]

theorem unvisited_arms (env : List Bytes) : ∀ arms, Unvisited (occurrencesArms .none env arms)
  | [] => by simp [occurrencesArms]
  | arm :: arms => by
    have harms := unvisited_arms env arms
    cases arm with
    | catchArm type var body isCatchAll =>
      simp [occurrencesArms, unvisited_opt _ body, harms]
    | _ => simpa [occurrencesArms] using harms

theorem unvisited_defaults (env : List Bytes) :
    ∀ params, Unvisited (occurrencesDefaults env params)
  | [] => by simp [occurrencesDefaults]
  | param :: params => by
    have hparams := unvisited_defaults env params
    cases param with
    | param name type isMut isVarargs defaultValue =>
      simp [occurrencesDefaults, unvisited_opt env defaultValue, hparams]
    | _ => simpa [occurrencesDefaults] using hparams

end

/-! ## §4 Expressions -/

mutual

theorem follows_expr (F env : List Bytes) : ∀ n,
    Follows F (semanticVisitExpr n) (occurrences .expr env n) env env
  | .ident name => by
    simp only [semanticVisitExpr, occurrences]
    exact follows_resolve name
  | .binaryOp _ left right _ => by
    simp only [semanticVisitExpr, occurrences, Visitor.child, if_true]
    exact (follows_exprOpt F env left).append (follows_exprOpt F env right)
  | .unaryOp _ operand => by
    simp only [semanticVisitExpr, occurrences, Visitor.child, if_true]
    exact follows_exprOpt F env operand
  | .call callee args => by
    have hcallee := follows_exprOpt F env callee
    have hargs := follows_exprs F env args
    have hbuiltin := follows_args F env args
    simp only [semanticVisitExpr, occurrences, Visitor.child, if_true]
    split_ifs
    · exact hargs
    · exact hbuiltin
    · have hcall := (hcallee.append hargs).append (follows_checkCall callee args)
      rwa [List.append_nil] at hcall
  | .index target index => by
    simp only [semanticVisitExpr, occurrences, Visitor.child, if_true]
    exact (follows_exprOpt F env target).append (follows_exprOpt F env index)
  | .fieldAccess target _ => by
    simp only [semanticVisitExpr, occurrences, Visitor.child, if_true]
    exact follows_exprOpt F env target
  | .matchNode value arms => by
    simp only [semanticVisitExpr, occurrences, Visitor.child, if_true]
    have h := (follows_exprOpt F env value).append (follows_unvisited (unvisited_list env arms))
    rwa [List.append_nil] at h
  | .lambda params body => by
    simp only [semanticVisitExpr, occurrences, Visitor.child, if_true]
    exact ((follows_params params).append (follows_exprOpt F _ body)).scope
  | .arrayLit elements => by
    simp only [semanticVisitExpr, occurrences, Visitor.child, if_true]
    exact follows_exprs F env elements
  | .slice target start stop => by
    refine follows_unvisited ?_
    simp [occurrences, unvisited_opt]
  | .cast left _ => by
    refine follows_unvisited ?_
    simp [occurrences, unvisited_opt]
  | .ternary items => by
    refine follows_unvisited ?_
    simp [occurrences, unvisited_list]
  | .deferNode body | .region _ body | .spawn body | .constDecl _ body | .matchArm _ _ body => by
    refine follows_unvisited ?_
    simp [occurrences, unvisited_opt]
  | .unsafeNode body | .block body | .runBlock body => by
    refine follows_unvisited ?_
    simp [occurrences, Visitor.child, unvisited_seq]
  | .letNode .. | .exprStmt _ | .returnNode _ | .throwNode _ | .ifNode .. | .ifLet .. | .whileNode ..
  | .forNode .. | .tryNode .. => by
    refine follows_unvisited ?_
    simp [occurrences, Visitor.child, unvisited_opt, unvisited_arms]
  | .funcDecl .. => by
    refine follows_unvisited ?_
    unfold occurrences
    split_ifs <;> simp [Visitor.child, unvisited_opt, unvisited_list, unvisited_defaults]
  | .structDecl .. | .classDecl .. | .implBlock .. | .traitDecl .. | .protocolDecl .. => by
    refine follows_unvisited ?_
    simp [occurrences, Visitor.child, unvisited_list]
  | .program _ | .param .. | .field .. | .enumDecl .. | .enumVariant .. | .importNode _
  | .moduleDecl .. | .typeAlias .. | .poolDecl .. | .breakNode _ | .continueNode _ | .catchArm ..
  | .literalInt .. | .literalFloat _ | .literalString _ | .literalChar _ | .literalBool _
  | .literalNone | .typePrimitive _ | .typeNamed _ | .typeArray .. | .typeSlice _ | .typeTuple _
  | .typeOptional _ | .typeRef .. | .typePtr _ | .typeFn .. | .typeInfer | .asmBlock .. | .attr _
  | .typeParam .. | .yieldNode => by
    refine follows_unvisited ?_
    simp [occurrences]

theorem follows_exprOpt (F env : List Bytes) : ∀ n,
    Follows F (semanticVisitExprOpt n) (occurrencesOpt .expr env n) env env
  | none => by
    simp only [semanticVisitExprOpt, occurrencesOpt]
    exact follows_nil
  | some node => by
    simp only [semanticVisitExprOpt, occurrencesOpt]
    exact follows_expr F env node

theorem follows_exprs (F env : List Bytes) : ∀ nodes,
    Follows F (semanticVisitExprs nodes) (occurrencesList .expr env nodes) env env
  | [] => by
    simp only [semanticVisitExprs, occurrencesList]
    exact follows_nil
  | node :: nodes => by
    simp only [semanticVisitExprs, occurrencesList]
    exact (follows_expr F env node).append (follows_exprs F env nodes)

theorem follows_args (F env : List Bytes) : ∀ nodes,
    Follows F (semanticVisitArgs nodes) (occurrencesArgs .expr env nodes) env env
  | [] => by
    simp only [semanticVisitArgs, occurrencesArgs]
    exact follows_nil
  | node :: nodes => by
    have hnode := follows_expr F env node
    have hnodes := follows_args F env nodes
    simp only [semanticVisitArgs, occurrencesArgs]
    split_ifs
    · exact hnodes
    · exact hnode.append hnodes

end

/-! ## §5 Statements -/

/-- The names after a list of statements. -/
def seqNames (env : List Bytes) : List AstNode → List Bytes
  | [] => env
  | node :: nodes => seqNames (declares node ++ env) nodes

theorem mem_seqNames {x : Bytes} {nodes : List AstNode} : ∀ {env : List Bytes},
    x ∈ seqNames env nodes → x ∈ env ∨ ∃ node ∈ nodes, x ∈ declares node := by
  induction nodes with
  | nil => exact fun h => .inl h
  | cons node nodes ih =>
    intro env h
    rcases ih h with h | ⟨node', hnode', hx⟩
    · rcases List.mem_append.mp h with h | h
      · exact .inr ⟨node, List.mem_cons_self .., h⟩
      · exact .inl h
    · exact .inr ⟨node', List.mem_cons_of_mem _ hnode', hx⟩

theorem mem_list_of_declares {x : Bytes} {node : AstNode} {nodes : List AstNode}
    (hnode : node ∈ nodes) (hx : x ∈ declares node) : x ∈ outlivingNamesList nodes := by
  induction nodes with
  | nil => cases hnode
  | cons node' nodes ih =>
    simp only [outlivingNamesList, List.mem_append]
    rcases List.mem_cons.mp hnode with rfl | hnode
    · exact .inl (.inl hx)
    · exact .inr (ih hnode)

theorem mem_list_of_mem_seq {x : Bytes} {nodes : List AstNode} (hx : x ∈ outlivingNamesSeq nodes) :
    x ∈ outlivingNamesList nodes := by
  induction nodes with
  | nil => cases hx
  | cons node nodes ih =>
    simp only [outlivingNamesSeq, outlivingNamesList, List.mem_append] at hx ⊢
    rcases hx with hx | hx
    · exact .inl (.inr hx)
    · exact .inr (ih hx)

/-- The names that `env` gains are kept, or outlive their scope. -/
theorem Follows.toEnv (h : Follows F actions occs env env')
    (hout : ∀ x ∈ env', x ∈ env'' ∨ x ∈ F) : Follows F actions occs env env'' :=
  h.change (fun _ hx => .inl hx) hout fun _ ho _ => ho

theorem Follows.fromEnv (h : Follows F actions occs env env') {env₀ : List Bytes}
    (hin : ∀ x ∈ env₀, x ∈ env) : Follows F actions occs env₀ env' :=
  h.change (fun x hx => .inl (hin x hx)) (fun _ hx => .inl hx) fun _ ho _ => ho

mutual

theorem follows_node (F env : List Bytes) : ∀ n, (∀ x ∈ outlivingNames n, x ∈ F) →
    Follows F (semanticVisitNode n) (occurrences .node env n) env (declares n ++ env)
  | .funcDecl name typeParams params returnType pre post body info => by
    intro hF
    simp only [outlivingNames] at hF
    have hbody := fun env => follows_nodeOpt F env body hF
    simp only [semanticVisitNode, occurrences, Visitor.child, if_true]
    have htps : ∃ names, Follows F (typeParams.flatMap declareTypeParam) [] (name :: env)
        (names ++ name :: env) := follows_typeParams typeParams
    obtain ⟨names, htps⟩ := htps
    have hparams : ∀ env, Follows F (params.flatMap declareParam) [] env
        (params.flatMap paramName ++ env) := fun env => follows_params params
    have hname : Follows F [.scopeDeclare name
        (.funcDecl name typeParams params returnType pre post body info)] [] env (name :: env) :=
      follows_declare name _
    split_ifs with hgeneric
    · -- a generic function: its occurrences are left out
      have hscope := (((htps.append (hparams _)).append (hbody _)).append
        (follows_checkReturn returnType body)).scope
      have h := hname.append hscope
      simp only [List.nil_append, List.append_nil, List.append_assoc, List.cons_append] at h ⊢
      exact h.change (fun x hx => .inl hx) (fun x hx => .inl hx) nofun
    · obtain rfl : typeParams = [] := not_not.mp hgeneric
      have hscope := (((hparams (name :: env)).append (hbody _)).append
        (follows_checkReturn returnType body)).scope
      have hother : Unvisited (occurrencesDefaults (params.flatMap paramName ++ name :: env) params ++
          occurrencesList .none (params.flatMap paramName ++ name :: env) pre ++
          occurrencesList .none (params.flatMap paramName ++ name :: env) post) := by
        simp [unvisited_defaults, unvisited_list]
      have h := (hname.append hscope).unvisited hother
      simpa [declares] using h
  | .block stmts => by
    intro hF
    simp only [outlivingNames] at hF
    simp only [semanticVisitNode, occurrences, Visitor.child, if_true, declares, List.nil_append]
    exact (follows_nodes F env stmts hF).scope
  | .letNode name type value isMut isGlobal => by
    intro _
    simp only [semanticVisitNode, occurrences, Visitor.child, if_true, declares]
    have h := (follows_exprOpt F env value).append
      (follows_declare name (.letNode name type value isMut isGlobal))
    rwa [List.append_nil] at h
  | .constDecl name value => by
    intro _
    simp only [semanticVisitNode, occurrences, declares]
    have hconst : Follows F [.constDecl name value] [] env (name :: env) :=
      follows_constDecl name value
    have h := hconst.unvisited (unvisited_opt env value)
    rwa [List.append_nil] at h
  | .typeAlias name underlying => by
    intro _
    simp only [semanticVisitNode, occurrences, declares]
    exact follows_declare name _
  | .enumDecl name variants isPub => by
    intro _
    simp only [semanticVisitNode, occurrences, declares]
    exact follows_declare name _
  | .structDecl name fields methods contracts isPub => by
    intro hF
    simp only [outlivingNames] at hF
    simp only [semanticVisitNode, occurrences, Visitor.child, if_true, declares]
    exact (follows_declare name (.structDecl name fields methods contracts isPub)).append
      (follows_list F (name :: env) methods hF)
  | .classDecl name fields methods contracts isPub => by
    intro hF
    simp only [outlivingNames] at hF
    simp only [semanticVisitNode, occurrences, Visitor.child, if_true, declares]
    exact (follows_declare name (.classDecl name fields methods contracts isPub)).append
      (follows_list F (name :: env) methods hF)
  | .returnNode value => by
    intro _
    simp only [semanticVisitNode, occurrences, Visitor.child, if_true]
    exact follows_exprOpt F env value
  | .throwNode value => by
    intro _
    simp only [semanticVisitNode, occurrences, Visitor.child, if_true]
    exact follows_exprOpt F env value
  | .exprStmt expr => by
    intro _
    simp only [semanticVisitNode, occurrences, Visitor.child, if_true]
    exact follows_exprOpt F env expr
  | .ifLet pattern condition thenBlock => by
    intro hF
    simp only [outlivingNames, List.mem_append] at hF
    simp only [semanticVisitNode, occurrences, Visitor.child, if_true, declares, List.nil_append]
    have hthen := follows_nodeOpt F (patternNames pattern ++ env) thenBlock
      fun x hx => hF x (.inr hx)
    have h := ((follows_exprOpt F env condition).append (follows_declarePattern pattern)).append
      hthen
    rw [List.append_nil] at h
    refine h.toEnv fun x hx => ?_
    rcases List.mem_append.mp hx with hx | hx
    · exact .inr (hF x (.inl hx))
    · exact .inl hx
  | .ifNode condition thenBlock elifChain elseBlock => by
    intro hF
    simp only [outlivingNames, List.mem_append] at hF
    simp only [semanticVisitNode, occurrences, Visitor.child, if_true, declares, List.nil_append]
    have hthen := follows_nodeOpt F env thenBlock fun x hx => hF x (.inl (.inl hx))
    have helif := follows_nodeOpt F env elifChain fun x hx => hF x (.inl (.inr hx))
    have helse := follows_nodeOpt F env elseBlock fun x hx => hF x (.inr hx)
    exact (((follows_exprOpt F env condition).append hthen).append helif).append helse
  | .whileNode condition body => by
    intro hF
    simp only [outlivingNames] at hF
    simp only [semanticVisitNode, occurrences, Visitor.child, if_true, declares, List.nil_append]
    exact (follows_exprOpt F env condition).append (follows_nodeOpt F env body hF)
  | .forNode var indexVar iterable body => by
    intro hF
    simp only [outlivingNames, List.mem_append] at hF
    simp only [semanticVisitNode, occurrences, Visitor.child, if_true, declares, List.nil_append]
    have hvars : Follows F (declareIdent var ++ declareIdent indexVar) [] env
        (indexVar.toList ++ (var.toList ++ env)) :=
      (follows_declareIdent var).append (follows_declareIdent indexVar)
    have hvar : ∀ x ∈ var.toList, x ∈ F := fun x hx => hF x (.inl (.inl hx))
    have hindex : ∀ x ∈ indexVar.toList, x ∈ F := fun x hx => hF x (.inl (.inr hx))
    -- the loop variables are seen around the loop
    have hvars' : Follows F (declareIdent var ++ declareIdent indexVar) [] env env :=
      hvars.toEnv fun x hx => by
        simp only [List.mem_append] at hx
        rcases hx with hx | hx | hx
        · exact .inr (hindex x hx)
        · exact .inr (hvar x hx)
        · exact .inl hx
    have hbody := follows_nodeOpt F (var.toList ++ indexVar.toList ++ env) body
      fun x hx => hF x (.inr hx)
    have hbody' : Follows F (semanticVisitNodeOpt body)
        (occurrencesOpt .node (var.toList ++ indexVar.toList ++ env) body) env env :=
      (hbody.fromEnv fun x hx => List.mem_append_right _ hx).toEnv fun x hx => by
        simp only [List.mem_append] at hx
        rcases hx with (hx | hx) | hx
        · exact .inr (hvar x hx)
        · exact .inr (hindex x hx)
        · exact .inl hx
    exact (hvars'.append (follows_exprOpt F env iterable)).append hbody'
  | .tryNode body catchArms finallyBody => by
    intro hF
    simp only [outlivingNames, List.mem_append] at hF
    simp only [semanticVisitNode, occurrences, Visitor.child, if_true, declares, List.nil_append]
    have hbody := follows_nodeOpt F env body fun x hx => hF x (.inl (.inl hx))
    have harms := follows_arms F env catchArms fun x hx => hF x (.inl (.inr hx))
    have hfinally := follows_nodeOpt F env finallyBody fun x hx => hF x (.inr hx)
    exact (hbody.append harms).append hfinally
  | .runBlock body => by
    intro hF
    simp only [outlivingNames] at hF
    simp only [semanticVisitNode, occurrences, Visitor.child, if_true, declares, List.nil_append]
    refine (follows_nodes F env body fun x hx => hF x (mem_list_of_mem_seq hx)).toEnv fun x hx => ?_
    rcases mem_seqNames hx with hx | ⟨node, hnode, hx⟩
    · exact .inl hx
    · exact .inr (hF x (mem_list_of_declares hnode hx))
  | .binaryOp .. | .unaryOp .. | .index .. | .slice .. | .fieldAccess .. | .cast .. | .lambda ..
  | .deferNode _ | .region .. | .spawn _ | .matchArm .. => by
    intro _
    refine follows_unvisited ?_
    simp [occurrences, Visitor.child, unvisited_opt]
  | .ternary _ | .arrayLit _ | .matchNode .. | .implBlock .. | .traitDecl .. | .protocolDecl .. => by
    intro _
    refine follows_unvisited ?_
    simp [occurrences, Visitor.child, unvisited_opt, unvisited_list]
  | .unsafeNode _ => by
    intro _
    refine follows_unvisited ?_
    simp [occurrences, unvisited_seq]
  | .call callee args => by
    intro _
    refine follows_unvisited ?_
    unfold occurrences
    split_ifs <;> simp [Visitor.child, unvisited_opt, unvisited_list, unvisited_args]
  | .ident _ => by
    intro _
    refine follows_unvisited ?_
    simp [occurrences, Unvisited]
  | .program _ | .param .. | .field .. | .enumVariant .. | .importNode _ | .moduleDecl ..
  | .poolDecl .. | .breakNode _ | .continueNode _ | .catchArm .. | .literalInt .. | .literalFloat _
  | .literalString _ | .literalChar _ | .literalBool _ | .literalNone | .typePrimitive _
  | .typeNamed _ | .typeArray .. | .typeSlice _ | .typeTuple _ | .typeOptional _ | .typeRef ..
  | .typePtr _ | .typeFn .. | .typeInfer | .asmBlock .. | .attr _ | .typeParam .. | .yieldNode => by
    intro _
    refine follows_unvisited ?_
    simp [occurrences]

theorem follows_nodeOpt (F env : List Bytes) : ∀ n, (∀ x ∈ outlivingNamesOpt n, x ∈ F) →
    Follows F (semanticVisitNodeOpt n) (occurrencesOpt .node env n) env env
  | none => by
    intro _
    simp only [semanticVisitNodeOpt, occurrencesOpt]
    exact follows_nil
  | some node => by
    intro hF
    simp only [outlivingNamesOpt, List.mem_append] at hF
    simp only [semanticVisitNodeOpt, occurrencesOpt]
    refine (follows_node F env node fun x hx => hF x (.inr hx)).toEnv fun x hx => ?_
    rcases List.mem_append.mp hx with hx | hx
    · exact .inr (hF x (.inl hx))
    · exact .inl hx

theorem follows_list (F env : List Bytes) : ∀ nodes, (∀ x ∈ outlivingNamesList nodes, x ∈ F) →
    Follows F (semanticVisitNodes nodes) (occurrencesList .node env nodes) env env
  | [] => by
    intro _
    simp only [semanticVisitNodes, occurrencesList]
    exact follows_nil
  | node :: nodes => by
    intro hF
    simp only [outlivingNamesList, List.mem_append] at hF
    simp only [semanticVisitNodes, occurrencesList]
    have hnode : Follows F (semanticVisitNode node) (occurrences .node env node) env env :=
      (follows_node F env node fun x hx => hF x (.inl (.inr hx))).toEnv fun x hx => by
        rcases List.mem_append.mp hx with hx | hx
        · exact .inr (hF x (.inl (.inl hx)))
        · exact .inl hx
    exact hnode.append (follows_list F env nodes fun x hx => hF x (.inr hx))

theorem follows_nodes (F env : List Bytes) : ∀ nodes, (∀ x ∈ outlivingNamesSeq nodes, x ∈ F) →
    Follows F (semanticVisitNodes nodes) (occurrencesSeq .node env nodes) env (seqNames env nodes)
  | [] => by
    intro _
    simp only [semanticVisitNodes, occurrencesSeq]
    exact follows_nil
  | node :: nodes => by
    intro hF
    simp only [outlivingNamesSeq, List.mem_append] at hF
    simp only [semanticVisitNodes, occurrencesSeq]
    exact (follows_node F env node fun x hx => hF x (.inl hx)).append
      (follows_nodes F _ nodes fun x hx => hF x (.inr hx))

theorem follows_arms (F env : List Bytes) : ∀ arms, (∀ x ∈ outlivingNamesArms arms, x ∈ F) →
    Follows F (semanticVisitCatchArms arms) (occurrencesArms .node env arms) env env
  | [] => by
    intro _
    simp only [semanticVisitCatchArms, occurrencesArms]
    exact follows_nil
  | arm :: arms => by
    intro hF
    cases arm with
    | catchArm type var body isCatchAll =>
      simp only [outlivingNamesArms, List.mem_append] at hF
      simp only [semanticVisitCatchArms, occurrencesArms]
      have hbody := follows_nodeOpt F (var.toList ++ env) body fun x hx => hF x (.inl (.inr hx))
      have harm := (follows_declareIdent var).append hbody
      have harm' : Follows F (declareIdent var ++ semanticVisitNodeOpt body)
          ([] ++ occurrencesOpt .node (var.toList ++ env) body) env env :=
        harm.toEnv fun x hx => by
        rcases List.mem_append.mp hx with hx | hx
        · exact .inr (hF x (.inl (.inl hx)))
        · exact .inl hx
      exact harm'.append (follows_arms F env arms fun x hx => hF x (.inr hx))
    | _ =>
      simp only [outlivingNamesArms] at hF
      simp only [semanticVisitCatchArms, occurrencesArms]
      exact follows_arms F env arms hF

end

/-! ## §6 Before the second pass -/

/-- Without an error, `f` keeps the invariant. -/
def Keeps (I : Analyzer → Prop) (f : Analyzer → Option Analyzer) : Prop :=
  ∀ sa sa', f sa = some sa' →
    sa.errorCount ≤ sa'.errorCount ∧ (sa'.errorCount = 0 → I sa → I sa')

variable {I : Analyzer → Prop}

theorem keeps_bind {f g : Analyzer → Option Analyzer} (hf : Keeps I f) (hg : Keeps I g) :
    Keeps I fun sa => (f sa).bind g := by
  intro sa sa' h
  obtain ⟨sa₁, h₁, h₂⟩ := Option.bind_eq_some_iff.mp h
  obtain ⟨hle₁, hkeep₁⟩ := hf sa sa₁ h₁
  obtain ⟨hle₂, hkeep₂⟩ := hg sa₁ sa' h₂
  refine ⟨Nat.le_trans hle₁ hle₂, fun herr hI => hkeep₂ herr (hkeep₁ ?_ hI)⟩
  omega

theorem keeps_some : Keeps I some := by
  intro sa sa' h
  cases h
  exact ⟨Nat.le_refl _, fun _ hI => hI⟩

theorem keeps_foldlM {α : Type} {f : Analyzer → α → Option Analyzer} {xs : List α}
    (h : ∀ x ∈ xs, Keeps I fun sa => f sa x) : Keeps I fun sa => xs.foldlM f sa := by
  induction xs with
  | nil => exact keeps_some
  | cons x xs ih =>
    exact keeps_bind (h x (List.mem_cons_self ..)) (ih fun y hy => h y (List.mem_cons_of_mem _ hy))

/-- No symbol is a generic function. -/
def Plain (sa : Analyzer) : Prop :=
  ∀ scope ∈ sa.scopes, ∀ symbol ∈ scope, isGeneric symbol.decl = false

theorem plain_scopeDeclare (h : Plain sa) {name : Bytes} {decl : AstNode}
    (hdecl : isGeneric decl = false) : Plain (sa.scopeDeclare name decl) := by
  cases hscopes : sa.scopes with
  | nil => simp [Plain, Analyzer.scopeDeclare, hscopes]
  | cons scope scopes =>
    rw [Plain, hscopes] at h
    simp only [Plain, Analyzer.scopeDeclare, hscopes]
    intro scope' hscope' symbol hsymbol
    rcases List.mem_cons.mp hscope' with rfl | hscope'
    · rcases List.mem_cons.mp hsymbol with rfl | hsymbol
      · exact hdecl
      · exact h scope (List.mem_cons_self ..) symbol hsymbol
    · exact h scope' (List.mem_cons_of_mem _ hscope') symbol hsymbol

theorem program_scopeDeclare (name : Bytes) (decl : AstNode) :
    (sa.scopeDeclare name decl).program = sa.program := by
  unfold Analyzer.scopeDeclare
  split <;> rfl

theorem plain_lookup (h : Plain sa) {name : Bytes} {decl : AstNode}
    (hlookup : sa.scopeLookup name = some decl) : isGeneric decl = false := by
  obtain ⟨symbol, hfind, rfl⟩ := Option.map_eq_some_iff.mp hlookup
  obtain ⟨scope, hscope, hsymbol⟩ := List.mem_flatten.mp (List.mem_of_find?_eq_some hfind)
  exact h scope hscope symbol hsymbol

/-- Without generic functions, nothing is instantiated. -/
theorem plain_run {a : Action} (h : Plain sa)
    (ha : ∀ name decl, a = .scopeDeclare name decl → isGeneric decl = false)
    (hrun : a.run fuel sa = some sa') : Plain sa' ∧ sa'.program = sa.program := by
  cases a with
  | scopeEnter =>
    cases hrun
    refine ⟨fun scope hscope symbol hsymbol => ?_, rfl⟩
    rcases List.mem_cons.mp hscope with rfl | hscope
    · cases hsymbol
    · exact h scope hscope symbol hsymbol
  | scopeExit =>
    cases hrun
    unfold Analyzer.scopeExit
    split
    · next hscopes =>
      refine ⟨fun scope hscope symbol hsymbol => ?_, rfl⟩
      rw [Plain, hscopes] at h
      exact h scope (List.mem_cons_of_mem _ hscope) symbol hsymbol
    · exact ⟨h, rfl⟩
  | scopeDeclare name decl =>
    cases hrun
    exact ⟨plain_scopeDeclare h (ha name decl rfl), program_scopeDeclare ..⟩
  | resolve name =>
    rw [Action.run] at hrun
    split at hrun
    · cases hrun
      exact ⟨h, rfl⟩
    · cases hrun
      exact ⟨h, rfl⟩
  | checkGeneric callee args =>
    rw [Action.run, instantiate] at hrun
    split at hrun
    · next hlookup =>
      have hplain := plain_lookup h hlookup
      cases hplain
    · cases hrun
      exact ⟨h, rfl⟩
  | constDecl name value =>
    obtain ⟨val, _, hrun⟩ := Option.bind_eq_some_iff.mp hrun
    cases hrun
    exact ⟨plain_scopeDeclare h rfl, program_scopeDeclare ..⟩
  | missingReturn =>
    cases hrun
    exact ⟨h, rfl⟩

theorem plain_runActions {actions : List Action}
    (hactions : ∀ name decl, .scopeDeclare name decl ∈ actions → isGeneric decl = false) :
    ∀ {sa : Analyzer}, Plain sa → runActions fuel actions sa = some sa' →
      Plain sa' ∧ sa'.program = sa.program := by
  induction actions with
  | nil =>
    intro sa h hrun
    cases hrun
    exact ⟨h, rfl⟩
  | cons a actions ih =>
    intro sa h hrun
    obtain ⟨sa₁, ha, hrun⟩ := Option.bind_eq_some_iff.mp hrun
    obtain ⟨h₁, hprogram₁⟩ := plain_run h (fun name decl heq =>
      hactions name decl (heq ▸ List.mem_cons_self ..)) ha
    obtain ⟨h', hprogram⟩ := ih (fun name decl hmem =>
      hactions name decl (List.mem_cons_of_mem _ hmem)) h₁ hrun
    exact ⟨h', hprogram.trans hprogram₁⟩

/-- Declarations of known names. -/
theorem follows_declares (h : ∀ a ∈ actions, ∃ name decl, a = .scopeDeclare name decl ∧
    name ∈ env) : Follows F actions [] env env := by
  induction actions with
  | nil => exact follows_nil
  | cons a actions ih =>
    obtain ⟨name, decl, rfl, hname⟩ := h a (List.mem_cons_self ..)
    have hfirst : Follows F [.scopeDeclare name decl] [] env env :=
      (follows_declare name decl).toEnv fun x hx => by
        rcases List.mem_cons.mp hx with rfl | hx
        · exact .inl hname
        · exact .inl hx
    exact hfirst.append (ih fun b hb => h b (List.mem_cons_of_mem _ hb))

theorem firstPass_declares {decl : AstNode} :
    ∀ a ∈ firstPass decl, ∃ name node, a = .scopeDeclare name node ∧ name ∈ topLevelNames decl := by
  intro a ha
  unfold firstPass at ha
  split at ha
  case h_8 => cases ha
  all_goals
    obtain rfl := List.mem_singleton.mp ha
    exact ⟨_, _, rfl, List.mem_singleton.mpr rfl⟩

section Programs

variable (parse : Bytes → Option (List AstNode)) (decls : List AstNode)

/-- Before the second pass: only names of the program or that outlive their
scope, no generic function, and declarations that add no names. -/
structure Prepared (sa : Analyzer) : Prop where
  within : Within (outlivingNamesSeq decls) (globalNames parse decls) sa
  plain : Plain sa
  program : ∃ rest, sa.program = decls ++ rest ∧ ∀ decl ∈ rest, ∀ name node,
    .scopeDeclare name node ∈ firstPass decl → name ∈ globalNames parse decls

variable {parse decls}

theorem mem_outlivingNamesSeq {x : Bytes} {decl : AstNode} {nodes : List AstNode}
    (hdecl : decl ∈ nodes) (hx : x ∈ outlivingNames decl) : x ∈ outlivingNamesSeq nodes := by
  induction nodes with
  | nil => cases hdecl
  | cons node nodes ih =>
    simp only [outlivingNamesSeq, List.mem_append]
    rcases List.mem_cons.mp hdecl with rfl | hdecl
    · exact .inl hx
    · exact .inr (ih hdecl)

theorem topLevel_global {x : Bytes} {decl : AstNode} (hdecl : decl ∈ decls)
    (hx : x ∈ topLevelNames decl) : x ∈ globalNames parse decls :=
  List.mem_append_left _ (List.mem_append_right _ (List.mem_flatMap.mpr ⟨decl, hdecl, hx⟩))

theorem keeps_runStmts {stmts : List AstNode} (hmem : .runBlock stmts ∈ decls)
    (hplain : ∀ name decl, .scopeDeclare name decl ∈ semanticVisitNodes stmts →
      isGeneric decl = false) :
    Keeps (Prepared parse decls) (runActions fuel (semanticVisitNodes stmts)) := by
  intro sa sa' hrun
  refine ⟨errorCount_runActions hrun, fun herr hprepared => ?_⟩
  have hF : ∀ x ∈ outlivingNamesList stmts, x ∈ outlivingNamesSeq decls := fun x hx =>
    mem_outlivingNamesSeq hmem (by rwa [outlivingNames])
  obtain ⟨_, hwithin, _⟩ := follows_node (outlivingNamesSeq decls) (globalNames parse decls)
    (.runBlock stmts) (by rwa [outlivingNames]) fuel sa sa'
    (by rwa [semanticVisitNode]) herr hprepared.within
  obtain ⟨hplain', hprogram⟩ := plain_runActions hplain hprepared.plain hrun
  obtain ⟨rest, hrest, hnames⟩ := hprepared.program
  exact ⟨hwithin, hplain', rest, hprogram.trans hrest, hnames⟩

theorem copyGenerated_names {decl : AstNode} {copy : List AstNode}
    (h : copyGenerated decl = some copy) : ∀ node ∈ copy, ∀ name node',
      .scopeDeclare name node' ∈ firstPass node → name ∈ declares decl := by
  intro node hnode name node' hname
  cases decl with
  | funcDecl name' typeParams params returnType pre post body info =>
    cases typeParams <;> cases params <;> cases returnType <;> cases pre <;> cases post <;>
      cases body <;> cases h
    obtain rfl := List.mem_singleton.mp hnode
    simp only [firstPass, List.mem_singleton, Action.scopeDeclare.injEq] at hname
    simp [declares, hname.1]
  | constDecl | letNode | structDecl | enumDecl | traitDecl | classDecl => cases h
  | _ =>
    cases h
    obtain rfl := List.mem_singleton.mp hnode
    cases hname

theorem copyGenerated_plain {decl : AstNode} {copy : List AstNode}
    (h : copyGenerated decl = some copy) : isGeneric decl = false := by
  cases decl with
  | funcDecl name typeParams params returnType pre post body info =>
    cases typeParams with
    | nil => rfl
    | cons tp typeParams => cases h
  | _ => rfl

theorem errorCount_declareGenerated (decl : AstNode) :
    (declareGenerated sa decl).errorCount = sa.errorCount := by
  unfold declareGenerated
  split
  · exact errorCount_scopeDeclare ..
  · rfl

theorem program_declareGenerated (decl : AstNode) :
    (declareGenerated sa decl).program = sa.program := by
  unfold declareGenerated
  split
  · exact program_scopeDeclare ..
  · rfl

theorem keeps_addGenerated {decl : AstNode} (hmem : decl ∈ generatedDecls parse decls) :
    Keeps (Prepared parse decls) fun sa => addGenerated sa decl := by
  intro sa sa' h
  obtain ⟨copy, hcopy, h⟩ := Option.bind_eq_some_iff.mp h
  cases h
  have hglobal : ∀ x ∈ declares decl, x ∈ globalNames parse decls := fun x hx =>
    List.mem_append_right _ (List.mem_flatMap.mpr ⟨decl, hmem, hx⟩)
  have hplain := copyGenerated_plain hcopy
  have hdeclared : (declareGenerated sa decl).errorCount = sa.errorCount ∧
      (Prepared parse decls sa → Prepared parse decls (declareGenerated sa decl)) := by
    unfold declareGenerated
    split
    · next name typeParams params returnType pre post body info =>
      refine ⟨errorCount_scopeDeclare .., fun hprepared => ?_⟩
      have hname := (within_declare hprepared.within name
        (.funcDecl name typeParams params returnType pre post body info)).1
      have hwithin : Within (outlivingNamesSeq decls) (globalNames parse decls) _ :=
        hname.mono fun x hx => by
          rcases List.mem_cons.mp hx with rfl | hx
          · exact .inl (hglobal _ (by simp [declares]))
          · exact .inl hx
      refine ⟨hwithin, plain_scopeDeclare hprepared.plain hplain, ?_⟩
      rw [program_scopeDeclare]
      exact hprepared.program
    · exact ⟨rfl, id⟩
  refine ⟨Nat.le_of_eq hdeclared.1.symm, fun _ hprepared => ?_⟩
  obtain ⟨hwithin, hplain', rest, hrest, hnames⟩ := hdeclared.2 hprepared
  refine ⟨⟨hwithin.names, hwithin.nonempty⟩, hplain', rest ++ copy, ?_, fun node hnode name node' hname => ?_⟩
  · simp [hrest]
  · rcases List.mem_append.mp hnode with hnode | hnode
    · exact hnames node hnode name node' hname
    · exact hglobal _ (copyGenerated_names hcopy node hnode name node' hname)

theorem keeps_runRunBlock {stmts : List AstNode} (hmem : .runBlock stmts ∈ decls)
    (hplain : ∀ name decl, .scopeDeclare name decl ∈ semanticVisitNodes stmts →
      isGeneric decl = false) :
    Keeps (Prepared parse decls) (runRunBlock parse fuel stmts) := by
  refine keeps_bind (keeps_runStmts hmem hplain) (keeps_foldlM fun code hcode => ?_)
  intro sa sa' h
  obtain ⟨generated, hparse, h⟩ := Option.bind_eq_some_iff.mp h
  refine keeps_foldlM (fun decl hdecl => keeps_addGenerated ?_) sa sa' h
  refine List.mem_flatMap.mpr ⟨code, ?_, by simpa [hparse] using hdecl⟩
  obtain ⟨stmt, hstmt, htext⟩ := List.mem_filterMap.mp hcode
  exact List.mem_filterMap.mpr ⟨stmt, List.mem_flatMap.mpr ⟨_, hmem, hstmt⟩, htext⟩

theorem keeps_prePass (hruns : ∀ stmts, .runBlock stmts ∈ decls → ∀ name decl,
    .scopeDeclare name decl ∈ semanticVisitNodes stmts → isGeneric decl = false)
    {nodes : List AstNode} (hnodes : ∀ node ∈ nodes, node ∈ decls) :
    Keeps (Prepared parse decls) (prePass parse fuel nodes) := by
  induction nodes with
  | nil => exact keeps_some
  | cons node nodes ih =>
    have ih := ih fun node' hnode' => hnodes node' (List.mem_cons_of_mem _ hnode')
    have hnode := hnodes node (List.mem_cons_self ..)
    cases node with
    | runBlock stmts => exact keeps_bind (keeps_runRunBlock hnode (hruns stmts hnode)) ih
    | _ => exact ih

/-! ## §7 The second pass -/

theorem errorCount_secondPass {steps : Nat} : ∀ {i : Nat} {sa : Analyzer},
    secondPass fuel steps i sa = some sa' → sa.errorCount ≤ sa'.errorCount := by
  induction steps with
  | zero => exact nofun
  | succ steps ih =>
    intro i sa h
    rw [secondPass] at h
    split at h
    · cases h
      exact Nat.le_refl _
    · obtain ⟨sa₁, hrun, h⟩ := Option.bind_eq_some_iff.mp h
      exact Nat.le_trans (errorCount_runActions hrun) (ih h)

/-- A visit appends to the program. -/
theorem program_run {a : Action} (h : a.run fuel sa = some sa') :
    ∃ monos, sa'.program = sa.program ++ monos := by
  cases a with
  | scopeEnter =>
    cases h
    exact ⟨[], by simp [Analyzer.scopeEnter]⟩
  | scopeExit =>
    cases h
    refine ⟨[], ?_⟩
    unfold Analyzer.scopeExit
    split <;> simp
  | scopeDeclare name decl =>
    cases h
    exact ⟨[], by simp [program_scopeDeclare]⟩
  | resolve name =>
    rw [Action.run] at h
    split at h
    · cases h
      exact ⟨[], by simp⟩
    · cases h
      exact ⟨[], by simp [Analyzer.error]⟩
  | checkGeneric callee args =>
    rw [Action.run, instantiate] at h
    split at h
    · obtain ⟨mono, _, h⟩ := Option.bind_eq_some_iff.mp h
      cases h
      exact ⟨[mono], rfl⟩
    · cases h
      exact ⟨[], by simp⟩
  | constDecl name value =>
    obtain ⟨val, _, h⟩ := Option.bind_eq_some_iff.mp h
    cases h
    exact ⟨[], by simp [program_scopeDeclare]⟩
  | missingReturn =>
    cases h
    exact ⟨[], by simp [Analyzer.error]⟩

theorem program_runActions {actions : List Action} : ∀ {sa : Analyzer},
    runActions fuel actions sa = some sa' → ∃ monos, sa'.program = sa.program ++ monos := by
  induction actions with
  | nil =>
    intro sa h
    cases h
    exact ⟨[], by simp⟩
  | cons a actions ih =>
    intro sa h
    obtain ⟨sa₁, ha, h⟩ := Option.bind_eq_some_iff.mp h
    obtain ⟨monos₁, h₁⟩ := program_run ha
    obtain ⟨monos₂, h₂⟩ := ih h
    exact ⟨monos₁ ++ monos₂, by rw [h₂, h₁, List.append_assoc]⟩

theorem declares_topLevelNames {decl : AstNode} {x : Bytes} (h : x ∈ declares decl) :
    x ∈ topLevelNames decl := by
  unfold topLevelNames
  split
  case h_5 => exact h
  all_goals cases h

/-- The visits of the declarations of the program, from `done` on. -/
theorem secondPass_declared {steps : Nat} : ∀ {done rest tail : List AstNode} {sa : Analyzer},
    decls = done ++ rest → sa.program = decls ++ tail →
      Within (outlivingNamesSeq decls) (globalNames parse decls) sa →
      secondPass fuel steps done.length sa = some sa' → sa'.errorCount = 0 →
      ∀ decl ∈ rest, ∀ o ∈ occurrences .node (globalNames parse decls) decl,
        o.visited = true → o.Declared ∨ o.name ∈ outlivingNamesSeq decls := by
  induction steps with
  | zero => exact nofun
  | succ steps ih =>
    intro done rest tail sa hdecls hprogram hwithin h herr
    cases rest with
    | nil => exact nofun
    | cons decl rest =>
      have hget : sa.program[done.length]? = some decl := by simp [hprogram, hdecls]
      rw [secondPass, hget] at h
      obtain ⟨sa₁, hrun, h⟩ := Option.bind_eq_some_iff.mp h
      have herr₁ : sa₁.errorCount = 0 := by
        have hle := errorCount_secondPass h
        omega
      have hmem : decl ∈ decls := by simp [hdecls]
      obtain ⟨hoccs, hwithin₁, _⟩ := follows_node (outlivingNamesSeq decls)
        (globalNames parse decls) decl (fun x hx => mem_outlivingNamesSeq hmem hx) fuel sa sa₁ hrun
        herr₁ hwithin
      obtain ⟨monos, hmonos⟩ := program_runActions hrun
      have hwithin₁' : Within (outlivingNamesSeq decls) (globalNames parse decls) sa₁ :=
        hwithin₁.mono fun x hx => by
          rcases List.mem_append.mp hx with hx | hx
          · exact .inl (topLevel_global hmem (declares_topLevelNames hx))
          · exact .inl hx
      have hrest := ih (by simp [hdecls] : decls = (done ++ [decl]) ++ rest)
        (by rw [hmonos, hprogram, List.append_assoc]) hwithin₁' (by simpa using h) herr
      intro decl' hdecl'
      rcases List.mem_cons.mp hdecl' with rfl | hdecl'
      · exact hoccs
      · exact hrest decl' hdecl'

/-- Without an error, the visited identifiers are declared, or have the name
of one that outlives its scope. -/
theorem visited_declared (hruns : ∀ stmts, .runBlock stmts ∈ decls → ∀ name decl,
    .scopeDeclare name decl ∈ semanticVisitNodes stmts → isGeneric decl = false)
    (h : semanticAnalyze parse fuel decls = some sa) (herr : sa.errorCount = 0) :
    ∀ o ∈ bodyOccurrences parse decls, o.visited = true →
      o.Declared ∨ o.name ∈ outlivingNamesSeq decls := by
  have h : (runActions fuel declareBuiltins { semanticCreate with program := decls }).bind
      (fun sa => (prePass parse fuel decls sa).bind (visitProgram fuel)) = some sa := h
  obtain ⟨sa₁, hbuiltins, h⟩ := Option.bind_eq_some_iff.mp h
  obtain ⟨sa₂, hpre, h⟩ := Option.bind_eq_some_iff.mp h
  obtain ⟨sa₃, hfirst, hsecond⟩ := Option.bind_eq_some_iff.mp h
  have herr₃ : sa₃.errorCount = 0 := by
    have hle := errorCount_secondPass hsecond
    omega
  have herr₂ : sa₂.errorCount = 0 := by
    have hle := errorCount_runActions hfirst
    omega
  have hkeeps : Keeps (Prepared parse decls) (prePass parse fuel decls) :=
    keeps_prePass hruns fun node hnode => hnode
  have hkeeps := hkeeps sa₁ sa₂ hpre
  have herr₁ : sa₁.errorCount = 0 := by
    have hle := hkeeps.1
    omega
  have hstart : Within (outlivingNamesSeq decls) (globalNames parse decls)
      { semanticCreate with program := decls } := ⟨by simp [semanticCreate], by simp [semanticCreate]⟩
  have hbuiltinsG : ∀ a ∈ declareBuiltins, ∃ name decl, a = .scopeDeclare name decl ∧
      name ∈ globalNames parse decls := by
    intro a ha
    simp only [declareBuiltins, List.mem_map] at ha
    obtain ⟨name, hname, rfl⟩ := ha
    exact ⟨name, builtinDecl, rfl, List.mem_append_left _ (List.mem_append_left _ hname)⟩
  obtain ⟨_, hwithin₁, _⟩ := follows_declares hbuiltinsG fuel _ sa₁ hbuiltins herr₁ hstart
  have hbuiltinsPlain : ∀ name decl, .scopeDeclare name decl ∈ declareBuiltins →
      isGeneric decl = false := by
    intro name decl hmem
    simp only [declareBuiltins, List.mem_map] at hmem
    obtain ⟨name', _, heq⟩ := hmem
    cases heq
    rfl
  obtain ⟨hplain₁, hprogram₁⟩ := plain_runActions hbuiltinsPlain (by simp [Plain, semanticCreate])
    hbuiltins
  have hprepared := hkeeps.2 herr₂ ⟨hwithin₁, hplain₁, [], by simp [hprogram₁], nofun⟩
  obtain ⟨rest, hrest, hnames⟩ := hprepared.program
  have hfirstG : ∀ a ∈ sa₂.program.flatMap firstPass, ∃ name decl, a = .scopeDeclare name decl ∧
      name ∈ globalNames parse decls := by
    intro a ha
    obtain ⟨decl, hdecl, ha⟩ := List.mem_flatMap.mp ha
    obtain ⟨name, node, rfl, hname⟩ := firstPass_declares a ha
    refine ⟨name, node, rfl, ?_⟩
    rw [hrest] at hdecl
    rcases List.mem_append.mp hdecl with hdecl | hdecl
    · exact topLevel_global hdecl hname
    · exact hnames decl hdecl name node ha
  obtain ⟨_, hwithin₃, _⟩ := follows_declares hfirstG fuel sa₂ sa₃ hfirst herr₃ hprepared.within
  obtain ⟨monos, hmonos⟩ := program_runActions hfirst
  intro o ho hvisited
  obtain ⟨decl, hdecl, ho⟩ := List.mem_flatMap.mp ho
  exact secondPass_declared (List.nil_append decls).symm
    (by rw [hmonos, hrest, List.append_assoc]) hwithin₃ hsecond herr decl (List.mem_filter.mp hdecl).1 o
    ho hvisited

end Programs

/-! ## §8 Complete resolution -/

/-- `semantic_analyze` returns and reports no error. -/
def ReportsNoErrors (program : Program) : Prop :=
  ∃ fuel sa, semanticAnalyze parserTree fuel program.decls = some sa ∧ sa.errorCount = 0

/-- Every identifier in a function body is declared in a scope around it. -/
def AllDeclared (program : Program) : Prop :=
  ∀ o ∈ bodyOccurrences parserTree program.decls, o.Declared

/-- The identifiers that the visitor does not come to, and those with the
name of one that outlives its scope, are declared. -/
def UncheckedDeclared (program : Program) : Prop :=
  ∀ o ∈ bodyOccurrences parserTree program.decls,
    o.visited = false ∨ o.name ∈ outlivingNamesSeq program.decls → o.Declared

theorem declared_of_unchecked {program : Program} (h : ReportsNoErrors program)
    (hunchecked : UncheckedDeclared program) : AllDeclared program := by
  intro o ho
  obtain ⟨fuel, sa, hanalyze, herr⟩ := h
  cases hvisited : o.visited with
  | false => exact hunchecked o ho (.inl hvisited)
  | true =>
    rcases visited_declared program.runs hanalyze herr o ho hvisited with hdeclared | hname
    · exact hdeclared
    · exact hunchecked o ho (.inr hname)

/-- In a program without errors, every identifier is declared if and only if
those are that the visitor does not check. -/
theorem resolution_complete_iff {program : Program} (h : ReportsNoErrors program) :
    AllDeclared program ↔ UncheckedDeclared program :=
  ⟨fun hall o ho _ => hall o ho, declared_of_unchecked h⟩

/-- `func f(a) { <stmts> }`. -/
def singleFunction (stmts : List AstNode) : Program where
  decls := [.funcDecl (bytes "f") [] [.param (bytes "a") none false false none] none [] []
    (some (.block stmts)) {}]
  runs := by
    intro stmts hmem
    simp at hmem

/-- `return a`. -/
theorem resolution_complete_iff_return :
    AllDeclared (singleFunction [.returnNode (some (.ident (bytes "a")))]) ↔
      UncheckedDeclared (singleFunction [.returnNode (some (.ident (bytes "a")))]) :=
  resolution_complete_iff ⟨3, _, rfl, rfl⟩

/-- `defer g()`, where `g` is not declared. -/
def deferUndeclared : Program :=
  singleFunction [.deferNode (some (.exprStmt (some (.call (some (.ident (bytes "g"))) []))))]

theorem deferUndeclared_accepted :
    ReportsNoErrors deferUndeclared ∧ ¬ AllDeclared deferUndeclared := by
  refine ⟨⟨3, _, rfl, rfl⟩, fun h => ?_⟩
  have hoccs : bodyOccurrences parserTree deferUndeclared.decls =
      [⟨bytes "g", bytes "a" :: bytes "f" :: (builtinNames ++ [bytes "f"]), false⟩] := rfl
  have hdeclared := h _ (hoccs ▸ List.mem_singleton.mpr rfl)
  exact absurd hdeclared (by decide)

end Aether.Semantic
