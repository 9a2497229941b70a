/-
Aether.Semantic.MonomorphizeTheorems — when a copy is a substitution.

Each clone returns the substituted tree exactly when the tree is kept
(`monomorphizeType_iff`, `monomorphizeExpr_iff`, `monomorphizeNode_iff`).
-/
import Aether.Lib.Fuel
import Aether.Semantic.Substitution

namespace Aether.Semantic

open Aether.Lib.Fuel

-- the equations, before the proofs that share them
section
attribute [local simp] monomorphizeType monomorphizeExpr monomorphizeExprOpt monomorphizeExprs
  monomorphizeNode monomorphizeNodeOpt monomorphizeNodes substNode TypeKept substNodes substOpt
  TypeKeptOpt TypesKept ExprKept ExprKeptOpt ExprsKept NodeKept NodeKeptOpt NodesKept
  monomorphizeParam ParamKept monomorphizeFunc
end

section Clones

variable (typeParams concreteTypes : List AstNode)

/-! ## §1 More fuel changes nothing -/

theorem monomorphizeType_below (n : Nat) : ∀ type,
    Below (monomorphizeType typeParams concreteTypes n type)
      (monomorphizeType typeParams concreteTypes (n + 1) type) := by
  induction n with
  | zero => intro type; exact .none
  | succ n ih =>
    intro type
    cases type with
    | typeNamed name =>
      simp only [monomorphizeType]
      cases concreteFor typeParams concreteTypes name with
      | none => exact .rfl
      | some type => exact ih type
    | typeRef elemType kind => exact (Below.mapM_option ih elemType).bind fun _ => .rfl
    | typePtr elemType => exact (Below.mapM_option ih elemType).bind fun _ => .rfl
    | typeArray elemType arraySize => exact (Below.mapM_option ih elemType).bind fun _ => .rfl
    | typeSlice elemType => exact (Below.mapM_option ih elemType).bind fun _ => .rfl
    | typeOptional elemType => exact (Below.mapM_option ih elemType).bind fun _ => .rfl
    | typeFn paramTypes returnType =>
      exact (Below.mapM_list ih paramTypes).bind fun _ =>
        (Below.mapM_option ih returnType).bind fun _ => .rfl
    | _ => exact .rfl

theorem monomorphizeType_stable (type : AstNode) :
    Stable fun n => monomorphizeType typeParams concreteTypes n type :=
  stable_of_succ fun n => monomorphizeType_below typeParams concreteTypes n type

theorem monomorphizeTypeOpt_stable (type : Option AstNode) :
    Stable fun n => type.mapM (monomorphizeType typeParams concreteTypes n) :=
  .mapM_option (monomorphizeType_stable typeParams concreteTypes) type

mutual

theorem monomorphizeExpr_stable (node : AstNode) :
    Stable fun n => monomorphizeExpr typeParams concreteTypes n node := by
  cases node with
  | binaryOp op left right customOp =>
    simp only [monomorphizeExpr]
    exact (monomorphizeExprOpt_stable left).bind fun _ =>
      (monomorphizeExprOpt_stable right).bind fun _ => stable_const _
  | unaryOp op operand =>
    simp only [monomorphizeExpr]
    exact (monomorphizeExprOpt_stable operand).bind fun _ => stable_const _
  | call callee args =>
    simp only [monomorphizeExpr]
    exact (monomorphizeExprOpt_stable callee).bind fun _ =>
      (monomorphizeExprs_stable args).bind fun _ => stable_const _
  | index target index =>
    simp only [monomorphizeExpr]
    exact (monomorphizeExprOpt_stable target).bind fun _ =>
      (monomorphizeExprOpt_stable index).bind fun _ => stable_const _
  | fieldAccess target field =>
    simp only [monomorphizeExpr]
    exact (monomorphizeExprOpt_stable target).bind fun _ => stable_const _
  | cast left right =>
    simp only [monomorphizeExpr]
    exact (monomorphizeExprOpt_stable left).bind fun _ =>
      (monomorphizeTypeOpt_stable typeParams concreteTypes right).bind fun _ => stable_const _
  | arrayLit elements =>
    simp only [monomorphizeExpr]
    exact (monomorphizeExprs_stable elements).bind fun _ => stable_const _
  | _ =>
    simp only [monomorphizeExpr]
    exact stable_const _

theorem monomorphizeExprOpt_stable (node : Option AstNode) :
    Stable fun n => monomorphizeExprOpt typeParams concreteTypes n node := by
  cases node with
  | none => simp only [monomorphizeExprOpt, stable_const]
  | some node =>
    simp only [monomorphizeExprOpt]
    exact (monomorphizeExpr_stable node).bind fun _ => stable_const _

theorem monomorphizeExprs_stable (nodes : List AstNode) :
    Stable fun n => monomorphizeExprs typeParams concreteTypes n nodes := by
  cases nodes with
  | nil => simp only [monomorphizeExprs, stable_const]
  | cons node nodes =>
    simp only [monomorphizeExprs]
    exact (monomorphizeExpr_stable node).bind fun _ =>
      (monomorphizeExprs_stable nodes).bind fun _ => stable_const _

end

mutual

theorem monomorphizeNode_stable (node : AstNode) :
    Stable fun n => monomorphizeNode typeParams concreteTypes n node := by
  have hexpr := monomorphizeExprOpt_stable typeParams concreteTypes
  cases node with
  | block stmts =>
    simp only [monomorphizeNode]
    exact (monomorphizeNodes_stable stmts).bind fun _ => stable_const _
  | letNode name type value isMut isGlobal =>
    simp only [monomorphizeNode]
    exact (monomorphizeTypeOpt_stable typeParams concreteTypes type).bind fun _ =>
      (hexpr value).bind fun _ => stable_const _
  | returnNode value =>
    simp only [monomorphizeNode]
    exact (hexpr value).bind fun _ => stable_const _
  | ifNode condition thenBlock elifChain elseBlock =>
    simp only [monomorphizeNode]
    exact (hexpr condition).bind fun _ => (monomorphizeNodeOpt_stable thenBlock).bind fun _ =>
      (monomorphizeNodeOpt_stable elifChain).bind fun _ =>
        (monomorphizeNodeOpt_stable elseBlock).bind fun _ => stable_const _
  | ifLet pattern condition thenBlock =>
    simp only [monomorphizeNode]
    exact (hexpr condition).bind fun _ => (monomorphizeNodeOpt_stable thenBlock).bind fun _ =>
      stable_const _
  | whileNode condition body =>
    simp only [monomorphizeNode]
    exact (hexpr condition).bind fun _ => (monomorphizeNodeOpt_stable body).bind fun _ =>
      stable_const _
  | forNode var indexVar iterable body =>
    simp only [monomorphizeNode]
    exact (hexpr iterable).bind fun _ => (monomorphizeNodeOpt_stable body).bind fun _ =>
      stable_const _
  | exprStmt expr =>
    simp only [monomorphizeNode]
    exact (hexpr expr).bind fun _ => stable_const _
  | matchNode value arms =>
    simp only [monomorphizeNode]
    exact (hexpr value).bind fun _ => (monomorphizeNodes_stable arms).bind fun _ => stable_const _
  | matchArm pattern patterns body =>
    simp only [monomorphizeNode]
    exact (hexpr pattern).bind fun _ => (monomorphizeNodeOpt_stable body).bind fun _ =>
      (monomorphizeExprs_stable typeParams concreteTypes patterns).bind fun _ => stable_const _
  | tryNode body catchArms finallyBody =>
    simp only [monomorphizeNode]
    exact (monomorphizeNodeOpt_stable body).bind fun _ =>
      (monomorphizeNodes_stable catchArms).bind fun _ =>
        (monomorphizeNodeOpt_stable finallyBody).bind fun _ => stable_const _
  | catchArm type var body isCatchAll =>
    simp only [monomorphizeNode]
    exact (monomorphizeNodeOpt_stable body).bind fun _ => stable_const _
  | throwNode value =>
    simp only [monomorphizeNode]
    exact (hexpr value).bind fun _ => stable_const _
  | deferNode body =>
    simp only [monomorphizeNode]
    exact (monomorphizeNodeOpt_stable body).bind fun _ => stable_const _
  | spawn call =>
    simp only [monomorphizeNode]
    exact (monomorphizeNodeOpt_stable call).bind fun _ => stable_const _
  | _ =>
    simp only [monomorphizeNode]
    exact stable_const _

theorem monomorphizeNodeOpt_stable (node : Option AstNode) :
    Stable fun n => monomorphizeNodeOpt typeParams concreteTypes n node := by
  cases node with
  | none => simp only [monomorphizeNodeOpt, stable_const]
  | some node =>
    simp only [monomorphizeNodeOpt]
    exact (monomorphizeNode_stable node).bind fun _ => stable_const _

theorem monomorphizeNodes_stable (nodes : List AstNode) :
    Stable fun n => monomorphizeNodes typeParams concreteTypes n nodes := by
  cases nodes with
  | nil => simp only [monomorphizeNodes, stable_const]
  | cons node nodes =>
    simp only [monomorphizeNodes]
    exact (monomorphizeNode_stable node).bind fun _ =>
      (monomorphizeNodes_stable nodes).bind fun _ => stable_const _

end

/-! ## §2 Types -/

/-- A type that was copied is closed. -/
theorem closed_of_monomorphizeType (n : Nat) : ∀ {type type' : AstNode},
    monomorphizeType typeParams concreteTypes n type = some type' →
      ClosedType (concreteFor typeParams concreteTypes) type' := by
  induction n with
  | zero => intro type type' h; cases h
  | succ n ih =>
    have hopt : ∀ {o o' : Option AstNode},
        o.mapM (monomorphizeType typeParams concreteTypes n) = some o' →
          ClosedTypeOpt (concreteFor typeParams concreteTypes) o' := by
      intro o o' h
      cases o with
      | none => cases h; simp [ClosedTypeOpt]
      | some t =>
        rw [mapM_option_some] at h
        obtain ⟨t', ht, ho⟩ := Option.bind_eq_some_iff.mp h
        cases ho
        exact ih ht
    have hlist : ∀ {l l' : List AstNode},
        l.mapM (monomorphizeType typeParams concreteTypes n) = some l' →
          ClosedTypes (concreteFor typeParams concreteTypes) l' := by
      intro l
      induction l with
      | nil =>
        intro l' h
        cases h
        simp [ClosedTypes]
      | cons t l ihl =>
        intro l' h
        rw [List.mapM_cons] at h
        obtain ⟨t', ht, h⟩ := Option.bind_eq_some_iff.mp h
        obtain ⟨ts, hts, h⟩ := Option.bind_eq_some_iff.mp h
        cases h
        exact ⟨ih ht, ihl hts⟩
    intro type type' h
    cases type with
    | typeNamed name =>
      simp only [monomorphizeType] at h
      cases hname : concreteFor typeParams concreteTypes name with
      | none =>
        simp only [hname, Option.some.injEq] at h
        subst h
        exact hname
      | some type =>
        simp only [hname] at h
        exact ih h
    | typeRef elemType kind =>
      simp only [monomorphizeType] at h
      obtain ⟨t, ht, h⟩ := Option.bind_eq_some_iff.mp h
      cases h
      exact ⟨hopt ht, rfl⟩
    | typePtr elemType =>
      simp only [monomorphizeType] at h
      obtain ⟨t, ht, h⟩ := Option.bind_eq_some_iff.mp h
      cases h
      exact hopt ht
    | typeArray elemType arraySize =>
      simp only [monomorphizeType] at h
      obtain ⟨t, ht, h⟩ := Option.bind_eq_some_iff.mp h
      cases h
      exact hopt ht
    | typeSlice elemType =>
      simp only [monomorphizeType] at h
      obtain ⟨t, ht, h⟩ := Option.bind_eq_some_iff.mp h
      cases h
      exact hopt ht
    | typeOptional elemType =>
      simp only [monomorphizeType] at h
      obtain ⟨t, ht, h⟩ := Option.bind_eq_some_iff.mp h
      cases h
      exact hopt ht
    | typeTuple tupleTypes =>
      cases h
      rfl
    | typeFn paramTypes returnType =>
      simp only [monomorphizeType] at h
      obtain ⟨ts, hts, h⟩ := Option.bind_eq_some_iff.mp h
      obtain ⟨t, ht, h⟩ := Option.bind_eq_some_iff.mp h
      cases h
      exact ⟨hlist hts, hopt ht⟩
    | _ => cases h; trivial

mutual

/-- A closed type is copied as it is. -/
theorem returns_of_closed (type : AstNode)
    (h : ClosedType (concreteFor typeParams concreteTypes) type) :
    Returns (fun n => monomorphizeType typeParams concreteTypes n type) type := by
  rw [returns_succ rfl]
  have hstable := monomorphizeTypeOpt_stable typeParams concreteTypes
  cases type with
  | typeNamed name =>
    have hname : concreteFor typeParams concreteTypes name = none := h
    simp [monomorphizeType, hname]
  | typeRef elemType kind =>
    simpa [monomorphizeType, returns_bind, hstable, h.2.symm] using returns_of_closedOpt elemType h.1
  | typePtr elemType =>
    simpa [monomorphizeType, returns_bind, hstable] using returns_of_closedOpt elemType h
  | typeArray elemType arraySize =>
    simpa [monomorphizeType, returns_bind, hstable] using returns_of_closedOpt elemType h
  | typeSlice elemType =>
    simpa [monomorphizeType, returns_bind, hstable] using returns_of_closedOpt elemType h
  | typeOptional elemType =>
    simpa [monomorphizeType, returns_bind, hstable] using returns_of_closedOpt elemType h
  | typeTuple tupleTypes =>
    have htypes : tupleTypes = [] := h
    simp [monomorphizeType, htypes]
  | typeFn paramTypes returnType =>
    simpa [monomorphizeType, returns_bind, hstable, Stable.bind, Stable.mapM_list,
      monomorphizeType_stable] using
      ⟨returns_of_closeds paramTypes h.1, returns_of_closedOpt returnType h.2⟩
  | _ => simp [monomorphizeType]

theorem returns_of_closedOpt (type : Option AstNode)
    (h : ClosedTypeOpt (concreteFor typeParams concreteTypes) type) :
    Returns (fun n => type.mapM (monomorphizeType typeParams concreteTypes n)) type := by
  cases type with
  | none => simp
  | some type =>
    rw [returns_mapM_some (monomorphizeType_stable typeParams concreteTypes)]
    exact ⟨type, returns_of_closed type h, rfl⟩

theorem returns_of_closeds (types : List AstNode)
    (h : ClosedTypes (concreteFor typeParams concreteTypes) types) :
    Returns (fun n => types.mapM (monomorphizeType typeParams concreteTypes n)) types := by
  cases types with
  | nil => simp
  | cons type types =>
    rw [returns_mapM_cons (monomorphizeType_stable typeParams concreteTypes)]
    exact ⟨type, returns_of_closed type h.1, types, returns_of_closeds types h.2, rfl⟩

end

mutual

/-- A type is copied as it is substituted exactly when it is kept. -/
theorem monomorphizeType_iff (type : AstNode) :
    Returns (fun n => monomorphizeType typeParams concreteTypes n type)
        (substNode (concreteFor typeParams concreteTypes) type) ↔
      TypeKept (concreteFor typeParams concreteTypes) type := by
  rw [returns_succ rfl]
  have hstable := monomorphizeTypeOpt_stable typeParams concreteTypes
  cases type with
  | typeNamed name =>
    cases hname : concreteFor typeParams concreteTypes name with
    | none => simp [monomorphizeType, substNode, TypeKept, hname]
    | some type =>
      simp only [monomorphizeType, substNode, TypeKept, hname, Option.getD_some, Option.some.injEq,
        forall_eq']
      constructor
      · rintro ⟨n, hn⟩
        exact closed_of_monomorphizeType typeParams concreteTypes n hn
      · exact returns_of_closed typeParams concreteTypes type
  | typeRef elemType kind =>
    simp [monomorphizeType, returns_bind, hstable, substNode, TypeKept,
      monomorphizeTypeOpt_iff elemType, eq_comm]
  | typePtr elemType =>
    simp [monomorphizeType, returns_bind, hstable, substNode, TypeKept,
      monomorphizeTypeOpt_iff elemType]
  | typeArray elemType arraySize =>
    simp [monomorphizeType, returns_bind, hstable, substNode, TypeKept,
      monomorphizeTypeOpt_iff elemType]
  | typeSlice elemType =>
    simp [monomorphizeType, returns_bind, hstable, substNode, TypeKept,
      monomorphizeTypeOpt_iff elemType]
  | typeOptional elemType =>
    simp [monomorphizeType, returns_bind, hstable, substNode, TypeKept,
      monomorphizeTypeOpt_iff elemType]
  | typeTuple tupleTypes => cases tupleTypes <;> simp [monomorphizeType, substNode, substNodes, TypeKept]
  | typeFn paramTypes returnType =>
    simp [monomorphizeType, returns_bind, hstable, Stable.bind, Stable.mapM_list,
      monomorphizeType_stable, substNode, TypeKept, monomorphizeTypeOpt_iff returnType,
      monomorphizeTypes_iff paramTypes]
  | _ => simp [monomorphizeType, TypeKept, eq_comm]

theorem monomorphizeTypeOpt_iff (type : Option AstNode) :
    Returns (fun n => type.mapM (monomorphizeType typeParams concreteTypes n))
        (substOpt (concreteFor typeParams concreteTypes) type) ↔
      TypeKeptOpt (concreteFor typeParams concreteTypes) type := by
  cases type with
  | none => simp [substOpt, TypeKeptOpt]
  | some type =>
    rw [returns_mapM_some (monomorphizeType_stable typeParams concreteTypes)]
    simp [substOpt, TypeKeptOpt, monomorphizeType_iff type]

theorem monomorphizeTypes_iff (types : List AstNode) :
    Returns (fun n => types.mapM (monomorphizeType typeParams concreteTypes n))
        (substNodes (concreteFor typeParams concreteTypes) types) ↔
      TypesKept (concreteFor typeParams concreteTypes) types := by
  cases types with
  | nil => simp [substNodes, TypesKept]
  | cons type types =>
    rw [returns_mapM_cons (monomorphizeType_stable typeParams concreteTypes)]
    simp [substNodes, TypesKept, monomorphizeType_iff type, monomorphizeTypes_iff types]

end

/-! ## §3 Expressions -/

mutual

theorem monomorphizeExpr_iff (node : AstNode) :
    Returns (fun n => monomorphizeExpr typeParams concreteTypes n node)
        (substNode (concreteFor typeParams concreteTypes) node) ↔
      ExprKept (concreteFor typeParams concreteTypes) node := by
  have hopt := monomorphizeExprOpt_stable typeParams concreteTypes
  have hlist := monomorphizeExprs_stable typeParams concreteTypes
  have htype := monomorphizeTypeOpt_stable typeParams concreteTypes
  cases node with
  | literalInt value isNegative => simp [monomorphizeExpr, substNode, ExprKept, eq_comm]
  | literalFloat text => simp [monomorphizeExpr, substNode, ExprKept]
  | literalString text => simp [monomorphizeExpr, substNode, ExprKept]
  | literalChar value => simp [monomorphizeExpr, substNode, ExprKept]
  | literalBool value => simp [monomorphizeExpr, substNode, ExprKept]
  | literalNone => simp [monomorphizeExpr, substNode, ExprKept]
  | ident name => simp [monomorphizeExpr, substNode, ExprKept]
  | binaryOp op left right customOp =>
    simp [monomorphizeExpr, returns_bind, Stable.bind, hopt, substNode, ExprKept,
      monomorphizeExprOpt_iff left, monomorphizeExprOpt_iff right]
  | unaryOp op operand =>
    simp [monomorphizeExpr, returns_bind, hopt, substNode, ExprKept, monomorphizeExprOpt_iff operand]
  | call callee args =>
    simp [monomorphizeExpr, returns_bind, Stable.bind, hopt, hlist, substNode, ExprKept,
      monomorphizeExprOpt_iff callee, monomorphizeExprs_iff args]
  | index target index =>
    simp [monomorphizeExpr, returns_bind, Stable.bind, hopt, substNode, ExprKept,
      monomorphizeExprOpt_iff target, monomorphizeExprOpt_iff index]
  | fieldAccess target field =>
    simp [monomorphizeExpr, returns_bind, hopt, substNode, ExprKept, monomorphizeExprOpt_iff target]
  | cast left right =>
    simp [monomorphizeExpr, returns_bind, Stable.bind, hopt, htype, substNode, ExprKept,
      monomorphizeExprOpt_iff left, monomorphizeTypeOpt_iff typeParams concreteTypes right]
  | arrayLit elements =>
    simp [monomorphizeExpr, returns_bind, hlist, substNode, ExprKept, monomorphizeExprs_iff elements]
  | _ => simp [monomorphizeExpr, ExprKept, eq_comm]

theorem monomorphizeExprOpt_iff (node : Option AstNode) :
    Returns (fun n => monomorphizeExprOpt typeParams concreteTypes n node)
        (substOpt (concreteFor typeParams concreteTypes) node) ↔
      ExprKeptOpt (concreteFor typeParams concreteTypes) node := by
  have hexpr := monomorphizeExpr_stable typeParams concreteTypes
  cases node with
  | none => simp [monomorphizeExprOpt, substOpt, ExprKeptOpt]
  | some node =>
    simp [monomorphizeExprOpt, returns_bind, hexpr, substOpt, ExprKeptOpt, monomorphizeExpr_iff node]

theorem monomorphizeExprs_iff (nodes : List AstNode) :
    Returns (fun n => monomorphizeExprs typeParams concreteTypes n nodes)
        (substNodes (concreteFor typeParams concreteTypes) nodes) ↔
      ExprsKept (concreteFor typeParams concreteTypes) nodes := by
  have hexpr := monomorphizeExpr_stable typeParams concreteTypes
  have hlist := monomorphizeExprs_stable typeParams concreteTypes
  cases nodes with
  | nil => simp [monomorphizeExprs, substNodes, ExprsKept]
  | cons node nodes =>
    simp [monomorphizeExprs, returns_bind, Stable.bind, hexpr, hlist, substNodes, ExprsKept,
      monomorphizeExpr_iff node, monomorphizeExprs_iff nodes]

end

/-! ## §4 Statements -/

mutual

theorem monomorphizeNode_iff (node : AstNode) :
    Returns (fun n => monomorphizeNode typeParams concreteTypes n node)
        (substNode (concreteFor typeParams concreteTypes) node) ↔
      NodeKept (concreteFor typeParams concreteTypes) node := by
  have hopt := monomorphizeNodeOpt_stable typeParams concreteTypes
  have hlist := monomorphizeNodes_stable typeParams concreteTypes
  have hexpr := monomorphizeExprOpt_stable typeParams concreteTypes
  have hexprs := monomorphizeExprs_stable typeParams concreteTypes
  have htype := monomorphizeTypeOpt_stable typeParams concreteTypes
  have hexpr_iff := monomorphizeExprOpt_iff typeParams concreteTypes
  cases node with
  | block stmts =>
    simp [monomorphizeNode, returns_bind, hlist, substNode, NodeKept, monomorphizeNodes_iff stmts]
  | letNode name type value isMut isGlobal =>
    simp [monomorphizeNode, returns_bind, Stable.bind, hexpr, htype, substNode, NodeKept, hexpr_iff,
      monomorphizeTypeOpt_iff typeParams concreteTypes type]
  | returnNode value => simp [monomorphizeNode, returns_bind, hexpr, substNode, NodeKept, hexpr_iff]
  | ifNode condition thenBlock elifChain elseBlock =>
    simp [monomorphizeNode, returns_bind, Stable.bind, Stable.bind₂, Stable.bind₃, hexpr, hopt, substNode, NodeKept, hexpr_iff,
      monomorphizeNodeOpt_iff thenBlock, monomorphizeNodeOpt_iff elifChain,
      monomorphizeNodeOpt_iff elseBlock]
  | ifLet pattern condition thenBlock =>
    -- the copy is an `if` without the pattern
    simp [monomorphizeNode, returns_bind, Stable.bind, hexpr, hopt, substNode, NodeKept]
  | whileNode condition body =>
    simp [monomorphizeNode, returns_bind, Stable.bind, hexpr, hopt, substNode, NodeKept, hexpr_iff,
      monomorphizeNodeOpt_iff body]
  | forNode var indexVar iterable body =>
    simp [monomorphizeNode, returns_bind, Stable.bind, hexpr, hopt, substNode, NodeKept, hexpr_iff,
      monomorphizeNodeOpt_iff body]
  | exprStmt expr => simp [monomorphizeNode, returns_bind, hexpr, substNode, NodeKept, hexpr_iff]
  | matchNode value arms =>
    simp [monomorphizeNode, returns_bind, Stable.bind, hexpr, hlist, substNode, NodeKept, hexpr_iff,
      monomorphizeNodes_iff arms]
  | matchArm pattern patterns body =>
    simp [monomorphizeNode, returns_bind, Stable.bind, Stable.bind₂, hexpr, hexprs, hopt, substNode, NodeKept,
      hexpr_iff, monomorphizeNodeOpt_iff body, monomorphizeExprs_iff typeParams concreteTypes patterns]
  | tryNode body catchArms finallyBody =>
    simp [monomorphizeNode, returns_bind, Stable.bind, Stable.bind₂, hlist, hopt, substNode, NodeKept,
      monomorphizeNodeOpt_iff body, monomorphizeNodes_iff catchArms,
      monomorphizeNodeOpt_iff finallyBody]
  | catchArm type var body isCatchAll =>
    have htype_none : none = substOpt (concreteFor typeParams concreteTypes) type ↔ type = none := by
      cases type <;> simp [substOpt]
    simp [monomorphizeNode, returns_bind, hopt, substNode, NodeKept, monomorphizeNodeOpt_iff body,
      htype_none]
  | throwNode value => simp [monomorphizeNode, returns_bind, hexpr, substNode, NodeKept, hexpr_iff]
  | deferNode body =>
    simp [monomorphizeNode, returns_bind, hopt, substNode, NodeKept, monomorphizeNodeOpt_iff body]
  | asmBlock text outputs => simp [monomorphizeNode, substNode, NodeKept]
  | spawn call =>
    simp [monomorphizeNode, returns_bind, hopt, substNode, NodeKept, monomorphizeNodeOpt_iff call]
  | yieldNode => simp [monomorphizeNode, substNode, NodeKept]
  | _ => simp [monomorphizeNode, NodeKept, eq_comm]

theorem monomorphizeNodeOpt_iff (node : Option AstNode) :
    Returns (fun n => monomorphizeNodeOpt typeParams concreteTypes n node)
        (substOpt (concreteFor typeParams concreteTypes) node) ↔
      NodeKeptOpt (concreteFor typeParams concreteTypes) node := by
  have hnode := monomorphizeNode_stable typeParams concreteTypes
  cases node with
  | none => simp [monomorphizeNodeOpt, substOpt, NodeKeptOpt]
  | some node =>
    simp [monomorphizeNodeOpt, returns_bind, hnode, substOpt, NodeKeptOpt, monomorphizeNode_iff node]

theorem monomorphizeNodes_iff (nodes : List AstNode) :
    Returns (fun n => monomorphizeNodes typeParams concreteTypes n nodes)
        (substNodes (concreteFor typeParams concreteTypes) nodes) ↔
      NodesKept (concreteFor typeParams concreteTypes) nodes := by
  have hnode := monomorphizeNode_stable typeParams concreteTypes
  have hlist := monomorphizeNodes_stable typeParams concreteTypes
  cases nodes with
  | nil => simp [monomorphizeNodes, substNodes, NodesKept]
  | cons node nodes =>
    simp [monomorphizeNodes, returns_bind, Stable.bind, hnode, hlist, substNodes, NodesKept,
      monomorphizeNode_iff node, monomorphizeNodes_iff nodes]

end

/-! ## §5 Functions -/

theorem monomorphizeParam_stable (param : AstNode) :
    Stable fun n => monomorphizeParam typeParams concreteTypes n param := by
  cases param with
  | param name type isMut isVarargs defaultValue =>
    simp only [monomorphizeParam]
    exact (monomorphizeTypeOpt_stable typeParams concreteTypes type).bind fun _ => stable_const _
  | _ =>
    simp only [monomorphizeParam]
    exact stable_const _

theorem monomorphizeParam_iff (param : AstNode) :
    Returns (fun n => monomorphizeParam typeParams concreteTypes n param)
        (substNode (concreteFor typeParams concreteTypes) param) ↔
      ParamKept (concreteFor typeParams concreteTypes) param := by
  have htype := monomorphizeTypeOpt_stable typeParams concreteTypes
  cases param with
  | param name type isMut isVarargs defaultValue =>
    have hdefault : none = substOpt (concreteFor typeParams concreteTypes) defaultValue ↔
        defaultValue = none := by
      cases defaultValue <;> simp [substOpt]
    simp [monomorphizeParam, returns_bind, htype, substNode, ParamKept, hdefault,
      monomorphizeTypeOpt_iff typeParams concreteTypes type]
  | _ => simp [monomorphizeParam, ParamKept, eq_comm]

theorem monomorphizeParams_iff (params : List AstNode) :
    Returns (fun n => params.mapM (monomorphizeParam typeParams concreteTypes n))
        (substNodes (concreteFor typeParams concreteTypes) params) ↔
      ∀ param ∈ params, ParamKept (concreteFor typeParams concreteTypes) param := by
  induction params with
  | nil => simp [substNodes]
  | cons param params ih =>
    rw [returns_mapM_cons (monomorphizeParam_stable typeParams concreteTypes)]
    simp [substNodes, monomorphizeParam_iff, ih]

end Clones

/-- A function with type parameters. -/
structure GenericFunc where
  name : Bytes
  typeParams : List AstNode
  params : List AstNode
  returnType : Option AstNode
  preConditions : List AstNode
  postConditions : List AstNode
  body : Option AstNode
  info : FuncInfo
  generic : typeParams ≠ []

namespace GenericFunc

def node (f : GenericFunc) : AstNode :=
  .funcDecl f.name f.typeParams f.params f.returnType f.preConditions f.postConditions f.body f.info

/-- The function with its types replaced, under its mangled name. -/
def substituted (f : GenericFunc) (concreteTypes : List AstNode) (info : FuncInfo) : AstNode :=
  let σ := concreteFor f.typeParams concreteTypes
  .funcDecl (mangledName f.name concreteTypes) [] (substNodes σ f.params) (substOpt σ f.returnType)
    (substNodes σ f.preConditions) (substNodes σ f.postConditions) (substOpt σ f.body) info

/-- Signature and body are kept, and there are no contracts to lose. -/
structure Kept (f : GenericFunc) (concreteTypes : List AstNode) : Prop where
  params : ∀ param ∈ f.params, ParamKept (concreteFor f.typeParams concreteTypes) param
  returnType : TypeKeptOpt (concreteFor f.typeParams concreteTypes) f.returnType
  body : NodeKeptOpt (concreteFor f.typeParams concreteTypes) f.body
  preConditions : f.preConditions = []
  postConditions : f.postConditions = []

end GenericFunc

theorem substNodes_eq_nil {σ : Bytes → Option AstNode} (nodes : List AstNode) :
    substNodes σ nodes = [] ↔ nodes = [] := by
  cases nodes <;> simp [substNodes]

/-- The copy of a generic function has its signature, contracts and body with
the type parameters replaced exactly when they are kept. -/
theorem monomorphize_faithful_iff (f : GenericFunc) (concreteTypes : List AstNode) :
    (∃ fuel info, monomorphizeFunc fuel concreteTypes f.node =
        some (f.substituted concreteTypes info)) ↔ f.Kept concreteTypes := by
  have hparams := Stable.mapM_list (monomorphizeParam_stable f.typeParams concreteTypes)
  have htype := monomorphizeTypeOpt_stable f.typeParams concreteTypes
  have hbody := monomorphizeNodeOpt_stable f.typeParams concreteTypes
  have hreturns : (∃ info, Returns (fun n => monomorphizeFunc n concreteTypes f.node)
      (f.substituted concreteTypes info)) ↔ f.Kept concreteTypes := by
    simp [GenericFunc.node, monomorphizeFunc, GenericFunc.substituted, returns_bind, Stable.bind,
      Stable.bind₂, hparams, htype, hbody, monomorphizeTypeOpt_iff, monomorphizeParams_iff,
      monomorphizeNodeOpt_iff,
      substNodes_eq_nil]
    constructor
    · rintro ⟨hreturn, hparams, hbody, hpre, hpost⟩
      exact ⟨hparams, hreturn, hbody, hpre, hpost⟩
    · rintro ⟨hparams, hreturn, hbody, hpre, hpost⟩
      exact ⟨hreturn, hparams, hbody, hpre, hpost⟩
  rw [← hreturns, exists_comm]
  rfl

/-- `return a ? 1 : 2` is copied as a conditional without operands. -/
theorem ternary_not_copied :
    ¬ ∀ (f : GenericFunc) (concreteTypes : List AstNode), ∃ fuel info,
      monomorphizeFunc fuel concreteTypes f.node = some (f.substituted concreteTypes info) := by
  intro h
  obtain ⟨fuel, info, hcopy⟩ := h
    { name := bytes "pick", typeParams := [.ident (bytes "T")], params := [], returnType := none
      preConditions := [], postConditions := []
      body := some (.returnNode (some
        (.ternary [.ident (bytes "a"), .literalInt 1 false, .literalInt 2 false])))
      info := {}, generic := by simp } [.typePrimitive .i64]
  simp [GenericFunc.node, monomorphizeFunc, GenericFunc.substituted, monomorphizeNodeOpt, monomorphizeNode,
    monomorphizeExprOpt, monomorphizeExpr, AstNode.blank, substOpt, substNode, substNodes] at hcopy

end Aether.Semantic
