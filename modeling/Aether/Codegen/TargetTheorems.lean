/-
Aether.Codegen.TargetTheorems — every label that the code of a program uses is
there.

A jump stays in the code of its own node, and a call goes to a function of
the program. So the one label that may be missing is that of a function that
is declared without a body.
-/
import Aether.Codegen.ProgramTheorems

namespace Aether.Codegen.Functions

open Aether.Lib Layout

/-! ## §1 The labels that code uses -/

def Instr.target : Instr → Option Label
  | .jz l | .jnz l | .jmp l | .call l => some l
  | _ => none

def targets (items : List Instr) : List Label := items.filterMap Instr.target

theorem targets_append (a b : List Instr) : targets (a ++ b) = targets a ++ targets b :=
  List.filterMap_append

theorem mem_labels {l : Label} {items : List Instr} : l ∈ labels items ↔ .label l ∈ items := by
  rw [labels, List.mem_filterMap]
  constructor
  · rintro ⟨item, hmem, hitem⟩
    cases item with
    | label l' => exact Option.some.inj hitem ▸ hmem
    | _ => cases hitem
  · exact fun h => ⟨_, h, rfl⟩

/-- Each label that is used is defined here, or known. -/
def Closed (known : Label → Prop) (items : List Instr) : Prop :=
  ∀ l ∈ targets items, l ∈ labels items ∨ known l

section

variable {known : Label → Prop} {a b : List Instr}

theorem Closed.free (h : targets a = []) : Closed known a := by
  intro l hl
  rw [h] at hl
  cases hl

theorem Closed.append (h : Closed known a) (h' : Closed known b) : Closed known (a ++ b) := by
  intro l hl
  rw [targets_append, List.mem_append] at hl
  rw [labels_append, List.mem_append]
  rcases hl with hl | hl
  · exact (h l hl).imp_left .inl
  · exact (h' l hl).imp_left .inr

/-- Labels that the code defines itself need not be known. -/
theorem Closed.bind {own : List Label} (h : Closed (fun l => known l ∨ l ∈ own) a)
    (hown : ∀ l ∈ own, l ∈ labels a) : Closed known a := by
  intro l hl
  rcases h l hl with hmem | hknown | hmem
  · exact .inl hmem
  · exact .inr hknown
  · exact .inl (hown l hmem)

theorem Closed.own {own : List Label} (items : List Instr) (h : ∀ l ∈ targets items, l ∈ own) :
    Closed (fun l => known l ∨ l ∈ own) items := fun l hl => .inr (.inr (h l hl))

end

/-! ## §2 The code of a function -/

theorem cgBinary_closed {known : Label → Prop} {k : Nat} {op : BinOp} {o : Code}
    (h : cgBinary k op = some o) : Closed known o.1 := by
  cases op
  case assign | concat => cases h
  all_goals
    obtain rfl := Option.some.inj h
  case and | or | orElse | power =>
    intro l hl
    refine .inl ?_
    simp only [targets, labels, List.filterMap_cons, List.filterMap_nil, Instr.target,
      Instr.labelOf, List.mem_cons, List.not_mem_nil, or_false] at hl ⊢
    grind
  all_goals
    exact .free rfl

theorem storeTo_targets {slots : List VarSlot} {left : AstNode} {store : List Instr}
    (h : storeTo slots left = some store) : targets store = [] := by
  cases left
  case ident name =>
    obtain ⟨slot, -, rfl⟩ := Option.map_eq_some_iff.mp h
    rfl
  all_goals
    cases h

theorem storeBack_targets {slots : List VarSlot} {op : BinOp} {left : AstNode}
    {store : List Instr} (h : storeBack slots op left = some store) : targets store = [] := by
  unfold storeBack at h
  split at h
  · exact storeTo_targets h
  · obtain rfl := Option.some.inj h
    rfl

theorem cgUnary_targets {op : UnaryOp} {o : List Instr} (h : cgUnary op = some o) :
    targets o = [] := by
  cases op
  case neg | not | bitNot =>
    obtain rfl := Option.some.inj h
    rfl
  all_goals
    cases h

theorem targets_map_pop (regs : List Reg) : targets (regs.map .pop) = [] := by
  simp [targets, List.filterMap_map, Instr.target, Function.comp_def]

section

variable {decls : List AstNode} {slots : List VarSlot}

mutual

theorem cgExpr_closed {known : Label → Prop}
    (hcalls : ∀ name, (arity decls name).isSome = true → known (.func name)) (node : AstNode)
    {k : Nat} {code : Code} (h : cgExpr decls slots node k = some code) : Closed known code.1 := by
  cases node with
  | literalInt | literalBool | literalChar | literalNone =>
    obtain rfl := Option.some.inj h
    exact .free rfl
  | ident name =>
    simp only [cgExpr] at h
    split at h
    · obtain rfl := Option.some.inj h
      exact .free rfl
    · obtain ⟨slot, -, rfl⟩ := Option.map_eq_some_iff.mp h
      exact .free rfl
  | binaryOp op left right customOp =>
    cases left with
    | none => cases h
    | some left =>
      cases right with
      | none => cases h
      | some right =>
        simp only [cgExpr, Option.bind_eq_bind, Option.bind_eq_some_iff, Option.pure_def] at h
        obtain ⟨r, hr, h⟩ := h
        have hclosedR := cgExpr_closed hcalls right hr
        by_cases hassign : op = .assign
        · simp only [hassign, if_true, Option.bind_eq_some_iff, Option.some.injEq] at h
          obtain ⟨store, hstore, rfl⟩ := h
          have hcopy : targets [.push .rax, .pop .rax] = [] := rfl
          exact (hclosedR.append (.free hcopy)).append (.free (storeTo_targets hstore))
        · simp only [hassign, if_false, Option.bind_eq_some_iff, Option.some.injEq] at h
          obtain ⟨l, hl, o, ho, store, hstore, rfl⟩ := h
          have hoperands := (hclosedR.append (.free (a := [.push .rax]) rfl)).append (cgExpr_closed hcalls left hl)
          exact ((hoperands.append (.free rfl)).append (cgBinary_closed ho)).append
            (.free (storeBack_targets hstore))
  | unaryOp op operand =>
    cases operand with
    | none => cases h
    | some operand =>
      simp only [cgExpr, Option.bind_eq_bind, Option.bind_eq_some_iff, Option.pure_def,
        Option.some.injEq] at h
      obtain ⟨e, he, o, ho, rfl⟩ := h
      exact (cgExpr_closed hcalls operand he).append (.free (cgUnary_targets ho))
  | call callee args =>
    cases callee with
    | none => cases h
    | some callee =>
      cases callee
      case ident name =>
        simp only [cgExpr, Option.bind_eq_bind, Option.bind_eq_some_iff] at h
        obtain ⟨argc, hargc, h⟩ := h
        split at h
        · simp only [Option.bind_eq_some_iff, Option.pure_def, Option.some.injEq] at h
          obtain ⟨a, ha, rfl⟩ := h
          have hcall : Closed known [.call (.func name)] := by
            intro l hl
            obtain rfl := List.mem_singleton.mp hl
            exact .inr (hcalls name (Option.isSome_of_eq_some hargc))
          exact ((cgArgs_closed hcalls args ha).append (.free (targets_map_pop _))).append hcall
        · cases h
      all_goals
        cases h
  | _ => cases h

theorem cgArgs_closed {known : Label → Prop}
    (hcalls : ∀ name, (arity decls name).isSome = true → known (.func name)) (args : List AstNode)
    {k : Nat} {code : Code} (h : cgArgs decls slots args k = some code) : Closed known code.1 := by
  cases args with
  | nil =>
    obtain rfl := Option.some.inj h
    exact .free rfl
  | cons arg args =>
    simp only [cgArgs, Option.bind_eq_bind, Option.bind_eq_some_iff, Option.pure_def,
      Option.some.injEq] at h
    obtain ⟨a, ha, e, he, rfl⟩ := h
    exact ((cgArgs_closed hcalls args ha).append (cgExpr_closed hcalls arg he)).append (.free rfl)

end

mutual

theorem cgStmt_closed {known : Label → Prop}
    (hcalls : ∀ name, (arity decls name).isSome = true → known (.func name)) (node : AstNode)
    {k : Nat} {code : Code} (h : cgStmt decls slots node k = some code) : Closed known code.1 := by
  cases node with
  | returnNode value =>
    cases value with
    | none => cases h
    | some value =>
      simp only [cgStmt, Option.bind_eq_bind, Option.bind_eq_some_iff, Option.pure_def,
        Option.some.injEq] at h
      obtain ⟨e, he, rfl⟩ := h
      exact ((cgExpr_closed hcalls value he).append (.free rfl)).append (.free rfl)
  | letNode name type value isMut isGlobal =>
    simp only [cgStmt, Option.bind_eq_bind, Option.bind_eq_some_iff] at h
    obtain ⟨slot, -, h⟩ := h
    split at h
    · cases h
    · cases value with
      | none =>
        obtain rfl := Option.some.inj h
        exact .free rfl
      | some value =>
        simp only [Option.bind_eq_some_iff, Option.pure_def, Option.some.injEq] at h
        obtain ⟨e, he, rfl⟩ := h
        exact (cgExpr_closed hcalls value he).append (.free rfl)
  | exprStmt expr =>
    cases expr with
    | none => cases h
    | some expr => exact cgExpr_closed hcalls expr h
  | block stmts => exact cgStmts_closed hcalls stmts h
  | unsafeNode stmts => exact cgStmts_closed hcalls stmts h
  | runBlock body =>
    obtain rfl := Option.some.inj h
    exact .free rfl
  | ifNode condition thenBlock elifChain elseBlock =>
    cases condition with
    | none => cases h
    | some condition =>
      simp only [cgStmt] at h
      split at h
      · cases h
      · simp only [Option.bind_eq_bind, Option.bind_eq_some_iff, Option.pure_def,
          Option.some.injEq] at h
        obtain ⟨c, hc, t, ht, elif, helif, e, he, rfl⟩ := h
        -- the parts know the two labels of the chain
        have hcalls' := fun name harity =>
          (.inl (hcalls name harity) : known (.func name) ∨ .func name ∈ [Label.num k, .num (k + 1)])
        have hthen := ((cgExpr_closed hcalls' condition hc).append
          (.own [.test .rax, .jz (.num k)] (by simp [targets, Instr.target]))).append
          (cgStmtOpt_closed hcalls' thenBlock ht)
        have helse := ((hthen.append (.own [.jmp (.num (k + 1)), .label (.num k)]
          (by simp [targets, Instr.target]))).append
          (cgStmtOpt_closed hcalls' elifChain helif)).append (cgStmtOpt_closed hcalls' elseBlock he)
        refine (helse.append (.free rfl)).bind ?_
        simp [mem_labels]
  | whileNode condition body =>
    cases condition with
    | none => cases h
    | some condition =>
      simp only [cgStmt, Option.bind_eq_bind, Option.bind_eq_some_iff, Option.pure_def,
        Option.some.injEq] at h
      obtain ⟨c, hc, b, hb, rfl⟩ := h
      have hcalls' := fun name harity =>
        (.inl (hcalls name harity) : known (.func name) ∨ .func name ∈ [Label.num k, .num (k + 1)])
      have hstart : Closed (fun l => known l ∨ l ∈ [Label.num k, .num (k + 1)])
        [.label (.num k)] := .free rfl
      have hcond := (hstart.append (cgExpr_closed hcalls' condition hc)).append
        (.own [.test .rax, .jz (.num (k + 1))] (by simp [targets, Instr.target]))
      have hturn := (hcond.append (cgStmtOpt_closed hcalls' body hb)).append
        (.own [.jmp (.num k), .label (.num (k + 1))] (by simp [targets, Instr.target]))
      refine hturn.bind ?_
      simp [mem_labels]
  | _ => cases h

theorem cgStmtOpt_closed {known : Label → Prop}
    (hcalls : ∀ name, (arity decls name).isSome = true → known (.func name))
    (node : Option AstNode) {k : Nat} {code : Code} (h : cgStmtOpt decls slots node k = some code) :
    Closed known code.1 := by
  cases node with
  | none =>
    obtain rfl := Option.some.inj h
    exact .free rfl
  | some stmt => exact cgStmt_closed hcalls stmt h

theorem cgStmts_closed {known : Label → Prop}
    (hcalls : ∀ name, (arity decls name).isSome = true → known (.func name))
    (nodes : List AstNode) {k : Nat} {code : Code} (h : cgStmts decls slots nodes k = some code) :
    Closed known code.1 := by
  cases nodes with
  | nil =>
    obtain rfl := Option.some.inj h
    exact .free rfl
  | cons stmt stmts =>
    simp only [cgStmts, Option.bind_eq_bind, Option.bind_eq_some_iff, Option.pure_def,
      Option.some.injEq] at h
    obtain ⟨s, hs, r, hr, rfl⟩ := h
    exact (cgStmt_closed hcalls stmt hs).append (cgStmts_closed hcalls stmts hr)

end

end

/-! ## §3 The code of a program -/

theorem spillParams_targets {slots : List VarSlot} (params : List AstNode) {regs : List Reg}
    {spills : List Instr} (h : spillParams slots params regs = some spills) :
    targets spills = [] := by
  induction params generalizing regs spills with
  | nil =>
    obtain rfl := Option.some.inj h
    rfl
  | cons param params ih =>
    cases regs with
    | nil =>
      obtain rfl := Option.some.inj h
      rfl
    | cons r regs =>
      simp only [spillParams, Option.bind_eq_bind, Option.bind_eq_some_iff, Option.pure_def,
        Option.some.injEq] at h
      obtain ⟨slot, -, rest, hrest, rfl⟩ := h
      exact (ih hrest :)

theorem cgFunc_closed {reg : Registry} {decls : List AstNode} {known : Label → Prop}
    (hcalls : ∀ name, (arity decls name).isSome = true → known (.func name)) {decl : AstNode}
    (hbody : hasBody decl = true) {k : Nat} {code : Code}
    (h : cgFunc reg decls decl k = some code) : Closed known code.1 := by
  cases decl
  case funcDecl name typeParams params returnType pre post body info =>
    cases body with
    | none => cases hbody
    | some body =>
      obtain ⟨-, spills, b, hspills, hb, hitems, -⟩ := cgFunc_inv h
      have hreserve : ∀ size, targets (if 0 < size then [.reserve size] else []) = [] := by
        intro size
        split
        · rfl
        · rfl
      have hdefault : targets (if bodyHasReturn body then [] else [.mov .rax 0]) = [] := by
        split
        · rfl
        · rfl
      rw [hitems, funcRest]
      refine .append (.free rfl) (.append (.free (hreserve _)) ?_)
      refine .append (.free (spillParams_targets params hspills)) ?_
      exact .append (cgStmt_closed hcalls body hb) (.append (.free hdefault) (.free rfl))
  all_goals
    cases hbody

theorem cgFuncs_closed {reg : Registry} {decls : List AstNode} {known : Label → Prop}
    (hcalls : ∀ name, (arity decls name).isSome = true → known (.func name)) (rest : List AstNode)
    {k : Nat} {code : Code} (h : cgFuncs reg decls rest k = some code) : Closed known code.1 := by
  induction rest generalizing k code with
  | nil =>
    obtain rfl := Option.some.inj h
    exact .free rfl
  | cons decl rest ih =>
    simp only [cgFuncs] at h
    by_cases hbody : hasBody decl = true
    · simp only [hbody, if_true, Option.bind_eq_bind, Option.bind_eq_some_iff, Option.pure_def,
        Option.some.injEq] at h
      obtain ⟨f, hf, r, hr, rfl⟩ := h
      exact (cgFunc_closed hcalls hbody hf).append (ih hr)
    · simp only [hbody] at h
      exact ih h

/-- A function of the program that has a body is at its label. -/
theorem cgFuncs_label {reg : Registry} {decls rest : List AstNode} {decl : AstNode} {k : Nat}
    {code : Code} (h : cgFuncs reg decls rest k = some code) (hmem : decl ∈ rest)
    (hbody : hasBody decl = true) {name : Bytes} (hname : funcName decl = some name) :
    .func name ∈ labels code.1 := by
  obtain ⟨pre, m, f, post, hf, heq⟩ := cgFuncs_split rest h hmem hbody
  obtain ⟨name', items, hname', hlabels, -⟩ := cgFunc_labels hbody hf
  obtain rfl := Option.some.inj (hname.symm.trans hname')
  rw [heq, labels_append, labels_append, hlabels]
  simp

theorem findFunc_of_arity {decls : List AstNode} {name : Bytes}
    (h : (arity decls name).isSome = true) :
    ∃ decl ∈ decls, findFunc decls name = some decl ∧ funcName decl = some name := by
  unfold arity at h
  cases hfunc : findFunc decls name with
  | none => simp [hfunc] at h
  | some decl =>
    have hpred := List.find?_some hfunc
    refine ⟨decl, List.mem_of_find?_eq_some hfunc, rfl, ?_⟩
    cases decl with
    | funcDecl name' => exact congrArg some (eq_of_beq hpred)
    | _ => cases hpred

end Aether.Codegen.Functions
