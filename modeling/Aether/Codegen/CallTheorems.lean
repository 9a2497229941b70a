/-
Aether.Codegen.CallTheorems — a call of a function, and a whole program.

A call makes an activation: the place to return to and the caller's `rbp` on
the stack, the frame below them, the arguments in their slots. The theorems
on expressions and statements meet here, by induction on the fuel.
-/
import Aether.Codegen.FunctionTheorems

namespace Aether.Codegen.Functions

open Aether.Lib Layout
open RangeLoops (Word setIf loadSized)

/-! ## §1 The parts of a function -/

theorem plainSlots_pos {decls : List AstNode} {slots : List VarSlot}
    (h : plainSlots decls slots = true) : ∀ slot ∈ slots, 0 < slot.size := by
  intro slot hslot
  have hall := (Bool.and_eq_true_iff.mp h).1
  have hplain := List.all_eq_true.mp hall slot hslot
  simp only [isPlain, Bool.and_eq_true, decide_eq_true_iff] at hplain
  exact hplain.1.1

/-- The activation of a function whose variables are plain. -/
def activationOf (reg : Registry) {decls params : List AstNode} {body : Option AstNode}
    (h : plainSlots decls (computeFrame reg params body).1 = true) (rbp base : Int) (ret : Nat) :
    Activation where
  slots := (computeFrame reg params body).1
  size := (computeFrame reg params body).2
  rbp := rbp
  base := base
  ret := ret
  inside := slot_below (computeFrame_laid reg params body).sound (plainSlots_pos h)
  apart := slot_apart (computeFrame_laid reg params body).sound (plainSlots_pos h)

/-- What follows the label, `push rbp` and `mov rbp, rsp`. -/
def funcRest (size : Nat) (spills : List Instr) (body : AstNode) (b : Code) : List Instr :=
  (if 0 < size then [.reserve size] else []) ++
    (spills ++ (b.1 ++ ((if bodyHasReturn body then [] else [.mov .rax 0]) ++ epilogue)))

theorem cgFunc_inv {reg : Registry} {decls params pre post typeParams : List AstNode}
    {returnType : Option AstNode} {body : AstNode} {info : FuncInfo} {name : Bytes} {k : Nat}
    {code : Code}
    (h : cgFunc reg decls
      (.funcDecl name typeParams params returnType pre post (some body) info) k = some code) :
    plainSlots decls (computeFrame reg params (some body)).1 = true ∧
      ∃ spills b, spillParams (computeFrame reg params (some body)).1 params argRegs = some spills ∧
        cgStmt decls (computeFrame reg params (some body)).1 body k = some b ∧
        code.1 = [.label (.func name), .pushBase, .enter] ++
          funcRest (computeFrame reg params (some body)).2 spills body b ∧ code.2 = b.2 := by
  cases returnType with
  | none => cases h
  | some returnType =>
    cases pre with
    | cons _ _ => cases h
    | nil =>
      cases post with
      | cons _ _ => cases h
      | nil =>
        simp only [cgFunc] at h
        split at h
        · cases h
        · rename_i hguard
          simp only [Option.bind_eq_bind, Option.bind_eq_some_iff, Option.pure_def,
            Option.some.injEq] at h
          obtain ⟨spills, hspills, b, hb, rfl⟩ := h
          simp only [Bool.or_eq_true, Bool.not_eq_true', not_or, Bool.not_eq_false] at hguard
          refine ⟨hguard.2, spills, b, hspills, hb, ?_, rfl⟩
          simp only [funcRest, List.append_assoc]

section

variable {reg : Registry} {decls : List AstNode} {items : List Instr}

/-- The arguments from the registers into their slots. -/
theorem reaches_spills {f : Activation} (params : List AstNode) :
    ∀ (regs : List Reg) (ws : List Word) (env : Env) (pc : Nat) (s : State) (code : List Instr),
      spillParams f.slots params regs = some code → (machine items).At pc code →
      params.length = ws.length → ws.length ≤ regs.length →
      List.Forall₂ (fun r w => s.regs r = w) (regs.take ws.length) ws → Inv f env s →
      ∃ t, (machine items).Reaches (pc, s) (pc + code.length, t) ∧ t.rsp = s.rsp ∧ Kept f s t ∧
        Inv f (bindParams env params ws) t := by
  induction params with
  | nil =>
    intro regs ws env pc s code hcode _ hlen _ _ hinv
    obtain rfl := Option.some.inj hcode
    obtain rfl := List.length_eq_zero_iff.mp hlen.symm
    exact ⟨s, .refl _ _, rfl, fun _ _ _ => rfl, hinv⟩
  | cons param params ih =>
    intro regs ws env pc s code hcode hat hlen hle hall hinv
    cases ws with
    | nil => cases hlen
    | cons w ws =>
      cases regs with
      | nil => cases hle
      | cons r regs =>
        simp only [spillParams, Option.bind_eq_bind, Option.bind_eq_some_iff, Option.pure_def,
          Option.some.injEq] at hcode
        obtain ⟨slot, hslot, rest, hrest, rfl⟩ := hcode
        rw [List.length_cons, List.take_succ_cons, List.forall₂_cons] at hall
        let s₁ : State := s.write (s.rbp + slot.stackOffset) (.word (s.regs r))
        have hinv₁ : Inv f (env.set (paramName param) w) s₁ :=
          hinv.assign hslot (by rw [hall.1])
        have hkept₁ : Kept f s s₁ := .write _ hinv.rbp (mem_of_findSlot hslot).1
        obtain ⟨t, hreach, hrsp, hkept, hinvt⟩ := ih regs ws _ (pc + 1) s₁ rest hrest hat.2
          (Nat.succ.inj hlen) (Nat.le_of_succ_le_succ hle) hall.2 hinv₁
        refine ⟨t, ?_, hrsp, hkept₁.trans hkept le_rfl, hinvt⟩
        rw [List.length_cons, Nat.add_comm rest.length, ← Nat.add_assoc]
        exact (CallCode.Reaches.next hat.1 rfl).trans hreach

theorem returnNode_returns {n : Nat} {slots : List VarSlot} {env : Env} {value : Option AstNode}
    {r : Env × Option Word} (hrun : execStmt reg decls n slots env (.returnNode value) = .ok r) :
    r.2.isSome = true := by
  cases n with
  | zero => cases hrun
  | succ n =>
    cases value with
    | none => cases hrun
    | some value =>
      simp only [execStmt] at hrun
      cases hvalue : evalExpr reg decls n slots env value with
      | error x =>
        rw [hvalue] at hrun
        cases hrun
      | ok e =>
        rw [hvalue] at hrun
        obtain rfl := Except.ok.inj hrun
        rfl

theorem execStmts_returns (n : Nat) :
    ∀ (slots : List VarSlot) (env : Env) (stmts : List AstNode) (r : Env × Option Word),
      stmts.getLast?.any isReturn = true →
      execStmts reg decls n slots env stmts = .ok r → r.2.isSome = true := by
  induction n with
  | zero =>
    intro slots env stmts r _ hrun
    cases hrun
  | succ n ih =>
    intro slots env stmts r hlast hrun
    cases stmts with
    | nil => cases hlast
    | cons stmt stmts =>
      simp only [execStmts] at hrun
      cases hstmt : execStmt reg decls n slots env stmt with
      | error x =>
        rw [hstmt] at hrun
        cases hrun
      | ok r₁ =>
        rw [hstmt] at hrun
        change (if r₁.2.isSome = true then .ok r₁ else _) = Except.ok r at hrun
        by_cases hsome : r₁.2.isSome = true
        · rw [if_pos hsome] at hrun
          obtain rfl := Except.ok.inj hrun
          exact hsome
        · rw [if_neg hsome] at hrun
          cases stmts with
          | cons next rest => exact ih slots r₁.1 (next :: rest) r hlast hrun
          | nil =>
            cases stmt
            case returnNode value => exact absurd (returnNode_returns hstmt) hsome
            all_goals
              cases hlast

/-- A body that ends with a return returns. -/
theorem execStmt_returns {n : Nat} {slots : List VarSlot} {env : Env} {body : AstNode}
    {r : Env × Option Word} (hbody : bodyHasReturn body = true)
    (hrun : execStmt reg decls n slots env body = .ok r) : r.2.isSome = true := by
  cases body
  case returnNode value => exact returnNode_returns hrun
  case block stmts =>
    cases n with
    | zero => cases hrun
    | succ n => exact execStmts_returns n slots env stmts r hbody hrun
  all_goals
    cases hbody

/-! ## §2 A call -/

/-- The frame of a function that was called: `rbp` is where the caller's is
kept, below the place to return to. -/
theorem reaches_prologue {f : Activation} {s : State} {pc ret : Nat} {size : Nat} {name : Bytes}
    (hat : (machine items).At pc ([.label (.func name), .pushBase, .enter] ++
      (if 0 < size then [Instr.reserve size] else [])))
    (hrbp : f.rbp = s.rsp - 16) (hbase : f.base = s.rbp) (hret : f.ret = ret) (hsize : f.size = size) :
    ∃ t, (machine items).Reaches (pc, s.pushed (.place ret))
        (pc + 3 + (if 0 < size then [Instr.reserve size] else []).length, t) ∧
      t.regs = s.regs ∧ t.rsp = f.rbp - size ∧ (∀ a, s.rsp ≤ a → t.mem a = s.mem a) ∧
      Inv f (fun _ => none) t := by
  rw [CallCode.at_append] at hat
  obtain ⟨⟨hlabel, hpush, henter, -⟩, hreserve⟩ := hat
  let s₁ : State := s.pushed (.place ret)
  let s₂ : State := s₁.pushed (.base s.rbp)
  let s₃ : State := { s₂ with rbp := s₂.rsp }
  have hready : (machine items).Reaches (pc, s₁) (pc + 3, s₃) :=
    ((CallCode.Reaches.next hlabel rfl).trans (.next hpush rfl)).trans (.next henter rfl)
  have hrsp₂ : s₂.rsp = f.rbp := by
    change s.rsp - 8 - 8 = f.rbp
    omega
  have hmem : ∀ a, s.rsp ≤ a → s₂.mem a = s.mem a := by
    intro a ha
    have hne : a ≠ s₁.rsp - 8 := by
      change a ≠ s.rsp - 8 - 8
      omega
    exact (if_neg hne).trans (if_neg (by omega))
  have hsaved : s₂.mem f.rbp = .base f.base := by
    rw [hbase, ← hrsp₂]
    exact write_mem_self s₁ _ _
  have hback : s₂.mem (f.rbp + 8) = .place f.ret := by
    have hcell : f.rbp + 8 = s.rsp - 8 := by omega
    have hne : s.rsp - 8 ≠ s₁.rsp - 8 := by
      change s.rsp - 8 ≠ s.rsp - 8 - 8
      omega
    rw [hret, hcell]
    exact (if_neg hne).trans (if_pos rfl)
  have hinv : ∀ t : State, t.rbp = f.rbp → t.rsp = f.rbp - f.size → t.mem = s₂.mem →
      Inv f (fun _ => none) t := by
    intro t hrbpt hrspt hmemt
    refine ⟨hrbpt, hrspt.le, by rw [hmemt, hsaved], by rw [hmemt, hback], ?_⟩
    intro name slot w _ hw
    cases hw
  by_cases hpos : 0 < size
  · rw [if_pos hpos] at hreserve ⊢
    refine ⟨{ s₃ with rsp := s₃.rsp - size }, hready.trans (.next hreserve.1 rfl), rfl, ?_, hmem,
      hinv _ hrsp₂ ?_ rfl⟩
    · exact congrArg (· - (size : Int)) hrsp₂
    · rw [hsize]
      exact congrArg (· - (size : Int)) hrsp₂
  · rw [if_neg hpos]
    have hzero : size = 0 := by omega
    have hrsp₃ : s₃.rsp = f.rbp - size := by
      rw [hzero]
      exact hrsp₂.trans (by simp)
    exact ⟨s₃, hready, rfl, hrsp₃, hmem, hinv _ hrsp₂ (hsize ▸ hrsp₃) rfl⟩

/-- The end of a body that does not return: 0, and the epilogue. -/
theorem does_end (env : Env) {f : Activation} {s : State} {pc : Nat} {body : AstNode}
    {r : Env × Option Word} {b : Nat × State}
    (hat : (machine items).At pc ((if bodyHasReturn body then [] else [.mov .rax 0]) ++ epilogue))
    (hreturns : bodyHasReturn body = true → r.2.isSome = true) (hpost : StmtPost f s pc r b)
    (hroom : s.rsp ≤ f.rbp - f.size) :
    ∃ d, (machine items).Reaches b d ∧ StmtPost f s pc (env, some (r.2.getD 0)) d := by
  cases hr : r.2 with
  | some w =>
    unfold StmtPost at hpost ⊢
    rw [hr] at hpost
    exact ⟨b, .refl _ _, hpost⟩
  | none =>
    have hbody : bodyHasReturn body ≠ true := fun h => by simpa [hr] using hreturns h
    unfold StmtPost at hpost
    rw [hr] at hpost
    obtain ⟨pcb, t⟩ := b
    obtain ⟨hplace, hrsp, hkept, hinv⟩ := hpost
    obtain rfl : pcb = pc := hplace
    rw [if_neg hbody, List.singleton_append] at hat
    obtain ⟨u, hreach, hregs, hrspu, hrbpu, hmemu⟩ :=
      reaches_epilogue hat.2 (Inv.above hinv (.set t .rax 0))
    refine ⟨_, (CallCode.Reaches.next hat.1 rfl).trans hreach, rfl, ?_, hrspu, hrbpu, fun a ha => ?_⟩
    · rw [hregs]
      rfl
    · refine (congrFun hmemu a).trans (hkept a (by omega) fun slot hslot => ?_)
      have := (f.inside slot hslot).2
      omega

end

/-! ## §3 Programs -/

/-- Code that has the functions of a program, each under its label. -/
structure Linked (reg : Registry) (decls : List AstNode) (items : List Instr) : Prop where
  unique : (machine items).UniqueLabels
  funcs : ∀ name decl, findFunc decls name = some decl → hasBody decl = true →
    ∃ pc k code, cgFunc reg decls decl k = some code ∧ (machine items).At pc code.1

section

variable {reg : Registry} {decls : List AstNode} {items : List Instr}

theorem name_of_findFunc {name name' : Bytes} {typeParams params pre post : List AstNode}
    {returnType body : Option AstNode} {info : FuncInfo}
    (h : findFunc decls name =
      some (.funcDecl name' typeParams params returnType pre post body info)) : name' = name :=
  beq_iff_eq.mp (List.find?_some h :)

theorem callOk_succ {n : Nat} (hlinked : Linked reg decls items) (hstmt : StmtOk reg decls items n) :
    CallOk reg decls items (n + 1) := by
  intro name ws pc s hitem harity hargs
  simp only [callFunc]
  unfold arity at harity
  cases hfunc : findFunc decls name with
  | none => exact fun h => by cases h
  | some decl =>
    rw [hfunc] at harity
    cases decl
    case funcDecl name' typeParams params returnType pre post body info =>
      cases body with
      | none => exact fun h => by cases h
      | some body =>
        obtain rfl := name_of_findFunc hfunc
        obtain ⟨pcf, k, code, hcode, hat⟩ := hlinked.funcs name' _ hfunc rfl
        obtain ⟨hplain, spills, b, hspills, hb, hitems, -⟩ := cgFunc_inv hcode
        have hlen : params.length = ws.length ∧ ws.length ≤ 6 := by
          simp only at harity
          split at harity
          · cases harity
          · rename_i hguard
            have heq := Option.some.inj harity
            simp only [Bool.or_eq_true, decide_eq_true_iff, not_or] at hguard
            omega
        let f := activationOf reg hplain (s.rsp - 16) s.rbp (pc + 1)
        rw [hitems, funcRest, ← List.append_assoc, CallCode.at_append] at hat
        have hatHead := hat.1
        have hatRest := hat.2
        have hfound := CallCode.find_of_at hlinked.unique hatHead.1 rfl
        obtain ⟨t, hreach, hregs, hrsp, hmem, hinv⟩ :=
          reaches_prologue (f := f) hatHead rfl rfl rfl rfl
        rw [List.length_append, ← Nat.add_assoc] at hatRest
        rw [CallCode.at_append, CallCode.at_append] at hatRest
        have hall : List.Forall₂ (fun r w => t.regs r = w) (argRegs.take ws.length) ws := by
          rw [hregs]
          exact hargs
        obtain ⟨u, hreach', hrsp', hkept, hinvu⟩ := reaches_spills params argRegs ws _ _ t spills
          hspills hatRest.1 hlen.1 hlen.2 hall hinv
        have hroom := hinvu.room
        refine .after ((CallCode.Reaches.goto hitem rfl hfound).trans (hreach.trans hreach')) ?_
        have hrun := hstmt f _ body k b _ u hb hatRest.2.1 hinvu
        refine .bind_of_eq hrun fun r b hexec hpost => ?_
        obtain ⟨d, hreachEnd, hend⟩ := does_end r.1 hatRest.2.2
          (fun hbody => execStmt_returns hbody hexec) hpost hroom
        refine .ok hreachEnd ⟨hend.1, hend.2.1, ⟨?_, hend.2.2.2.1, fun a ha => ?_⟩⟩
        · refine hend.2.2.1.trans ?_
          change s.rsp - 16 + 16 = s.rsp
          omega
        · have hbelow : f.rbp ≤ a := by
            change s.rsp - 16 ≤ a
            omega
          refine (hend.2.2.2.2 a hbelow).trans ((hkept a ?_ fun slot hslot => ?_).trans (hmem a ha))
          · rw [hrsp]
            omega
          · have := (f.inside slot hslot).2
            omega
    all_goals
      exact fun h => by cases h

/-- All that is said of a fuel. -/
structure AllOk (reg : Registry) (decls : List AstNode) (items : List Instr) (n : Nat) : Prop where
  expr : ExprOk reg decls items n
  args : ArgsOk reg decls items n
  stmt : StmtOk reg decls items n
  opt : StmtOptOk reg decls items n
  stmts : StmtsOk reg decls items n
  call : CallOk reg decls items n

theorem allOk (hlinked : Linked reg decls items) (n : Nat) : AllOk reg decls items n := by
  induction n with
  | zero =>
    refine ⟨?_, ?_, ?_, ?_, ?_, ?_⟩
    · intro f env node k code pc s _ _ _ h
      cases h
    · intro f env args k code pc s _ _ _ h
      cases h
    · intro f env node k code pc s _ _ _ h
      cases h
    · intro f env node k code pc s _ _ _ h
      cases h
    · intro f env nodes k code pc s _ _ _ h
      cases h
    · intro name ws pc s _ _ _ h
      cases h
  | succ n ih =>
    exact ⟨exprOk_succ hlinked.unique ih.expr ih.args ih.call, argsOk_succ ih.expr ih.args,
      stmtOk_succ hlinked.unique ih.expr ih.stmt ih.opt ih.stmts, stmtOptOk_succ ih.stmt,
      stmtsOk_succ ih.stmt ih.stmts, callOk_succ hlinked ih.stmt⟩

end

end Aether.Codegen.Functions
