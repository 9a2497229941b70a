/-
Aether.Codegen.FoldTheorems — constant folding keeps what a program does.

The folder computes with unsigned words and drops branches; the generated
code compares signed words and evaluates both operands of `&&` and `||`. A
program is `Steady` where the two agree: no ordering of two constants of
different sign bits, and no declaration in a branch that is dropped. Its
folded functions mean what they meant, so their code does what the source
means.
-/
import Aether.Codegen.ProgramTheorems
import Aether.Optimizer.Fold
import Aether.Lib.Fuel

namespace Aether.Codegen.Functions

open Aether.Lib Layout Optimizer
open Aether.Lib.Fuel (Upto)
open RangeLoops (Word setIf loadSized)

/-! ## §1 More fuel -/

section

variable (reg : Registry) (decls : List AstNode)

/-- One more unit of fuel changes no result. -/
structure Grows (n : Nat) : Prop where
  expr : ∀ slots env node, Upto .outOfFuel (evalExpr reg decls n slots env node)
    (evalExpr reg decls (n + 1) slots env node)
  args : ∀ slots env args, Upto .outOfFuel (evalArgs reg decls n slots env args)
    (evalArgs reg decls (n + 1) slots env args)
  stmt : ∀ slots env node, Upto .outOfFuel (execStmt reg decls n slots env node)
    (execStmt reg decls (n + 1) slots env node)
  opt : ∀ slots env node, Upto .outOfFuel (execStmtOpt reg decls n slots env node)
    (execStmtOpt reg decls (n + 1) slots env node)
  stmts : ∀ slots env nodes, Upto .outOfFuel (execStmts reg decls n slots env nodes)
    (execStmts reg decls (n + 1) slots env nodes)
  call : ∀ name ws, Upto .outOfFuel (callFunc reg decls n name ws)
    (callFunc reg decls (n + 1) name ws)

variable {reg decls} {n : Nat}

theorem Grows.expr_succ (h : Grows reg decls n) (slots : List VarSlot) (env : Env) (node : AstNode) :
    Upto .outOfFuel (evalExpr reg decls (n + 1) slots env node)
      (evalExpr reg decls (n + 2) slots env node) := by
  cases node
  case binaryOp op left right customOp =>
    cases left with
    | none => exact .rfl
    | some left =>
      cases right with
      | none => exact .rfl
      | some right =>
        refine .bind (h.expr slots env right) fun r => .ite (fun _ => .rfl) fun _ => ?_
        exact .bind (h.expr slots r.2 left) fun _ => .rfl
  case unaryOp op operand =>
    cases operand with
    | none => exact .rfl
    | some operand => exact .bind (h.expr slots env operand) fun _ => .rfl
  case call callee args =>
    cases callee with
    | none => exact .rfl
    | some callee =>
      cases callee
      case ident name =>
        exact .bind (h.args slots env args) fun a => .bind (h.call name a.1) fun _ => .rfl
      all_goals exact .rfl
  all_goals exact .rfl

theorem Grows.stmt_succ (h : Grows reg decls n) (slots : List VarSlot) (env : Env) (node : AstNode) :
    Upto .outOfFuel (execStmt reg decls (n + 1) slots env node)
      (execStmt reg decls (n + 2) slots env node) := by
  cases node
  case returnNode value =>
    cases value with
    | none => exact .rfl
    | some value => exact .bind (h.expr slots env value) fun _ => .rfl
  case letNode name type value isMut isGlobal =>
    cases value with
    | none => exact .rfl
    | some value => exact .bind (h.expr slots env value) fun _ => .rfl
  case exprStmt expr =>
    cases expr with
    | none => exact .rfl
    | some expr => exact .bind (h.expr slots env expr) fun _ => .rfl
  case block stmts => exact h.stmts slots env stmts
  case unsafeNode stmts => exact h.stmts slots env stmts
  case ifNode condition thenBlock elifChain elseBlock =>
    cases condition with
    | none => exact .rfl
    | some condition =>
      refine .ite (fun _ => .rfl) fun _ => .bind (h.expr slots env condition) fun c => ?_
      exact .ite (fun _ => h.opt slots c.2 _) fun _ => h.opt slots c.2 thenBlock
  case whileNode condition body =>
    cases condition with
    | none => exact .rfl
    | some condition =>
      refine .bind (h.expr slots env condition) fun c => .ite (fun _ => .rfl) fun _ => ?_
      refine .bind (h.opt slots c.2 body) fun r => .ite (fun _ => .rfl) fun _ => ?_
      exact h.stmt slots r.1 _
  all_goals exact .rfl

theorem grows (n : Nat) : Grows reg decls n := by
  induction n with
  | zero =>
    exact ⟨fun _ _ _ => .out, fun _ _ _ => .out, fun _ _ _ => .out, fun _ _ _ => .out,
      fun _ _ _ => .out, fun _ _ => .out⟩
  | succ n ih =>
    refine ⟨ih.expr_succ, fun slots env args => ?_, ih.stmt_succ, fun slots env node => ?_,
      fun slots env nodes => ?_, fun name ws => ?_⟩
    · cases args with
      | nil => exact .rfl
      | cons arg args =>
        exact .bind (ih.args slots env args) fun a => .bind (ih.expr slots a.2 arg) fun _ => .rfl
    · cases node with
      | none => exact .rfl
      | some node => exact ih.stmt slots env node
    · cases nodes with
      | nil => exact .rfl
      | cons node nodes =>
        refine .bind (ih.stmt slots env node) fun r => .ite (fun _ => .rfl) fun _ => ?_
        exact ih.stmts slots r.1 nodes
    · simp only [callFunc]
      split
      · exact .bind (ih.stmt _ _ _) fun _ => .rfl
      · exact .rfl

end

/-! ## §2 Constants -/

def isOrdering : BinOp → Bool
  | .lt | .gt | .le | .ge => true
  | _ => false

mutual

/-- An expression whose folding computes what its code computes. -/
def FoldsTrue : AstNode → Prop
  | .literalInt _ isNegative => isNegative = false
  | .literalBool _ | .literalChar _ | .literalNone | .ident _ => True
  | .binaryOp op (some left) (some right) _ =>
    FoldsTrue left ∧ FoldsTrue right ∧ (isOrdering op = true → ∀ a b,
      evalConstantInt left = some a → evalConstantInt right = some b →
      a.toBitVec.msb = b.toBitVec.msb)
  | .unaryOp _ (some operand) => FoldsTrue operand
  | .call (some (.ident _)) args => FoldsTrueAll args
  | _ => False

def FoldsTrueAll : List AstNode → Prop
  | [] => True
  | node :: nodes => FoldsTrue node ∧ FoldsTrueAll nodes

end

theorem truth_toBitVec (b : Bool) : (truth b).toBitVec = setIf b := by
  cases b <;> rfl

theorem beq_toBitVec (a b : UInt64) : (a == b) = (a.toBitVec == b.toBitVec) := by
  by_cases h : a = b
  · simp [h]
  · have hne : a.toBitVec ≠ b.toBitVec := fun heq => h (UInt64.toBitVec_inj.mp heq)
    simp [h, hne]

theorem decide_lt_toBitVec (a b : UInt64) (h : a.toBitVec.msb = b.toBitVec.msb) :
    decide (a < b) = a.toBitVec.slt b.toBitVec := by
  rw [BitVec.slt_eq_ult_of_msb_eq h]
  simp [BitVec.ult, UInt64.lt_iff_toNat_lt]

theorem decide_le_toBitVec (a b : UInt64) (h : a.toBitVec.msb = b.toBitVec.msb) :
    decide (a ≤ b) = a.toBitVec.sle b.toBitVec := by
  rw [BitVec.sle_eq_ule_of_msb_eq h]
  simp [BitVec.ule, UInt64.le_iff_toNat_le]

theorem binary_of_evalBinary {a b w : UInt64} {op : BinOp} (h : evalBinary a b op = some w)
    (hsign : isOrdering op = true → a.toBitVec.msb = b.toBitVec.msb) :
    binary op a.toBitVec b.toBitVec = .ok w.toBitVec ∧ isCompound op = false ∧ op ≠ .assign := by
  cases op
  case div | mod =>
    simp only [evalBinary] at h
    split at h
    · cases h
    · rename_i hzero
      obtain rfl := Option.some.inj h
      have hne : ¬ b.toBitVec = 0 := fun heq => hzero (UInt64.toBitVec_inj.mp heq)
      refine ⟨?_, rfl, by decide⟩
      simp only [binary, if_neg hne]
      rfl
  case lt | gt =>
    obtain rfl := Option.some.inj h
    have hmsb := hsign rfl
    refine ⟨?_, rfl, by decide⟩
    simp only [binary, truth_toBitVec, decide_lt_toBitVec _ _ hmsb,
      decide_lt_toBitVec _ _ hmsb.symm, gt_iff_lt]
  case le | ge =>
    obtain rfl := Option.some.inj h
    have hmsb := hsign rfl
    refine ⟨?_, rfl, by decide⟩
    simp only [binary, truth_toBitVec, decide_le_toBitVec _ _ hmsb,
      decide_le_toBitVec _ _ hmsb.symm, ge_iff_le]
  case add | sub | mul | bitAnd | bitOr | bitXor =>
    obtain rfl := Option.some.inj h
    exact ⟨by simp [binary], rfl, by decide⟩
  case shl | shr =>
    obtain rfl := Option.some.inj h
    exact ⟨by simp [binary], rfl, by decide⟩
  case eq | neq | and | or =>
    obtain rfl := Option.some.inj h
    exact ⟨by simp [binary, truth_toBitVec, beq_toBitVec, bne], rfl, by decide⟩
  all_goals cases h

theorem unary_of_evalUnary {a w : UInt64} {op : UnaryOp} (h : evalUnary op a = some w) :
    unary op a.toBitVec = .ok w.toBitVec := by
  cases op
  case neg | bitNot =>
    obtain rfl := Option.some.inj h
    simp [unary]
  case not =>
    obtain rfl := Option.some.inj h
    simp [unary, truth_toBitVec, beq_toBitVec]
  all_goals cases h

section

variable {reg : Registry} {decls : List AstNode}

/-- What the folder finds for a constant is what it evaluates to. -/
theorem evalExpr_of_constant (n : Nat) (slots : List VarSlot) (env : Env) :
    ∀ (node : AstNode) (w : UInt64), FoldsTrue node → evalConstantInt node = some w →
      Upto .outOfFuel (evalExpr reg decls n slots env node) (.ok (w.toBitVec, env)) := by
  induction n with
  | zero => exact fun _ _ _ _ => .out
  | succ n ih =>
    intro node w htrue hval
    cases node
    case literalInt v isNegative =>
      have hneg : isNegative = false := htrue
      subst hneg
      obtain rfl := Option.some.inj hval
      exact .rfl
    case literalBool b =>
      obtain rfl := Option.some.inj hval
      rw [truth_toBitVec]
      exact .rfl
    case literalChar c =>
      obtain rfl := Option.some.inj hval
      exact .rfl
    case binaryOp op left right customOp =>
      cases left with
      | none => cases hval
      | some left =>
        cases right with
        | none => cases hval
        | some right =>
          simp only [evalConstantInt, Option.bind_eq_bind, Option.bind_eq_some_iff] at hval
          obtain ⟨a, ha, b, hb, hw⟩ := hval
          simp only [FoldsTrue] at htrue
          obtain ⟨hleft, hright, hsign⟩ := htrue
          obtain ⟨hbinary, hcompound, hassign⟩ :=
            binary_of_evalBinary hw fun h => hsign h a b ha hb
          simp only [evalExpr]
          refine .bind_ok (ih right b hright hb) ?_
          rw [if_neg hassign]
          refine .bind_ok (ih left a hleft ha) ?_
          rw [hbinary, hcompound]
          exact .rfl
    case unaryOp op operand =>
      cases operand with
      | none => cases hval
      | some operand =>
        simp only [evalConstantInt, Option.bind_eq_bind, Option.bind_eq_some_iff] at hval
        obtain ⟨a, ha, hw⟩ := hval
        simp only [FoldsTrue] at htrue
        simp only [evalExpr]
        refine .bind_ok (ih operand a htrue ha) ?_
        rw [unary_of_evalUnary hw]
        exact .rfl
    all_goals cases hval

end

/-! ## §3 The same node in two programs -/

section

variable (reg : Registry) (decls decls' : List AstNode)

/-- A call in the one program ends as in the other. -/
def CallsAgree (n : Nat) : Prop :=
  ∀ name ws, Upto .outOfFuel (callFunc reg decls n name ws) (callFunc reg decls' n name ws)

structure SameNode (n : Nat) : Prop where
  expr : ∀ slots env node, Upto .outOfFuel (evalExpr reg decls n slots env node)
    (evalExpr reg decls' n slots env node)
  args : ∀ slots env args, Upto .outOfFuel (evalArgs reg decls n slots env args)
    (evalArgs reg decls' n slots env args)
  stmt : ∀ slots env node, Upto .outOfFuel (execStmt reg decls n slots env node)
    (execStmt reg decls' n slots env node)
  opt : ∀ slots env node, Upto .outOfFuel (execStmtOpt reg decls n slots env node)
    (execStmtOpt reg decls' n slots env node)
  stmts : ∀ slots env nodes, Upto .outOfFuel (execStmts reg decls n slots env nodes)
    (execStmts reg decls' n slots env nodes)

variable {reg decls decls'} {n : Nat}

theorem SameNode.expr_succ (h : SameNode reg decls decls' n) (hcall : CallsAgree reg decls decls' n)
    (hconst : findConst decls' = findConst decls) (slots : List VarSlot) (env : Env) (node : AstNode) :
    Upto .outOfFuel (evalExpr reg decls (n + 1) slots env node)
      (evalExpr reg decls' (n + 1) slots env node) := by
  cases node
  case ident name =>
    simp only [evalExpr, hconst]
    exact .rfl
  case binaryOp op left right customOp =>
    cases left with
    | none => exact .rfl
    | some left =>
      cases right with
      | none => exact .rfl
      | some right =>
        refine .bind (h.expr slots env right) fun r => .ite (fun _ => .rfl) fun _ => ?_
        exact .bind (h.expr slots r.2 left) fun _ => .rfl
  case unaryOp op operand =>
    cases operand with
    | none => exact .rfl
    | some operand => exact .bind (h.expr slots env operand) fun _ => .rfl
  case call callee args =>
    cases callee with
    | none => exact .rfl
    | some callee =>
      cases callee
      case ident name =>
        exact .bind (h.args slots env args) fun a => .bind (hcall name a.1) fun _ => .rfl
      all_goals exact .rfl
  all_goals exact .rfl

theorem SameNode.stmt_succ (h : SameNode reg decls decls' n) (slots : List VarSlot) (env : Env)
    (node : AstNode) :
    Upto .outOfFuel (execStmt reg decls (n + 1) slots env node)
      (execStmt reg decls' (n + 1) slots env node) := by
  cases node
  case returnNode value =>
    cases value with
    | none => exact .rfl
    | some value => exact .bind (h.expr slots env value) fun _ => .rfl
  case letNode name type value isMut isGlobal =>
    cases value with
    | none => exact .rfl
    | some value => exact .bind (h.expr slots env value) fun _ => .rfl
  case exprStmt expr =>
    cases expr with
    | none => exact .rfl
    | some expr => exact .bind (h.expr slots env expr) fun _ => .rfl
  case block stmts => exact h.stmts slots env stmts
  case unsafeNode stmts => exact h.stmts slots env stmts
  case ifNode condition thenBlock elifChain elseBlock =>
    cases condition with
    | none => exact .rfl
    | some condition =>
      refine .ite (fun _ => .rfl) fun _ => .bind (h.expr slots env condition) fun c => ?_
      exact .ite (fun _ => h.opt slots c.2 _) fun _ => h.opt slots c.2 thenBlock
  case whileNode condition body =>
    cases condition with
    | none => exact .rfl
    | some condition =>
      refine .bind (h.expr slots env condition) fun c => .ite (fun _ => .rfl) fun _ => ?_
      refine .bind (h.opt slots c.2 body) fun r => .ite (fun _ => .rfl) fun _ => ?_
      exact h.stmt slots r.1 _
  all_goals exact .rfl

theorem sameNode (hconst : findConst decls' = findConst decls) (n : Nat)
    (hcalls : ∀ m, m < n → CallsAgree reg decls decls' m) : SameNode reg decls decls' n := by
  induction n with
  | zero => exact ⟨fun _ _ _ => .out, fun _ _ _ => .out, fun _ _ _ => .out, fun _ _ _ => .out,
      fun _ _ _ => .out⟩
  | succ n ih =>
    have ih := ih fun m hm => hcalls m (Nat.lt_succ_of_lt hm)
    refine ⟨ih.expr_succ (hcalls n (Nat.lt_succ_self n)) hconst, fun slots env args => ?_,
      ih.stmt_succ, fun slots env node => ?_, fun slots env nodes => ?_⟩
    · cases args with
      | nil => exact .rfl
      | cons arg args =>
        exact .bind (ih.args slots env args) fun a => .bind (ih.expr slots a.2 arg) fun _ => .rfl
    · cases node with
      | none => exact .rfl
      | some node => exact ih.stmt slots env node
    · cases nodes with
      | nil => exact .rfl
      | cons node nodes =>
        refine .bind (ih.stmt slots env node) fun r => .ite (fun _ => .rfl) fun _ => ?_
        exact ih.stmts slots r.1 nodes

end

/-! ## §4 Folded expressions -/

section

variable (reg : Registry) (decls decls' : List AstNode)

/-- An expression and what folding leaves of it: of the same value, the same
kind where its kind matters, and the same meaning in the folded program. -/
structure FoldedExpr (node folded : AstNode) : Prop where
  foldsTrue : FoldsTrue folded
  constant : evalConstantInt folded = evalConstantInt node
  ident : ∀ name, folded = .ident name ↔ node = .ident name
  bool : ∀ b, folded = .literalBool b ↔ node = .literalBool b
  eval : ∀ n, (∀ m, m < n → CallsAgree reg decls decls' m) → ∀ slots env,
    Upto .outOfFuel (evalExpr reg decls n slots env node) (evalExpr reg decls' n slots env folded)

structure FoldedArgs (args folded : List AstNode) : Prop where
  foldsTrue : FoldsTrueAll folded
  eval : ∀ n, (∀ m, m < n → CallsAgree reg decls decls' m) → ∀ slots env,
    Upto .outOfFuel (evalArgs reg decls n slots env args) (evalArgs reg decls' n slots env folded)

variable {reg decls decls'}

theorem FoldedExpr.refl (hconst : findConst decls' = findConst decls) {node : AstNode}
    (h : FoldsTrue node) : FoldedExpr reg decls decls' node node where
  foldsTrue := h
  constant := rfl
  ident := fun _ => .rfl
  bool := fun _ => .rfl
  eval := fun n hcalls slots env => (sameNode hconst n hcalls).expr slots env node

theorem literalOr_cases (node : AstNode) :
    (∃ w, evalConstantInt node = some w ∧ literalOr node = .literalInt w false) ∨
      literalOr node = node := by
  unfold literalOr
  cases h : evalConstantInt node with
  | some w => exact .inl ⟨w, rfl, rfl⟩
  | none => exact .inr rfl

/-- A constant in place of a node that is a constant. -/
theorem FoldedExpr.literalOr {node folded : AstNode} (h : FoldedExpr reg decls decls' node folded)
    (hident : ∀ name, folded ≠ .ident name) (hbool : ∀ b, folded ≠ .literalBool b) :
    FoldedExpr reg decls decls' node (literalOr folded) := by
  rcases literalOr_cases folded with ⟨w, hw, heq⟩ | heq
  · rw [heq]
    refine ⟨rfl, h.constant ▸ hw.symm, fun name => ?_, fun b => ?_, fun n hcalls slots env => ?_⟩
    · exact iff_of_false (fun h => by cases h) fun hn => hident name ((h.ident name).mpr hn)
    · exact iff_of_false (fun h => by cases h) fun hn => hbool b ((h.bool b).mpr hn)
    · cases n with
      | zero => exact .out
      | succ n =>
        exact (h.eval (n + 1) hcalls slots env).trans
          (evalExpr_of_constant (n + 1) slots env folded w h.foldsTrue hw)
  · rw [heq]
    exact h

theorem assign_of_ne {left : AstNode} (h : ∀ name, left ≠ .ident name) (env : Env) (w : Word) :
    assign env left w = .error .stuck := by
  cases left
  case ident name => exact absurd rfl (h name)
  all_goals rfl

theorem FoldedExpr.assign {left folded : AstNode} (h : FoldedExpr reg decls decls' left folded)
    (env : Env) (w : Word) : assign env folded w = assign env left w := by
  by_cases hleft : ∃ name, left = .ident name
  · obtain ⟨name, rfl⟩ := hleft
    rw [(h.ident name).mpr rfl]
  · have hne : ∀ name, left ≠ .ident name := fun name heq => hleft ⟨name, heq⟩
    rw [assign_of_ne hne, assign_of_ne fun name heq => hne name ((h.ident name).mp heq)]

/-- The operator on folded operands. -/
theorem FoldedExpr.operands {op : BinOp} {left right l r : AstNode} {customOp : Bytes}
    (h : FoldsTrue (.binaryOp op (some left) (some right) customOp))
    (hl : FoldedExpr reg decls decls' left l) (hr : FoldedExpr reg decls decls' right r) :
    FoldedExpr reg decls decls' (.binaryOp op (some left) (some right) customOp)
      (.binaryOp op (some l) (some r) customOp) := by
  simp only [FoldsTrue] at h
  refine ⟨?_, ?_, fun name => ?_, fun b => ?_, fun n hcalls slots env => ?_⟩
  · simp only [FoldsTrue, hl.constant, hr.constant]
    exact ⟨hl.foldsTrue, hr.foldsTrue, h.2.2⟩
  · simp only [evalConstantInt, hl.constant, hr.constant]
  · exact iff_of_false (fun h => by cases h) fun h => by cases h
  · exact iff_of_false (fun h => by cases h) fun h => by cases h
  · cases n with
    | zero => exact .out
    | succ n =>
      have hcalls' := fun m (hm : m < n) => hcalls m (Nat.lt_succ_of_lt hm)
      simp only [evalExpr]
      refine .bind (hr.eval n hcalls' slots env) fun b => .ite (fun _ => ?_) fun _ => ?_
      · rw [hl.assign]
        exact .rfl
      · refine .bind (hl.eval n hcalls' slots b.2) fun a => .bind .rfl fun w => ?_
        rw [hl.assign]
        exact .rfl

theorem FoldedExpr.binaryOp {op : BinOp} {left right l r : AstNode} {customOp : Bytes}
    (h : FoldsTrue (.binaryOp op (some left) (some right) customOp))
    (hl : FoldedExpr reg decls decls' left l) (hr : FoldedExpr reg decls decls' right r) :
    FoldedExpr reg decls decls' (.binaryOp op (some left) (some right) customOp)
      (foldBinaryOp op (some l) (some r) customOp) := by
  unfold foldBinaryOp
  split
  · exact (FoldedExpr.operands h hl hr).literalOr (fun name h => by cases h) fun b h => by cases h
  · exact .operands h hl hr

theorem FoldedExpr.unaryOp {op : UnaryOp} {operand e : AstNode}
    (he : FoldedExpr reg decls decls' operand e) :
    FoldedExpr reg decls decls' (.unaryOp op (some operand)) (foldUnaryOp op (some e)) := by
  have hsame : FoldedExpr reg decls decls' (.unaryOp op (some operand)) (.unaryOp op (some e)) := by
    refine ⟨?_, ?_, fun name => ?_, fun b => ?_, fun n hcalls slots env => ?_⟩
    · simpa only [FoldsTrue] using he.foldsTrue
    · simp only [evalConstantInt, he.constant]
    · exact iff_of_false (fun h => by cases h) fun h => by cases h
    · exact iff_of_false (fun h => by cases h) fun h => by cases h
    · cases n with
      | zero => exact .out
      | succ n =>
        exact .bind (he.eval n (fun m hm => hcalls m (Nat.lt_succ_of_lt hm)) slots env) fun _ => .rfl
  unfold foldUnaryOp
  split
  · exact hsame.literalOr (fun name h => by cases h) fun b h => by cases h
  · exact hsame

theorem FoldedExpr.call {name : Bytes} {args as : List AstNode}
    (ha : FoldedArgs reg decls decls' args as) :
    FoldedExpr reg decls decls' (.call (some (.ident name)) args) (.call (some (.ident name)) as) := by
  refine ⟨?_, rfl, fun name => ?_, fun b => ?_, fun n hcalls slots env => ?_⟩
  · simpa only [FoldsTrue] using ha.foldsTrue
  · exact iff_of_false (fun h => by cases h) fun h => by cases h
  · exact iff_of_false (fun h => by cases h) fun h => by cases h
  · cases n with
    | zero => exact .out
    | succ n =>
      simp only [evalExpr]
      refine .bind (ha.eval n (fun m hm => hcalls m (Nat.lt_succ_of_lt hm)) slots env) fun ws => ?_
      exact .bind (hcalls n (Nat.lt_succ_self n) name ws.1) fun _ => .rfl

theorem exists_of_bind {ε α β : Type} {x : Except ε α} {f : α → Except ε β} {b : β}
    (h : (x >>= f) = .ok b) : ∃ a, x = .ok a ∧ f a = .ok b := by
  cases x with
  | ok a => exact ⟨a, rfl, h⟩
  | error e => cases h

mutual

theorem foldNode_expr (hconst : findConst decls' = findConst decls) (node : AstNode)
    (h : FoldsTrue node) :
    ∃ folded, foldNode node = .ok (some folded) ∧ FoldedExpr reg decls decls' node folded := by
  cases node with
  | literalInt | literalBool | literalChar | literalNone | ident => exact ⟨_, rfl, .refl hconst h⟩
  | binaryOp op left right customOp =>
    cases left with
    | none => exact h.elim
    | some left =>
      cases right with
      | none => exact h.elim
      | some right =>
        have hparts := h
        simp only [FoldsTrue] at hparts
        obtain ⟨l, hl, hfoldedL⟩ := foldNode_expr hconst left hparts.1
        obtain ⟨r, hr, hfoldedR⟩ := foldNode_expr hconst right hparts.2.1
        refine ⟨_, ?_, .binaryOp h hfoldedL hfoldedR⟩
        simp only [foldNode, foldOpt, hl, hr]
        rfl
  | unaryOp op operand =>
    cases operand with
    | none => exact h.elim
    | some operand =>
      simp only [FoldsTrue] at h
      obtain ⟨e, he, hfolded⟩ := foldNode_expr hconst operand h
      refine ⟨_, ?_, .unaryOp hfolded⟩
      simp only [foldNode, foldOpt, he]
      rfl
  | call callee args =>
    cases callee with
    | none => exact h.elim
    | some callee =>
      cases callee
      case ident name =>
        simp only [FoldsTrue] at h
        obtain ⟨as, ha, hfolded⟩ := foldItems_args hconst args h
        refine ⟨_, ?_, .call hfolded⟩
        simp only [foldNode, foldOpt, ha]
        rfl
      all_goals exact h.elim
  | _ => exact h.elim

theorem foldItems_args (hconst : findConst decls' = findConst decls) (args : List AstNode)
    (h : FoldsTrueAll args) :
    ∃ folded, foldItems args = .ok folded ∧ FoldedArgs reg decls decls' args folded := by
  cases args with
  | nil => exact ⟨[], rfl, trivial, fun n hcalls slots env => (sameNode hconst n hcalls).args slots env []⟩
  | cons arg args =>
    simp only [FoldsTrueAll] at h
    obtain ⟨e, he, hfoldedE⟩ := foldNode_expr hconst arg h.1
    obtain ⟨as, ha, hfoldedA⟩ := foldItems_args hconst args h.2
    refine ⟨e :: as, ?_, ?_, fun n hcalls slots env => ?_⟩
    · simp only [foldItems, he, ha]
      rfl
    · simpa only [FoldsTrueAll] using ⟨hfoldedE.foldsTrue, hfoldedA.foldsTrue⟩
    · cases n with
      | zero => exact .out
      | succ n =>
        have hcalls' := fun m (hm : m < n) => hcalls m (Nat.lt_succ_of_lt hm)
        exact .bind (hfoldedA.eval n hcalls' slots env) fun ws =>
          .bind (hfoldedE.eval n hcalls' slots ws.2) fun _ => .rfl

end

/-! ## §5 Folded statements -/

/-- No slot comes from a branch. -/
def DeclaresNone (reg : Registry) (node : Option AstNode) : Prop :=
  ∀ f, frameCollectOpt reg node f = f

mutual

/-- A statement whose folding keeps its meaning and its slots. Where a
condition is `true` or `false`, there is no elif, and the branch that is
dropped declares nothing. -/
def Steady (reg : Registry) : AstNode → Prop
  | .returnNode (some value) => FoldsTrue value
  | .letNode _ _ none _ _ => True
  | .letNode _ _ (some value) _ _ => FoldsTrue value
  | .exprStmt (some _) => True
  | .block stmts => SteadyAll reg stmts
  | .ifNode (some condition) thenBlock elifChain elseBlock =>
    FoldsTrue condition ∧ SteadyOpt reg thenBlock ∧ SteadyOpt reg elseBlock ∧
      (elifChain = none ∨ elseBlock = none) ∧ ∀ b, condition = .literalBool b → elifChain = none ∧
        DeclaresNone reg (if b then elseBlock else thenBlock)
  | .whileNode (some condition) body => FoldsTrue condition ∧ SteadyOpt reg body
  | .unsafeNode _ | .runBlock _ => True
  | _ => False

def SteadyOpt (reg : Registry) : Option AstNode → Prop
  | none => True
  | some node => Steady reg node

def SteadyAll (reg : Registry) : List AstNode → Prop
  | [] => True
  | node :: nodes => Steady reg node ∧ SteadyAll reg nodes

end

theorem frameCollect_expr {node : AstNode} (h : FoldsTrue node) (f : FrameState) :
    frameCollect reg node f = f := by
  cases node with
  | literalInt | literalBool | literalChar | literalNone | ident | binaryOp | unaryOp | call => rfl
  | _ => exact h.elim

variable (reg decls decls') in
/-- A statement and what folding leaves in its place. -/
structure FoldedOpt (node folded : Option AstNode) : Prop where
  frame : ∀ f, frameCollectOpt reg folded f = frameCollectOpt reg node f
  exec : ∀ n, (∀ m, m < n → CallsAgree reg decls decls' m) → ∀ slots env,
    Upto .outOfFuel (execStmtOpt reg decls n slots env node) (execStmtOpt reg decls' n slots env folded)

variable (reg decls decls') in
structure FoldedStmts (nodes folded : List AstNode) : Prop where
  frame : ∀ f, frameCollectItems reg folded f = frameCollectItems reg nodes f
  exec : ∀ n, (∀ m, m < n → CallsAgree reg decls decls' m) → ∀ slots env,
    Upto .outOfFuel (execStmts reg decls n slots env nodes) (execStmts reg decls' n slots env folded)

/-- A statement is folded to a statement of the same meaning. -/
theorem FoldedOpt.of_stmt {node folded : AstNode}
    (hframe : ∀ f, frameCollect reg folded f = frameCollect reg node f)
    (hexec : ∀ n, (∀ m, m < n → CallsAgree reg decls decls' m) → ∀ slots env,
      Upto .outOfFuel (execStmt reg decls n slots env node) (execStmt reg decls' n slots env folded)) :
    FoldedOpt reg decls decls' (some node) (some folded) where
  frame := hframe
  exec := by
    intro n hcalls slots env
    cases n with
    | zero => exact .out
    | succ n => exact hexec n (fun m hm => hcalls m (Nat.lt_succ_of_lt hm)) slots env

theorem FoldedOpt.same (hconst : findConst decls' = findConst decls) (node : Option AstNode) :
    FoldedOpt reg decls decls' node node where
  frame := fun _ => rfl
  exec := fun n hcalls slots env => (sameNode hconst n hcalls).opt slots env node

theorem FoldedOpt.whileNode {condition c : AstNode} {body b : Option AstNode}
    (hcond : FoldsTrue condition) (hc : FoldedExpr reg decls decls' condition c)
    (hb : FoldedOpt reg decls decls' body b) :
    FoldedOpt reg decls decls' (some (.whileNode (some condition) body))
      (some (.whileNode (some c) b)) := by
  refine .of_stmt (fun f => ?_) fun n => ?_
  · simp only [frameCollect, frameCollectOpt, frameCollect_expr hcond,
      frameCollect_expr hc.foldsTrue, hb.frame]
  · -- the turns of the loop, by the fuel
    induction n with
    | zero => exact fun _ _ _ => .out
    | succ n ih =>
      intro hcalls slots env
      have hcalls' := fun m (hm : m < n) => hcalls m (Nat.lt_succ_of_lt hm)
      simp only [execStmt]
      refine .bind (hc.eval n hcalls' slots env) fun v => .ite (fun _ => .rfl) fun _ => ?_
      refine .bind (hb.exec n hcalls' slots v.2) fun r => .ite (fun _ => .rfl) fun _ => ?_
      exact ih hcalls' slots r.1

/-- A chain whose condition is not a literal stays. -/
theorem FoldedOpt.ifNode (hconst : findConst decls' = findConst decls) {condition c : AstNode}
    {thenBlock elifChain elseBlock t e : Option AstNode} (hcond : FoldsTrue condition)
    (hc : FoldedExpr reg decls decls' condition c) (ht : FoldedOpt reg decls decls' thenBlock t)
    (he : FoldedOpt reg decls decls' elseBlock e)
    (hboth : (elifChain.isSome && e.isSome) = (elifChain.isSome && elseBlock.isSome)) :
    FoldedOpt reg decls decls' (some (.ifNode (some condition) thenBlock elifChain elseBlock))
      (some (.ifNode (some c) t elifChain e)) := by
  refine .of_stmt (fun f => ?_) fun n hcalls slots env => ?_
  · simp only [frameCollect, frameCollectOpt, frameCollect_expr hcond,
      frameCollect_expr hc.foldsTrue, ht.frame, he.frame]
  · cases n with
    | zero => exact .out
    | succ n =>
      have hcalls' := fun m (hm : m < n) => hcalls m (Nat.lt_succ_of_lt hm)
      simp only [execStmt, hboth]
      refine .ite (fun _ => .rfl) fun _ => .bind (hc.eval n hcalls' slots env) fun v => ?_
      refine .ite (fun _ => ?_) fun _ => ht.exec n hcalls' slots v.2
      cases elifChain with
      | none => exact he.exec n hcalls' slots v.2
      | some elif => exact (sameNode hconst n hcalls').opt slots v.2 (some elif)

/-- One branch in place of a chain whose condition is a literal. -/
theorem FoldedOpt.branch {b : Bool} {thenBlock elseBlock t e : Option AstNode}
    (hdropped : DeclaresNone reg (if b then elseBlock else thenBlock))
    (ht : FoldedOpt reg decls decls' thenBlock t) (he : FoldedOpt reg decls decls' elseBlock e) :
    FoldedOpt reg decls decls' (some (.ifNode (some (.literalBool b)) thenBlock none elseBlock))
      (if b then t else e) := by
  refine ⟨fun f => ?_, fun n hcalls slots env => ?_⟩
  · cases b with
    | true =>
      have hnone : frameCollectOpt reg elseBlock _ = _ := hdropped (frameCollectOpt reg thenBlock f)
      exact (ht.frame f).trans hnone.symm
    | false =>
      have hnone : frameCollectOpt reg thenBlock f = f := hdropped f
      simp only [frameCollectOpt, frameCollect, hnone]
      exact he.frame f
  · -- the chain takes three units of fuel more than its branch
    cases n with
    | zero => exact .out
    | succ n =>
      cases n with
      | zero => exact .out
      | succ n =>
        cases n with
        | zero => exact .out
        | succ n =>
          have hcalls' := fun m (hm : m < n + 1) => hcalls m (by omega)
          have hmore : ∀ node, Upto .outOfFuel (execStmtOpt reg decls' (n + 1) slots env node)
              (execStmtOpt reg decls' (n + 3) slots env node) := fun node =>
            ((grows (n + 1)).opt slots env node).trans ((grows (n + 2)).opt slots env node)
          cases b with
          | true => exact (ht.exec (n + 1) hcalls' slots env).trans (hmore t)
          | false => exact (he.exec (n + 1) hcalls' slots env).trans (hmore e)

mutual

theorem foldNode_stmt (hconst : findConst decls' = findConst decls) (node : AstNode)
    (h : Steady reg node) {r : Option AstNode} (hr : foldNode node = .ok r) :
    FoldedOpt reg decls decls' (some node) r := by
  cases node with
  | returnNode value =>
    cases value with
    | none => exact h.elim
    | some value =>
      have htrue : FoldsTrue value := by simpa only [Steady] using h
      obtain ⟨v, hv, hfolded⟩ := @foldNode_expr reg _ _ hconst value htrue
      simp only [foldNode, foldOpt, hv] at hr
      obtain rfl := Except.ok.inj hr
      refine .of_stmt (fun f => rfl) fun n hcalls slots env => ?_
      cases n with
      | zero => exact .out
      | succ n =>
        exact .bind (hfolded.eval n (fun m hm => hcalls m (Nat.lt_succ_of_lt hm)) slots env)
          fun _ => .rfl
  | letNode name type value isMut isGlobal =>
    cases value with
    | none =>
      obtain rfl := Except.ok.inj hr
      exact .same hconst _
    | some value =>
      have htrue : FoldsTrue value := by simpa only [Steady] using h
      obtain ⟨v, hv, hfolded⟩ := @foldNode_expr reg _ _ hconst value htrue
      simp only [foldNode, foldOpt, hv] at hr
      obtain rfl := Except.ok.inj hr
      refine .of_stmt (fun f => ?_) fun n hcalls slots env => ?_
      · simp only [frameCollect, frameCollectOpt, frameCollect_expr htrue,
          frameCollect_expr hfolded.foldsTrue]
      · cases n with
        | zero => exact .out
        | succ n =>
          exact .bind (hfolded.eval n (fun m hm => hcalls m (Nat.lt_succ_of_lt hm)) slots env)
            fun _ => .rfl
  | exprStmt expr =>
    obtain rfl := Except.ok.inj hr
    exact .same hconst _
  | block stmts =>
    have hall : SteadyAll reg stmts := by simpa only [Steady] using h
    simp only [foldNode] at hr
    obtain ⟨folded, hfold, hr⟩ := exists_of_bind hr
    obtain rfl := Except.ok.inj hr
    have hstmts := foldItems_stmts hconst stmts hall hfold
    refine .of_stmt hstmts.frame fun n hcalls slots env => ?_
    cases n with
    | zero => exact .out
    | succ n => exact hstmts.exec n (fun m hm => hcalls m (Nat.lt_succ_of_lt hm)) slots env
  | unsafeNode body =>
    obtain rfl := Except.ok.inj hr
    exact .same hconst _
  | runBlock body =>
    obtain rfl := Except.ok.inj hr
    exact .same hconst _
  | ifNode condition thenBlock elifChain elseBlock =>
    cases condition with
    | none => exact h.elim
    | some condition =>
      simp only [Steady] at h
      obtain ⟨hcond, hthen, helse, hone, hliteral⟩ := h
      obtain ⟨c, hc, hfolded⟩ := @foldNode_expr reg _ _ hconst condition hcond
      simp only [foldNode] at hr
      obtain ⟨c', hc', hr⟩ := exists_of_bind hr
      obtain rfl : some c = c' := Except.ok.inj (hc.symm.trans hc')
      obtain ⟨t, ht, hr⟩ := exists_of_bind hr
      obtain ⟨e, he, hr⟩ := exists_of_bind hr
      have hfoldT := foldOpt_stmt hconst thenBlock hthen ht
      have hfoldE := foldOpt_stmt hconst elseBlock helse he
      have hr' := Except.ok.inj hr
      by_cases hbool : ∃ b, condition = .literalBool b
      · obtain ⟨b, rfl⟩ := hbool
        obtain ⟨rfl, hdropped⟩ := hliteral b rfl
        obtain rfl := (hfolded.bool b).mpr rfl
        have hbranch := FoldedOpt.branch hdropped hfoldT hfoldE
        cases b with
        | true => exact hr' ▸ hbranch
        | false => exact hr' ▸ hbranch
      · have hnone : constantBranch c = none := by
          cases c with
          | literalBool b => exact absurd ⟨b, (hfolded.bool b).mp rfl⟩ hbool
          | _ => rfl
        rw [hnone] at hr'
        subst hr'
        refine .ifNode hconst hcond hfolded hfoldT hfoldE ?_
        rcases hone with rfl | rfl
        · rfl
        · obtain rfl := Except.ok.inj he
          rfl
  | whileNode condition body =>
    cases condition with
    | none => exact h.elim
    | some condition =>
      simp only [Steady] at h
      obtain ⟨c, hc, hfolded⟩ := @foldNode_expr reg _ _ hconst condition h.1
      simp only [foldNode] at hr
      obtain ⟨c', hc', hr⟩ := exists_of_bind hr
      obtain rfl : some c = c' := Except.ok.inj (hc.symm.trans hc')
      obtain ⟨b, hb, hr⟩ := exists_of_bind hr
      obtain rfl := Except.ok.inj hr
      exact .whileNode h.1 hfolded (foldOpt_stmt hconst body h.2 hb)
  | _ => exact h.elim

theorem foldOpt_stmt (hconst : findConst decls' = findConst decls) (node : Option AstNode)
    (h : SteadyOpt reg node) {r : Option AstNode} (hr : foldOpt node = .ok r) :
    FoldedOpt reg decls decls' node r := by
  cases node with
  | none =>
    obtain rfl := Except.ok.inj hr
    exact .same hconst none
  | some node => exact foldNode_stmt hconst node h hr

theorem foldItems_stmts (hconst : findConst decls' = findConst decls) (nodes : List AstNode)
    (h : SteadyAll reg nodes) {r : List AstNode} (hr : foldItems nodes = .ok r) :
    FoldedStmts reg decls decls' nodes r := by
  cases nodes with
  | nil =>
    obtain rfl := Except.ok.inj hr
    exact ⟨fun _ => rfl, fun n hcalls slots env => (sameNode hconst n hcalls).stmts slots env []⟩
  | cons node nodes =>
    simp only [SteadyAll] at h
    simp only [foldItems] at hr
    obtain ⟨o, ho, hr⟩ := exists_of_bind hr
    cases o with
    | none => cases hr
    | some first =>
      obtain ⟨rest, hrest, hr⟩ := exists_of_bind hr
      obtain rfl := Except.ok.inj hr
      have hfirst := foldNode_stmt hconst node h.1 ho
      have hothers := foldItems_stmts hconst nodes h.2 hrest
      refine ⟨fun f => ?_, fun n hcalls slots env => ?_⟩
      · have hframe : frameCollect reg first f = frameCollect reg node f := hfirst.frame f
        simp only [frameCollectItems, hframe, hothers.frame]
      · cases n with
        | zero => exact .out
        | succ n =>
          have hstmt := hfirst.exec (n + 1) hcalls slots env
          refine .bind hstmt fun r => .ite (fun _ => .rfl) fun _ => ?_
          exact hothers.exec n (fun m hm => hcalls m (Nat.lt_succ_of_lt hm)) slots r.1

end

end

/-! ## §6 Folded programs -/

/-- The declarations of a program, of which folding changes only functions. -/
def isDecl : AstNode → Bool
  | .funcDecl .. | .structDecl .. | .enumDecl .. | .constDecl .. | .importNode .. | .moduleDecl ..
  | .typeAlias .. | .traitDecl .. | .implBlock .. | .classDecl .. | .poolDecl .. | .protocolDecl .. =>
    true
  | _ => false

/-- A program whose functions are steady blocks. -/
structure SteadyProgram (decls : List AstNode) : Prop where
  declarations : decls.all isDecl = true
  bodies : ∀ name typeParams params returnType pre post body info,
    .funcDecl name typeParams params returnType pre post (some body) info ∈ decls →
    ∃ stmts, body = .block stmts ∧ SteadyAll (buildLayouts decls) stmts

/-- A declaration and what folding leaves of it. -/
inductive FoldedDecl : AstNode → AstNode → Prop where
  | same {decl : AstNode} (h : funcName decl = none) : FoldedDecl decl decl
  | func (name : Bytes) (typeParams params : List AstNode) (returnType : Option AstNode)
      (pre post : List AstNode) (info : FuncInfo) {body b : Option AstNode}
      (h : foldOpt body = .ok b) :
      FoldedDecl (.funcDecl name typeParams params returnType pre post body info)
        (.funcDecl name typeParams params returnType pre post b info)

theorem foldNode_decl {decl : AstNode} (hdecl : isDecl decl = true) {r : Option AstNode}
    (h : foldNode decl = .ok r) : ∃ folded, r = some folded ∧ FoldedDecl decl folded := by
  cases decl with
  | funcDecl name typeParams params returnType pre post body info =>
    simp only [foldNode] at h
    obtain ⟨b, hb, h⟩ := exists_of_bind h
    obtain rfl := Except.ok.inj h
    exact ⟨_, rfl, .func name typeParams params returnType pre post info hb⟩
  | structDecl | enumDecl | constDecl | importNode | moduleDecl | typeAlias | traitDecl | implBlock
  | classDecl | poolDecl | protocolDecl =>
    obtain rfl := Except.ok.inj h
    exact ⟨_, rfl, .same rfl⟩
  | _ => cases hdecl

theorem foldItems_decls (decls : List AstNode) (hdecls : decls.all isDecl = true)
    {decls' : List AstNode} (h : foldItems decls = .ok decls') :
    List.Forall₂ FoldedDecl decls decls' := by
  induction decls generalizing decls' with
  | nil =>
    obtain rfl := Except.ok.inj h
    exact .nil
  | cons decl decls ih =>
    rw [List.all_cons, Bool.and_eq_true] at hdecls
    simp only [foldItems] at h
    obtain ⟨o, ho, h⟩ := exists_of_bind h
    obtain ⟨folded, rfl, hfolded⟩ := foldNode_decl hdecls.1 ho
    obtain ⟨rest, hrest, h⟩ := exists_of_bind h
    obtain rfl := Except.ok.inj h
    exact .cons hfolded (ih hdecls.2 hrest)

section

variable {decls decls' : List AstNode}

theorem findConst_congr (decl : AstNode) {rest rest' : List AstNode} {name : Bytes}
    (h : findConst rest' name = findConst rest name) :
    findConst (decl :: rest') name = findConst (decl :: rest) name := by
  cases decl with
  | constDecl name' value => simp only [findConst, h]
  | _ => exact h

theorem findFunc_skip {decl : AstNode} (h : funcName decl = none) (rest : List AstNode)
    (name : Bytes) : findFunc (decl :: rest) name = findFunc rest name := by
  cases decl with
  | funcDecl => cases h
  | _ => rfl

theorem findConst_folded (h : List.Forall₂ FoldedDecl decls decls') :
    findConst decls' = findConst decls := by
  funext name
  induction h with
  | nil => rfl
  | cons hdecl _ ih =>
    cases hdecl with
    | func => exact ih
    | same => exact findConst_congr _ ih

theorem buildLayouts_folded (h : List.Forall₂ FoldedDecl decls decls') :
    buildLayouts decls' = buildLayouts decls := by
  have hfold : ∀ reg : Registry, decls'.foldl Registry.build reg = decls.foldl Registry.build reg := by
    induction h with
    | nil => exact fun _ => rfl
    | cons hdecl _ ih =>
      intro reg
      cases hdecl with
      | func => exact ih reg
      | same => exact ih _
  exact hfold {}

theorem findFunc_folded (h : List.Forall₂ FoldedDecl decls decls') (name : Bytes) :
    (findFunc decls name = none ∧ findFunc decls' name = none) ∨
      ∃ decl folded, findFunc decls name = some decl ∧ findFunc decls' name = some folded ∧
        (funcName decl).isSome = true ∧ FoldedDecl decl folded := by
  induction h with
  | nil => exact .inl ⟨rfl, rfl⟩
  | cons hdecl _ ih =>
    cases hdecl with
    | same hfunc =>
      rw [findFunc_skip hfunc, findFunc_skip hfunc]
      exact ih
    | func name' typeParams params returnType pre post info hb =>
      by_cases hname : (name' == name) = true
      · refine .inr ⟨_, _, ?_, ?_, rfl, .func name' typeParams params returnType pre post info hb⟩
        · simp only [findFunc, List.find?_cons, hname]
        · simp only [findFunc, List.find?_cons, hname]
      · simpa only [findFunc, List.find?_cons, hname] using ih

theorem arity_folded (h : List.Forall₂ FoldedDecl decls decls') (name : Bytes) :
    arity decls' name = arity decls name := by
  unfold arity
  rcases findFunc_folded h name with ⟨hnone, hnone'⟩ | ⟨decl, folded, hsome, hsome', hfunc, hdecl⟩
  · rw [hnone, hnone']
  · rw [hsome, hsome']
    cases hdecl with
    | same hnot => simp [hnot] at hfunc
    | func => rfl

/-- The functions of the folded program mean what they meant. -/
theorem callsAgree (hsteady : SteadyProgram decls) (hfold : List.Forall₂ FoldedDecl decls decls')
    (n : Nat) : CallsAgree (buildLayouts decls) decls decls' n := by
  induction n using Nat.strong_induction_on with
  | _ n ih =>
    intro name ws
    cases n with
    | zero => exact .out
    | succ n =>
      simp only [callFunc]
      rcases findFunc_folded hfold name with
        ⟨hnone, hnone'⟩ | ⟨decl, folded, hsome, hsome', hfunc, hdecl⟩
      · rw [hnone, hnone']
        exact .rfl
      · have hmem := List.mem_of_find?_eq_some hsome
        rw [hsome, hsome']
        cases hdecl with
        | same hnot => simp [hnot] at hfunc
        | func name' typeParams params returnType pre post info hb =>
          rename_i body b
          cases body with
          | none =>
            obtain rfl := Except.ok.inj hb
            exact .rfl
          | some body =>
            obtain ⟨stmts, rfl, hstmts⟩ := hsteady.bodies _ _ _ _ _ _ _ _ hmem
            have hfolded := foldOpt_stmt (findConst_folded hfold) (some (.block stmts))
              (by simpa only [SteadyOpt, Steady] using hstmts) hb
            simp only [foldOpt, foldNode] at hb
            obtain ⟨rest, -, hb⟩ := exists_of_bind hb
            obtain rfl := Except.ok.inj hb
            have hframe : computeFrame (buildLayouts decls) params (some (.block rest)) =
                computeFrame (buildLayouts decls) params (some (.block stmts)) := by
              simp only [computeFrame, hfolded.frame]
            simp only [hframe]
            refine .bind ?_ fun _ => .rfl
            exact hfolded.exec (n + 1) (fun m hm => ih m hm) _ _

end

/-- `fn opposed(n: u64) -> u64 { let k: u64 = -6 if true { return n * k } else { return 0 } }`,
with what stands for `-6` and for the branches. -/
def opposedFunc (value : AstNode) (chain : AstNode → AstNode) : List AstNode :=
  let product := AstNode.binaryOp .mul (some (.ident (bytes "n"))) (some (.ident (bytes "k"))) []
  [.funcDecl (bytes "opposed") []
    [.param (bytes "n") (some (.typePrimitive .u64)) false false none]
    (some (.typePrimitive .u64)) [] []
    (some (.block [.letNode (bytes "k") (some (.typePrimitive .u64)) (some value) false false,
      chain (.block [.returnNode (some product)])])) {}]

def opposed : List AstNode :=
  opposedFunc (.unaryOp .neg (some (.literalInt 6 false))) fun block =>
    .ifNode (some (.literalBool true)) (some block) none
      (some (.block [.returnNode (some (.literalInt 0 false))]))

def opposedFolded : List AstNode := opposedFunc (.literalInt (0 - 6) false) fun block => block

theorem opposed_steady : SteadyProgram opposed where
  declarations := rfl
  bodies := by
    intro name typeParams params returnType pre post body info h
    obtain ⟨-, -, -, -, -, -, hbody, -⟩ := AstNode.funcDecl.inj (List.mem_singleton.mp h)
    refine ⟨_, Option.some.inj hbody, ?_⟩
    simp [SteadyAll, Steady, SteadyOpt, FoldsTrue, isOrdering, DeclaresNone, frameCollectOpt,
      frameCollect, frameCollectItems]

theorem opposed_folded : optConstantFold (.program opposed) = .ok (some (.program opposedFolded)) :=
  rfl

end Aether.Codegen.Functions
