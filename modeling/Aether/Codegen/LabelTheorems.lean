/-
Aether.Codegen.LabelTheorems — no label of a program is defined twice.

The generator numbers its labels with one counter. The code of a node has
the labels from the counter before it to the counter after it, each once.
-/
import Aether.Codegen.Functions

namespace Aether.Codegen.Functions

open Aether.Lib Layout

/-! ## §1 Numbered labels -/

def Label.number : Label → Option Nat
  | .num n | .andFalse n | .orTrue n | .orElseHas n => some n
  | .func _ => none

def labels (items : List Instr) : List Label := items.filterMap Instr.labelOf

theorem labels_append (a b : List Instr) : labels (a ++ b) = labels a ++ labels b :=
  List.filterMap_append

/-- Labels numbered from `k` on and below `k'`, each once. -/
structure Fresh (k : Nat) (items : List Instr) (k' : Nat) : Prop where
  le : k ≤ k'
  numbered : ∀ l ∈ labels items, ∃ n, l.number = some n ∧ k ≤ n ∧ n < k'
  nodup : (labels items).Nodup

section

variable {k m k' : Nat} {a b : List Instr}

theorem Fresh.seq (h : Fresh k a m) (h' : Fresh m b k') : Fresh k (a ++ b) k' where
  le := h.le.trans h'.le
  numbered := by
    intro l hl
    rw [labels_append, List.mem_append] at hl
    have hle := h.le
    have hle' := h'.le
    cases hl with
    | inl hl =>
      obtain ⟨n, hn, hlow, hhigh⟩ := h.numbered l hl
      exact ⟨n, hn, hlow, by omega⟩
    | inr hl =>
      obtain ⟨n, hn, hlow, hhigh⟩ := h'.numbered l hl
      exact ⟨n, hn, by omega, hhigh⟩
  nodup := by
    rw [labels_append, List.nodup_append]
    refine ⟨h.nodup, h'.nodup, fun l hl l' hl' heq => ?_⟩
    subst heq
    obtain ⟨n, hn, -, hhigh⟩ := h.numbered l hl
    obtain ⟨n', hn', hlow', -⟩ := h'.numbered l hl'
    obtain rfl := Option.some.inj (hn.symm.trans hn')
    omega

theorem Fresh.free (k : Nat) (h : labels a = []) : Fresh k a k where
  le := le_rfl
  numbered := by simp [h]
  nodup := by simp [h]

/-- One more label, of a number below the others. -/
theorem Fresh.insert {l : Label} (h : Fresh (k + 1) (a ++ b) k') (hl : l.number = some k) :
    Fresh k (a ++ .label l :: b) k' := by
  have hle := h.le
  have hperm : (labels (a ++ .label l :: b)).Perm (l :: labels (a ++ b)) := by
    rw [labels_append, labels_append]
    exact List.perm_middle
  refine ⟨by omega, fun l' hl' => ?_, hperm.nodup_iff.mpr (List.nodup_cons.mpr ⟨fun hmem => ?_, h.nodup⟩)⟩
  · rcases List.mem_cons.mp (hperm.mem_iff.mp hl') with rfl | hmem
    · exact ⟨k, hl, le_rfl, by omega⟩
    · obtain ⟨n, hn, hlow, hhigh⟩ := h.numbered l' hmem
      exact ⟨n, hn, by omega, hhigh⟩
  · obtain ⟨n, hn, hlow, -⟩ := h.numbered l hmem
    obtain rfl := Option.some.inj (hl.symm.trans hn)
    omega

end

/-! ## §2 The code of a function -/

theorem cgBinary_fresh {k : Nat} {op : BinOp} {o : Code} (h : cgBinary k op = some o) :
    Fresh k o.1 o.2 := by
  cases op
  case assign | concat => cases h
  all_goals
    obtain rfl := Option.some.inj h
  case and =>
    exact Fresh.insert (a := [.test .rax, .jz (.andFalse k), .test .rcx, .setnz]) (b := [])
      (.free _ rfl) rfl
  case or =>
    exact Fresh.insert (a := [.test .rax, .jnz (.orTrue k), .test .rcx, .setnz])
      (b := [.test .rax, .setnz]) (.free _ rfl) rfl
  case orElse =>
    exact Fresh.insert (a := [.test .rax, .jnz (.orElseHas k), .copy .rax .rcx]) (b := [])
      (.free _ rfl) rfl
  case power =>
    refine Fresh.insert (a := [.push .rcx, .push .rax, .peek .rcx 0, .mov .rax 1, .peek .r8 8,
      .test .r8, .jz (.num (k + 1))]) (b := [.mul, .dec, .jnz (.num k), .label (.num (k + 1)),
      .drop 16]) ?_ rfl
    exact Fresh.insert (a := [.push .rcx, .push .rax, .peek .rcx 0, .mov .rax 1, .peek .r8 8,
      .test .r8, .jz (.num (k + 1)), .mul, .dec, .jnz (.num k)]) (b := [.drop 16])
      (.free _ rfl) rfl
  all_goals
    exact .free _ rfl

theorem storeTo_labels {slots : List VarSlot} {left : AstNode} {store : List Instr}
    (h : storeTo slots left = some store) : labels store = [] := by
  cases left
  case ident name =>
    obtain ⟨slot, -, rfl⟩ := Option.map_eq_some_iff.mp h
    rfl
  all_goals
    cases h

theorem storeBack_labels {slots : List VarSlot} {op : BinOp} {left : AstNode} {store : List Instr}
    (h : storeBack slots op left = some store) : labels store = [] := by
  unfold storeBack at h
  split at h
  · exact storeTo_labels h
  · obtain rfl := Option.some.inj h
    rfl

theorem cgUnary_labels {op : UnaryOp} {o : List Instr} (h : cgUnary op = some o) :
    labels o = [] := by
  cases op
  case neg | not | bitNot =>
    obtain rfl := Option.some.inj h
    rfl
  all_goals
    cases h

theorem labels_map_pop (regs : List Reg) : labels (regs.map .pop) = [] := by
  simp [labels, List.filterMap_map, Instr.labelOf, Function.comp_def]

section

variable {decls : List AstNode} {slots : List VarSlot}

mutual

theorem cgExpr_fresh (node : AstNode) {k : Nat} {code : Code}
    (h : cgExpr decls slots node k = some code) : Fresh k code.1 code.2 := by
  cases node with
  | literalInt | literalBool | literalChar | literalNone =>
    obtain rfl := Option.some.inj h
    exact .free _ rfl
  | ident name =>
    simp only [cgExpr] at h
    split at h
    · obtain rfl := Option.some.inj h
      exact .free _ rfl
    · obtain ⟨slot, -, rfl⟩ := Option.map_eq_some_iff.mp h
      exact .free _ rfl
  | binaryOp op left right customOp =>
    cases left with
    | none => cases h
    | some left =>
      cases right with
      | none => cases h
      | some right =>
        simp only [cgExpr, Option.bind_eq_bind, Option.bind_eq_some_iff, Option.pure_def] at h
        obtain ⟨r, hr, h⟩ := h
        have hfreshR := cgExpr_fresh right hr
        by_cases hassign : op = .assign
        · simp only [hassign, if_true, Option.bind_eq_some_iff, Option.some.injEq] at h
          obtain ⟨store, hstore, rfl⟩ := h
          exact (hfreshR.seq (.free (a := [.push .rax, .pop .rax]) _ rfl)).seq
            (.free _ (storeTo_labels hstore))
        · simp only [hassign, if_false, Option.bind_eq_some_iff, Option.some.injEq] at h
          obtain ⟨l, hl, o, ho, store, hstore, rfl⟩ := h
          have hoperands := (hfreshR.seq (.free (a := [.push .rax]) _ rfl)).seq (cgExpr_fresh left hl)
          exact ((hoperands.seq (.free (a := [.pop .rcx]) _ rfl)).seq (cgBinary_fresh ho)).seq
            (.free _ (storeBack_labels hstore))
  | unaryOp op operand =>
    cases operand with
    | none => cases h
    | some operand =>
      simp only [cgExpr, Option.bind_eq_bind, Option.bind_eq_some_iff, Option.pure_def,
        Option.some.injEq] at h
      obtain ⟨e, he, o, ho, rfl⟩ := h
      exact (cgExpr_fresh operand he).seq (.free _ (cgUnary_labels ho))
  | call callee args =>
    cases callee with
    | none => cases h
    | some callee =>
      cases callee
      case ident name =>
        simp only [cgExpr, Option.bind_eq_bind, Option.bind_eq_some_iff] at h
        obtain ⟨argc, -, h⟩ := h
        split at h
        · simp only [Option.bind_eq_some_iff, Option.pure_def, Option.some.injEq] at h
          obtain ⟨a, ha, rfl⟩ := h
          exact ((cgArgs_fresh args ha).seq (.free _ (labels_map_pop _))).seq (.free _ rfl)
        · cases h
      all_goals
        cases h
  | _ => cases h

theorem cgArgs_fresh (args : List AstNode) {k : Nat} {code : Code}
    (h : cgArgs decls slots args k = some code) : Fresh k code.1 code.2 := by
  cases args with
  | nil =>
    obtain rfl := Option.some.inj h
    exact .free _ rfl
  | cons arg args =>
    simp only [cgArgs, Option.bind_eq_bind, Option.bind_eq_some_iff, Option.pure_def,
      Option.some.injEq] at h
    obtain ⟨a, ha, e, he, rfl⟩ := h
    exact ((cgArgs_fresh args ha).seq (cgExpr_fresh arg he)).seq (.free _ rfl)

end

mutual

theorem cgStmt_fresh (node : AstNode) {k : Nat} {code : Code}
    (h : cgStmt decls slots node k = some code) : Fresh k code.1 code.2 := by
  cases node with
  | returnNode value =>
    cases value with
    | none => cases h
    | some value =>
      simp only [cgStmt, Option.bind_eq_bind, Option.bind_eq_some_iff, Option.pure_def,
        Option.some.injEq] at h
      obtain ⟨e, he, rfl⟩ := h
      exact ((cgExpr_fresh value he).seq (.free _ rfl)).seq (.free _ rfl)
  | letNode name type value isMut isGlobal =>
    simp only [cgStmt, Option.bind_eq_bind, Option.bind_eq_some_iff] at h
    obtain ⟨slot, -, h⟩ := h
    split at h
    · cases h
    · cases value with
      | none =>
        obtain rfl := Option.some.inj h
        exact .free _ rfl
      | some value =>
        simp only [Option.bind_eq_some_iff, Option.pure_def, Option.some.injEq] at h
        obtain ⟨e, he, rfl⟩ := h
        exact (cgExpr_fresh value he).seq (.free _ rfl)
  | exprStmt expr =>
    cases expr with
    | none => cases h
    | some expr => exact cgExpr_fresh expr h
  | block stmts => exact cgStmts_fresh stmts h
  | unsafeNode stmts => exact cgStmts_fresh stmts h
  | runBlock body =>
    obtain rfl := Option.some.inj h
    exact .free _ rfl
  | ifNode condition thenBlock elifChain elseBlock =>
    cases condition with
    | none => cases h
    | some condition =>
      simp only [cgStmt] at h
      split at h
      · cases h
      · simp only [Option.bind_eq_bind, Option.bind_eq_some_iff, Option.pure_def,
          Option.some.injEq] at h
        obtain ⟨c, hc, t, ht, elif, helif, e, he, rfl⟩ := h
        have hthen := ((cgExpr_fresh condition hc).seq
          (.free (a := [.test .rax, .jz (.num k)]) _ rfl)).seq (cgStmtOpt_fresh thenBlock ht)
        have helse := (cgStmtOpt_fresh elifChain helif).seq (cgStmtOpt_fresh elseBlock he)
        have hall := (hthen.seq (.free (a := [.jmp (.num (k + 1))]) _ rfl)).seq helse
        have hend := Fresh.insert (b := []) (l := .num (k + 1)) (by simpa using hall) rfl
        have hstart := Fresh.insert (l := .num k)
          (a := c.1 ++ [.test .rax, .jz (.num k)] ++ t.1 ++ [.jmp (.num (k + 1))])
          (b := elif.1 ++ e.1 ++ [.label (.num (k + 1))]) (by simpa using hend) rfl
        simpa using hstart
  | whileNode condition body =>
    cases condition with
    | none => cases h
    | some condition =>
      simp only [cgStmt, Option.bind_eq_bind, Option.bind_eq_some_iff, Option.pure_def,
        Option.some.injEq] at h
      obtain ⟨c, hc, b, hb, rfl⟩ := h
      have hturn := (((cgExpr_fresh condition hc).seq
        (.free (a := [.test .rax, .jz (.num (k + 1))]) _ rfl)).seq (cgStmtOpt_fresh body hb)).seq
        (.free (a := [.jmp (.num k)]) _ rfl)
      have hend := Fresh.insert (b := []) (l := .num (k + 1)) (by simpa using hturn) rfl
      have hstart := Fresh.insert (a := []) (l := .num k) hend rfl
      simpa [List.append_assoc] using hstart
  | _ => cases h

theorem cgStmtOpt_fresh (node : Option AstNode) {k : Nat} {code : Code}
    (h : cgStmtOpt decls slots node k = some code) : Fresh k code.1 code.2 := by
  cases node with
  | none =>
    obtain rfl := Option.some.inj h
    exact .free _ rfl
  | some stmt => exact cgStmt_fresh stmt h

theorem cgStmts_fresh (nodes : List AstNode) {k : Nat} {code : Code}
    (h : cgStmts decls slots nodes k = some code) : Fresh k code.1 code.2 := by
  cases nodes with
  | nil =>
    obtain rfl := Option.some.inj h
    exact .free _ rfl
  | cons stmt stmts =>
    simp only [cgStmts, Option.bind_eq_bind, Option.bind_eq_some_iff, Option.pure_def,
      Option.some.injEq] at h
    obtain ⟨s, hs, r, hr, rfl⟩ := h
    exact (cgStmt_fresh stmt hs).seq (cgStmts_fresh stmts hr)

end

end

end Aether.Codegen.Functions
