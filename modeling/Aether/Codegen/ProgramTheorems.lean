/-
Aether.Codegen.ProgramTheorems — whole programs.

The functions of a program, emitted one after the other, are linked: each is
at its label, and no label is there twice. So a call of any of them does what
it means, and then goes on after the call.
-/
import Aether.Codegen.CallTheorems
import Aether.Codegen.LabelTheorems

namespace Aether.Codegen.Functions

open Aether.Lib Layout
open RangeLoops (Word setIf loadSized)

/-! ## §1 The labels of a program -/

theorem spillParams_labels {slots : List VarSlot} (params : List AstNode) {regs : List Reg}
    {spills : List Instr} (h : spillParams slots params regs = some spills) : labels spills = [] := by
  induction params generalizing regs spills with
  | nil =>
    obtain rfl := Option.some.inj h
    rfl
  | cons param params ih =>
    cases regs with
    | nil =>
      obtain rfl := Option.some.inj h
      rfl
    | cons r regs =>
      simp only [spillParams, Option.bind_eq_bind, Option.bind_eq_some_iff, Option.pure_def,
        Option.some.injEq] at h
      obtain ⟨slot, -, rest, hrest, rfl⟩ := h
      exact (ih hrest :)

theorem labels_funcRest {body : AstNode} {b : Code} {size : Nat} {spills : List Instr}
    (hspills : labels spills = []) : labels (funcRest size spills body b) = labels b.1 := by
  have hreserve : labels (if 0 < size then [.reserve size] else []) = [] := by
    split
    · rfl
    · rfl
  have hdefault : labels (if bodyHasReturn body then [] else [.mov .rax 0]) = [] := by
    split
    · rfl
    · rfl
  simp only [funcRest, labels_append, hreserve, hspills, hdefault, List.nil_append]
  exact List.append_nil _

/-- The label of a function and those that its body numbers. -/
theorem cgFunc_labels {reg : Registry} {decls : List AstNode} {decl : AstNode} {k : Nat} {code : Code}
    (hbody : hasBody decl = true) (h : cgFunc reg decls decl k = some code) :
    ∃ name items, funcName decl = some name ∧ labels code.1 = .func name :: labels items ∧
      Fresh k items code.2 := by
  cases decl
  case funcDecl name typeParams params returnType pre post body info =>
    cases body with
    | none => cases hbody
    | some body =>
      obtain ⟨-, spills, b, hspills, hb, hitems, hcounter⟩ := cgFunc_inv h
      refine ⟨name, b.1, rfl, ?_, hcounter ▸ cgStmt_fresh body hb⟩
      rw [hitems, labels_append, labels_funcRest (spillParams_labels params hspills)]
      rfl
  all_goals
    cases hbody

/-- The labels of functions: numbered, or the name of one of them. -/
structure FreshFuncs (k : Nat) (names : List Bytes) (items : List Instr) (k' : Nat) : Prop where
  le : k ≤ k'
  known : ∀ l ∈ labels items, (∃ n, l.number = some n ∧ k ≤ n ∧ n < k') ∨ ∃ name ∈ names, l = .func name
  nodup : (labels items).Nodup

theorem cgFuncs_fresh {reg : Registry} {decls : List AstNode} (rest : List AstNode) {k : Nat}
    {code : Code} (hnames : (rest.filterMap funcName).Nodup)
    (h : cgFuncs reg decls rest k = some code) :
    FreshFuncs k (rest.filterMap funcName) code.1 code.2 := by
  induction rest generalizing k code with
  | nil =>
    obtain rfl := Option.some.inj h
    exact ⟨le_rfl, by simp [labels], .nil⟩
  | cons decl rest ih =>
    rw [List.filterMap_cons] at hnames ⊢
    simp only [cgFuncs] at h
    by_cases hbody : hasBody decl = true
    · simp only [hbody, if_true, Option.bind_eq_bind, Option.bind_eq_some_iff, Option.pure_def,
        Option.some.injEq] at h
      obtain ⟨f, hf, r, hr, rfl⟩ := h
      obtain ⟨name, items, hname, hlabels, hfresh⟩ := cgFunc_labels hbody hf
      rw [hname] at hnames ⊢
      obtain ⟨hnew, hrest⟩ := List.nodup_cons.mp hnames
      have hr' := ih hrest hr
      have hle := hfresh.le
      have hle' := hr'.le
      have hnotFunc : Label.func name ∉ labels items := by
        intro hmem
        obtain ⟨n, hn, -⟩ := hfresh.numbered _ hmem
        cases hn
      refine ⟨by omega, fun l hl => ?_, ?_⟩
      · rw [labels_append, hlabels, List.mem_append, List.mem_cons] at hl
        rcases hl with (rfl | hl) | hl
        · exact .inr ⟨name, by simp, rfl⟩
        · obtain ⟨n, hn, hlow, hhigh⟩ := hfresh.numbered l hl
          exact .inl ⟨n, hn, hlow, by omega⟩
        · rcases hr'.known l hl with ⟨n, hn, hlow, hhigh⟩ | ⟨name', hname', rfl⟩
          · exact .inl ⟨n, hn, by omega, hhigh⟩
          · exact .inr ⟨name', List.mem_cons_of_mem _ hname', rfl⟩
      · rw [labels_append, hlabels, List.nodup_append]
        refine ⟨List.nodup_cons.mpr ⟨hnotFunc, hfresh.nodup⟩, hr'.nodup, fun l hl l' hl' heq => ?_⟩
        subst heq
        rcases List.mem_cons.mp hl with rfl | hl
        · rcases hr'.known _ hl' with ⟨n, hn, -⟩ | ⟨name', hname', heq⟩
          · cases hn
          · exact hnew (Label.func.inj heq ▸ hname')
        · obtain ⟨n, hn, -, hhigh⟩ := hfresh.numbered l hl
          rcases hr'.known l hl' with ⟨n', hn', hlow, -⟩ | ⟨name', -, rfl⟩
          · obtain rfl := Option.some.inj (hn.symm.trans hn')
            omega
          · cases hn
    · simp only [hbody] at h
      have hrest : (rest.filterMap funcName).Nodup := by
        cases hname : funcName decl with
        | none => rwa [hname] at hnames
        | some name =>
          rw [hname] at hnames
          exact (List.nodup_cons.mp hnames).2
      have hr := ih hrest h
      refine ⟨hr.le, fun l hl => ?_, hr.nodup⟩
      rcases hr.known l hl with hn | ⟨name', hname', rfl⟩
      · exact .inl hn
      · refine .inr ⟨name', ?_, rfl⟩
        cases funcName decl with
        | none => exact hname'
        | some name => exact List.mem_cons_of_mem _ hname'

theorem cgFuncs_split {reg : Registry} {decls : List AstNode} {decl : AstNode} (rest : List AstNode)
    {k : Nat} {code : Code} (h : cgFuncs reg decls rest k = some code) (hmem : decl ∈ rest)
    (hbody : hasBody decl = true) :
    ∃ pre m f post, cgFunc reg decls decl m = some f ∧ code.1 = pre ++ f.1 ++ post := by
  induction rest generalizing k code with
  | nil => cases hmem
  | cons first rest ih =>
    simp only [cgFuncs] at h
    by_cases hfirst : hasBody first = true
    · simp only [hfirst, if_true, Option.bind_eq_bind, Option.bind_eq_some_iff, Option.pure_def,
        Option.some.injEq] at h
      obtain ⟨f, hf, r, hr, rfl⟩ := h
      rcases List.mem_cons.mp hmem with rfl | hmem
      · exact ⟨[], k, f, r.1, hf, rfl⟩
      · obtain ⟨pre, m, g, post, hg, heq⟩ := ih hr hmem
        exact ⟨f.1 ++ pre, m, g, post, hg, by simp [heq]⟩
    · simp only [hfirst] at h
      rcases List.mem_cons.mp hmem with rfl | hmem
      · exact absurd hbody hfirst
      · exact ih h hmem

/-! ## §2 A call of a program -/

/-- A program's code, and a call of one of its functions at the end. -/
def calling (code : Code) (name : Bytes) : List Instr := code.1 ++ [.call (.func name)]

theorem calling_linked {decls : List AstNode} {code : Code} (name : Bytes)
    (h : cgProgram decls = some code) :
    Linked (buildLayouts decls) decls (calling code name) := by
  unfold cgProgram at h
  split at h
  · rename_i hnames
    refine ⟨?_, fun name' decl hfunc hbody => ?_⟩
    · have hlabels : labels (calling code name) = labels code.1 :=
        (labels_append _ _).trans (List.append_nil _)
      change (labels (calling code name)).Nodup
      rw [hlabels]
      exact (cgFuncs_fresh decls hnames h).nodup
    · obtain ⟨pre, m, f, post, hf, heq⟩ :=
        cgFuncs_split decls h (List.mem_of_find?_eq_some hfunc) hbody
      have hitems : (machine (calling code name)).items =
          pre ++ f.1 ++ (post ++ [.call (.func name)]) := by
        simp [machine, calling, heq]
      exact ⟨pre.length, m, f, hf, CallCode.at_of_split hitems⟩
  · cases h

/-- What the machine does with a call that the source gives a value or a
division by zero: it comes back to the end of the code with the value and
nowhere else, the stack as it was, or it traps. -/
def Meets (items : List Instr) (s : State) (r : Run Word) : Prop :=
  match r with
  | .ok w => ∃ t, (machine items).Halts (items.length - 1, s) (items.length, t) ∧
      t.regs .rax = w ∧ Above s t
  | .error .divideError => (machine items).Traps (items.length - 1, s)
  | .error _ => True

/-- Linked code does what the function called at its end means. -/
theorem Linked.meets {reg : Registry} {decls : List AstNode} {code : Code} {name : Bytes}
    (h : Linked reg decls (calling code name)) (n : Nat) (ws : List Word) (s : State)
    (harity : arity decls name = some ws.length) (hargs : HoldsArgs s ws) :
    Meets (calling code name) s (callFunc reg decls n name ws) := by
  have hlength : (calling code name).length - 1 = code.1.length := by simp [calling]
  have hitem : (machine (calling code name)).items[code.1.length]? = some (.call (.func name)) := by
    simp [machine, calling]
  have hrun := (allOk h n).call name ws code.1.length s hitem harity hargs
  unfold Meets
  rw [hlength]
  cases hresult : callFunc reg decls n name ws with
  | ok w =>
    rw [hresult] at hrun
    obtain ⟨⟨pc, t⟩, hreach, hplace, hvalue, habove⟩ := hrun
    obtain rfl : pc = (calling code name).length := by
      refine hplace.trans ?_
      simp [calling]
    refine ⟨t, ⟨hreach, ?_⟩, hvalue, habove⟩
    simp [CallCode.step, machine]
  | error x =>
    rw [hresult] at hrun
    cases x with
    | divideError => exact hrun rfl
    | outOfFuel | stuck => trivial

/-- `fn fact(n: u64) -> u64 { if n < 2 { return 1 } return n * fact(n - 1) }`. -/
def factorial : List AstNode :=
  let n := AstNode.ident (bytes "n")
  let lit (v : UInt64) := AstNode.literalInt v false
  let one := AstNode.block [.returnNode (some (lit 1))]
  let smaller := AstNode.binaryOp .sub (some n) (some (lit 1)) []
  let product := AstNode.binaryOp .mul (some n)
    (some (.call (some (.ident (bytes "fact"))) [smaller])) []
  [.funcDecl (bytes "fact") [] [.param (bytes "n") (some (.typePrimitive .u64)) false false none]
    (some (.typePrimitive .u64)) [] []
    (some (.block [.ifNode (some (.binaryOp .lt (some n) (some (lit 2)) [])) (some one) none none,
      .returnNode (some product)])) {}]

/-- The machine with this word in `rdi`. -/
def State.withArgument (w : Word) : State where
  regs := fun r => if r = .rdi then w else 0
  rsp := 0
  rbp := 0
  zero := false
  mem := fun _ => .word 0

theorem withArgument_holds (w : Word) : HoldsArgs (.withArgument w) [w] := by
  simp [HoldsArgs, argRegs, State.withArgument]

end Aether.Codegen.Functions
