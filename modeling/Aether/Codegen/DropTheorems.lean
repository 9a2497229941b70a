/-
Aether.Codegen.DropTheorems — dead code elimination keeps what a program
does.

`sweep` takes items out of statement lists. Whatever it takes out, a program
that still has code does what it did, as long as the initialisers that are
gone did nothing: code for a variable that is gone is code that cannot be
generated. So nothing depends on what the symbol table says.
-/
import Aether.Codegen.FoldTheorems
import Aether.Optimizer.Dce

namespace Aether.Codegen.Functions

open Aether.Lib Layout Optimizer
open Aether.Lib.Fuel (Follows)
open RangeLoops (Word)

/-! ## §1 What is taken out -/

/-- An expression that has a value and does nothing else. -/
def isQuietExpr : AstNode → Bool
  | .literalInt .. | .literalBool _ | .literalChar _ | .literalNone | .ident _ => true
  | .unaryOp _ (some operand) => isQuietExpr operand
  | _ => false

/-- A function, or a variable whose initialiser does nothing. -/
def isQuiet : AstNode → Bool
  | .funcDecl .. | .letNode _ _ none _ _ => true
  | .letNode _ _ (some value) _ _ => isQuietExpr value
  | _ => false

/-- The variables of an item that is taken out. -/
def itemNames : AstNode → List Bytes
  | .letNode name .. => [name]
  | _ => []

def droppedNames (items : List AstNode) : List Bytes := items.flatMap itemNames

theorem count_droppedNames_append (a b : List AstNode) (x : Bytes) :
    (droppedNames (a ++ b)).count x = (droppedNames a).count x + (droppedNames b).count x := by
  simp [droppedNames]

mutual

theorem sweep_all (node : AstNode) : sweep (fun _ => true) node = (node, []) := by
  cases node with
  | program decls | block decls => simp only [sweep, sweepItems_all decls]
  | funcDecl name typeParams params returnType pre post body info =>
    simp only [sweep, sweepOpt_all body]
  | ifNode condition thenBlock elifChain elseBlock =>
    simp only [sweep, sweepOpt_all condition, sweepOpt_all thenBlock, sweepOpt_all elseBlock,
      List.append_nil]
  | ifLet pattern condition thenBlock =>
    simp only [sweep, sweepOpt_all condition, sweepOpt_all thenBlock, List.append_nil]
  | whileNode condition body =>
    simp only [sweep, sweepOpt_all condition, sweepOpt_all body, List.append_nil]
  | forNode var indexVar iterable body =>
    simp only [sweep, sweepOpt_all iterable, sweepOpt_all body, List.append_nil]
  | exprStmt expr => simp only [sweep, sweepOpt_all expr]
  | _ => rfl

theorem sweepOpt_all (node : Option AstNode) : sweepOpt (fun _ => true) node = (node, []) := by
  cases node with
  | none => rfl
  | some node => simp only [sweepOpt, sweep_all node]

theorem sweepItems_all (nodes : List AstNode) : sweepItems (fun _ => true) nodes = (nodes, []) := by
  cases nodes with
  | nil => rfl
  | cons node nodes =>
    simp only [sweepItems, sweepItems_all nodes, sweep_all node, if_true, List.append_nil]

end

theorem sweepItems_keep {keep : AstNode → Bool} {node : AstNode} {nodes : List AstNode}
    (h : keep node = true) : sweepItems keep (node :: nodes) =
      ((sweep keep node).1 :: (sweepItems keep nodes).1,
        (sweep keep node).2 ++ (sweepItems keep nodes).2) := by
  simp only [sweepItems, h, if_true]

theorem sweepItems_drop {keep : AstNode → Bool} {node : AstNode} {nodes : List AstNode}
    (h : ¬ keep node = true) : sweepItems keep (node :: nodes) =
      ((sweepItems keep nodes).1, node :: (sweepItems keep nodes).2) := by
  simp only [sweepItems, h, Bool.false_eq_true, if_false]

/-! ## §2 Code of the parts -/

section

variable {decls : List AstNode} {slots : List VarSlot} {k : Nat} {code : Code}

theorem cgBinaryOp_inv {op : BinOp} {left right : AstNode} {customOp : Bytes}
    (h : cgExpr decls slots (.binaryOp op (some left) (some right) customOp) k = some code) :
    ∃ r, cgExpr decls slots right k = some r ∧
      (op ≠ .assign → ∃ l, cgExpr decls slots left r.2 = some l) := by
  simp only [cgExpr, Option.bind_eq_bind, Option.bind_eq_some_iff] at h
  obtain ⟨r, hr, h⟩ := h
  refine ⟨r, hr, fun hassign => ?_⟩
  rw [if_neg hassign] at h
  obtain ⟨l, hl, -⟩ := Option.bind_eq_some_iff.mp h
  exact ⟨l, hl⟩

theorem cgUnaryOp_inv {op : UnaryOp} {operand : AstNode}
    (h : cgExpr decls slots (.unaryOp op (some operand)) k = some code) :
    ∃ e, cgExpr decls slots operand k = some e := by
  simp only [cgExpr, Option.bind_eq_bind, Option.bind_eq_some_iff] at h
  obtain ⟨e, he, -⟩ := h
  exact ⟨e, he⟩

theorem cgCall_inv {name : Bytes} {args : List AstNode}
    (h : cgExpr decls slots (.call (some (.ident name)) args) k = some code) :
    (arity decls name).isSome = true ∧ ∃ a, cgArgs decls slots args k = some a := by
  simp only [cgExpr, Option.bind_eq_bind, Option.bind_eq_some_iff] at h
  obtain ⟨argc, hargc, h⟩ := h
  split at h
  · obtain ⟨a, ha, -⟩ := Option.bind_eq_some_iff.mp h
    exact ⟨by simp [hargc], a, ha⟩
  · cases h

theorem cgArgs_inv {arg : AstNode} {args : List AstNode}
    (h : cgArgs decls slots (arg :: args) k = some code) :
    ∃ a e, cgArgs decls slots args k = some a ∧ cgExpr decls slots arg a.2 = some e := by
  simp only [cgArgs, Option.bind_eq_bind, Option.bind_eq_some_iff] at h
  obtain ⟨a, ha, e, he, -⟩ := h
  exact ⟨a, e, ha, he⟩

theorem cgReturn_inv {value : AstNode}
    (h : cgStmt decls slots (.returnNode (some value)) k = some code) :
    ∃ e, cgExpr decls slots value k = some e := by
  simp only [cgStmt, Option.bind_eq_bind, Option.bind_eq_some_iff] at h
  obtain ⟨e, he, -⟩ := h
  exact ⟨e, he⟩

theorem cgLet_inv {name : Bytes} {type : Option AstNode} {value : AstNode} {isMut isGlobal : Bool}
    (h : cgStmt decls slots (.letNode name type (some value) isMut isGlobal) k = some code) :
    ∃ e, cgExpr decls slots value k = some e := by
  simp only [cgStmt, Option.bind_eq_bind, Option.bind_eq_some_iff] at h
  obtain ⟨slot, -, h⟩ := h
  split at h
  · cases h
  · obtain ⟨e, he, -⟩ := Option.bind_eq_some_iff.mp h
    exact ⟨e, he⟩

theorem cgIf_inv {condition : AstNode} {thenBlock elifChain elseBlock : Option AstNode}
    (h : cgStmt decls slots (.ifNode (some condition) thenBlock elifChain elseBlock) k = some code) :
    (elifChain.isSome && elseBlock.isSome) = false ∧ ∃ c t elif e,
      cgExpr decls slots condition (k + 2) = some c ∧ cgStmtOpt decls slots thenBlock c.2 = some t ∧
        cgStmtOpt decls slots elifChain t.2 = some elif ∧
        cgStmtOpt decls slots elseBlock elif.2 = some e := by
  simp only [cgStmt] at h
  split at h
  · cases h
  · next hboth =>
    simp only [Option.bind_eq_bind, Option.bind_eq_some_iff] at h
    obtain ⟨c, hc, t, ht, elif, helif, e, he, -⟩ := h
    exact ⟨by simpa using hboth, c, t, elif, e, hc, ht, helif, he⟩

theorem cgWhile_inv {condition : AstNode} {body : Option AstNode}
    (h : cgStmt decls slots (.whileNode (some condition) body) k = some code) :
    ∃ c b, cgExpr decls slots condition (k + 2) = some c ∧
      cgStmtOpt decls slots body c.2 = some b := by
  simp only [cgStmt, Option.bind_eq_bind, Option.bind_eq_some_iff] at h
  obtain ⟨c, hc, b, hb, -⟩ := h
  exact ⟨c, b, hc, hb⟩

theorem cgStmts_inv {node : AstNode} {nodes : List AstNode}
    (h : cgStmts decls slots (node :: nodes) k = some code) :
    ∃ a b, cgStmt decls slots node k = some a ∧ cgStmts decls slots nodes a.2 = some b := by
  simp only [cgStmts, Option.bind_eq_bind, Option.bind_eq_some_iff] at h
  obtain ⟨a, ha, b, hb, -⟩ := h
  exact ⟨a, b, ha, hb⟩

end

/-! ## §3 The frame -/

def FrameState.count (f : FrameState) (x : Bytes) : Nat := (f.slots.map VarSlot.name).count x

/-- A frame without some slots of the other, `p x` of the name `x`. -/
structure Fits (p : Bytes → Nat) (f f' : FrameState) : Prop where
  counts : ∀ x, p x + f'.count x ≤ f.count x
  sizes : ∀ s' ∈ f'.slots, ∃ s ∈ f.slots, s.name = s'.name ∧ s.actualSize = s'.actualSize

section

variable {p q : Bytes → Nat} {f f' : FrameState}

theorem Fits.refl (f : FrameState) : Fits (fun _ => 0) f f where
  counts := fun x => by simp
  sizes := fun s hs => ⟨s, hs, rfl, rfl⟩

theorem Fits.less (h : Fits p f f') (hq : ∀ x, q x ≤ p x) : Fits q f f' where
  counts := fun x => (Nat.add_le_add_right (hq x) _).trans (h.counts x)
  sizes := h.sizes

theorem Fits.add (h : Fits p f f') (name : Bytes) (size actualSize : Nat) (prim : PrimType) :
    Fits p (f.add name size actualSize prim) (f'.add name size actualSize prim) where
  counts := by
    intro x
    have hcount := h.counts x
    simp only [FrameState.count, FrameState.add, List.map_cons, List.count_cons] at hcount ⊢
    omega
  sizes := by
    intro s' hs'
    rcases List.mem_cons.mp hs' with rfl | hs'
    · exact ⟨_, List.mem_cons_self, rfl, rfl⟩
    · obtain ⟨s, hs, hname, hsize⟩ := h.sizes s' hs'
      exact ⟨s, List.mem_cons_of_mem _ hs, hname, hsize⟩

theorem Fits.addLoopVar (h : Fits p f f') (name : Option Bytes) :
    Fits p (f.addLoopVar name) (f'.addLoopVar name) := by
  cases name with
  | none => exact h
  | some name => exact h.add name 8 8 .u64

/-- A slot that only the one frame has. -/
theorem Fits.drop (h : Fits p f f') (name : Bytes) (size actualSize : Nat) (prim : PrimType) :
    Fits (fun x => p x + [name].count x) (f.add name size actualSize prim) f' where
  counts := by
    intro x
    have hcount := h.counts x
    simp only [FrameState.count, FrameState.add, List.map_cons, List.count_cons,
      List.count_nil] at hcount ⊢
    omega
  sizes := by
    intro s' hs'
    obtain ⟨s, hs, hname, hsize⟩ := h.sizes s' hs'
    exact ⟨s, List.mem_cons_of_mem _ hs, hname, hsize⟩

end

section

variable (reg : Registry)

mutual

/-- The same node in two frames. -/
theorem fits_node (node : AstNode) {p : Bytes → Nat} {f f' : FrameState} (h : Fits p f f') :
    Fits p (frameCollect reg node f) (frameCollect reg node f') := by
  cases node with
  | block stmts => exact fits_items stmts h
  | letNode name type value isMut isGlobal => exact fits_opt value (h.add name _ _ _)
  | ifNode condition thenBlock elifChain elseBlock =>
    exact fits_opt elseBlock (fits_opt elifChain (fits_opt thenBlock (fits_opt condition h)))
  | ifLet pattern condition thenBlock => exact fits_opt thenBlock (fits_opt condition h)
  | whileNode condition body => exact fits_opt body (fits_opt condition h)
  | forNode var indexVar iterable body =>
    exact fits_opt body (fits_opt iterable ((h.addLoopVar var).addLoopVar indexVar))
  | tryNode body catchArms finallyBody => exact fits_arms catchArms (fits_opt body h)
  | _ => exact h

theorem fits_opt (node : Option AstNode) {p : Bytes → Nat} {f f' : FrameState} (h : Fits p f f') :
    Fits p (frameCollectOpt reg node f) (frameCollectOpt reg node f') := by
  cases node with
  | none => exact h
  | some node => exact fits_node node h

theorem fits_items (nodes : List AstNode) {p : Bytes → Nat} {f f' : FrameState} (h : Fits p f f') :
    Fits p (frameCollectItems reg nodes f) (frameCollectItems reg nodes f') := by
  cases nodes with
  | nil => exact h
  | cons node nodes => exact fits_items nodes (fits_node node h)

theorem fits_arms (arms : List AstNode) {p : Bytes → Nat} {f f' : FrameState} (h : Fits p f f') :
    Fits p (frameCollectArms reg arms f) (frameCollectArms reg arms f') := by
  cases arms with
  | nil => exact h
  | cons arm arms =>
    cases arm with
    | catchArm type var body isCatchAll => exact fits_arms arms (fits_opt body h)
    | _ => exact fits_arms arms h

end

theorem frameCollect_quiet {node : AstNode} (h : isQuietExpr node = true) (f : FrameState) :
    frameCollect reg node f = f := by
  cases node with
  | literalInt | literalBool | literalChar | literalNone | ident | unaryOp => rfl
  | _ => cases h

/-- An item that is taken out leaves its slots out. -/
theorem fits_dropped {item : AstNode} (hquiet : isQuiet item = true) {p : Bytes → Nat}
    {f f' : FrameState} (h : Fits p f f') :
    Fits (fun x => p x + (itemNames item).count x) (frameCollect reg item f) f' := by
  cases item with
  | funcDecl => exact h.less fun x => by simp [itemNames]
  | letNode name type value isMut isGlobal =>
    cases value with
    | none => exact h.drop name _ _ _
    | some value =>
      simp only [frameCollect, frameCollectOpt, frameCollect_quiet reg hquiet]
      exact h.drop name _ _ _
  | _ => cases hquiet

end

section

variable {reg : Registry} {decls : List AstNode} {slots : List VarSlot} {keep : AstNode → Bool}

/-- Nothing is taken out of an expression that has code. -/
theorem sweep_expr {node : AstNode} {k : Nat} {code : Code}
    (hcode : cgExpr decls slots (sweep keep node).1 k = some code) : sweep keep node = (node, []) := by
  cases node with
  | program | block | funcDecl | ifNode | ifLet | whileNode | forNode | exprStmt => cases hcode
  | _ => rfl

mutual

theorem fits_sweep (node : AstNode) {k : Nat} {code : Code}
    (hcode : cgStmt decls slots (sweep keep node).1 k = some code)
    (hquiet : ∀ item ∈ (sweep keep node).2, isQuiet item = true)
    {p : Bytes → Nat} {f f' : FrameState} (h : Fits p f f') :
    Fits (fun x => p x + (droppedNames (sweep keep node).2).count x) (frameCollect reg node f)
      (frameCollect reg (sweep keep node).1 f') := by
  have hsame : ∀ {node : AstNode}, sweep keep node = (node, []) →
      Fits (fun x => p x + (droppedNames (sweep keep node).2).count x) (frameCollect reg node f)
        (frameCollect reg (sweep keep node).1 f') := by
    intro node hnode
    rw [hnode]
    exact (fits_node reg node h).less fun x => by simp [droppedNames]
  cases node with
  | block stmts => exact fits_sweepItems stmts hcode hquiet h
  | exprStmt expr =>
    cases expr with
    | none => exact hsame rfl
    | some expr =>
      have hexpr := sweep_expr hcode
      refine hsame ?_
      simp only [sweep, sweepOpt, hexpr]
  | ifNode condition thenBlock elifChain elseBlock =>
    cases condition with
    | none => cases hcode
    | some condition =>
      simp only [sweep, sweepOpt] at hcode hquiet ⊢
      obtain ⟨-, c, t, elif, e, hc, ht, -, he⟩ := cgIf_inv hcode
      have hexpr := sweep_expr hc
      simp only [hexpr, List.nil_append, List.mem_append] at hquiet ⊢
      have hcond := fits_node reg condition h
      have hthen := fits_sweepOpt thenBlock ht (fun item hi => hquiet item (.inl hi)) hcond
      have helse := fits_sweepOpt elseBlock he (fun item hi => hquiet item (.inr hi))
        (fits_opt reg elifChain hthen)
      refine Fits.less helse fun x => ?_
      rw [count_droppedNames_append]
      omega
  | whileNode condition body =>
    cases condition with
    | none => cases hcode
    | some condition =>
      simp only [sweep, sweepOpt] at hcode hquiet ⊢
      obtain ⟨c, b, hc, hb⟩ := cgWhile_inv hcode
      have hexpr := sweep_expr hc
      simp only [hexpr, List.nil_append] at hquiet ⊢
      exact fits_sweepOpt body hb hquiet (fits_node reg condition h)
  | program | funcDecl | ifLet | forNode => cases hcode
  | _ => exact hsame rfl

theorem fits_sweepOpt (node : Option AstNode) {k : Nat} {code : Code}
    (hcode : cgStmtOpt decls slots (sweepOpt keep node).1 k = some code)
    (hquiet : ∀ item ∈ (sweepOpt keep node).2, isQuiet item = true)
    {p : Bytes → Nat} {f f' : FrameState} (h : Fits p f f') :
    Fits (fun x => p x + (droppedNames (sweepOpt keep node).2).count x)
      (frameCollectOpt reg node f) (frameCollectOpt reg (sweepOpt keep node).1 f') := by
  cases node with
  | none => exact h.less fun x => by simp [droppedNames, sweepOpt]
  | some node => exact fits_sweep node hcode hquiet h

theorem fits_sweepItems (nodes : List AstNode) {k : Nat} {code : Code}
    (hcode : cgStmts decls slots (sweepItems keep nodes).1 k = some code)
    (hquiet : ∀ item ∈ (sweepItems keep nodes).2, isQuiet item = true)
    {p : Bytes → Nat} {f f' : FrameState} (h : Fits p f f') :
    Fits (fun x => p x + (droppedNames (sweepItems keep nodes).2).count x)
      (frameCollectItems reg nodes f) (frameCollectItems reg (sweepItems keep nodes).1 f') := by
  cases nodes with
  | nil => exact h.less fun x => by simp [droppedNames, sweepItems]
  | cons node nodes =>
    by_cases hkeep : keep node = true
    · simp only [sweepItems_keep hkeep, List.mem_append] at hcode hquiet ⊢
      obtain ⟨a, b, ha, hb⟩ := cgStmts_inv hcode
      have hfirst := fits_sweep node ha (fun item hi => hquiet item (.inl hi)) h
      have hrest := fits_sweepItems nodes hb (fun item hi => hquiet item (.inr hi)) hfirst
      refine Fits.less hrest fun x => ?_
      rw [count_droppedNames_append]
      omega
    · simp only [sweepItems_drop hkeep, List.mem_cons] at hcode hquiet ⊢
      have hfirst := fits_dropped reg (hquiet node (.inl rfl)) h
      have hrest := fits_sweepItems nodes hcode (fun item hi => hquiet item (.inr hi)) hfirst
      refine Fits.less hrest fun x => ?_
      simp only [droppedNames, List.flatMap_cons, List.count_append]
      omega

end

end

/-! ## §4 Slots -/

/-- A variable that has a slot in the one frame has one of its size in the
other. -/
def SlotsFit (slots slots' : List VarSlot) : Prop :=
  ∀ name s', findSlot slots' name = some s' →
    ∃ s, findSlot slots name = some s ∧ s.actualSize = s'.actualSize

theorem findSlot_of_mem {slots : List VarSlot} {s : VarSlot}
    (hnodup : (slots.map VarSlot.name).Nodup) (hs : s ∈ slots) : findSlot slots s.name = some s := by
  induction slots with
  | nil => cases hs
  | cons first slots ih =>
    obtain ⟨hnew, hrest⟩ := List.nodup_cons.mp hnodup
    rcases List.mem_cons.mp hs with rfl | hs
    · simp [findSlot]
    · have hne : ¬ first.name = s.name := fun h => hnew (h ▸ List.mem_map_of_mem hs)
      simpa [findSlot, List.find?_cons, hne] using ih hrest hs

section

variable {p : Bytes → Nat} {f f' : FrameState}

theorem Fits.slotsFit (h : Fits p f f') (hnodup : (f.slots.map VarSlot.name).Nodup) :
    SlotsFit f.slots f'.slots := by
  intro name s' hs'
  obtain ⟨hmem, rfl⟩ := mem_of_findSlot hs'
  obtain ⟨s, hs, hname, hsize⟩ := h.sizes s' hmem
  exact ⟨s, hname ▸ findSlot_of_mem hnodup hs, hsize⟩

/-- Where each name is there once, what is taken out is gone. -/
theorem Fits.gone (h : Fits p f f') (hnodup : (f.slots.map VarSlot.name).Nodup) {x : Bytes}
    (hx : 0 < p x) : findSlot f'.slots x = none := by
  have hcount := h.counts x
  have honce : f.count x ≤ 1 := List.nodup_iff_count.mp hnodup x
  have hzero : (f'.slots.map VarSlot.name).count x = 0 := by
    simp only [FrameState.count] at hcount honce
    omega
  refine List.find?_eq_none.mpr fun s hs hname => ?_
  exact List.count_eq_zero.mp hzero (eq_of_beq hname ▸ List.mem_map_of_mem hs)

end

/-- An item that does nothing, for a variable without a slot. -/
def Gone (slots' : List VarSlot) (item : AstNode) : Prop :=
  isQuiet item = true ∧ ∀ x ∈ itemNames item, findSlot slots' x = none

/-! ## §5 Variables -/

/-- The variables that have a slot are the same. -/
def EnvFits (slots' : List VarSlot) (env env' : Env) : Prop :=
  ∀ name, (findSlot slots' name).isSome = true → env name = env' name

/-- The same value, beside variables that fit. -/
def SameValue {α : Type} (slots' : List VarSlot) (a b : α × Env) : Prop :=
  a.1 = b.1 ∧ EnvFits slots' a.2 b.2

def SameEnd (slots' : List VarSlot) (a b : Env × Option Word) : Prop :=
  EnvFits slots' a.1 b.1 ∧ a.2 = b.2

/-- Of what stops a program, only a division by zero is kept. -/
def IsDivide (e : Stop) : Prop := e = .divideError

theorem not_divide_stuck : ¬ IsDivide .stuck := by
  simp [IsDivide]

theorem not_divide_outOfFuel : ¬ IsDivide .outOfFuel := by
  simp [IsDivide]

section

variable {slots slots' : List VarSlot} {env env' : Env}

theorem EnvFits.set (h : EnvFits slots' env env') (name : Bytes) (w : Word) :
    EnvFits slots' (env.set name w) (env'.set name w) := by
  intro name' hslot
  simp only [Env.set, h name' hslot]

theorem EnvFits.drop (h : EnvFits slots' env env') {name : Bytes} (hname : findSlot slots' name = none)
    (w : Word) : EnvFits slots' (env.set name w) env' := by
  intro name' hslot
  have hne : name' ≠ name := by
    rintro rfl
    simp [hname] at hslot
  simpa only [Env.set, if_neg hne] using h name' hslot

theorem follows_assign (h : EnvFits slots' env env') (left : AstNode) (w : Word) :
    Follows IsDivide (EnvFits slots') (assign env left w) (assign env' left w) := by
  cases left
  case ident name => exact .ok (h.set name w)
  all_goals exact .error not_divide_stuck

theorem follows_readVar (hslots : SlotsFit slots slots') (h : EnvFits slots' env env') {name : Bytes}
    {s' : VarSlot} (hs' : findSlot slots' name = some s') :
    readVar slots env name = readVar slots' env' name := by
  obtain ⟨s, hs, hsize⟩ := hslots name s' hs'
  have hname : env name = env' name := h name (by simp [hs'])
  simp only [readVar, hs, hs', hname]
  cases env' name with
  | none => rfl
  | some w => simp only [hsize]

/-- A quiet expression gives a value or has no meaning. -/
theorem quiet_value (reg : Registry) (decls : List AstNode) (slots : List VarSlot) (env : Env)
    (n : Nat) {node : AstNode} (h : isQuietExpr node = true) :
    (∃ w, evalExpr reg decls n slots env node = .ok (w, env)) ∨
      ∃ e, evalExpr reg decls n slots env node = .error e ∧ ¬ IsDivide e := by
  induction n generalizing node with
  | zero => exact .inr ⟨_, rfl, not_divide_outOfFuel⟩
  | succ n ih =>
    cases node
    case literalInt | literalBool | literalChar | literalNone => exact .inl ⟨_, rfl⟩
    case ident name =>
      simp only [evalExpr]
      cases findConst decls name with
      | some w => exact .inl ⟨w, rfl⟩
      | none =>
        simp only [readVar]
        split
        · exact .inl ⟨_, rfl⟩
        · exact .inr ⟨_, rfl, not_divide_stuck⟩
    case unaryOp op operand =>
      cases operand with
      | none => cases h
      | some operand =>
        simp only [isQuietExpr] at h
        simp only [evalExpr]
        rcases ih h with ⟨w, hw⟩ | ⟨e, he, hkept⟩
        · rw [hw]
          cases op
          case neg | not | bitNot => exact .inl ⟨_, rfl⟩
          all_goals exact .inr ⟨_, rfl, not_divide_stuck⟩
        · rw [he]
          exact .inr ⟨e, rfl, hkept⟩
    all_goals cases h

/-- What is taken out changes no variable that has a slot. -/
theorem follows_gone (reg : Registry) (decls : List AstNode) (slots : List VarSlot) (n : Nat)
    {item : AstNode} (hgone : Gone slots' item) (h : EnvFits slots' env env') :
    Follows IsDivide (fun r _ => EnvFits slots' r.1 env' ∧ r.2 = none)
      (execStmt reg decls n slots env item) (.ok ()) := by
  obtain ⟨hquiet, hnames⟩ := hgone
  cases n with
  | zero => exact .error not_divide_outOfFuel
  | succ n =>
    cases item
    case funcDecl => exact .error not_divide_stuck
    case letNode name type value isMut isGlobal =>
      have hname := hnames name (List.mem_singleton_self name)
      cases value with
      | none => exact .ok ⟨h.drop hname 0, rfl⟩
      | some value =>
        simp only [execStmt]
        rcases quiet_value reg decls slots env n hquiet with ⟨w, hw⟩ | ⟨e, he, hkept⟩
        · rw [hw]
          exact .ok ⟨h.drop hname w, rfl⟩
        · rw [he]
          exact .error hkept
    all_goals cases hquiet

end

/-! ## §6 Statements -/

section

variable (reg : Registry) (decls decls' : List AstNode) (slots slots' : List VarSlot)

/-- A call in the one program ends as in the other. -/
def CallsFollow (n : Nat) : Prop :=
  ∀ name ws, (arity decls' name).isSome = true →
    Follows IsDivide Eq (callFunc reg decls n name ws) (callFunc reg decls' n name ws)

/-- What is left of a node, where it has code, does what the node does. -/
structure Follow (n : Nat) : Prop where
  expr : ∀ node k code env env', cgExpr decls' slots' node k = some code → EnvFits slots' env env' →
    Follows IsDivide (SameValue slots') (evalExpr reg decls n slots env node)
      (evalExpr reg decls' n slots' env' node)
  args : ∀ args k code env env', cgArgs decls' slots' args k = some code → EnvFits slots' env env' →
    Follows IsDivide (SameValue slots') (evalArgs reg decls n slots env args)
      (evalArgs reg decls' n slots' env' args)
  stmt : ∀ keep node k code env env', cgStmt decls' slots' (sweep keep node).1 k = some code →
    (∀ item ∈ (sweep keep node).2, Gone slots' item) → EnvFits slots' env env' →
    Follows IsDivide (SameEnd slots') (execStmt reg decls n slots env node)
      (execStmt reg decls' n slots' env' (sweep keep node).1)
  opt : ∀ keep node k code env env', cgStmtOpt decls' slots' (sweepOpt keep node).1 k = some code →
    (∀ item ∈ (sweepOpt keep node).2, Gone slots' item) → EnvFits slots' env env' →
    Follows IsDivide (SameEnd slots') (execStmtOpt reg decls n slots env node)
      (execStmtOpt reg decls' n slots' env' (sweepOpt keep node).1)
  stmts : ∀ keep nodes k code env env', cgStmts decls' slots' (sweepItems keep nodes).1 k = some code →
    (∀ item ∈ (sweepItems keep nodes).2, Gone slots' item) → EnvFits slots' env env' →
    Follows IsDivide (SameEnd slots') (execStmts reg decls n slots env nodes)
      (execStmts reg decls' n slots' env' (sweepItems keep nodes).1)

variable {reg decls decls' slots slots'} {n : Nat}

theorem Follow.expr_succ (h : Follow reg decls decls' slots slots' n)
    (hcall : CallsFollow reg decls decls' n) (hslots : SlotsFit slots slots')
    (hconst : findConst decls' = findConst decls) (node : AstNode) (k : Nat) (code : Code)
    (env env' : Env) (hcode : cgExpr decls' slots' node k = some code)
    (henv : EnvFits slots' env env') :
    Follows IsDivide (SameValue slots') (evalExpr reg decls (n + 1) slots env node)
      (evalExpr reg decls' (n + 1) slots' env' node) := by
  cases node
  case literalInt | literalBool | literalChar | literalNone => exact .ok ⟨rfl, henv⟩
  case ident name =>
    simp only [cgExpr] at hcode
    simp only [evalExpr, ← hconst]
    cases hfound : findConst decls' name with
    | some w => exact .ok ⟨rfl, henv⟩
    | none =>
      simp only [hfound] at hcode
      obtain ⟨s', hs', -⟩ := Option.map_eq_some_iff.mp hcode
      simp only [follows_readVar hslots henv hs']
      refine .bind (.refl _) fun w w' hw => .ok ⟨hw, henv⟩
  case binaryOp op left right customOp =>
    cases left with
    | none => cases hcode
    | some left =>
      cases right with
      | none => cases hcode
      | some right =>
        obtain ⟨r, hr, hl⟩ := cgBinaryOp_inv hcode
        simp only [evalExpr]
        refine .bind (h.expr right k r env env' hr henv) fun b b' hb => ?_
        obtain ⟨hvalue, hb⟩ := hb
        rw [hvalue]
        refine .ite (fun _ => ?_) fun hassign => ?_
        · exact .bind (follows_assign hb left b'.1) fun e e' he => .ok ⟨rfl, he⟩
        · obtain ⟨l, hl⟩ := hl hassign
          refine .bind (h.expr left r.2 l b.2 b'.2 hl hb) fun a a' ha => ?_
          obtain ⟨hvalue', ha⟩ := ha
          rw [hvalue']
          refine .bind (.refl _) fun w w' hw => ?_
          subst hw
          refine .ite (fun _ => ?_) fun _ => .ok ⟨rfl, ha⟩
          exact .bind (follows_assign ha left w) fun e e' he => .ok ⟨rfl, he⟩
  case unaryOp op operand =>
    cases operand with
    | none => cases hcode
    | some operand =>
      obtain ⟨e, he⟩ := cgUnaryOp_inv hcode
      simp only [evalExpr]
      refine .bind (h.expr operand k e env env' he henv) fun a a' ha => ?_
      rw [ha.1]
      exact .bind (.refl _) fun w w' hw => .ok ⟨hw, ha.2⟩
  case call callee args =>
    cases callee with
    | none => cases hcode
    | some callee =>
      cases callee
      case ident name =>
        obtain ⟨harity, c, hc⟩ := cgCall_inv hcode
        simp only [evalExpr]
        refine .bind (h.args args k c env env' hc henv) fun a a' ha => ?_
        rw [ha.1]
        exact .bind (hcall name a'.1 harity) fun w w' hw => .ok ⟨hw, ha.2⟩
      all_goals cases hcode
  all_goals cases hcode

theorem Follow.stmt_succ (h : Follow reg decls decls' slots slots' n) (keep : AstNode → Bool)
    (node : AstNode) (k : Nat) (code : Code) (env env' : Env)
    (hcode : cgStmt decls' slots' (sweep keep node).1 k = some code)
    (hgone : ∀ item ∈ (sweep keep node).2, Gone slots' item) (henv : EnvFits slots' env env') :
    Follows IsDivide (SameEnd slots') (execStmt reg decls (n + 1) slots env node)
      (execStmt reg decls' (n + 1) slots' env' (sweep keep node).1) := by
  cases node
  case returnNode value =>
    cases value with
    | none => cases hcode
    | some value =>
      obtain ⟨e, he⟩ := cgReturn_inv hcode
      exact .bind (h.expr value k e env env' he henv) fun a a' ha =>
        .ok ⟨ha.2, congrArg some ha.1⟩
  case letNode name type value isMut isGlobal =>
    cases value with
    | none => exact .ok ⟨henv.set name 0, rfl⟩
    | some value =>
      obtain ⟨e, he⟩ := cgLet_inv hcode
      refine .bind (h.expr value k e env env' he henv) fun a a' ha => .ok ⟨?_, rfl⟩
      rw [ha.1]
      exact ha.2.set name a'.1
  case exprStmt expr =>
    cases expr with
    | none => cases hcode
    | some expr =>
      simp only [sweep, sweepOpt] at hcode hgone ⊢
      have hexpr := sweep_expr hcode
      rw [hexpr] at hcode ⊢
      exact .bind (h.expr expr k code env env' hcode henv) fun a a' ha => .ok ⟨ha.2, rfl⟩
  case block stmts => exact h.stmts keep stmts k code env env' hcode hgone henv
  case unsafeNode stmts =>
    have hall := sweepItems_all stmts
    have hrest := h.stmts (fun _ => true) stmts k code env env'
    rw [hall] at hrest
    exact hrest hcode hgone henv
  case runBlock body => exact .ok ⟨henv, rfl⟩
  case ifNode condition thenBlock elifChain elseBlock =>
    cases condition with
    | none => cases hcode
    | some condition =>
      simp only [sweep, sweepOpt] at hcode hgone ⊢
      obtain ⟨hboth, c, t, elif, e, hc, ht, helif, he⟩ := cgIf_inv hcode
      have hexpr := sweep_expr hc
      simp only [hexpr, List.nil_append, List.mem_append] at hc hgone ⊢
      have hboth' : (elifChain.isSome && elseBlock.isSome) = false := by
        cases elseBlock with
        | none => exact Bool.and_false _
        | some _ => exact hboth
      simp only [execStmt, hboth, hboth', Bool.false_eq_true, if_false]
      refine .bind (h.expr condition (k + 2) c env env' hc henv) fun a a' ha => ?_
      rw [ha.1]
      refine .ite (fun _ => ?_) fun _ => ?_
      · cases elifChain with
        | none =>
          exact h.opt keep elseBlock elif.2 e a.2 a'.2 he (fun item hi => hgone item (.inr hi)) ha.2
        | some node =>
          have hrest := h.opt (fun _ => true) (some node) t.2 elif a.2 a'.2
          rw [sweepOpt_all] at hrest
          exact hrest helif (by simp) ha.2
      · exact h.opt keep thenBlock c.2 t a.2 a'.2 ht (fun item hi => hgone item (.inl hi)) ha.2
  case whileNode condition body =>
    cases condition with
    | none => cases hcode
    | some condition =>
      have hagain := h.stmt keep (.whileNode (some condition) body) k code
      simp only [sweep, sweepOpt] at hcode hgone hagain ⊢
      obtain ⟨c, b, hc, hb⟩ := cgWhile_inv hcode
      have hexpr := sweep_expr hc
      simp only [hexpr, List.nil_append] at hc hb hcode hgone hagain ⊢
      simp only [execStmt]
      refine .bind (h.expr condition (k + 2) c env env' hc henv) fun a a' ha => ?_
      rw [ha.1]
      refine .ite (fun _ => .ok ⟨ha.2, rfl⟩) fun _ => ?_
      refine .bind (h.opt keep body c.2 b a.2 a'.2 hb hgone ha.2) fun r r' hr => ?_
      rw [hr.2]
      exact .ite (fun _ => .ok hr) fun _ => hagain r.1 r'.1 hcode hgone hr.1
  all_goals cases hcode

theorem follow (hslots : SlotsFit slots slots') (hconst : findConst decls' = findConst decls)
    (n : Nat) (hcalls : ∀ m, m < n → CallsFollow reg decls decls' m) :
    Follow reg decls decls' slots slots' n := by
  induction n with
  | zero =>
    have hout : ∀ {α β : Type} {R : α → β → Prop} {y : Run β},
        Follows IsDivide R (.error .outOfFuel : Run α) y := .error not_divide_outOfFuel
    exact ⟨fun _ _ _ _ _ _ _ => hout, fun _ _ _ _ _ _ _ => hout, fun _ _ _ _ _ _ _ _ _ => hout,
      fun _ _ _ _ _ _ _ _ _ => hout, fun _ _ _ _ _ _ _ _ _ => hout⟩
  | succ n ih =>
    have ih := ih fun m hm => hcalls m (Nat.lt_succ_of_lt hm)
    refine ⟨ih.expr_succ (hcalls n (Nat.lt_succ_self n)) hslots hconst,
      fun args k code env env' hcode henv => ?_, ih.stmt_succ,
      fun keep node k code env env' hcode hgone henv => ?_,
      fun keep nodes k code env env' hcode hgone henv => ?_⟩
    · cases args with
      | nil => exact .ok ⟨rfl, henv⟩
      | cons arg args =>
        obtain ⟨c, e, hc, he⟩ := cgArgs_inv hcode
        refine .bind (ih.args args k c env env' hc henv) fun a a' ha => ?_
        refine .bind (ih.expr arg c.2 e a.2 a'.2 he ha.2) fun v v' hv => .ok ⟨?_, hv.2⟩
        rw [ha.1, hv.1]
    · cases node with
      | none => exact .ok ⟨henv, rfl⟩
      | some node => exact ih.stmt keep node k code env env' hcode hgone henv
    · cases nodes with
      | nil => exact .ok ⟨henv, rfl⟩
      | cons node nodes =>
        by_cases hkeep : keep node = true
        · simp only [sweepItems_keep hkeep, List.mem_append] at hcode hgone ⊢
          obtain ⟨a, b, ha, hb⟩ := cgStmts_inv hcode
          refine .bind (ih.stmt keep node k a env env' ha (fun item hi => hgone item (.inl hi)) henv)
            fun r r' hr => ?_
          rw [hr.2]
          refine .ite (fun _ => .ok hr) fun _ => ?_
          exact ih.stmts keep nodes a.2 b r.1 r'.1 hb (fun item hi => hgone item (.inr hi)) hr.1
        · -- the item that is taken out takes one unit of fuel
          simp only [sweepItems_drop hkeep, List.mem_cons] at hcode hgone ⊢
          have hitem := follows_gone reg decls slots n (hgone node (.inl rfl)) henv
          have hrest := fun r => ih.stmts keep nodes k code r env' hcode
            fun item hi => hgone item (.inr hi)
          refine Follows.upto ?_ not_divide_outOfFuel ((grows n).stmts slots' env' _)
          refine Follows.bind (y := .ok ()) (g := fun _ => execStmts reg decls' n slots' env'
            (sweepItems keep nodes).1) hitem fun r _ hr => ?_
          rw [hr.2]
          exact hrest r.1 hr.1

end

/-! ## §7 Programs -/

section

variable {keep : AstNode → Bool} {decls : List AstNode}

theorem findConst_quiet {item : AstNode} (h : isQuiet item = true) (rest : List AstNode)
    (name : Bytes) : findConst (item :: rest) name = findConst rest name := by
  cases item with
  | funcDecl | letNode => rfl
  | _ => cases h

theorem findConst_sweep (decl : AstNode) {rest rest' : List AstNode} {name : Bytes}
    (h : findConst rest' name = findConst rest name) :
    findConst ((sweep keep decl).1 :: rest') name = findConst (decl :: rest) name := by
  cases decl with
  | constDecl name' value => simp only [sweep, findConst, h]
  | _ => exact h

theorem findConst_swept (hquiet : ∀ item ∈ (sweepItems keep decls).2, isQuiet item = true) :
    findConst (sweepItems keep decls).1 = findConst decls := by
  funext name
  induction decls with
  | nil => rfl
  | cons decl decls ih =>
    by_cases hkeep : keep decl = true
    · simp only [sweepItems_keep hkeep, List.mem_append] at hquiet ⊢
      exact findConst_sweep decl (ih fun item hi => hquiet item (.inr hi))
    · simp only [sweepItems_drop hkeep, List.mem_cons] at hquiet ⊢
      rw [findConst_quiet (hquiet decl (.inl rfl))]
      exact ih fun item hi => hquiet item (.inr hi)

theorem build_quiet {item : AstNode} (h : isQuiet item = true) (reg : Registry) :
    reg.build item = reg := by
  cases item with
  | funcDecl | letNode => rfl
  | _ => cases h

theorem build_sweep (decl : AstNode) (reg : Registry) :
    reg.build (sweep keep decl).1 = reg.build decl := by
  cases decl with
  | _ => rfl

theorem buildLayouts_swept (hquiet : ∀ item ∈ (sweepItems keep decls).2, isQuiet item = true) :
    buildLayouts (sweepItems keep decls).1 = buildLayouts decls := by
  have hfold : ∀ reg : Registry,
      (sweepItems keep decls).1.foldl Registry.build reg = decls.foldl Registry.build reg := by
    induction decls with
    | nil => exact fun _ => rfl
    | cons decl decls ih =>
      intro reg
      by_cases hkeep : keep decl = true
      · simp only [sweepItems_keep hkeep, List.mem_append, List.foldl_cons, build_sweep] at hquiet ⊢
        exact ih (fun item hi => hquiet item (.inr hi)) _
      · simp only [sweepItems_drop hkeep, List.mem_cons,
          List.foldl_cons] at hquiet ⊢
        rw [build_quiet (hquiet decl (.inl rfl))]
        exact ih (fun item hi => hquiet item (.inr hi)) _
  exact hfold {}

theorem funcName_of_findFunc {decl : AstNode} {name : Bytes} (h : findFunc decls name = some decl) :
    decl ∈ decls ∧ funcName decl = some name := by
  refine ⟨List.mem_of_find?_eq_some h, ?_⟩
  have hname := List.find?_some h
  cases decl with
  | funcDecl name' =>
    exact congrArg some (eq_of_beq hname)
  | _ => cases hname

theorem funcName_sweep (decl : AstNode) : funcName (sweep keep decl).1 = funcName decl := by
  cases decl with
  | _ => rfl

theorem findFunc_cons (decl : AstNode) (rest : List AstNode) (name : Bytes) :
    findFunc (decl :: rest) name = if funcName decl = some name then some decl else findFunc rest name := by
  cases decl
  case funcDecl name' _ _ _ _ _ _ _ =>
    by_cases hname : name' = name
    · simp [findFunc, funcName, hname]
    · simp [findFunc, funcName, hname]
  all_goals rfl

/-- A function that is left is what is left of the function of its name. -/
theorem findFunc_swept (hnames : (decls.filterMap funcName).Nodup)
    (hquiet : ∀ item ∈ (sweepItems keep decls).2, isQuiet item = true) {name : Bytes} {decl' : AstNode}
    (h : findFunc (sweepItems keep decls).1 name = some decl') :
    ∃ decl, findFunc decls name = some decl ∧ decl' = (sweep keep decl).1 ∧
      ∀ item ∈ (sweep keep decl).2, isQuiet item = true := by
  induction decls with
  | nil => cases h
  | cons decl decls ih =>
    have hrest : (decls.filterMap funcName).Nodup := by
      rw [List.filterMap_cons] at hnames
      cases hname : funcName decl with
      | none => rwa [hname] at hnames
      | some _ =>
        rw [hname] at hnames
        exact (List.nodup_cons.mp hnames).2
    by_cases hkeep : keep decl = true
    · simp only [sweepItems_keep hkeep, List.mem_append] at hquiet h
      rw [findFunc_cons, funcName_sweep] at h
      rw [findFunc_cons]
      by_cases hname : funcName decl = some name
      · rw [if_pos hname] at h ⊢
        exact ⟨decl, rfl, (Option.some.inj h).symm, fun item hi => hquiet item (.inl hi)⟩
      · rw [if_neg hname] at h ⊢
        exact ih hrest (fun item hi => hquiet item (.inr hi)) h
    · simp only [sweepItems_drop hkeep, List.mem_cons] at hquiet h
      obtain ⟨found, hfound, heq, hitems⟩ := ih hrest (fun item hi => hquiet item (.inr hi)) h
      obtain ⟨hmem, hname⟩ := funcName_of_findFunc hfound
      have hne : funcName decl ≠ some name := by
        intro heq
        rw [List.filterMap_cons, heq] at hnames
        exact (List.nodup_cons.mp hnames).1 (List.mem_filterMap.mpr ⟨found, hmem, hname⟩)
      exact ⟨found, by rw [findFunc_cons, if_neg hne, hfound], heq, hitems⟩

theorem arity_swept (hnames : (decls.filterMap funcName).Nodup)
    (hquiet : ∀ item ∈ (sweepItems keep decls).2, isQuiet item = true) {name : Bytes}
    (h : (arity (sweepItems keep decls).1 name).isSome = true) : (arity decls name).isSome = true := by
  cases hfound' : findFunc (sweepItems keep decls).1 name with
  | none => simp [arity, hfound'] at h
  | some decl' =>
    obtain ⟨decl, hfound, rfl, -⟩ := findFunc_swept hnames hquiet hfound'
    obtain ⟨-, hname⟩ := funcName_of_findFunc hfound
    cases decl
    case funcDecl =>
      simp only [arity, hfound, hfound', sweep] at h ⊢
      exact h
    all_goals cases hname

/-- What code of a program says of one of its functions. -/
theorem cgProgram_inv {code : Code} (h : cgProgram decls = some code) :
    (decls.filterMap funcName).Nodup ∧ ∀ decl ∈ decls, hasBody decl = true →
      ∃ k f, cgFunc (buildLayouts decls) decls decl k = some f := by
  unfold cgProgram at h
  split at h
  · rename_i hnames
    refine ⟨hnames, fun decl hmem hbody => ?_⟩
    obtain ⟨-, k, f, -, hf, -⟩ := cgFuncs_split decls h hmem hbody
    exact ⟨k, f, hf⟩
  · cases h

/-- The functions that are left do what they did. -/
theorem callsFollow {code₀ code : Code} (hsource : cgProgram decls = some code₀)
    (hquiet : ∀ item ∈ (sweepItems keep decls).2, isQuiet item = true)
    (hcode : cgProgram (sweepItems keep decls).1 = some code) (n : Nat) :
    CallsFollow (buildLayouts decls) decls (sweepItems keep decls).1 n := by
  obtain ⟨hnames, hfuncs⟩ := cgProgram_inv hsource
  obtain ⟨-, hfuncs'⟩ := cgProgram_inv hcode
  rw [buildLayouts_swept hquiet] at hfuncs'
  induction n using Nat.strong_induction_on with
  | _ n ih =>
    intro name ws harity
    cases n with
    | zero => exact .error not_divide_outOfFuel
    | succ n =>
      cases hfound' : findFunc (sweepItems keep decls).1 name with
      | none => simp [arity, hfound'] at harity
      | some decl' =>
        obtain ⟨decl, hfound, rfl, hitems⟩ := findFunc_swept hnames hquiet hfound'
        obtain ⟨hmem, hname⟩ := funcName_of_findFunc hfound
        obtain ⟨hmem', -⟩ := funcName_of_findFunc hfound'
        cases decl
        case funcDecl name' typeParams params returnType pre post body info =>
          cases body with
          | none =>
            simp only [callFunc, hfound]
            exact .error not_divide_stuck
          | some body =>
            simp only [sweep, sweepOpt] at hfound' hitems hmem'
            obtain ⟨k₀, f₀, hf₀⟩ := hfuncs _ hmem rfl
            obtain ⟨k, f, hf⟩ := hfuncs' _ hmem' rfl
            obtain ⟨hplain, -⟩ := cgFunc_inv hf₀
            obtain ⟨-, spills, b, -, hb, -⟩ := cgFunc_inv hf
            simp only [plainSlots, Bool.and_eq_true, decide_eq_true_eq] at hplain
            have hfits : Fits _ (frameCollect (buildLayouts decls) body _)
                (frameCollect (buildLayouts decls) (sweep keep body).1 _) :=
              fits_sweep body hb hitems (.refl (frameParams (buildLayouts decls) params {}))
            have hgone : ∀ item ∈ (sweep keep body).2,
                Gone (computeFrame (buildLayouts decls) params (some (sweep keep body).1)).1 item := by
              refine fun item hi => ⟨hitems item hi, fun x hx => ?_⟩
              have hcount : 0 < (droppedNames (sweep keep body).2).count x :=
                List.count_pos_iff.mpr (List.mem_flatMap.mpr ⟨item, hi, hx⟩)
              exact hfits.gone hplain.2 (by omega)
            simp only [callFunc, hfound, hfound']
            refine .bind (S := Eq) ((follow (hfits.slotsFit hplain.2) (findConst_swept hquiet) n
              fun m hm => ih m (Nat.lt_succ_of_lt hm)).stmt keep body _ b _ _ hb hgone
                fun _ _ => rfl) fun r r' hr => ?_
            rw [hr.2]
            exact .refl _
        all_goals cases hname

end

end Aether.Codegen.Functions
