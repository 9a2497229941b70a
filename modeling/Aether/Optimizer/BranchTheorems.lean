/-
Aether.Optimizer.BranchTheorems — folding of conditionals.

`fold_if_node` replaces a chain whose condition is a constant by a branch
and does not look at the elifs; where there is no branch it answers NULL,
which the lists of statements keep. `foldsTo` says what the folder makes of
a node as far as this matters, `full` that no list gets a NULL.
-/
import Aether.Lib.Outcome
import Aether.Optimizer.Dce
import Aether.Optimizer.Fold

namespace Aether.Optimizer

open Aether.Lib.Outcome

-- the equations, before the proofs that share them
section
attribute [local simp] foldNode
end

/-! ## §1 What a node is folded to -/

inductive Shape where
  | null
  | bool (b : Bool)
  | other
  deriving DecidableEq, Repr

def shapeOf : Option AstNode → Shape
  | none => .null
  | some (.literalBool b) => .bool b
  | some _ => .other

mutual

/-- Only a conditional is folded to NULL, or to a constant it is not. -/
def foldsTo : AstNode → Shape
  | .literalBool b => .bool b
  | .ifNode condition thenBlock _ elseBlock =>
    match foldsToOpt condition with
    | .bool true => foldsToOpt thenBlock
    | .bool false => foldsToOpt elseBlock
    | _ => .other
  | .ifLet _ condition thenBlock =>
    match foldsToOpt condition with
    | .bool true => foldsToOpt thenBlock
    | .bool false => .null
    | _ => .other
  | _ => .other

def foldsToOpt : Option AstNode → Shape
  | none => .null
  | some node => foldsTo node

end

mutual

/-- No list that the folder comes to has an item that is folded to NULL, and
no conditional a condition that is. -/
def full : AstNode → Bool
  | .program decls => fullItems decls
  | .block stmts => fullItems stmts
  | .funcDecl _ _ _ _ _ _ body _ => fullOpt body
  | .letNode _ _ value _ _ => fullOpt value
  | .ifNode condition thenBlock _ elseBlock =>
    fullOpt condition && (fullOpt thenBlock && (fullOpt elseBlock && foldsToOpt condition != .null))
  | .ifLet _ condition thenBlock =>
    fullOpt condition && (fullOpt thenBlock && foldsToOpt condition != .null)
  | .whileNode condition body => fullOpt condition && fullOpt body
  | .forNode _ _ iterable body => fullOpt iterable && fullOpt body
  | .returnNode value => fullOpt value
  | .call callee args => fullOpt callee && fullItems args
  | .index target index => fullOpt target && fullOpt index
  | .fieldAccess target _ => fullOpt target
  | .matchNode value arms => fullOpt value && fullItems arms
  | .tryNode body catchArms _ => fullOpt body && fullItems catchArms
  | .throwNode value => fullOpt value
  | .deferNode body => fullOpt body
  | .region _ body => fullOpt body
  | .lambda _ body => fullOpt body
  | .arrayLit elements => fullItems elements
  | .binaryOp _ left right _ => fullOpt left && fullOpt right
  | .unaryOp _ operand => fullOpt operand
  | _ => true

def fullOpt : Option AstNode → Bool
  | none => true
  | some node => full node

def fullItems : List AstNode → Bool
  | [] => true
  | node :: nodes => full node && (foldsTo node != .null && fullItems nodes)

end

/-! ## §2 Chains -/

/-- An if/elif/else chain: the fields of `NODE_IF`. -/
structure Chain where
  condition : Option AstNode
  thenBlock : Option AstNode
  elifChain : Option AstNode
  elseBlock : Option AstNode

mutual

/-- The chains that the folder comes to. -/
def chains : AstNode → List Chain
  | .program decls => chainsOfItems decls
  | .block stmts => chainsOfItems stmts
  | .funcDecl _ _ _ _ _ _ body _ => chainsOfOpt body
  | .letNode _ _ value _ _ => chainsOfOpt value
  | .ifNode condition thenBlock elifChain elseBlock =>
    ⟨condition, thenBlock, elifChain, elseBlock⟩ ::
      (chainsOfOpt condition ++ chainsOfOpt thenBlock ++ chainsOfOpt elseBlock)
  | .ifLet _ condition thenBlock => chainsOfOpt condition ++ chainsOfOpt thenBlock
  | .whileNode condition body => chainsOfOpt condition ++ chainsOfOpt body
  | .forNode _ _ iterable body => chainsOfOpt iterable ++ chainsOfOpt body
  | .returnNode value => chainsOfOpt value
  | .call callee args => chainsOfOpt callee ++ chainsOfItems args
  | .index target index => chainsOfOpt target ++ chainsOfOpt index
  | .fieldAccess target _ => chainsOfOpt target
  | .matchNode value arms => chainsOfOpt value ++ chainsOfItems arms
  | .tryNode body catchArms _ => chainsOfOpt body ++ chainsOfItems catchArms
  | .throwNode value => chainsOfOpt value
  | .deferNode body => chainsOfOpt body
  | .region _ body => chainsOfOpt body
  | .lambda _ body => chainsOfOpt body
  | .arrayLit elements => chainsOfItems elements
  | .binaryOp _ left right _ => chainsOfOpt left ++ chainsOfOpt right
  | .unaryOp _ operand => chainsOfOpt operand
  | _ => []

def chainsOfOpt : Option AstNode → List Chain
  | none => []
  | some node => chains node

def chainsOfItems : List AstNode → List Chain
  | [] => []
  | node :: nodes => chains node ++ chainsOfItems nodes

end

/-- The value of a condition: its own, or that of a valuation. -/
def condValue (ρ : AstNode → Bool) (condition : AstNode) : Bool :=
  match foldsTo condition with
  | .bool b => b
  | _ => ρ condition

/-- The elif that is taken, if one is. -/
def elifTaken (ρ : AstNode → Bool) (i : Nat) : Option AstNode → Option Branch
  | some (.ifNode (some condition) _ elifChain _) =>
    if condValue ρ condition then some (.elif i) else elifTaken ρ (i + 1) elifChain
  | _ => none

/-- Every elif has a constant condition that is false. -/
def elifsDead : Option AstNode → Bool
  | some (.ifNode (some condition) _ elifChain _) =>
    foldsTo condition == .bool false && elifsDead elifChain
  | _ => true

namespace Chain

/-- The branch that the chain executes. -/
def branch (chain : Chain) (ρ : AstNode → Bool) : Branch :=
  if chain.condition.any (condValue ρ) then .thenBlock
  else (elifTaken ρ 0 chain.elifChain).getD .otherwise

/-- The branch that the folder puts in place of the chain. -/
def replacedBy (chain : Chain) : Option Branch :=
  match foldOpt chain.condition with
  | .ok (some condition) => constantBranch condition
  | _ => none

end Chain

/-! ## §3 Folding succeeds -/

theorem shapeOf_literalOr {node : AstNode} (h : shapeOf (some node) = .other) :
    shapeOf (some (literalOr node)) = .other := by
  rw [literalOr]
  split
  · rfl
  · exact h

theorem shapeOf_foldBinaryOp (op : BinOp) (left right : Option AstNode) (customOp : Bytes) :
    shapeOf (some (foldBinaryOp op left right customOp)) = .other := by
  rw [foldBinaryOp]
  split
  · exact shapeOf_literalOr rfl
  · rfl

theorem shapeOf_foldUnaryOp (op : UnaryOp) (operand : Option AstNode) :
    shapeOf (some (foldUnaryOp op operand)) = .other := by
  rw [foldUnaryOp]
  split
  · exact shapeOf_literalOr rfl
  · rfl

theorem shapeOf_some_ne (node : AstNode) : shapeOf (some node) ≠ .null := by
  cases node <;> simp [shapeOf]

theorem constantBranch_eq (condition : AstNode) :
    constantBranch condition =
      match shapeOf (some condition) with
      | .bool true => some .thenBlock
      | .bool false => some .otherwise
      | _ => none := by
  cases condition with
  | literalBool b => cases b <;> rfl
  | _ => rfl

mutual

theorem foldNode_ends (node : AstNode) :
    Ends (foldNode node) (full node) fun r => shapeOf r = foldsTo node := by
  cases node with
  | program decls =>
    simp only [foldNode, full, foldsTo]
    exact (foldItems_ends decls).map fun _ _ => rfl
  | block stmts =>
    simp only [foldNode, full, foldsTo]
    exact (foldItems_ends stmts).map fun _ _ => rfl
  | funcDecl name typeParams params returnType pre post body info =>
    simp only [foldNode, full, foldsTo]
    exact (foldOpt_ends body).map fun _ _ => rfl
  | letNode name type value isMut isGlobal =>
    simp only [foldNode, full, foldsTo]
    exact (foldOpt_ends value).map fun _ _ => rfl
  | ifNode condition thenBlock elifChain elseBlock =>
    simp only [foldNode, full, foldsTo]
    refine (foldOpt_ends condition).bind fun c hc => (foldOpt_ends thenBlock).bind fun t ht =>
      (foldOpt_ends elseBlock).bind fun l hl => ?_
    rw [← hc, ← ht, ← hl]
    cases c with
    | none => exact .error _
    | some c =>
      rw [foldIfNode, constantBranch_eq]
      cases hs : shapeOf (some c) with
      | null => exact absurd hs (shapeOf_some_ne c)
      | bool b => cases b <;> exact .ok rfl
      | other => exact .ok rfl
  | ifLet pattern condition thenBlock =>
    simp only [foldNode, full, foldsTo]
    refine (foldOpt_ends condition).bind fun c hc => (foldOpt_ends thenBlock).bind fun t ht => ?_
    rw [← hc, ← ht]
    cases c with
    | none => exact .error _
    | some c =>
      rw [foldIfLet, constantBranch_eq]
      cases hs : shapeOf (some c) with
      | null => exact absurd hs (shapeOf_some_ne c)
      | bool b => cases b <;> exact .ok rfl
      | other => exact .ok rfl
  | whileNode condition body =>
    simp only [foldNode, full, foldsTo]
    exact (foldOpt_ends condition).bind fun _ _ => (foldOpt_ends body).map fun _ _ => rfl
  | forNode var indexVar iterable body =>
    simp only [foldNode, full, foldsTo]
    exact (foldOpt_ends iterable).bind fun _ _ => (foldOpt_ends body).map fun _ _ => rfl
  | returnNode value =>
    simp only [foldNode, full, foldsTo]
    exact (foldOpt_ends value).map fun _ _ => rfl
  | call callee args =>
    simp only [foldNode, full, foldsTo]
    exact (foldOpt_ends callee).bind fun _ _ => (foldItems_ends args).map fun _ _ => rfl
  | index target index =>
    simp only [foldNode, full, foldsTo]
    exact (foldOpt_ends target).bind fun _ _ => (foldOpt_ends index).map fun _ _ => rfl
  | fieldAccess target field =>
    simp only [foldNode, full, foldsTo]
    exact (foldOpt_ends target).map fun _ _ => rfl
  | matchNode value arms =>
    simp only [foldNode, full, foldsTo]
    exact (foldOpt_ends value).bind fun _ _ => (foldItems_ends arms).map fun _ _ => rfl
  | tryNode body catchArms finallyBody =>
    simp only [foldNode, full, foldsTo]
    exact (foldOpt_ends body).bind fun _ _ => (foldItems_ends catchArms).map fun _ _ => rfl
  | throwNode value =>
    simp only [foldNode, full, foldsTo]
    exact (foldOpt_ends value).map fun _ _ => rfl
  | deferNode body =>
    simp only [foldNode, full, foldsTo]
    exact (foldOpt_ends body).map fun _ _ => rfl
  | region name body =>
    simp only [foldNode, full, foldsTo]
    exact (foldOpt_ends body).map fun _ _ => rfl
  | lambda params body =>
    simp only [foldNode, full, foldsTo]
    exact (foldOpt_ends body).map fun _ _ => rfl
  | arrayLit elements =>
    simp only [foldNode, full, foldsTo]
    exact (foldItems_ends elements).map fun _ _ => rfl
  | binaryOp op left right customOp =>
    simp only [foldNode, full, foldsTo]
    exact (foldOpt_ends left).bind fun _ _ =>
      (foldOpt_ends right).map fun _ _ => shapeOf_foldBinaryOp ..
  | unaryOp op operand =>
    simp only [foldNode, full, foldsTo]
    exact (foldOpt_ends operand).map fun _ _ => shapeOf_foldUnaryOp ..
  | _ => exact .ok rfl

theorem foldOpt_ends (node : Option AstNode) :
    Ends (foldOpt node) (fullOpt node) fun r => shapeOf r = foldsToOpt node := by
  cases node with
  | none => exact .ok rfl
  | some node => exact foldNode_ends node

theorem foldItems_ends (nodes : List AstNode) :
    Ends (foldItems nodes) (fullItems nodes) fun _ => True := by
  cases nodes with
  | nil => exact .ok trivial
  | cons node nodes =>
    simp only [foldItems, fullItems]
    refine (foldNode_ends node).bind fun r hr => ?_
    rw [← hr]
    cases r with
    | none => exact .error _
    | some node =>
      rw [bne_iff_ne.mpr (shapeOf_some_ne node), Bool.true_and]
      exact (foldItems_ends nodes).map fun _ _ => trivial

end

/-! ## §4 The branches of a chain -/

theorem elifTaken_of_dead (ρ : AstNode → Bool) (elifChain : Option AstNode)
    (h : elifsDead elifChain = true) : ∀ i, elifTaken ρ i elifChain = none := by
  fun_induction elifsDead elifChain with
  | case1 condition thenBlock elifChain elseBlock ih =>
    intro i
    simp only [Bool.and_eq_true, beq_iff_eq] at h
    simp [elifTaken, condValue, h.1, ih h.2]
  | case2 elifChain hne =>
    intro i
    rw [elifTaken]
    exact hne

/-- With all other conditions true, some elif that is not dead is taken. -/
theorem elifTaken_of_alive (elifChain : Option AstNode) (h : elifsDead elifChain = false) :
    ∀ i, ∃ j, elifTaken (fun _ => true) i elifChain = some (.elif j) := by
  fun_induction elifsDead elifChain with
  | case1 condition thenBlock elifChain elseBlock ih =>
    intro i
    rw [elifTaken]
    cases hvalue : condValue (fun _ => true) condition with
    | true => exact ⟨i, by simp⟩
    | false =>
      have hfalse : foldsTo condition = .bool false := by
        rw [condValue] at hvalue
        split at hvalue
        · next b hb => rw [hb, hvalue]
        · cases hvalue
      simp only [hfalse, beq_self_eq_true, Bool.true_and] at h
      simpa using ih h (i + 1)
  | case2 => cases h

/-- Where the folder replaces a chain, its condition amounts to a constant. -/
theorem replacedBy_eq {chain : Chain} (h : fullOpt chain.condition = true) :
    chain.replacedBy =
      match foldsToOpt chain.condition with
      | .bool true => some .thenBlock
      | .bool false => some .otherwise
      | _ => none := by
  have hends := foldOpt_ends chain.condition
  obtain ⟨r, hr⟩ := hends.succeeds_iff.mpr h
  have hshape := hends.result hr
  rw [Chain.replacedBy, hr, ← hshape]
  cases r with
  | none => rfl
  | some condition => exact constantBranch_eq condition

/-- The folder takes the branch that the chain executes, whatever the values
of its other conditions, exactly when no elif of a false condition is alive. -/
theorem branch_iff {chain : Chain} (h : fullOpt chain.condition = true) :
    (∀ ρ br, chain.replacedBy = some br → chain.branch ρ = br) ↔
      (foldsToOpt chain.condition = .bool false → elifsDead chain.elifChain = true) := by
  rw [replacedBy_eq h]
  have hcondition : ∀ b, foldsToOpt chain.condition = .bool b →
      ∀ ρ, chain.condition.any (condValue ρ) = b := by
    intro b hb ρ
    cases hc : chain.condition with
    | none => simp [hc, foldsToOpt] at hb
    | some condition =>
      rw [hc, foldsToOpt] at hb
      simp [condValue, hb]
  cases hshape : foldsToOpt chain.condition with
  | null => simp
  | other => simp
  | bool b =>
    have hvalue := hcondition b hshape
    cases b with
    | true => simp [Chain.branch, hvalue]
    | false =>
      simp only [Option.some.injEq, forall_eq', Chain.branch, hvalue, Bool.false_eq_true, if_false,
        forall_const]
      constructor
      · intro hbranch
        cases hdead : elifsDead chain.elifChain with
        | true => rfl
        | false =>
          obtain ⟨j, hj⟩ := elifTaken_of_alive chain.elifChain hdead 0
          have htaken := hbranch fun _ => true
          rw [hj] at htaken
          cases htaken
      · intro hdead ρ
        rw [elifTaken_of_dead ρ chain.elifChain hdead, Option.getD_none]

mutual

theorem full_of_mem_chains {chain : Chain} (node : AstNode) (h : full node = true)
    (hchain : chain ∈ chains node) : fullOpt chain.condition = true := by
  cases node with
  | program decls => exact full_of_mem_items decls h hchain
  | block stmts => exact full_of_mem_items stmts h hchain
  | funcDecl name typeParams params returnType pre post body info =>
    exact full_of_mem_opt body h hchain
  | letNode name type value isMut isGlobal => exact full_of_mem_opt value h hchain
  | ifNode condition thenBlock elifChain elseBlock =>
    simp only [full, Bool.and_eq_true] at h
    simp only [chains, List.mem_cons, List.mem_append] at hchain
    rcases hchain with rfl | (hc | ht) | hl
    · exact h.1
    · exact full_of_mem_opt condition h.1 hc
    · exact full_of_mem_opt thenBlock h.2.1 ht
    · exact full_of_mem_opt elseBlock h.2.2.1 hl
  | ifLet pattern condition thenBlock =>
    simp only [full, Bool.and_eq_true] at h
    rcases List.mem_append.mp hchain with hc | ht
    · exact full_of_mem_opt condition h.1 hc
    · exact full_of_mem_opt thenBlock h.2.1 ht
  | whileNode condition body =>
    simp only [full, Bool.and_eq_true] at h
    rcases List.mem_append.mp hchain with hc | hb
    · exact full_of_mem_opt condition h.1 hc
    · exact full_of_mem_opt body h.2 hb
  | forNode var indexVar iterable body =>
    simp only [full, Bool.and_eq_true] at h
    rcases List.mem_append.mp hchain with hi | hb
    · exact full_of_mem_opt iterable h.1 hi
    · exact full_of_mem_opt body h.2 hb
  | returnNode value => exact full_of_mem_opt value h hchain
  | call callee args =>
    simp only [full, Bool.and_eq_true] at h
    rcases List.mem_append.mp hchain with hc | ha
    · exact full_of_mem_opt callee h.1 hc
    · exact full_of_mem_items args h.2 ha
  | index target index =>
    simp only [full, Bool.and_eq_true] at h
    rcases List.mem_append.mp hchain with ht | hi
    · exact full_of_mem_opt target h.1 ht
    · exact full_of_mem_opt index h.2 hi
  | fieldAccess target field => exact full_of_mem_opt target h hchain
  | matchNode value arms =>
    simp only [full, Bool.and_eq_true] at h
    rcases List.mem_append.mp hchain with hv | ha
    · exact full_of_mem_opt value h.1 hv
    · exact full_of_mem_items arms h.2 ha
  | tryNode body catchArms finallyBody =>
    simp only [full, Bool.and_eq_true] at h
    rcases List.mem_append.mp hchain with hb | ha
    · exact full_of_mem_opt body h.1 hb
    · exact full_of_mem_items catchArms h.2 ha
  | throwNode value => exact full_of_mem_opt value h hchain
  | deferNode body => exact full_of_mem_opt body h hchain
  | region name body => exact full_of_mem_opt body h hchain
  | lambda params body => exact full_of_mem_opt body h hchain
  | arrayLit elements => exact full_of_mem_items elements h hchain
  | binaryOp op left right customOp =>
    simp only [full, Bool.and_eq_true] at h
    rcases List.mem_append.mp hchain with hl | hr
    · exact full_of_mem_opt left h.1 hl
    · exact full_of_mem_opt right h.2 hr
  | unaryOp op operand => exact full_of_mem_opt operand h hchain
  | _ => cases hchain

theorem full_of_mem_opt {chain : Chain} (node : Option AstNode) (h : fullOpt node = true)
    (hchain : chain ∈ chainsOfOpt node) : fullOpt chain.condition = true := by
  cases node with
  | none => cases hchain
  | some node => exact full_of_mem_chains node h hchain

theorem full_of_mem_items {chain : Chain} (nodes : List AstNode) (h : fullItems nodes = true)
    (hchain : chain ∈ chainsOfItems nodes) : fullOpt chain.condition = true := by
  cases nodes with
  | nil => cases hchain
  | cons node nodes =>
    simp only [fullItems, Bool.and_eq_true] at h
    rcases List.mem_append.mp hchain with hn | hns
    · exact full_of_mem_chains node h.1 hn
    · exact full_of_mem_items nodes h.2.2 hns

end

/-! ## §5 Folding, then dead code elimination -/

/-- The two passes in a row. The second one gets a tree without NULL in its
lists, and keeps it so. -/
def foldThenDce (node : AstNode) : Except Fault (Option AstNode) := do
  let node ← optConstantFold node
  return node.map fun node => (optDeadCodeElim node).1

/-- Every chain that the folder replaces executes the branch it did, and no
list of the result has a NULL and no pass reads through one, exactly when no
item of a list and no condition is folded to NULL, and no chain with a false
condition has an elif that may be taken. -/
theorem conditionals_kept_iff (node : AstNode) :
    ((∀ chain ∈ chains node, ∀ ρ br, chain.replacedBy = some br → chain.branch ρ = br) ∧
        ∃ tree, foldThenDce node = .ok tree) ↔
      full node = true ∧ ∀ chain ∈ chains node,
        foldsToOpt chain.condition = .bool false → elifsDead chain.elifChain = true := by
  have hends : Ends (foldThenDce node) (full node) fun _ => True :=
    (foldNode_ends node).map fun _ _ => trivial
  rw [hends.succeeds_iff]
  constructor
  · rintro ⟨hbranch, hfull⟩
    refine ⟨hfull, fun chain hchain => ?_⟩
    exact (branch_iff (full_of_mem_chains node hfull hchain)).mp (hbranch chain hchain)
  · rintro ⟨hfull, hdead⟩
    refine ⟨fun chain hchain => ?_, hfull⟩
    exact (branch_iff (full_of_mem_chains node hfull hchain)).mpr (hdead chain hchain)

/-- `if false { } elif c { }` loses its elif, and `if false { }` is NULL in
its block. -/
theorem elif_lost :
    ¬ ∀ node, (∀ chain ∈ chains node, ∀ ρ br, chain.replacedBy = some br → chain.branch ρ = br) ∧
      ∃ tree, foldThenDce node = .ok tree := by
  intro h
  obtain ⟨hbranch, -⟩ := h (.block [.ifNode (some (.literalBool false)) (some (.block []))
    (some (.ifNode (some (.ident (bytes "c"))) (some (.block [])) none none)) (some (.block []))])
  have hlost := hbranch ⟨some (.literalBool false), some (.block []),
    some (.ifNode (some (.ident (bytes "c"))) (some (.block [])) none none), some (.block [])⟩
    (List.mem_cons_self ..) (fun _ => true) .otherwise rfl
  simp [Chain.branch, elifTaken, condValue, foldsTo] at hlost

end Aether.Optimizer