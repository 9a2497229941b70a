/-
Aether.Codegen.BranchTheorems — which branches the emitted code runs.

The code of an `if` comes behind the elif chain to the else block, also from
a branch of the chain (`ranIf`). The code of a match makes the tests of
literals only, and of a range where it is the first pattern of an arm of an
expression; it comes behind the last arm to its body again (`ranArm`).
`selects_iff` says where this is the branch that the language selects.
-/
import Aether.Codegen.Branches
import Aether.CTranspiler.MatchTheorems

namespace Aether.Codegen.Branches

open Aether.Lib CTranspiler

-- the equations, before the proofs that share them
section
attribute [local simp] runOpt Item.exec evalOpt Item.labelOf cgElif Pattern.node literalTest
  State.compare rangeTest cgArms MatchArm.node ArmHead.pattern cgArm stmtTest exprTest
  MatchStmt.node cgMatch
end

/-! ## §1 Chains -/

structure Branch where
  condition : AstNode
  block : Option AstNode

structure IfChain where
  first : Branch
  elifs : List Branch
  elseBlock : Option AstNode

def elifChain : List Branch → Option AstNode
  | [] => none
  | b :: bs => some (.ifNode (some b.condition) b.block (elifChain bs) none)

-- the equations, before the proofs that share them
section
attribute [local simp] elifChain
end

def ifNode (b : Branch) (elifs : List Branch) (elseBlock : Option AstNode) : AstNode :=
  .ifNode (some b.condition) b.block (elifChain elifs) elseBlock

def IfChain.node (c : IfChain) : AstNode := ifNode c.first c.elifs c.elseBlock

section

variable (o : Outcome)

/-- The first branch whose condition is true, from the `t`-th evaluation. -/
def firstTrue (t : Nat) : List Branch → Option Branch
  | [] => none
  | b :: bs => if o.word t b.condition ≠ 0 then some b else firstTrue (t + 1) bs

/-- The block of the branch that a chain selects. -/
def IfChain.selected (t : Nat) (c : IfChain) : Option AstNode :=
  match firstTrue o t (c.first :: c.elifs) with
  | some b => b.block
  | none => c.elseBlock

def leavesOpt (block : Option AstNode) : Bool := block.any o.leaves

/-- The blocks that the code of an elif chain runs. -/
def ranElifs (t : Nat) (elifs : List Branch) : List AstNode :=
  ((firstTrue o t elifs).bind Branch.block).toList

/-- The blocks that the code of an `if` runs: from the elif chain it comes to
the else block. -/
def ranIf (t : Nat) (b : Branch) (elifs : List Branch) (elseBlock : Option AstNode) :
    List AstNode :=
  if o.word t b.condition ≠ 0 then b.block.toList
  else if (ranElifs o (t + 1) elifs).any o.leaves then ranElifs o (t + 1) elifs
  else ranElifs o (t + 1) elifs ++ elseBlock.toList

-- the equations, before the proofs that share them
section
attribute [local simp] firstTrue IfChain.selected leavesOpt ranElifs ranIf
end

end

/-! ## §2 What runs -/

section

variable {o : Outcome} {labels : AstNode → Nat}

@[simp] theorem code_items (o : Outcome) (items : List Item) : (code o items).items = items := rfl

@[simp] theorem code_exec (o : Outcome) (items : List Item) (item : Item) (s : State) :
    (code o items).exec item s = item.exec o s := rfl

/-- Blocks have run, and the last of them has left the function, or none. -/
def After (o : Outcome) (s : State) (ran : List AstNode) : Flow Nat Unit State → Prop
  | .next t => t.stack = s.stack ∧ t.trace = s.trace ++ ran ∧ ran.any o.leaves = false
  | .leave _ t => t.trace = s.trace ++ ran ∧ ran.any o.leaves = true
  | .goto _ _ => False

-- the equations, before the proofs that share them
section
attribute [local simp] After
end

theorem After.append {s t : State} {ran ran' : List AstNode} {flow : Flow Nat Unit State}
    (h : After o s ran (.next t)) (h' : After o t ran' flow) : After o s (ran ++ ran') flow := by
  obtain ⟨hstack, htrace, hstays⟩ := h
  cases flow with
  | next u =>
    obtain ⟨hstack', htrace', hstays'⟩ := h'
    exact ⟨hstack'.trans hstack, by rw [htrace', htrace, List.append_assoc],
      by simp [hstays, hstays']⟩
  | goto => exact h'
  | leave a u =>
    obtain ⟨htrace', hleaves⟩ := h'
    exact ⟨by rw [htrace', htrace, List.append_assoc], by simp [hleaves]⟩

theorem After.of_same {s t : State} {ran : List AstNode} {flow : Flow Nat Unit State}
    (hstack : t.stack = s.stack) (htrace : t.trace = s.trace) (h : After o t ran flow) :
    After o s ran flow := by
  cases flow with
  | next u => exact ⟨h.1.trans hstack, by rw [h.2.1, htrace], h.2.2⟩
  | goto => exact h
  | leave a u => exact ⟨by rw [h.1, htrace], h.2⟩

/-- The code of a block does not depend on the registers. -/
theorem does_runOpt {items pre post : List Item} {block : Option AstNode} (s : State)
    (hitems : items = pre ++ runOpt block ++ post) :
    ∃ flow, (code o items).Does pre.length s (pre ++ runOpt block).length flow ∧
      After o s block.toList flow := by
  refine ⟨_, Listing.Does.stretch s hitems, ?_⟩
  cases block with
  | none => simp [runOpt, Listing.flows, After]
  | some body =>
    cases hleaves : o.leaves body <;>
      simp [runOpt, Listing.flows, Item.exec, After, hleaves]

/-- Each label of the items is such a one. -/
def Labels (P : Nat → Prop) (items : List Item) : Prop :=
  ∀ item ∈ items, ∀ l, item.labelOf = some l → P l

-- the equations, before the proofs that share them
section
attribute [local simp] Labels
end

section

variable {P Q : Nat → Prop}

@[simp] theorem labels_nil : Labels P [] := by simp [Labels]

@[simp] theorem labels_append {items items' : List Item} :
    Labels P (items ++ items') ↔ Labels P items ∧ Labels P items' :=
  List.forall_mem_append

@[simp] theorem labels_cons {item : Item} {items : List Item} :
    Labels P (item :: items) ↔ (∀ l, item.labelOf = some l → P l) ∧ Labels P items := by
  simp [Labels]

@[simp] theorem labels_evalOpt (node : Option AstNode) : Labels P (evalOpt node) := by
  cases node <;> simp [evalOpt, Item.labelOf]

@[simp] theorem labels_runOpt (node : Option AstNode) : Labels P (runOpt node) := by
  cases node <;> simp [runOpt, Item.labelOf]

theorem Labels.mono {items : List Item} (h : Labels P items) (hPQ : ∀ l, P l → Q l) :
    Labels Q items := fun item hitem l hl => hPQ l (h item hitem l hl)

end

/-- The place of a label that is not among those before it. -/
theorem find_label {items pre post : List Item} {l : Nat} (o : Outcome)
    (hitems : items = pre ++ .label l :: post) (hpre : Labels (· ≠ l) pre) :
    (code o items).find l = some pre.length := by
  refine Listing.find_of_fresh hitems rfl ?_
  intro item hitem heq
  exact hpre item hitem l heq rfl

/-! ## §3 The code of a chain -/

/-- `cgIf` with the code of the elif chain. -/
def ifItems (k : Nat) (b : Branch) (elif : List Item) (elseBlock : Option AstNode) : List Item :=
  [.eval b.condition, .test, .jz k] ++ (runOpt b.block ++ [.jmp (k + 1)]) ++ .label k :: elif ++
    runOpt elseBlock ++ [.label (k + 1)]

/-- The counter where the elif chain begins. -/
def elifStart (labels : AstNode → Nat) (k : Nat) (b : Branch) : Nat :=
  k + 2 + labels b.condition + labelsOpt labels b.block

-- the equations, before the proofs that share them
section
attribute [local simp] ifItems elifStart
end

theorem cgIf_ifNode (k : Nat) (b : Branch) (bs : List Branch) (elseBlock : Option AstNode) :
    cgIf labels k (ifNode b bs elseBlock) =
      (ifItems k b (cgElif labels (elifStart labels k b) (elifChain bs)).1 elseBlock,
        (cgElif labels (elifStart labels k b) (elifChain bs)).2 + labelsOpt labels elseBlock) :=
  rfl

theorem cgElif_labels (bs : List Branch) (k : Nat) :
    Labels (k ≤ ·) (cgElif labels k (elifChain bs)).1 := by
  induction bs generalizing k with
  | nil => simp [elifChain, cgElif]
  | cons b bs ih =>
    have helif : cgElif labels k (elifChain (b :: bs)) = cgIf labels k (ifNode b bs none) := rfl
    have hlabels : Labels (k ≤ ·) (cgElif labels (elifStart labels k b) (elifChain bs)).1 :=
      (ih (elifStart labels k b)).mono fun l hl => by simp only [elifStart] at hl; omega
    rw [helif, cgIf_ifNode]
    simp [ifItems, Item.labelOf, hlabels]

/-- The code of an `if`, from what the code of its elif chain does. -/
theorem does_ifItems {items pre post elif : List Item} {k : Nat} {b : Branch}
    {elseBlock : Option AstNode} {s : State} {ran : List AstNode}
    (hitems : items = pre ++ ifItems k b elif elseBlock ++ post) (hpre : Labels (· < k) pre)
    (hlabels : Labels (k + 2 ≤ ·) elif)
    (helif : ∀ pre' post' s', items = pre' ++ elif ++ post' → Labels (· < k + 2) pre' →
      s'.clock = s.clock + 1 →
      ∃ flow, (code o items).Does pre'.length s' (pre' ++ elif).length flow ∧ After o s' ran flow) :
    ∃ flow, (code o items).Does pre.length s (pre ++ ifItems k b elif elseBlock).length flow ∧
      After o s (if o.word s.clock b.condition ≠ 0 then b.block.toList
        else if ran.any o.leaves then ran else ran ++ elseBlock.toList) flow := by
  -- the places before the two labels
  let preElse := pre ++ [.eval b.condition, .test, .jz k] ++ (runOpt b.block ++ [.jmp (k + 1)])
  let preEnd := preElse ++ .label k :: elif ++ runOpt elseBlock
  have hitems' : items = preEnd ++ .label (k + 1) :: post := by
    simp [hitems, preEnd, preElse, ifItems]
  have hpre2 : Labels (· < k + 2) pre := hpre.mono fun l hl => by omega
  have helse : (code o items).find k = some preElse.length := by
    refine find_label o (show items = preElse ++ .label k ::
      (elif ++ runOpt elseBlock ++ .label (k + 1) :: post) by simp [hitems, preElse, ifItems]) ?_
    simpa [preElse, Item.labelOf] using hpre.mono fun l hl => by omega
  have hend : (code o items).find (k + 1) = some preEnd.length := by
    refine find_label o hitems' ?_
    have h1 : Labels (· ≠ k + 1) pre := hpre.mono fun l hl => by omega
    have h2 : Labels (· ≠ k + 1) elif := hlabels.mono fun l hl => by omega
    simp [preEnd, preElse, Item.labelOf, h1, h2]
  have hout (t : State) :
      (code o items).Goes preEnd.length t (pre ++ ifItems k b elif elseBlock).length t := by
    have h : (code o items).Goes preEnd.length t (preEnd ++ [Item.label (k + 1)]).length t :=
      Listing.Goes.stretch (show items = preEnd ++ [.label (k + 1)] ++ post by
        simp [hitems']) rfl
    simpa [preEnd, preElse, ifItems] using h
  let s1 : State := { s with
    rax := o.word s.clock b.condition, rcx := o.scratch s.clock b.condition,
    clock := s.clock + 1, zero := o.word s.clock b.condition == 0 }
  let tested : List Item := [.eval b.condition, .test, .jz k]
  let rest := .label k :: elif ++ runOpt elseBlock ++ .label (k + 1) :: post
  have htested : items = pre ++ tested ++ ((runOpt b.block ++ [.jmp (k + 1)]) ++ rest) := by
    simp [hitems, tested, rest, ifItems]
  by_cases hword : o.word s.clock b.condition = 0#64
  · have hflows : Listing.flows (code o items).exec tested s = .goto k s1 := by
      simp [tested, Listing.flows, Item.exec, hword, s1]
    have hjump := Listing.Goes.jump htested hflows helse
    rw [if_neg (by simpa using hword)]
    -- behind the label, the elif chain and then the else block
    have hlabel : (code o items).Goes preElse.length s1 (preElse ++ [Item.label k]).length s1 :=
      Listing.Goes.stretch (show items = preElse ++ [Item.label k] ++
        (elif ++ runOpt elseBlock ++ Item.label (k + 1) :: post) by
          simp [hitems, preElse, ifItems]) rfl
    obtain ⟨flow, hdoes, hafter⟩ := helif (preElse ++ [.label k])
      (runOpt elseBlock ++ .label (k + 1) :: post) s1 (by simp [hitems, preElse, ifItems])
      (by simp [preElse, Item.labelOf, hpre2]) rfl
    replace hdoes := Listing.Does.after (hjump.trans hlabel) hdoes
    replace hafter : After o s ran flow := hafter.of_same rfl rfl
    cases flow with
    | goto => exact hafter.elim
    | leave a u => exact ⟨.leave a u, hdoes, by rw [if_pos hafter.2]; exact hafter⟩
    | next u =>
      obtain ⟨flow', hdoes', hafter'⟩ := does_runOpt (o := o) u
        (show items = (preElse ++ [Item.label k] ++ elif) ++ runOpt elseBlock ++
          Item.label (k + 1) :: post by simp [hitems, preElse, ifItems])
      rw [if_neg (by simp [hafter.2.2])]
      replace hdoes' := Listing.Does.after hdoes hdoes'
      replace hafter' := hafter.append hafter'
      refine ⟨flow', ?_, hafter'⟩
      cases flow' with
      | goto => exact hafter'.elim
      | leave a v => exact hdoes'
      | next v =>
        have hplace : preElse ++ [.label k] ++ elif ++ runOpt elseBlock = preEnd := by simp [preEnd]
        rw [hplace] at hdoes'
        exact hdoes'.trans (hout v)
  · have hflows : Listing.flows (code o items).exec tested s = .next s1 := by
      simp [tested, Listing.flows, Item.exec, hword, s1]
    have hthen := Listing.Goes.stretch htested hflows
    rw [if_pos (by simpa using hword)]
    obtain ⟨flow, hdoes, hafter⟩ := does_runOpt (o := o) s1
      (show items = (pre ++ tested) ++ runOpt b.block ++ (.jmp (k + 1) :: rest) by
        simp [htested])
    replace hdoes := Listing.Does.after hthen hdoes
    replace hafter : After o s b.block.toList flow := hafter.of_same rfl rfl
    refine ⟨flow, ?_, hafter⟩
    cases flow with
    | goto => exact hafter.elim
    | leave a u => exact hdoes
    | next u =>
      have hjump : (code o items).Goes (pre ++ tested ++ runOpt b.block).length u preEnd.length u :=
        Listing.Goes.jump (show items = pre ++ tested ++ runOpt b.block ++ [Item.jmp (k + 1)] ++ rest by
          simp [htested]) rfl hend
      exact (hdoes.trans hjump).trans (hout u)

theorem ranElifs_cons (t : Nat) (b : Branch) (bs : List Branch) :
    ranElifs o t (b :: bs) = ranIf o t b bs none := by
  by_cases hword : o.word t b.condition = 0#64 <;>
    simp [ranElifs, ranIf, firstTrue, hword]

/-- The code of a chain runs its blocks, from any place of the code. -/
theorem does_elifs {items : List Item} (bs : List Branch) {pre post : List Item} {k : Nat}
    (s : State) (hitems : items = pre ++ (cgElif labels k (elifChain bs)).1 ++ post)
    (hpre : Labels (· < k) pre) :
    ∃ flow, (code o items).Does pre.length s
        (pre ++ (cgElif labels k (elifChain bs)).1).length flow ∧
      After o s (ranElifs o s.clock bs) flow := by
  induction bs generalizing pre post k s with
  | nil =>
    refine ⟨.next s, ?_, ?_⟩
    · simp only [elifChain, cgElif, List.append_nil]
      exact Listing.Goes.refl (code o items) pre.length s
    · simp [After, ranElifs, firstTrue]
  | cons b bs ih =>
    have helif : cgElif labels k (elifChain (b :: bs)) = cgIf labels k (ifNode b bs none) := rfl
    rw [helif, cgIf_ifNode] at hitems ⊢
    have hstart : k + 2 ≤ elifStart labels k b := by simp only [elifStart]; omega
    rw [ranElifs_cons]
    refine does_ifItems hitems hpre ((cgElif_labels bs _).mono fun l hl => by omega) ?_
    intro pre' post' s' hitems' hpre' hclock
    rw [← hclock]
    exact ih s' hitems' (hpre'.mono fun l hl => by omega)

theorem does_cgIf {items : List Item} (c : IfChain) {pre post : List Item} {k : Nat} (s : State)
    (hitems : items = pre ++ (cgIf labels k c.node).1 ++ post) (hpre : Labels (· < k) pre) :
    ∃ flow, (code o items).Does pre.length s (pre ++ (cgIf labels k c.node).1).length flow ∧
      After o s (ranIf o s.clock c.first c.elifs c.elseBlock) flow := by
  rw [IfChain.node, cgIf_ifNode] at hitems ⊢
  have hstart : k + 2 ≤ elifStart labels k c.first := by simp only [elifStart]; omega
  refine does_ifItems hitems hpre ((cgElif_labels c.elifs _).mono fun l hl => by omega) ?_
  intro pre' post' s' hitems' hpre' hclock
  rw [← hclock]
  exact does_elifs c.elifs s' hitems' (hpre'.mono fun l hl => by omega)

/-! ## §4 The tests of an arm -/

/-- The comparison with a literal. -/
def literalPasses (w : Word) : Pattern → Bool
  | .int n => w == imm32 n
  | _ => false

/-- The comparisons with the bounds of a range. -/
def rangePasses (w : Word) (inclusive : Bool) (start stop : UInt64) : Bool :=
  !w.slt start.toBitVec && (w.slt stop.toBitVec || inclusive && w == stop.toBitVec)

/-- The code goes to the body of the arm; behind a range it makes no test. -/
def armPasses (ranges : Bool) (w : Word) : ArmHead → Bool
  | .bare => false
  | .patterns (.range inclusive start stop) others =>
    if ranges then rangePasses w inclusive start stop else others.any (literalPasses w)
  | .patterns first others =>
    isUnderscore first.node || literalPasses w first || others.any (literalPasses w)

/-- The tests of `cg_expr`, which are of ranges too, or of `cg_stmt`. -/
def patternTest (labels : AstNode → Nat) (ranges : Bool) : Nat → Nat → AstNode → List Item × Nat :=
  if ranges then exprTest labels else stmtTest

-- the equations, before the proofs that share them
section
attribute [local simp] rangePasses patternTest
end

/-- `t` has the stack and the trace of `s`. -/
def Same (s t : State) : Prop := t.stack = s.stack ∧ t.trace = s.trace

theorem Same.trans {s t u : State} (h : Same s t) (h' : Same t u) : Same s u :=
  ⟨h'.1.trans h.1, h'.2.trans h.2⟩

theorem flows_literalTest {items : List Item} {s : State} {w : Word} (l : Nat) (p : Pattern)
    (hrax : s.rax = w) :
    ∃ t, Same s t ∧ t.rax = w ∧ Listing.flows (code o items).exec (literalTest l p.node) s =
      if literalPasses w p then .goto l t else .next t := by
  cases p with
  | int n =>
    refine ⟨s.compare s.rax (imm32 n), ⟨rfl, rfl⟩, hrax, ?_⟩
    by_cases hn : w = imm32 n <;>
      simp [Pattern.node, literalTest, literalPasses, Listing.flows, Item.exec, State.compare, hrax, hn]
  | bool | none | string | ident | range => exact ⟨s, ⟨rfl, rfl⟩, hrax, rfl⟩

theorem flows_literalTests {items : List Item} {s : State} {w : Word} (l : Nat) (ps : List Pattern)
    (hrax : s.rax = w) :
    ∃ t, Same s t ∧ Listing.flows (code o items).exec
        ((ps.map Pattern.node).flatMap (literalTest l)) s =
      if ps.any (literalPasses w) then .goto l t else .next t := by
  induction ps generalizing s with
  | nil => exact ⟨s, ⟨rfl, rfl⟩, rfl⟩
  | cons p ps ih =>
    obtain ⟨t, hsame, hrax', hflows⟩ := flows_literalTest (o := o) l p hrax
    rw [List.map_cons, List.flatMap_cons, Listing.flows_append, hflows]
    cases hp : literalPasses w p with
    | true => exact ⟨t, hsame, by simp [hp]⟩
    | false =>
      obtain ⟨u, hsame', hflows'⟩ := ih hrax'
      exact ⟨u, hsame.trans hsame', by simpa [hp] using hflows'⟩

theorem flows_rangeTest {items : List Item} {s : State} {w : Word} {rest : List Word}
    (next body : Nat) (inclusive : Bool) (start stop : UInt64) (hstack : s.stack = w :: rest) :
    ∃ t, Same s t ∧ Listing.flows (code o items).exec
        (rangeTest labels next body inclusive (some (.literalInt start false))
          (some (.literalInt stop false))).1 s =
      if rangePasses w inclusive start stop then .goto body t else .goto next t := by
  cases hstart : w.slt start.toBitVec with
  | true =>
    refine ⟨_, ?_, by
      simp [rangeTest, evalOpt, Listing.flows, Item.exec, State.compare, o.literal, hstack, hstart,
        rangePasses]; rfl⟩
    simp [Same, hstack]
  | false =>
    cases hstop : w.slt stop.toBitVec <;> cases hlast : w == stop.toBitVec <;> cases inclusive <;>
      exact ⟨{ s with
        rax := w, rcx := stop.toBitVec, clock := s.clock + 2, less := w.slt stop.toBitVec,
        zero := w == stop.toBitVec }, ⟨rfl, rfl⟩, by
        simp [rangeTest, evalOpt, Listing.flows, Item.exec, State.compare, o.literal, hstack, hstart,
          rangePasses, hstop, hlast]⟩

/-- The code of an arm ahead of its body. -/
def armTests (labels : AstNode → Nat) (ranges : Bool) (k : Nat) (first : Pattern)
    (others : List Pattern) : List Item :=
  .loadTop :: (patternTest labels ranges k (k + 1) first.node).1 ++
    (others.map Pattern.node).flatMap (literalTest (k + 1)) ++
    if isUnderscore first.node then [] else [.jmp k]

/-- The code of an arm comes to the body, or to the next arm. -/
def Tested (passes : Bool) (k : Nat) (t : State) (flow : Flow Nat Unit State) : Prop :=
  if passes then flow = .goto (k + 1) t ∨ flow = .next t else flow = .goto k t

-- the equations, before the proofs that share them
section
attribute [local simp] armTests Tested
end

/-- Without a range there are only comparisons with literals. -/
theorem flows_literals {items : List Item} {s : State} {w : Word} (k : Nat) (first : Pattern)
    (others : List Pattern) (hrax : s.rax = w) :
    ∃ t, Same s t ∧ Tested (isUnderscore first.node || literalPasses w first ||
        others.any (literalPasses w)) k t
      (Listing.flows (code o items).exec (literalTest (k + 1) first.node ++
        (others.map Pattern.node).flatMap (literalTest (k + 1)) ++
        if isUnderscore first.node then [] else [.jmp k]) s) := by
  obtain ⟨t, hsame, hflows⟩ :=
    flows_literalTests (o := o) (k + 1) (first :: others) hrax
  rw [List.map_cons, List.flatMap_cons] at hflows
  refine ⟨t, hsame, ?_⟩
  rw [Listing.flows_append, hflows]
  cases hany : (first :: others).any (literalPasses w) with
  | true =>
    have hpasses : (literalPasses w first || others.any (literalPasses w)) = true := hany
    simp [Tested, Bool.or_assoc, hpasses]
  | false =>
    have hpasses : (literalPasses w first || others.any (literalPasses w)) = false := hany
    cases hwild : isUnderscore first.node <;>
      simp [Tested, hpasses, Listing.flows, Item.exec]

theorem flows_armTests {items : List Item} {s : State} {w : Word} {rest : List Word}
    (ranges : Bool) (k : Nat) (first : Pattern) (others : List Pattern)
    (hstack : s.stack = w :: rest) :
    ∃ t, Same s t ∧ Tested (armPasses ranges w (.patterns first others)) k t
      (Listing.flows (code o items).exec (armTests labels ranges k first others) s) := by
  let s' : State := { s with rax := w }
  have hload (es : List Item) : Listing.flows (code o items).exec (.loadTop :: es) s =
      Listing.flows (code o items).exec es s' := by
    simp [Listing.flows, Item.exec, hstack, s']
  have hcode (first' : List Item) :
      (.loadTop :: first' ++ (others.map Pattern.node).flatMap (literalTest (k + 1)) ++
        if isUnderscore first.node then [] else [.jmp k]) =
      Item.loadTop :: (first' ++ (others.map Pattern.node).flatMap (literalTest (k + 1)) ++
        if isUnderscore first.node then [] else [.jmp k]) := by simp
  rw [armTests, hcode, hload]
  have hliterals := @flows_literals o items s' w k first others rfl
  cases first with
  | range inclusive start stop =>
    cases ranges with
    | true =>
      obtain ⟨t, hsame, hflows⟩ := flows_rangeTest (o := o) k (k + 1)
        inclusive start stop (show s'.stack = w :: rest from hstack)
      refine ⟨t, hsame, ?_⟩
      have hfirst : (patternTest labels true k (k + 1) (Pattern.range inclusive start stop).node).1 =
          (rangeTest labels k (k + 1) inclusive (some (.literalInt start false))
            (some (.literalInt stop false))).1 := by
        cases inclusive <;> rfl
      rw [hfirst, List.append_assoc, Listing.flows_append, hflows]
      cases hpasses : rangePasses w inclusive start stop <;>
        simp [Tested, armPasses, hpasses]
    | false => exact hliterals
  | int | bool | none | string | ident => cases ranges <;> exact hliterals

/-! ## §5 The code of the arms -/

/-- The arm whose body the code runs: the last one where no test passes. -/
def ranArm (ranges : Bool) (w : Word) : List MatchArm → Option MatchArm
  | [] => none
  | arm :: arms =>
    if armPasses ranges w arm.head || arms.isEmpty then some arm else ranArm ranges w arms

/-- The code of an arm. -/
def armItems (tests : List Item) (endLabel k : Nat) (isLast : Bool) (body : AstNode) : List Item :=
  tests ++ .label (k + 1) :: (runOpt (some body) ++ [.jmp endLabel]) ++
    .label k :: (if isLast then runOpt (some body) else [])

-- the equations, before the proofs that share them
section
attribute [local simp] ranArm armItems
end

theorem cgArms_cons {ranges : Bool} {endLabel k : Nat} {arm : MatchArm} {arms : List MatchArm}
    {items : List Item}
    (h : cgArms labels (patternTest labels ranges) endLabel k ((arm :: arms).map MatchArm.node) =
      some items) :
    ∃ first others k' rest, arm.head = .patterns first others ∧ k + 2 ≤ k' ∧
      cgArms labels (patternTest labels ranges) endLabel k' (arms.map MatchArm.node) = some rest ∧
      items = armItems (armTests labels ranges k first others) endLabel k arms.isEmpty arm.body ++
        rest := by
  obtain ⟨head, body, hbody⟩ := arm
  cases head with
  | bare => simp [cgArms, MatchArm.node, ArmHead.pattern, cgArm] at h
  | patterns first others =>
    simp only [List.map_cons, cgArms, MatchArm.node, ArmHead.pattern, cgArm, ArmHead.others,
      Option.bind_eq_bind, Option.bind_some, Option.bind_eq_some_iff] at h
    obtain ⟨rest, hrest, heq⟩ := h
    have hempty : (arms.map MatchArm.node).isEmpty = arms.isEmpty := by simp
    refine ⟨first, others, _, rest, rfl, ?_, hrest, ?_⟩
    · omega
    · cases heq
      rw [hempty]
      rfl

theorem labels_literalTests (P : Nat → Prop) (l : Nat) (nodes : List AstNode) :
    Labels P (nodes.flatMap (literalTest l)) := by
  induction nodes with
  | nil => simp
  | cons node nodes ih =>
    rw [List.flatMap_cons, labels_append]
    refine ⟨?_, ih⟩
    cases node <;> simp [literalTest, Item.labelOf]

theorem labels_armTests (P : Nat → Prop) (ranges : Bool) (k : Nat) (first : Pattern)
    (others : List Pattern) : Labels P (armTests labels ranges k first others) := by
  have hfirst : Labels P (patternTest labels ranges k (k + 1) first.node).1 := by
    cases ranges <;> cases first with
    | range inclusive => cases inclusive <;>
        simp [patternTest, stmtTest, exprTest, rangeTest, Pattern.node, rangeNode, rangeOp,
          literalTest, Item.labelOf]
    | int | bool | none | string | ident =>
      simp [patternTest, stmtTest, exprTest, Pattern.node, literalTest, Item.labelOf]
  cases hwild : isUnderscore first.node <;>
    simp [armTests, Item.labelOf, hfirst, labels_literalTests, hwild]

theorem cgArms_labels {ranges : Bool} {endLabel : Nat} (arms : List MatchArm) {k : Nat}
    {items : List Item}
    (h : cgArms labels (patternTest labels ranges) endLabel k (arms.map MatchArm.node) = some items) :
    Labels (k ≤ ·) items := by
  induction arms generalizing k items with
  | nil =>
    cases h
    simp
  | cons arm arms ih =>
    obtain ⟨first, others, k', rest, -, hk, hrest, rfl⟩ := cgArms_cons h
    have hmono := (ih hrest).mono fun l (hl : k' ≤ l) => show k ≤ l by omega
    cases arms.isEmpty <;> simp [armItems, Item.labelOf, labels_armTests, hmono]

/-- The code of the arms runs the body of an arm and comes to its end. -/
theorem does_arms {ranges : Bool} {items : List Item} {endLabel : Nat} {w : Word}
    {below : List Word} (arms : List MatchArm) {pre armsCode post : List Item} {k : Nat} (s : State)
    (hcode : cgArms labels (patternTest labels ranges) endLabel k (arms.map MatchArm.node) =
      some armsCode)
    (hitems : items = pre ++ armsCode ++ post)
    (hend : (code o items).find endLabel = some (pre ++ armsCode).length)
    (hpre : Labels (· < k) pre) (hstack : s.stack = w :: below) :
    ∃ flow, (code o items).Does pre.length s (pre ++ armsCode).length flow ∧
      After o s ((ranArm ranges w arms).map MatchArm.body).toList flow := by
  induction arms generalizing pre armsCode post k s with
  | nil =>
    cases hcode
    refine ⟨.next s, ?_, ?_⟩
    · rw [List.append_nil]
      exact Listing.Goes.refl (code o items) pre.length s
    · simp [After, ranArm]
  | cons arm arms ih =>
    obtain ⟨first, others, k', rest, hhead, hk, hrest, rfl⟩ := cgArms_cons hcode
    let tests := armTests labels ranges k first others
    let preNext := pre ++ tests ++ .label (k + 1) :: (runOpt (some arm.body) ++ [.jmp endLabel])
    let last := if arms.isEmpty then runOpt (some arm.body) else []
    have hitems' : items = preNext ++ .label k :: (last ++ rest ++ post) := by
      simp [hitems, preNext, armItems, tests, last]
    have hfindBody : (code o items).find (k + 1) = some (pre ++ tests).length := by
      refine find_label o (show items = (pre ++ tests) ++ .label (k + 1) ::
        (runOpt (some arm.body) ++ .jmp endLabel :: .label k :: (last ++ rest ++ post)) by
          simp [hitems', preNext]) ?_
      simpa [tests, labels_armTests] using hpre.mono fun l hl => by omega
    have hfindNext : (code o items).find k = some preNext.length := by
      refine find_label o hitems' ?_
      simpa [preNext, tests, labels_armTests, Item.labelOf] using hpre.mono fun l hl => by omega
    have htests : items = pre ++ tests ++ (.label (k + 1) ::
        (runOpt (some arm.body) ++ .jmp endLabel :: .label k :: (last ++ rest ++ post))) := by
      simp [hitems', preNext]
    obtain ⟨t, hsame, htested⟩ := flows_armTests (o := o)
      ranges k first others hstack
    rw [← hhead] at htested
    cases hpasses : armPasses ranges w arm.head with
    | true =>
      have hran : ranArm ranges w (arm :: arms) = some arm := by simp [ranArm, hpasses]
      rw [hpasses] at htested
      have hgoes : (code o items).Goes pre.length s (pre ++ tests).length t := by
        rcases htested with hflows | hflows
        · exact Listing.Goes.jump htests hflows hfindBody
        · exact Listing.Goes.stretch htests hflows
      have hlabel : (code o items).Goes (pre ++ tests).length t
          ((pre ++ tests) ++ [Item.label (k + 1)]).length t :=
        Listing.Goes.stretch (show items = (pre ++ tests) ++ [Item.label (k + 1)] ++
          (runOpt (some arm.body) ++ .jmp endLabel :: .label k :: (last ++ rest ++ post)) by
            simp [htests]) rfl
      obtain ⟨flow, hdoes, hafter⟩ := does_runOpt (o := o) t
        (show items = ((pre ++ tests) ++ [Item.label (k + 1)]) ++ runOpt (some arm.body) ++
          (.jmp endLabel :: .label k :: (last ++ rest ++ post)) by simp [htests])
      replace hdoes := Listing.Does.after (hgoes.trans hlabel) hdoes
      rw [hran]
      refine ⟨flow, ?_, hafter.of_same hsame.1 hsame.2⟩
      cases flow with
      | goto => exact hafter.elim
      | leave a u => exact hdoes
      | next u =>
        refine hdoes.trans (Listing.Goes.jump (show items =
          (pre ++ tests ++ [Item.label (k + 1)] ++ runOpt (some arm.body)) ++ [Item.jmp endLabel] ++
            (.label k :: (last ++ rest ++ post)) by simp [htests]) rfl hend)
    | false =>
      rw [hpasses] at htested
      have hgoes : (code o items).Goes pre.length s preNext.length t :=
        Listing.Goes.jump htests htested hfindNext
      have hlabel : (code o items).Goes preNext.length t (preNext ++ [Item.label k]).length t :=
        Listing.Goes.stretch (show items = preNext ++ [Item.label k] ++ (last ++ rest ++ post) by
          simp [hitems']) rfl
      cases arms with
      | nil =>
        cases hrest
        have hran : ranArm ranges w [arm] = some arm := by simp [ranArm]
        obtain ⟨flow, hdoes, hafter⟩ := does_runOpt (o := o) t
          (show items = (preNext ++ [Item.label k]) ++ runOpt (some arm.body) ++ post by
            simp [hitems', last])
        replace hdoes := Listing.Does.after (hgoes.trans hlabel) hdoes
        rw [hran]
        refine ⟨flow, ?_, hafter.of_same hsame.1 hsame.2⟩
        have hplace : preNext ++ [Item.label k] ++ runOpt (some arm.body) =
            pre ++ (armItems tests endLabel k true arm.body ++ []) := by
          simp [armItems, preNext]
        rw [hplace] at hdoes
        exact hdoes
      | cons arm' arms =>
        have hran : ranArm ranges w (arm :: arm' :: arms) = ranArm ranges w (arm' :: arms) := by
          simp [ranArm, hpasses]
        have hplace : pre ++ armItems tests endLabel k false arm.body = preNext ++ [Item.label k] := by
          simp [armItems, preNext]
        obtain ⟨flow, hdoes, hafter⟩ := ih t hrest
          (show items = (preNext ++ [Item.label k]) ++ rest ++ post by simp [hitems', last])
          (by simpa [armItems, preNext, tests] using hend)
          (by
            have hmono : Labels (· < k') pre := hpre.mono fun l hl => by omega
            simp [preNext, tests, labels_armTests, Item.labelOf, hmono]
            omega)
          (hsame.1.trans hstack)
        rw [hran]
        refine ⟨flow, ?_, hafter.of_same hsame.1 hsame.2⟩
        have hdoes' := Listing.Does.after (hgoes.trans hlabel) hdoes
        rw [← hplace] at hdoes'
        simpa [tests] using hdoes'

/-- The code of a match, with the subject on the stack while the arms run. -/
theorem does_cgMatch {ranges : Bool} {items : List Item} (m : MatchStmt)
    {pre matchCode post : List Item} {k : Nat} (s : State)
    (hcode : cgMatch labels (patternTest labels ranges) k m.node = some matchCode)
    (hitems : items = pre ++ matchCode ++ post) (hpre : Labels (· < k) pre) :
    ∃ flow, (code o items).Does pre.length s (pre ++ matchCode).length flow ∧
      After o s ((ranArm ranges (o.word s.clock m.subject) m.arms).map MatchArm.body).toList
        flow := by
  simp only [MatchStmt.node, cgMatch, Option.bind_eq_bind, Option.bind_eq_some_iff] at hcode
  obtain ⟨armsCode, harms, heq⟩ := hcode
  cases heq
  let front : List Item := [.eval m.subject, .push]
  have hfront : evalOpt (some m.subject) ++ .push :: armsCode ++ [.label k, .drop] =
      front ++ armsCode ++ [.label k, .drop] := by simp [evalOpt, front]
  rw [hfront] at hitems ⊢
  let w := o.word s.clock m.subject
  let t : State := { s with
    rax := w, rcx := o.scratch s.clock m.subject, clock := s.clock + 1, stack := w :: s.stack }
  have henter : (code o items).Goes pre.length s (pre ++ front).length t :=
    Listing.Goes.stretch (show items = pre ++ front ++ (armsCode ++ [.label k, .drop] ++ post) by
      simp [hitems]) rfl
  have hitems' : items = (pre ++ front) ++ armsCode ++ ([.label k, .drop] ++ post) := by
    simp [hitems]
  have hpre' : Labels (· < k + 1 + labelsOpt labels (some m.subject)) (pre ++ front) := by
    have hmono : Labels (· < k + 1 + labelsOpt labels (some m.subject)) pre :=
      hpre.mono fun l hl => by omega
    simp [front, Item.labelOf, hmono]
  have hend : (code o items).find k = some (pre ++ front ++ armsCode).length := by
    refine find_label o hitems' ?_
    have h1 : Labels (· ≠ k) pre := hpre.mono fun l hl => by omega
    have h2 : Labels (· ≠ k) armsCode := (cgArms_labels m.arms harms).mono fun l hl => by omega
    simp [front, Item.labelOf, h1, h2]
  obtain ⟨flow, hdoes, hafter⟩ := does_arms m.arms t harms hitems' hend hpre'
    (show t.stack = w :: s.stack from rfl)
  replace hdoes := Listing.Does.after henter hdoes
  have hplace : pre ++ front ++ armsCode ++ [.label k, .drop] =
      pre ++ (front ++ armsCode ++ [.label k, .drop]) := by simp
  cases flow with
  | goto => exact hafter.elim
  | leave a u => exact ⟨.leave a u, hdoes, hafter⟩
  | next u =>
    obtain ⟨hstack, htrace, hstays⟩ := hafter
    refine ⟨.next { u with stack := u.stack.tail }, ?_, ?_⟩
    · have hout : (code o items).Goes (pre ++ front ++ armsCode).length u
          (pre ++ front ++ armsCode ++ [Item.label k, Item.drop]).length
          { u with stack := u.stack.tail } :=
        Listing.Goes.stretch (show items =
          (pre ++ front ++ armsCode) ++ [Item.label k, Item.drop] ++ post by simp [hitems]) rfl
      rw [hplace] at hout
      exact hdoes.trans hout
    · exact ⟨by simp [hstack, t], htrace, hstays⟩

theorem exists_cgArms_iff {ranges : Bool} {endLabel : Nat} (arms : List MatchArm) (k : Nat) :
    (∃ items, cgArms labels (patternTest labels ranges) endLabel k (arms.map MatchArm.node) =
      some items) ↔ ∀ arm ∈ arms, arm.head ≠ .bare := by
  induction arms generalizing k with
  | nil => simp [cgArms]
  | cons arm arms ih =>
    constructor
    · intro ⟨items, h⟩
      obtain ⟨first, others, k', rest, hhead, -, hrest, -⟩ := cgArms_cons h
      rw [List.forall_mem_cons]
      exact ⟨by simp [hhead], (ih k').mp ⟨rest, hrest⟩⟩
    · intro h
      obtain ⟨hhead, harms⟩ := List.forall_mem_cons.mp h
      obtain ⟨head, body, hbody⟩ := arm
      cases head with
      | bare => exact absurd rfl hhead
      | patterns first others =>
        simp only [List.map_cons, cgArms, MatchArm.node, ArmHead.pattern, cgArm,
          Option.bind_eq_bind, Option.bind_some]
        obtain ⟨rest, hrest⟩ := (ih _).mpr harms
        exact ⟨_, by rw [hrest]; rfl⟩

end

/-! ## §6 Selection -/

inductive Branching where
  | ifChain (c : IfChain)
  | matchStmt (m : MatchStmt)
  | matchExpr (m : MatchStmt)

/-- The word is what the generator makes of the value. -/
def Represents : Value → Word → Prop
  | .int x, w => w = BitVec.ofInt 64 x
  | .bool b, w => w = if b then 1 else 0
  | .none, w => w = 0
  | .string _, _ | .other _, _ => True

/-- The values behind the words of an outcome. -/
structure Meaning (o : Outcome) where
  names : Bytes → Value
  value : Nat → AstNode → Value
  represents : ∀ t e, Represents (value t e) (o.word t e)

section

variable {o : Outcome}

/-- The code, if the generator emits any. -/
def Branching.emit (labels : AstNode → Nat) (k : Nat) : Branching → Option (List Item)
  | .ifChain c => some (cgIf labels k c.node).1
  | .matchStmt m => cgStmtMatch labels k m.node
  | .matchExpr m => cgExprMatch labels k m.node

/-- The branch that the language selects at the `t`-th evaluation. -/
def Branching.selected (v : Meaning o) (t : Nat) : Branching → Option AstNode
  | .ifChain c => c.selected o t
  | .matchStmt m | .matchExpr m =>
    (m.firstMatch v.names (v.value t m.subject)).map MatchArm.body

/-- The code runs the selected branch once, and no other. -/
def Selects (v : Meaning o) (labels : AstNode → Nat) (k : Nat) (s : State) (b : Branching) : Prop :=
  ∃ items, b.emit labels k = some items ∧ ∃ exit r, (code o items).Ends 0 s exit r ∧
    r.trace = s.trace ++ (b.selected v s.clock).toList

/-- No `elif` is taken, or nothing stands behind it that it could come to. -/
def NoElseBehind (o : Outcome) (t : Nat) (c : IfChain) : Prop :=
  o.word t c.first.condition ≠ 0 ∨ firstTrue o (t + 1) c.elifs = none ∨ c.elseBlock = none ∨
    ∃ b, firstTrue o (t + 1) c.elifs = some b ∧ leavesOpt o b.block = true

-- the equations, before the proofs that share them
section
attribute [local simp] NoElseBehind
end

/-- Each arm has a pattern, and the tests lead to the arm that matches. -/
def TestsMatch (v : Meaning o) (ranges : Bool) (t : Nat) (m : MatchStmt) : Prop :=
  (∀ arm ∈ m.arms, arm.head ≠ .bare) ∧
    (ranArm ranges (o.word t m.subject) m.arms).map MatchArm.body =
      (m.firstMatch v.names (v.value t m.subject)).map MatchArm.body

def Branching.Follows (v : Meaning o) (t : Nat) : Branching → Prop
  | .ifChain c => NoElseBehind o t c
  | .matchStmt m => TestsMatch v false t m
  | .matchExpr m => TestsMatch v true t m

theorem ends_trace {items : List Item} {s : State} {ran : List AstNode} {flow : Flow Nat Unit State}
    (hdoes : (code o items).Does 0 s items.length flow) (hafter : After o s ran flow) :
    ∃ exit r, (code o items).Ends 0 s exit r ∧ r.trace = s.trace ++ ran := by
  cases flow with
  | goto => exact hafter.elim
  | leave a u => exact ⟨some a, u, hdoes, hafter.1⟩
  | next u => exact ⟨none, u, hdoes _ _ (.fell u), hafter.2.1⟩

theorem selects_iff_ran {v : Meaning o} {labels : AstNode → Nat} {k : Nat} {s : State} {b : Branching}
    {items : List Item} {ran : List AstNode} {flow : Flow Nat Unit State}
    (hemit : b.emit labels k = some items) (hdoes : (code o items).Does 0 s items.length flow)
    (hafter : After o s ran flow) :
    Selects v labels k s b ↔ ran = (b.selected v s.clock).toList := by
  obtain ⟨exit, r, hends, htrace⟩ := ends_trace hdoes hafter
  constructor
  · intro ⟨items', hemit', exit', r', hends', htrace'⟩
    obtain rfl : items = items' := Option.some.inj (hemit.symm.trans hemit')
    obtain ⟨-, rfl⟩ := hends.unique hends'
    exact List.append_cancel_left (htrace.symm.trans htrace')
  · intro hran
    exact ⟨items, hemit, exit, r, hends, hran ▸ htrace⟩

theorem ranIf_eq_selected_iff (o : Outcome) (t : Nat) (c : IfChain) :
    ranIf o t c.first c.elifs c.elseBlock = (c.selected o t).toList ↔ NoElseBehind o t c := by
  by_cases hfirst : o.word t c.first.condition = 0#64
  · cases helifs : firstTrue o (t + 1) c.elifs with
    | none => simp [ranIf, ranElifs, IfChain.selected, firstTrue, NoElseBehind, hfirst, helifs]
    | some b =>
      have hnot : ¬ o.word t c.first.condition ≠ 0 := by simpa using hfirst
      have hselected : c.selected o t = b.block := by
        simp [IfChain.selected, firstTrue, hfirst, helifs]
      have hran : ranElifs o (t + 1) c.elifs = b.block.toList := by simp [ranElifs, helifs]
      have hany : b.block.toList.any o.leaves = leavesOpt o b.block := by
        cases b.block <;> simp [leavesOpt]
      rw [hselected, ranIf, if_neg hnot, hran, hany]
      cases hleaves : leavesOpt o b.block with
      | true =>
        rw [if_pos rfl]
        exact iff_of_true rfl (.inr (.inr (.inr ⟨b, helifs, hleaves⟩)))
      | false =>
        have hstays : ¬ ∃ b', firstTrue o (t + 1) c.elifs = some b' ∧ leavesOpt o b'.block = true := by
          simp [helifs, hleaves]
        cases helse : c.elseBlock <;> simp [NoElseBehind, hfirst, helifs, hleaves, helse]
  · simp [ranIf, IfChain.selected, firstTrue, NoElseBehind, hfirst]

theorem toList_inj {α : Type*} {a b : Option α} : a.toList = b.toList ↔ a = b := by
  cases a <;> cases b <;> simp

theorem matchCode_iff {v : Meaning o} {labels : AstNode → Nat} {k : Nat} {s : State} {b : Branching}
    {m : MatchStmt} {ranges : Bool} (hselected : b.selected v s.clock =
      (m.firstMatch v.names (v.value s.clock m.subject)).map MatchArm.body)
    (hemit : b.emit labels k = cgMatch labels (patternTest labels ranges) k m.node) :
    Selects v labels k s b ↔ TestsMatch v ranges s.clock m := by
  have hpatterns : (∃ items, b.emit labels k = some items) ↔ ∀ arm ∈ m.arms, arm.head ≠ .bare := by
    rw [← @exists_cgArms_iff labels ranges k m.arms (k + 1 + labelsOpt labels (some m.subject))]
    simp [hemit, MatchStmt.node, cgMatch, Option.bind_eq_some_iff]
  by_cases hsome : ∃ items, b.emit labels k = some items
  · obtain ⟨items, hitems⟩ := hsome
    have hbare := hpatterns.mp ⟨items, hitems⟩
    obtain ⟨flow, hdoes, hafter⟩ := does_cgMatch (o := o) m s (hemit.symm.trans hitems)
      (show items = [] ++ items ++ [] by simp) labels_nil
    rw [selects_iff_ran hitems hdoes hafter, hselected, toList_inj]
    exact (and_iff_right hbare).symm
  · constructor
    · rintro ⟨items, hitems, -⟩
      exact absurd ⟨items, hitems⟩ hsome
    · rintro ⟨hbare, -⟩
      exact absurd (hpatterns.mpr hbare) hsome

theorem selects_iff_follows (v : Meaning o) (labels : AstNode → Nat) (k : Nat) (s : State)
    (b : Branching) : Selects v labels k s b ↔ b.Follows v s.clock := by
  cases b with
  | ifChain c =>
    obtain ⟨flow, hdoes, hafter⟩ := does_cgIf (o := o) (k := k) c s
      (show (cgIf labels k c.node).1 = [] ++ (cgIf labels k c.node).1 ++ [] by simp) labels_nil
    exact (selects_iff_ran rfl hdoes hafter).trans (ranIf_eq_selected_iff o s.clock c)
  | matchStmt m => exact matchCode_iff rfl rfl
  | matchExpr m => exact matchCode_iff rfl rfl

end

/-- The code of a branching runs the branch that the language selects, and
no other, exactly where no else block stands behind a taken `elif` and where
the tests of a match lead to the arm that matches. -/
theorem selects_iff (o : Outcome) (v : Meaning o) (labels : AstNode → Nat) (k : Nat) (s : State)
    (b : Branching) : Selects v labels k s b ↔ b.Follows v s.clock :=
  selects_iff_follows v labels k s b

/-! ## §7 A taken `elif` -/

/-- Literals have their values, and all else is none. -/
def constants : Outcome where
  word := fun _ e =>
    match e with
    | .literalInt n _ => n.toBitVec
    | .literalBool b => if b then 1 else 0
    | _ => 0
  scratch := fun _ _ => 0
  leaves := fun _ => false
  literal := fun _ _ _ => rfl

-- the equations, before the proofs that share them
section
attribute [local simp] constants
end

def constantsMeaning : Meaning constants where
  names := fun _ => .none
  value := fun _ e =>
    match e with
    | .literalInt n _ => .int n.toNat
    | .literalBool b => .bool b
    | _ => .none
  represents := by
    intro t e
    cases e <;> simp [Represents, constants]

/-- `if false {} elif true { g() } else { h() }`. -/
def takenElif : Branching :=
  .ifChain {
    first := ⟨.literalBool false, some (.block [])⟩
    elifs := [⟨.literalBool true, some (.block [.exprStmt (some (.call (some (.ident (bytes "g"))) []))])⟩]
    elseBlock := some (.block [.exprStmt (some (.call (some (.ident (bytes "h"))) []))]) }

def State.initial : State := ⟨0, 0, [], false, false, 0, []⟩

/-- Both `g` and `h` are called. -/
theorem takenElif_runs_both :
    ¬ Selects constantsMeaning (fun _ => 0) 0 State.initial takenElif := by
  rw [selects_iff_follows]
  simp [Branching.Follows, takenElif, NoElseBehind, firstTrue, constants, leavesOpt]

end Aether.Codegen.Branches
