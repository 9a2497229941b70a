/-
Aether.Codegen.RangeLoopTheorems — when a counted loop runs over its range.

What the code of an expression and of the body leaves in `rcx` and in memory
is read off the emitted lines (`flows_cgExpr _`, `flows_cgBody _`). A turn of the
loop is one stretch of the listing, followed in both directions, so that
`runsRange_iff` says exactly when the turns are the values of the range.
-/
import Aether.Codegen.RangeLoops

namespace Aether.Codegen.RangeLoops

open Aether.Lib CTranspiler

/-! ## §1 What the code leaves -/

section

variable (f : Frame)

def accessWord (m : Mem) : Access → Word
  | .const w => w
  | .slot offset size => loadSized size (m.slots offset)

def storeMem (left : AstNode) (m : Mem) (w : Word) : Mem :=
  match left with
  | .ident name => m.store (f.offset name) w
  | _ => m

def evalExpr : AstNode → Mem → Effect
  | .literalInt n _, m => ⟨n.toBitVec, none, m⟩
  | .ident name, m => ⟨accessWord m (f.ident name), none, m⟩
  | .binaryOp op (some left) (some right) customOp, m =>
    if op = .assign then
      let r := evalExpr right m
      ⟨r.value, r.counter, storeMem f left r.mem r.value⟩
    else
      match followed f op left right with
      | some alu =>
        let r := evalExpr right m
        let l := evalExpr left r.mem
        let value := alu l.value r.value
        ⟨value, some r.value, if isCompound op then storeMem f left l.mem value else l.mem⟩
      | none => f.effect m (.binaryOp op (some left) (some right) customOp)
  | node, m => f.effect m node

/-- The word in `rcx`, if the statements write it, and memory. -/
def runStmts : List AstNode → Mem → Option Word × Mem
  | [], m => (none, m)
  | .exprStmt (some expr) :: stmts, m =>
    let e := evalExpr f expr m
    let rest := runStmts stmts e.mem
    (rest.1.or e.counter, rest.2)
  | stmt :: stmts, m =>
    let e := f.effect m stmt
    let rest := runStmts stmts e.mem
    (rest.1.or e.counter, rest.2)

def runBody : Option AstNode → Mem → Option Word × Mem
  | none, m => (none, m)
  | some (.block stmts), m => runStmts f stmts m
  | some stmt, m => ((f.effect m stmt).counter, (f.effect m stmt).mem)

end

/-! ## §2 The emitted code leaves it -/

/-- `t` is `s` with a word in `rcx`, if there is one, and another memory. -/
def After (counter : Option Word) (m : Mem) (s t : State) : Prop :=
  t.rcx = counter.getD s.rcx ∧ t.mem = m ∧ t.stack = s.stack ∧ t.turns = s.turns

theorem After.trans {c c' : Option Word} {m m' : Mem} {s t u : State} (h : After c m s t)
    (h' : After c' m' t u) : After (c'.or c) m' s u := by
  obtain ⟨hrcx, -, hstack, hturns⟩ := h
  obtain ⟨hrcx', hmem', hstack', hturns'⟩ := h'
  refine ⟨?_, hmem', hstack'.trans hstack, hturns'.trans hturns⟩
  cases c' <;> simp [hrcx', hrcx]

section

variable {f : Frame} {items : List Item}

@[simp] theorem code_items : (code f items).items = items := rfl

@[simp] theorem code_exec (item : Item) (s : State) :
    (code f items).exec item s = item.exec f s := rfl

variable (items) in
/-- The store behind an assignment. -/
theorem flows_storeTo (left : AstNode) (s : State) :
    ∃ t, Listing.flows (code f items).exec (storeTo f left) s = .next t ∧ t.rax = s.rax ∧
      After none (storeMem f left s.mem s.rax) s t := by
  cases left with
  | ident name => exact ⟨_, rfl, rfl, rfl, rfl, rfl, rfl⟩
  | _ => exact ⟨s, rfl, rfl, rfl, rfl, rfl, rfl⟩

variable (items) in
theorem flows_cgExpr (node : AstNode) (s : State) :
    ∃ t, Listing.flows (code f items).exec (cgExpr f node) s = .next t ∧
      t.rax = (evalExpr f node s.mem).value ∧
      After (evalExpr f node s.mem).counter (evalExpr f node s.mem).mem s t := by
  fun_induction cgExpr f node generalizing s with
  | case1 n isNegative => exact ⟨_, rfl, rfl, rfl, rfl, rfl, rfl⟩
  | case2 name =>
    simp only [evalExpr]
    cases f.ident name <;> exact ⟨_, rfl, rfl, rfl, rfl, rfl, rfl⟩
  | case3 left right customOp ih =>
    obtain ⟨t, hflows, hrax, hafter⟩ := ih s
    have hpushPop : Listing.flows (code f items).exec [.push, .popRax] t = .next t := rfl
    obtain ⟨u, hflows', hrax', hafter'⟩ := flows_storeTo (f := f) items left t
    rw [hrax, hafter.2.1] at hafter'
    refine ⟨u, ?_, hrax'.trans ?_, ?_⟩
    · simp only [Listing.flows_append, hflows, hpushPop, hflows']
    · simpa [evalExpr] using hrax
    · simpa [evalExpr] using hafter.trans hafter'
  | case4 op left right customOp hop alu hfollowed ihRight ihLeft =>
    obtain ⟨t, hflows, hrax, hafter⟩ := ihRight s
    obtain ⟨u, hflows', hrax', hrcx', hmem', hstack', hturns'⟩ :=
      ihLeft { t with stack := t.rax :: t.stack }
    rw [hafter.2.1] at hrax' hmem'
    -- the left operand is in `rax`, and the right one comes from the stack
    let v : State := { u with rax := alu u.rax t.rax, rcx := t.rax, stack := t.stack }
    have hpop : Listing.flows (code f items).exec [.popRcx, .alu alu] u = .next v := by
      simp [Listing.flows, Item.exec, hstack', v]
    have hoperands : Listing.flows (code f items).exec
        (cgExpr f right ++ .push :: cgExpr f left ++ [.popRcx, .alu alu]) s = .next v := by
      rw [List.append_assoc, List.cons_append, Listing.flows_append, hflows]
      simp only [Listing.flows, code_exec, Item.exec]
      rw [Listing.flows_append, hflows']
      exact hpop
    let er := evalExpr f right s.mem
    let el := evalExpr f left er.mem
    have hv : v.rax = alu el.value er.value := by simp [v, hrax, hrax', er, el]
    have hleft : After (some er.value) el.mem s v := by
      refine ⟨?_, hmem', hafter.2.2.1, hturns'.trans hafter.2.2.2⟩
      simp [v, hrax, er]
    have hevalExpr : evalExpr f (.binaryOp op (some left) (some right) customOp) s.mem =
        ⟨alu el.value er.value, some er.value,
          if isCompound op then storeMem f left el.mem (alu el.value er.value) else el.mem⟩ := by
      simp only [evalExpr, hop, hfollowed, if_false, er, el]
    rw [hevalExpr]
    cases hcompound : isCompound op with
    | true =>
      obtain ⟨w, hflowsStore, hraxStore, hafterStore⟩ :=
        flows_storeTo (f := f) items left v
      rw [hv, hleft.2.1] at hafterStore
      refine ⟨w, ?_, hraxStore.trans hv, hleft.trans hafterStore⟩
      rw [Listing.flows_append, hoperands]
      exact hflowsStore
    | false =>
      refine ⟨v, ?_, hv, hleft⟩
      rw [Listing.flows_append, hoperands]
      rfl
  | case5 op left right customOp hop hfollowed =>
    simp only [evalExpr, hop, hfollowed, if_false]
    exact ⟨_, rfl, rfl, rfl, rfl, rfl, rfl⟩
  | case6 node h1 h2 h3 =>
    rw [evalExpr]
    · exact ⟨_, rfl, rfl, rfl, rfl, rfl, rfl⟩
    all_goals assumption

theorem flows_run (node : AstNode) (rest : List Item) (s : State) :
    Listing.flows (code f items).exec (.run node :: rest) s =
      Listing.flows (code f items).exec rest { s with
        rax := (f.effect s.mem node).value, rcx := (f.effect s.mem node).counter.getD s.rcx,
        mem := (f.effect s.mem node).mem } := rfl

variable (items) in
theorem flows_cgStmts (stmts : List AstNode) (s : State) :
    ∃ t, Listing.flows (code f items).exec (cgStmts f stmts) s = .next t ∧
      After (runStmts f stmts s.mem).1 (runStmts f stmts s.mem).2 s t := by
  fun_induction cgStmts f stmts generalizing s with
  | case1 => exact ⟨s, rfl, rfl, rfl, rfl, rfl⟩
  | case2 expr stmts ih =>
    obtain ⟨t, hflows, -, hafter⟩ := flows_cgExpr (f := f) items expr s
    obtain ⟨u, hflows', hafter'⟩ := ih t
    rw [hafter.2.1] at hafter'
    refine ⟨u, ?_, hafter.trans hafter'⟩
    rw [Listing.flows_append, hflows]
    exact hflows'
  | case3 stmt stmts hstmt ih =>
    let e := f.effect s.mem stmt
    let t : State := { s with rax := e.value, rcx := e.counter.getD s.rcx, mem := e.mem }
    have hstep : After e.counter e.mem s t := ⟨rfl, rfl, rfl, rfl⟩
    obtain ⟨u, hflows, hafter⟩ := ih t
    refine ⟨u, (flows_run stmt _ s).trans hflows, ?_⟩
    rw [runStmts]
    · exact hstep.trans hafter
    · exact hstmt

variable (items) in
theorem flows_cgBody (body : Option AstNode) (s : State) :
    ∃ t, Listing.flows (code f items).exec (cgBody f body) s = .next t ∧
      After (runBody f body s.mem).1 (runBody f body s.mem).2 s t := by
  cases body with
  | none => exact ⟨s, rfl, rfl, rfl, rfl, rfl⟩
  | some stmt =>
    cases stmt with
    | block stmts => exact flows_cgStmts _ stmts s
    | _ => exact ⟨_, rfl, rfl, rfl, rfl, rfl⟩

end

/-! ## §3 A turn of the loop -/

structure RangeLoop where
  var : Bytes
  index : Option Bytes
  inclusive : Bool
  start : AstNode
  stop : AstNode
  body : Option AstNode

def RangeLoop.node (l : RangeLoop) : AstNode :=
  .forNode (some l.var) l.index (some (rangeNode l.inclusive l.start l.stop)) l.body

section

variable (f : Frame) (l : RangeLoop) (k : Nat)

/-- Memory where the body begins, with the counter in the variables. -/
def RangeLoop.enter (m : Mem) (w : Word) : Mem :=
  (match l.index with
    | none => m
    | some name => m.store (f.offset name) w).store (f.offset l.var) w

def headItems : List Item := .label k :: cgExpr f l.stop ++ [.cmp, .jge (k + 1)]

def turnItems : List Item :=
  storeCounterTo f l.index ++ storeCounterTo f (some l.var) ++ .body :: cgBody f l.body ++
    [.inc, .jmp k]

def startItems : List Item := cgExpr f l.start ++ [.movRcx]

theorem cgFor_node :
    cgFor f k l.node = startItems f l ++ headItems f l k ++ turnItems f l k ++ [.label (k + 1)] := by
  cases hinclusive : l.inclusive <;>
    simp [RangeLoop.node, rangeNode, rangeOp, hinclusive, cgFor, startItems, headItems, turnItems]

end

section

variable {f : Frame} {l : RangeLoop} {k : Nat} {items : List Item}

variable (items) in
/-- The head of the loop: the counter against the end of the range. -/
theorem flows_headItems (s : State) :
    ∃ t, Listing.flows (code f items).exec (headItems f l k) s =
        (if ((evalExpr f l.stop s.mem).counter.getD s.rcx).slt (evalExpr f l.stop s.mem).value
          then .next t else .goto (k + 1) t) ∧
      t.rcx = (evalExpr f l.stop s.mem).counter.getD s.rcx ∧
      t.mem = (evalExpr f l.stop s.mem).mem ∧ t.turns = s.turns := by
  obtain ⟨t, hflows, hrax, hrcx, hmem, -, hturns⟩ := flows_cgExpr (f := f) items l.stop s
  refine ⟨{ t with less := t.rcx.slt t.rax }, ?_, hrcx, hmem, hturns⟩
  have hlabel : Listing.flows (code f items).exec (.label k :: cgExpr f l.stop) s = .next t := hflows
  rw [headItems, Listing.flows_append, hlabel, ← hrax, ← hrcx]
  cases hless : t.rcx.slt t.rax <;>
    simp [Listing.flows, Item.exec, hless]

variable (items) in
/-- The rest of the turn, back to the head. -/
theorem flows_turnItems (s : State) :
    ∃ t, Listing.flows (code f items).exec (turnItems f l k) s = .goto k t ∧
      t.rcx = (runBody f l.body (l.enter f s.mem s.rcx)).1.getD s.rcx + 1 ∧
      t.mem = (runBody f l.body (l.enter f s.mem s.rcx)).2 ∧
      t.turns = s.turns ++ [(l.enter f s.mem s.rcx).slots] := by
  let m := l.enter f s.mem s.rcx
  let s' : State := { s with mem := m, turns := s.turns ++ [m.slots] }
  have hstores : Listing.flows (code f items).exec
      (storeCounterTo f l.index ++ storeCounterTo f (some l.var) ++ [.body]) s = .next s' := by
    cases hindex : l.index <;>
      simp [storeCounterTo, Listing.flows, Item.exec, s', m, RangeLoop.enter, hindex]
  obtain ⟨t, hflows, hrcx, hmem, -, hturns⟩ := flows_cgBody (f := f) items l.body s'
  refine ⟨{ t with rcx := t.rcx + 1 }, ?_, by rw [hrcx], hmem, hturns⟩
  have hitems : turnItems f l k =
      (storeCounterTo f l.index ++ storeCounterTo f (some l.var) ++ [.body]) ++
        (cgBody f l.body ++ [.inc, .jmp k]) := by
    simp [turnItems]
  rw [hitems, Listing.flows_append, hstores]
  simp only
  rw [Listing.flows_append, hflows]
  rfl

theorem exec_turns (item : Item) (s : State) :
    match item.exec f s with
    | .next t | .goto _ t | .leave _ t => s.turns <+: t.turns := by
  cases item with
  | jge l => cases hless : s.less <;> simp [Item.exec, hless]
  | _ => simp [Item.exec]

/-- A run only adds turns. -/
theorem ends_turns {i : Nat} {s r : State} {o : Option Unit} (h : (code f items).Ends i s o r) :
    s.turns <+: r.turns := by
  induction h with
  | fell s => exact List.prefix_refl _
  | @next i e s s' r o item flow rest ih =>
    have hstep := exec_turns (f := f) e s
    rw [← code_exec, flow] at hstep
    exact hstep.trans ih
  | @goto i j e l s s' r o item flow found rest ih =>
    have hstep := exec_turns (f := f) e s
    rw [← code_exec, flow] at hstep
    exact hstep.trans ih
  | @left i e a s s' item flow =>
    have hstep := exec_turns (f := f) e s
    rw [← code_exec, flow] at hstep
    exact hstep

def NoLabels (items : List Item) : Prop := ∀ item ∈ items, item.labelOf = none

theorem NoLabels.append {items items' : List Item} (h : NoLabels items) (h' : NoLabels items') :
    NoLabels (items ++ items') := List.forall_mem_append.mpr ⟨h, h'⟩

theorem noLabels_storeTo (left : AstNode) : NoLabels (storeTo f left) := by
  cases left <;> simp [NoLabels, storeTo, Item.labelOf]

theorem noLabels_cgExpr (node : AstNode) : NoLabels (cgExpr f node) := by
  fun_induction cgExpr f node with
  | case1 | case5 | case6 => simp [NoLabels, Item.labelOf]
  | case2 name => cases hident : f.ident name <;> simp [NoLabels, access, Item.labelOf]
  | case3 left right customOp ih =>
    refine (ih.append ?_).append (noLabels_storeTo left)
    simp [NoLabels, Item.labelOf]
  | case4 op left right customOp hop alu hfollowed ihRight ihLeft =>
    have hleft : NoLabels (.push :: cgExpr f left) := List.forall_mem_cons.mpr ⟨rfl, ihLeft⟩
    have hpop : NoLabels [.popRcx, .alu alu] := by simp [NoLabels, Item.labelOf]
    refine ((ihRight.append hleft).append hpop).append ?_
    cases isCompound op with
    | true => exact noLabels_storeTo left
    | false => simp [NoLabels]

theorem noLabels_cgStmts (stmts : List AstNode) : NoLabels (cgStmts f stmts) := by
  fun_induction cgStmts f stmts with
  | case1 => simp [NoLabels]
  | case2 expr stmts ih => exact (noLabels_cgExpr expr).append ih
  | case3 stmt stmts hstmt ih => exact List.forall_mem_cons.mpr ⟨rfl, ih⟩

theorem noLabels_cgBody (body : Option AstNode) : NoLabels (cgBody f body) := by
  cases body with
  | none => simp [NoLabels, cgBody]
  | some stmt =>
    cases stmt with
    | block stmts => exact noLabels_cgStmts stmts
    | _ => simp [NoLabels, cgBody, Item.labelOf]

theorem noLabels_startItems : NoLabels (startItems f l) := by
  refine (noLabels_cgExpr l.start).append ?_
  simp [NoLabels, Item.labelOf]

theorem noLabels_turnItems : NoLabels (turnItems f l k) := by
  have hstores (name : Option Bytes) : NoLabels (storeCounterTo f name) := by
    cases name <;> simp [NoLabels, storeCounterTo, Item.labelOf]
  have hbody : NoLabels (.body :: cgBody f l.body) :=
    List.forall_mem_cons.mpr ⟨rfl, noLabels_cgBody l.body⟩
  refine (((hstores l.index).append (hstores (some l.var))).append hbody).append ?_
  simp [NoLabels, Item.labelOf]

theorem find_head (hitems : items = startItems f l ++ headItems f l k ++ turnItems f l k ++
    [.label (k + 1)]) : (code f items).find k = some (startItems f l).length := by
  refine Listing.find_of_fresh (show items = startItems f l ++ .label k :: (cgExpr f l.stop ++
    [.cmp, .jge (k + 1)] ++ turnItems f l k ++ [.label (k + 1)]) by
      simp [hitems, headItems]) rfl ?_
  intro item hitem
  have hnone : item.labelOf = none := noLabels_startItems item hitem
  simp [code, hnone]

theorem find_end (hitems : items = startItems f l ++ headItems f l k ++ turnItems f l k ++
    [.label (k + 1)]) :
    (code f items).find (k + 1) =
      some (startItems f l ++ headItems f l k ++ turnItems f l k).length := by
  refine Listing.find_of_fresh hitems rfl ?_
  intro item hitem heq
  have hsome : item.labelOf = some (k + 1) := heq
  have htest : NoLabels (cgExpr f l.stop ++ [.cmp, .jge (k + 1)]) := by
    refine (noLabels_cgExpr l.stop).append ?_
    simp [NoLabels, Item.labelOf]
  simp only [headItems, List.mem_append, List.cons_append, List.mem_cons] at hitem
  rcases hitem with (hstart | rfl | hhead) | hturn
  · simp [noLabels_startItems item hstart] at hsome
  · simp [Item.labelOf] at hsome
  · have hnone : item.labelOf = none := htest item (by simpa using hhead)
    simp [hnone] at hsome
  · simp [noLabels_turnItems item hturn] at hsome

end

/-! ## §4 Runs of the loop -/

/-- The values of a range, in order. -/
def rangeValues (inclusive : Bool) (a b : Word) : List Word :=
  (List.range (b.toInt - a.toInt + if inclusive then 1 else 0).toNat).map fun i =>
    a + BitVec.ofNat 64 i

section

variable (f : Frame) (l : RangeLoop)

/-- The start of the range and memory behind it. -/
def RangeLoop.first (m : Mem) : Word × Mem :=
  ((evalExpr f l.start m).value, (evalExpr f l.start m).mem)

/-- The values that the range has when the loop begins. -/
def RangeLoop.values (m : Mem) : List Word :=
  rangeValues l.inclusive (l.first f m).1 (evalExpr f l.stop (l.first f m).2).value

/-- The loop runs its body once for each value of the range, in order, with
the value in its variable, and then leaves. -/
def RunsRange (k : Nat) (s : State) : Prop :=
  ∃ r turns, (code f (cgFor f k l.node)).Ends 0 s none r ∧ r.turns = s.turns ++ turns ∧
    turns.map (fun slots => slots (f.offset l.var)) = l.values f s.mem

/-- From a turn that finds the word `c` in `rcx`: with `v` the next value,
behind the end expression `rcx` holds `v`, be it that nothing has written it
since or that the last word written into it is `v`, and the end is above it;
behind the values `rcx` is not below the end. -/
def CounterHolds : List Word → Word → Mem → Prop
  | [], c, m =>
    let e := evalExpr f l.stop m
    (e.counter.getD c).slt e.value = false
  | v :: vs, c, m =>
    let e := evalExpr f l.stop m
    let b := runBody f l.body (l.enter f e.mem v)
    e.counter.getD c = v ∧ v.slt e.value = true ∧ CounterHolds vs (b.1.getD v + 1) b.2

end

section

variable {f : Frame} {l : RangeLoop} {k : Nat} {items : List Item}

theorem enter_var (m : Mem) (w : Word) : (l.enter f m w).slots (f.offset l.var) = w := by
  simp [RangeLoop.enter, Mem.store]

/-- The head leaves the loop. -/
theorem head_leaves (hitems : items = startItems f l ++ headItems f l k ++ turnItems f l k ++
    [.label (k + 1)]) (s : State)
    (hless : ((evalExpr f l.stop s.mem).counter.getD s.rcx).slt (evalExpr f l.stop s.mem).value =
      false) :
    ∃ t, (code f items).Meets (startItems f l).length s items.length t ∧ t.turns = s.turns := by
  obtain ⟨t, hflows, -, -, hturns⟩ := flows_headItems (f := f) (l := l) (k := k) items s
  rw [hless] at hflows
  have hjump := Listing.Meets.jump (show items = startItems f l ++ headItems f l k ++
    (turnItems f l k ++ [.label (k + 1)]) by simp [hitems]) hflows (find_end hitems)
  have hlabel := Listing.Meets.stretch (c := code f items) (s := t)
    (show items = (startItems f l ++ headItems f l k ++ turnItems f l k) ++ [Item.label (k + 1)] ++ []
      by simp [hitems]) rfl
  rw [← hitems] at hlabel
  exact ⟨t, hjump.trans hlabel, hturns⟩

/-- The head begins a turn, which comes back to it. -/
theorem head_turns (hitems : items = startItems f l ++ headItems f l k ++ turnItems f l k ++
    [.label (k + 1)]) {s : State} {c : Word}
    (hcounter : (evalExpr f l.stop s.mem).counter.getD s.rcx = c)
    (hless : c.slt (evalExpr f l.stop s.mem).value = true) :
    ∃ t, (code f items).Meets (startItems f l).length s (startItems f l).length t ∧
      t.rcx = (runBody f l.body (l.enter f (evalExpr f l.stop s.mem).mem c)).1.getD c + 1 ∧
      t.mem = (runBody f l.body (l.enter f (evalExpr f l.stop s.mem).mem c)).2 ∧
      t.turns = s.turns ++ [(l.enter f (evalExpr f l.stop s.mem).mem c).slots] := by
  obtain ⟨t, hflows, hrcx, hmem, hturns⟩ :=
    flows_headItems (f := f) (l := l) (k := k) items s
  rw [hcounter, hless] at hflows
  rw [hcounter] at hrcx
  have hhead := Listing.Meets.stretch (show items = startItems f l ++ headItems f l k ++
    (turnItems f l k ++ [.label (k + 1)]) by simp [hitems]) hflows
  obtain ⟨u, hflows', hrcx', hmem', hturns'⟩ :=
    flows_turnItems (f := f) (l := l) (k := k) items t
  rw [hrcx, hmem] at hrcx' hmem' hturns'
  rw [hturns] at hturns'
  have hjump := Listing.Meets.jump (show items = (startItems f l ++ headItems f l k) ++
    turnItems f l k ++ [.label (k + 1)] by simp [hitems]) hflows' (find_head hitems)
  exact ⟨u, hhead.trans hjump, hrcx', hmem', hturns'⟩

theorem ends_length_iff {s r : State} {o : Option Unit} :
    (code f items).Ends items.length s o r ↔ o = none ∧ r = s := by
  constructor
  · intro h
    cases h with
    | fell => exact ⟨rfl, rfl⟩
    | next item | goto item | left item => simp at item
  · intro ⟨ho, hr⟩
    rw [ho, hr]
    exact .fell s

section

variable (f l items)

/-- From the head there is a run that makes the turns `vs` and leaves. -/
def LeavesAfter (vs : List Word) (s : State) : Prop :=
  ∃ r turns, (code f items).Ends (startItems f l).length s none r ∧
    r.turns = s.turns ++ turns ∧ turns.map (fun slots => slots (f.offset l.var)) = vs

end

theorem leavesAfter_of_leaves (hitems : items = startItems f l ++ headItems f l k ++
    turnItems f l k ++ [.label (k + 1)]) (vs : List Word) (s : State)
    (hless : ((evalExpr f l.stop s.mem).counter.getD s.rcx).slt (evalExpr f l.stop s.mem).value =
      false) : LeavesAfter f l items vs s ↔ vs = [] := by
  obtain ⟨t, hmeets, hturns⟩ := head_leaves hitems s hless
  constructor
  · intro ⟨r, turns, hends, hr, hvs⟩
    obtain ⟨-, rfl⟩ := ends_length_iff.mp ((hmeets none r).mp hends)
    have hnil : turns = [] := by simpa [hturns] using hr
    simpa [hnil] using hvs.symm
  · intro hvs
    refine ⟨t, [], (hmeets none t).mpr (ends_length_iff.mpr ⟨rfl, rfl⟩), ?_, ?_⟩
    · simp [hturns]
    · simp [hvs]

/-- A run from the head that makes a turn: its first value, and the rest. -/
theorem leavesAfter_of_turns {s t : State} {m : Mem} {c : Word}
    (hmeets : (code f items).Meets (startItems f l).length s (startItems f l).length t)
    (hturns : t.turns = s.turns ++ [(l.enter f m c).slots]) (vs : List Word) :
    LeavesAfter f l items vs s ↔ ∃ vs', vs = c :: vs' ∧ LeavesAfter f l items vs' t := by
  have hvar := enter_var (f := f) (l := l) m c
  constructor
  · intro ⟨r, turns, hends, hr, hvs⟩
    have hends' := (hmeets none r).mp hends
    obtain ⟨turns', hr'⟩ := ends_turns hends'
    have hsplit : turns = (l.enter f m c).slots :: turns' := by
      rw [hturns, hr, List.append_assoc] at hr'
      exact (List.append_cancel_left hr').symm
    refine ⟨_, ?_, r, turns', hends', hr'.symm, rfl⟩
    simp [← hvs, hsplit, hvar]
  · intro ⟨vs', hvs, r, turns', hends', hr', hvs'⟩
    refine ⟨r, (l.enter f m c).slots :: turns', (hmeets none r).mpr hends', ?_, ?_⟩
    · simp [hr', hturns]
    · simp [hvs, hvs', hvar]

/-- From the head, the turns are `vs` if and only if the counter holds them. -/
theorem leavesAfter_iff (hitems : items = startItems f l ++ headItems f l k ++ turnItems f l k ++
    [.label (k + 1)]) (vs : List Word) (s : State) :
    LeavesAfter f l items vs s ↔ CounterHolds f l vs s.rcx s.mem := by
  induction vs generalizing s with
  | nil =>
    cases hless : ((evalExpr f l.stop s.mem).counter.getD s.rcx).slt
        (evalExpr f l.stop s.mem).value with
    | false => exact iff_of_true ((leavesAfter_of_leaves hitems [] s hless).mpr rfl) hless
    | true =>
      obtain ⟨t, hmeets, -, -, hturns⟩ := head_turns hitems rfl hless
      rw [leavesAfter_of_turns hmeets hturns]
      simp [CounterHolds, hless]
  | cons v vs ih =>
    by_cases hcounter : (evalExpr f l.stop s.mem).counter.getD s.rcx = v
    · cases hless : v.slt (evalExpr f l.stop s.mem).value with
      | false =>
        rw [leavesAfter_of_leaves hitems _ s (by rw [hcounter, hless])]
        simp [CounterHolds, hless]
      | true =>
        obtain ⟨t, hmeets, hrcx, hmem, hturns⟩ := head_turns hitems hcounter hless
        rw [leavesAfter_of_turns hmeets hturns]
        have hih := ih t
        rw [hrcx, hmem] at hih
        simp [CounterHolds, hcounter, hless, hih]
    · -- no turn has the value `v`, if there is one at all
      have hnot : ¬ CounterHolds f l (v :: vs) s.rcx s.mem := fun h => hcounter h.1
      refine iff_of_false ?_ hnot
      cases hless : ((evalExpr f l.stop s.mem).counter.getD s.rcx).slt
          (evalExpr f l.stop s.mem).value with
      | false => simp [leavesAfter_of_leaves hitems _ s hless]
      | true =>
        obtain ⟨t, hmeets, -, -, hturns⟩ := head_turns hitems rfl hless
        rw [leavesAfter_of_turns hmeets hturns]
        intro ⟨vs', hvs, _⟩
        exact hcounter (List.cons.inj hvs).1.symm

theorem runsRange_iff_counterHolds (f : Frame) (l : RangeLoop) (k : Nat) (s : State) :
    RunsRange f l k s ↔ CounterHolds f l (l.values f s.mem) (l.first f s.mem).1 (l.first f s.mem).2 := by
  have hitems := cgFor_node f l k
  obtain ⟨t, hflows, hrax, -, hmem, -, hturns⟩ :=
    flows_cgExpr (f := f) (cgFor f k l.node) l.start s
  let u : State := { t with rcx := t.rax }
  have hstart : Listing.flows (code f (cgFor f k l.node)).exec (startItems f l) s = .next u := by
    rw [startItems, Listing.flows_append, hflows]
    rfl
  have hmeets := Listing.Meets.stretch (c := code f (cgFor f k l.node)) (show cgFor f k l.node =
    [] ++ startItems f l ++ (headItems f l k ++ turnItems f l k ++ [.label (k + 1)]) by
      simp [hitems]) hstart
  have hiff := leavesAfter_iff hitems (l.values f s.mem) u
  have hrcx : u.rcx = (l.first f s.mem).1 := hrax
  have hmem' : u.mem = (l.first f s.mem).2 := hmem
  rw [hrcx, hmem'] at hiff
  rw [← hiff]
  constructor
  · intro ⟨r, turns, hends, hr, hvs⟩
    exact ⟨r, turns, (hmeets none r).mp hends, by rw [hr, ← hturns], hvs⟩
  · intro ⟨r, turns, hends, hr, hvs⟩
    refine ⟨r, turns, (hmeets none r).mpr hends, ?_, hvs⟩
    rw [hr]
    exact congrArg (· ++ turns) hturns

end

/-- Two variables, `i` and `x`. -/
def twoVars : Frame where
  ident := fun name => .slot (if name = bytes "i" then -8 else -16) 8
  offset := fun name => if name = bytes "i" then -8 else -16
  joins := fun _ _ _ => false
  effect := fun m _ => ⟨0, none, m⟩

/-- `for i in 0..2 { x = i * 2 }`. -/
def doubling : RangeLoop where
  var := bytes "i"
  index := none
  inclusive := false
  start := .literalInt 0 false
  stop := .literalInt 2 false
  body := some (.block [.exprStmt (some (.binaryOp .assign (some (.ident (bytes "x")))
    (some (.binaryOp .mul (some (.ident (bytes "i"))) (some (.literalInt 2 false)) [])) []))])

def State.initial : State := ⟨0, 0, [], false, ⟨fun _ => 0, 0⟩, []⟩

end Aether.Codegen.RangeLoops
