/-
Aether.CTranspiler.Drops — the drop calls that end a block.

`c_emit_let` puts an entry in front of `auto_drop_list`. `c_emit_block` has a
list of its own, turns its links round after the statements, and prints a call
for each entry. The latest declaration is in front already while the list is
built, so the calls come in the order of the declarations.
-/
import Aether.CTranspiler.ScopeTheorems
import Mathlib.Data.List.Basic

namespace Aether.CTranspiler.Drops

/-! ## §1 The list and the lines -/

inductive CLine where
  | other
  | drop (m : Managed)
  deriving DecidableEq

/-- The entries of one declaration, with their names cut. -/
def push (managed list : List Managed) : List Managed :=
  managed.foldl (fun list m => m.printed :: list) list

/-- The loop of `c_emit_block` over `prev` and `curr`. -/
def reverseLinks (prev : List Managed) : List Managed → List Managed
  | [] => prev
  | entry :: next => reverseLinks (entry :: prev) next

/-- The calls that are printed for the list of a block. -/
def dropCalls (list : List Managed) : List CLine := (reverseLinks [] list).map .drop

mutual

/-- The lines of a statement, and `auto_drop_list` after it. -/
def printStmt : CStmt → List Managed → List CLine × List Managed
  | .decl _ _ managed, list => ([.other], push managed list)
  | .unprinted _, list => ([], list)
  | .braces body, list =>
    let (lines, list) := printStmts body list
    (.other :: lines ++ [.other], list)
  | .ite _ thenBody elseBody, list =>
    let (thenLines, list) := printStmts thenBody list
    let (elseLines, list) := printStmts elseBody list
    (.other :: thenLines ++ .other :: elseLines ++ [.other], list)
  | .while _ body, list =>
    let (lines, list) := printStmts body list
    (.other :: lines ++ [.other], list)
  | .forCounter _ _ body, list =>
    let (lines, list) := printStmts body list
    (.other :: lines ++ [.other], list)
  | .tryCatch body handlers, list =>
    let (lines, list) := printStmts body list
    let (handlerLines, list) := printStmts handlers list
    (.other :: lines ++ .other :: handlerLines ++ [.other], list)
  | .inlined body, saved =>
    let (lines, list) := printStmts body []
    (lines ++ dropCalls list, saved)
  | .deferred true body, list => printStmts body list
  | .deferred false _, list => ([], list)
  | _, list => ([.other], list)

def printStmts : List CStmt → List Managed → List CLine × List Managed
  | [], list => ([], list)
  | stmt :: stmts, list =>
    let (lines, list) := printStmt stmt list
    let (rest, list) := printStmts stmts list
    (lines ++ rest, list)

end

/-- The variables that a statement of a block declares and that are to be
dropped: their types are those that are written, or where these say nothing of
it (there is none, or it is an alias) those that `typeOf` knows. -/
def meantManaged (classes : List Bytes) (typeOf : AstNode → Option AstNode) (stmt : AstNode) :
    List Managed :=
  match stmt with
  | .letNode name type _ _ _ =>
    if (managedBy classes name type).isEmpty then managedBy classes name (typeOf stmt)
    else managedBy classes name type
  | .constDecl name _ => managedBy classes name (typeOf stmt)
  | _ => []

/-! ## §2 What a statement leaves in the list -/

theorem push_append (xs ys list : List Managed) : push (xs ++ ys) list = push ys (push xs list) :=
  List.foldl_append

theorem push_eq (managed list : List Managed) :
    push managed list = (managed.map Managed.printed).reverse ++ list := by
  induction managed generalizing list with
  | nil => rfl
  | cons m managed ih =>
    rw [push, List.foldl_cons, ← push, ih]
    simp

theorem reverseLinks_eq (prev list : List Managed) : reverseLinks prev list = list.reverse ++ prev := by
  induction list generalizing prev with
  | nil => rfl
  | cons entry next ih =>
    rw [reverseLinks, ih]
    simp

/-- The calls come in the order of the declarations. -/
theorem dropCalls_push (managed : List Managed) :
    dropCalls (push managed []) = (managed.map Managed.printed).map .drop := by
  rw [dropCalls, reverseLinks_eq, push_eq]
  simp

mutual

/-- The entries that stay in the list: those of a block do not. -/
def pushes : CStmt → List Managed
  | .decl _ _ managed => managed
  | .braces body => pushesList body
  | .ite _ thenBody elseBody => pushesList thenBody ++ pushesList elseBody
  | .while _ body => pushesList body
  | .forCounter _ _ body => pushesList body
  | .tryCatch body handlers => pushesList body ++ pushesList handlers
  | .deferred true body => pushesList body
  | _ => []

def pushesList : List CStmt → List Managed
  | [] => []
  | stmt :: stmts => pushes stmt ++ pushesList stmts

end

mutual

theorem printStmt_list : (stmt : CStmt) → (list : List Managed) →
    (printStmt stmt list).2 = push (pushes stmt) list
  | .comment, _ => rfl
  | .decl _ _ _, _ => rfl
  | .unprinted _, _ => rfl
  | .expr _, _ => rfl
  | .ret _, _ => rfl
  | .brk, _ => rfl
  | .cont, _ => rfl
  | .goto _, _ => rfl
  | .longjmp, _ => rfl
  | .braces body, list => printStmts_list body list
  | .ite _ thenBody elseBody, list => by
    rw [pushes, push_append, ← printStmts_list thenBody, ← printStmts_list elseBody]
    rfl
  | .while _ body, list => printStmts_list body list
  | .forCounter _ _ body, list => printStmts_list body list
  | .tryCatch body handlers, list => by
    rw [pushes, push_append, ← printStmts_list body, ← printStmts_list handlers]
    rfl
  | .inlined _, _ => rfl
  | .deferred true body, list => printStmts_list body list
  | .deferred false _, _ => rfl

theorem printStmts_list : (stmts : List CStmt) → (list : List Managed) →
    (printStmts stmts list).2 = push (pushesList stmts) list
  | [], _ => rfl
  | stmt :: stmts, list => by
    rw [pushesList, push_append, ← printStmt_list stmt, ← printStmts_list stmts]
    rfl

end

theorem pushesList_append (xs ys : List CStmt) :
    pushesList (xs ++ ys) = pushesList xs ++ pushesList ys := by
  induction xs with
  | nil => rfl
  | cons x xs ih =>
    rw [List.cons_append, pushesList, pushesList, ih, List.append_assoc]

/-! ## §3 Emitted statements -/

section

variable (cg : EmitContext)

theorem pushes_emitBlockNode (vars : List CStmt) (node : AstNode) (n : Nat) :
    pushesList (cEmitBlockNode cg vars node n).1 = [] := by
  cases node <;> rfl

theorem pushes_emitBlock (vars : List CStmt) (node : Option AstNode) (n : Nat) :
    pushesList (cEmitBlock cg vars node n).1 = [] := by
  cases node with
  | none => rfl
  | some node => exact pushes_emitBlockNode cg vars node n

theorem pushes_varDecl (own : List String) (name : Option Bytes) :
    pushesList (varDecl own name) = [] := by
  cases name <;> rfl

theorem pushes_unprintedVars (names : List Bytes) : pushesList (unprintedVars names) = [] := by
  induction names with
  | nil => rfl
  | cons name names ih => exact ih

theorem pushes_emitReturn (value : Option AstNode) (n : Nat) :
    pushesList (cEmitReturn cg value n).1 = [] := by
  unfold cEmitReturn
  split
  · cases value <;> rfl
  · rfl

theorem pushes_emitThrow (value : Option AstNode) (n : Nat) :
    pushesList (cEmitThrow cg value n).1 = [] := by
  unfold cEmitThrow
  split
  · rfl
  · cases value <;> rfl

theorem pushes_emitJump {jump : CStmt} (hjump : pushes jump = []) (suffix : String) :
    (label : Option Bytes) → pushesList (cEmitJump jump suffix label) = []
  | none => by simp [cEmitJump, pushesList, hjump]
  | some [] => by simp [cEmitJump, pushesList, hjump]
  | some (_ :: _) => rfl

theorem pushes_emitFor {body : Emit (List CStmt)} (hbody : ∀ n, pushesList (body n).1 = [])
    (var indexVar : Option Bytes) (iterable : AstNode) (n : Nat) :
    pushesList (cEmitFor cg var indexVar body iterable n).1 = [] := by
  have hrange (left right : Option AstNode) (n : Nat) :
      pushesList (cEmitForRange cg var indexVar body left right n).1 = [] := by
    show pushesList [ownDecl _ _, ownDecl _ _, ownDecl _ _,
      .while _ (varDecl _ var ++ varDecl _ indexVar ++ (body _).1 ++ [_])] ++ [] = []
    simp [pushesList, pushes, ownDecl, pushesList_append, pushes_varDecl, hbody]
  unfold cEmitFor
  split
  · exact hrange _ _ n
  · exact hrange _ _ n
  · show pushesList [ownDecl _ _,
      .forCounter _ _ (varDecl _ var ++ varDecl _ indexVar ++ (body _).1)] ++ [] = []
    simp [pushesList, pushes, ownDecl, pushesList_append, pushes_varDecl, hbody]

theorem pushes_foldr (arms : List (CText × List CStmt)) {last : List CStmt}
    (harms : ∀ arm ∈ arms, pushesList arm.2 = []) (hlast : pushesList last = []) :
    pushesList (arms.foldr (fun arm rest => [.ite (some arm.1) arm.2 rest]) last) = [] := by
  induction arms with
  | nil => exact hlast
  | cons arm arms ih =>
    have hrest := ih fun arm' hmem => harms arm' (List.mem_cons_of_mem _ hmem)
    simp [pushesList, pushes, harms arm (List.mem_cons_self ..), hrest]

mutual

theorem pushes_emitElifs : (elifs : Option AstNode) → (n : Nat) →
    ∀ arm ∈ (cEmitElifs cg elifs n).1, pushesList arm.2 = []
  | none, _ => fun _ hmem => nomatch hmem
  | some node, n => pushes_emitElif node n

theorem pushes_emitElif (node : AstNode) (n : Nat) :
    ∀ arm ∈ (cEmitElif cg node n).1, pushesList arm.2 = [] := by
  cases node with
  | ifNode condition thenBlock elifChain elseBlock =>
    intro arm hmem
    rcases List.mem_cons.mp hmem with rfl | hmem
    · exact pushes_emitBlock cg [] thenBlock _
    · exact pushes_emitElifs elifChain _ arm hmem
  | _ => exact fun _ hmem => nomatch hmem

end

theorem pushes_emitArms (arms : List AstNode) (n : Nat) : pushesList (cEmitArms cg arms n).1 = [] := by
  induction arms generalizing n with
  | nil => rfl
  | cons arm arms ih =>
    rw [cEmitArms]
    cases arm with
    | matchArm pattern patterns body =>
      show (pushesList (unprintedVars _ ++ (cEmitBlock cg [] body _).1) ++
        pushesList (cEmitArms cg arms _).1) ++ [] = []
      rw [pushesList_append, pushes_unprintedVars, pushes_emitBlock, ih]
      rfl
    | _ => exact ih n

theorem pushes_emitHandler (arm : AstNode) (n : Nat) : pushesList (cEmitHandler cg arm n).1 = [] := by
  cases arm with
  | catchArm type var body => exact pushes_emitBlock cg _ body n
  | _ => rfl

theorem pushes_emitHandlers (arms : List AstNode) (n : Nat) :
    pushesList (cEmitHandlers cg arms n).1 = [] := by
  induction arms generalizing n with
  | nil => rfl
  | cons arm arms ih =>
    show pushesList ((cEmitHandler cg arm n).1 ++ (cEmitHandlers cg arms _).1) = []
    rw [pushesList_append, pushes_emitHandler, ih]
    rfl

/-- Only a `let` of the block itself leaves entries. -/
theorem pushes_emitStmt (stmt : AstNode) (n : Nat) :
    pushesList (cEmitStmt cg stmt n).1 = nodeManaged cg.classes stmt := by
  cases stmt with
  | letNode name type value isMut isGlobal => exact List.append_nil _
  | ifNode condition thenBlock elifChain elseBlock =>
    show (pushesList (cEmitBlock cg [] thenBlock _).1 ++ pushesList (List.foldr _ _ _)) ++ [] = []
    rw [pushes_emitBlock, pushes_foldr _ (pushes_emitElifs cg elifChain _) (pushes_emitBlock cg [] elseBlock _)]
    rfl
  | ifLet pattern condition thenBlock =>
    show (pushesList [ownDecl _ _, .ite _ (varDecl _ _ ++ (cEmitBlock cg [] thenBlock _).1) []]) ++ [] = []
    simp [pushesList, pushes, ownDecl, pushesList_append, pushes_varDecl, pushes_emitBlock]
  | whileNode condition body =>
    show pushesList (cEmitBlock cg [] body _).1 ++ [] = []
    rw [pushes_emitBlock]
    rfl
  | forNode var indexVar iterable body =>
    cases iterable with
    | none => exact pushes_emitBlock cg _ body n
    | some iterable => exact pushes_emitFor cg (pushes_emitBlock cg [] body) var indexVar iterable n
  | returnNode value => exact pushes_emitReturn cg value n
  | breakNode label => exact pushes_emitJump rfl _ label
  | continueNode label => exact pushes_emitJump rfl _ label
  | deferNode body =>
    cases body with
    | none => rfl
    | some body => cases body <;> rfl
  | matchNode value arms =>
    show pushesList (ownDecl _ _ :: (cEmitArms cg arms _).1) ++ [] = []
    simp [pushesList, pushes, ownDecl, pushes_emitArms]
  | tryNode body catchArms finallyBody =>
    show pushesList ([ownDecl _ _, .tryCatch (cEmitBlock cg [] body _).1 (cEmitHandlers cg catchArms _).1] ++
      (cEmitBlock cg [] finallyBody _).1) ++ [] = []
    simp [pushesList, pushes, ownDecl, pushes_emitBlock, pushes_emitHandlers]
  | throwNode value => exact pushes_emitThrow cg value n
  | unsafeNode body =>
    cases body with
    | nil => rfl
    | cons body rest => exact pushes_emitBlockNode cg [] body n
  | region name body => exact pushes_emitBlock cg [] body n
  | spawn call =>
    rw [cEmitStmt]
    cases spawnExprs call <;> rfl
  | _ => rfl

theorem pushes_emitStmts (stmts : List AstNode) : ∀ n : Nat,
    pushesList (cEmitStmts cg stmts n).1 = stmts.flatMap (nodeManaged cg.classes) := by
  induction stmts with
  | nil => exact fun _ => rfl
  | cons stmt stmts ih =>
    intro n
    refine (pushesList_append _ _).trans ?_
    rw [List.flatMap_cons]
    exact congrArg₂ _ (pushes_emitStmt cg stmt n) (ih _)

/-- A block prints its statements, then a call for each of its variables as
they are declared, and leaves the list of the block around it. -/
theorem printBlock (stmts : List AstNode) (n : Nat) (saved : List Managed) :
    printStmts (cEmitStmt cg (.block stmts) n).1 saved =
      ((printStmts (cEmitStmts cg stmts n).1 []).1 ++
        ((stmts.flatMap (nodeManaged cg.classes)).map Managed.printed).map .drop, saved) := by
  have hlist := printStmts_list (cEmitStmts cg stmts n).1 []
  rw [pushes_emitStmts] at hlist
  show ((printStmts (cEmitStmts cg stmts n).1 []).1 ++
    dropCalls (printStmts (cEmitStmts cg stmts n).1 []).2 ++ [], saved) = _
  rw [hlist, dropCalls_push, List.append_nil]

end

/-! ## §4 The reverse order -/

theorem nodeManaged_or (classes : List Bytes) (typeOf : AstNode → Option AstNode) (stmt : AstNode) :
    nodeManaged classes stmt = meantManaged classes typeOf stmt ∨ nodeManaged classes stmt = [] := by
  cases stmt with
  | letNode name type value isMut isGlobal =>
    simp only [nodeManaged, meantManaged]
    cases hmanaged : managedBy classes name type with
    | nil => exact .inr rfl
    | cons m ms => exact .inl rfl
  | _ => exact .inr rfl

/-- Where no entry is missing in number, none is missing. -/
theorem flatMap_eq_of_length {α β : Type} {f g : α → List β} (hor : ∀ a, f a = g a ∨ f a = [])
    (as : List α) : (as.flatMap f).length ≤ (as.flatMap g).length ∧
      ((as.flatMap f).length = (as.flatMap g).length → ∀ a ∈ as, g a = f a) := by
  induction as with
  | nil => simp
  | cons a as ih =>
    obtain ⟨hle, heq⟩ := ih
    simp only [List.flatMap_cons, List.length_append, List.mem_cons, forall_eq_or_imp]
    rcases hor a with ha | ha
    · rw [ha]
      exact ⟨by omega, fun h => ⟨rfl, heq (by omega)⟩⟩
    · rw [ha, List.length_nil]
      refine ⟨by omega, fun h => ⟨?_, heq (by omega)⟩⟩
      exact List.length_eq_zero_iff.mp (by omega)

theorem printed_printed (m : Managed) : m.printed.printed = m.printed := by
  obtain ⟨var, kind⟩ := m
  cases kind <;> simp [Managed.printed, List.take_take]

/-- A list with its names cut is the list read backwards where no name is cut
and the list is the same backwards. -/
theorem map_printed_eq_reverse_iff (ms : List Managed) :
    ms.map Managed.printed = ms.reverse ↔ (∀ m ∈ ms, m.printed = m) ∧ ms.reverse = ms := by
  have hmap (h : ∀ m ∈ ms, m.printed = m) : ms.map Managed.printed = ms := by
    conv_rhs => rw [← List.map_id ms]
    exact List.map_congr_left h
  constructor
  · intro h
    have hfixed : ∀ m ∈ ms, m.printed = m := by
      intro m hm
      obtain ⟨m', _, rfl⟩ := List.mem_map.mp (h ▸ List.mem_reverse.mpr hm)
      exact printed_printed m'
    exact ⟨hfixed, by rw [← h, hmap hfixed]⟩
  · intro ⟨hfixed, hsame⟩
    rw [hmap hfixed, hsame]

/-- The calls at the end of a block are those of its variables in reverse
order exactly where the types are written, the names fit, and the list of the
variables is the same backwards. -/
theorem drops_reversed_iff (cg : EmitContext) (typeOf : AstNode → Option AstNode)
    (stmts : List AstNode) (n : Nat) (saved : List Managed) :
    printStmts (cEmitStmt cg (.block stmts) n).1 saved =
        ((printStmts (cEmitStmts cg stmts n).1 []).1 ++
          (stmts.flatMap (meantManaged cg.classes typeOf)).reverse.map .drop, saved) ↔
      (∀ stmt ∈ stmts, meantManaged cg.classes typeOf stmt = nodeManaged cg.classes stmt) ∧
        (∀ m ∈ stmts.flatMap (nodeManaged cg.classes), m.printed = m) ∧
          (stmts.flatMap (nodeManaged cg.classes)).reverse = stmts.flatMap (nodeManaged cg.classes) := by
  have hinj : Function.Injective CLine.drop := fun _ _ h => CLine.drop.inj h
  rw [printBlock, Prod.mk.injEq, List.append_cancel_left_eq, List.map_inj_right (fun _ _ => hinj.eq_iff.mp)]
  constructor
  · intro ⟨h, _⟩
    have hlength := congrArg List.length h
    rw [List.length_map, List.length_reverse] at hlength
    have hshown := (flatMap_eq_of_length (nodeManaged_or cg.classes typeOf) stmts).2 hlength
    rw [List.flatMap_congr hshown] at h
    exact ⟨hshown, (map_printed_eq_reverse_iff _).mp h⟩
  · intro ⟨hshown, hrest⟩
    rw [List.flatMap_congr hshown]
    exact ⟨(map_printed_eq_reverse_iff _).mpr hrest, rfl⟩

def ownedVar (name : String) : AstNode :=
  .letNode (bytes name) (some (.typeRef (some (.typePrimitive .u8)) { isOwned := true })) none false false

/-- `p` is declared first and freed first. -/
theorem firstOwned_freedFirst :
    printStmts (cEmitStmt { classes := [], throws := false, labels := fun _ => 0 }
        (.block [ownedVar "p", ownedVar "q"]) 0).1 [] =
      ([.other, .other, .drop ⟨bytes "p", .ownedFree⟩, .drop ⟨bytes "q", .ownedFree⟩], []) ∧
    printStmts (cEmitStmt { classes := [], throws := false, labels := fun _ => 0 }
        (.block [ownedVar "p", ownedVar "q"]) 0).1 [] ≠
      ((printStmts (cEmitStmts { classes := [], throws := false, labels := fun _ => 0 }
          [ownedVar "p", ownedVar "q"] 0).1 []).1 ++
        ([ownedVar "p", ownedVar "q"].flatMap (meantManaged [] fun _ => none)).reverse.map .drop, []) :=
  ⟨rfl, by decide⟩

end Aether.CTranspiler.Drops
