/-
Aether.Semantic.ScopeArena — the scopes of `src/semantic.c` as the code keeps
them: every scope ever opened stays in the arena, each with its parent, and
`current_scope` points into it.

`scopeDeclare`, `scopeEnter` and `scopeExit` are those of the code, and
`runArena` does what the visitor lists. A balanced list of actions gives back
the scope it started in, with new symbols in front of it and every other scope
as it was (`Restores`), and the lists of the visitor are balanced. `view`
relates the arena to the open scopes of `Analyzer`.
-/
import Aether.Semantic.Analyzer
import Mathlib.Data.List.Basic

namespace Aether.Semantic

/-! ## §1 The arena -/

structure Scope where
  symbols : List Symbol
  parent : Option Nat

/-- A scope is opened after its parent. -/
def ParentsOlder (arena : List Scope) : Prop :=
  ∀ (i : Nat) (scope : Scope) (p : Nat), arena[i]? = some scope → scope.parent = some p → p < i

/-- The scopes in the order they were opened. -/
structure SemanticAnalyzer where
  arena : List Scope
  currentScope : Nat
  errorCount : Nat
  program : List AstNode
  inArena : currentScope < arena.length
  older : ParentsOlder arena

/-- The global scope. -/
def semanticCreateArena : SemanticAnalyzer where
  arena := [⟨[], none⟩]
  currentScope := 0
  errorCount := 0
  program := []
  inArena := Nat.zero_lt_one
  older i scope p hi hp := by
    rw [List.getElem?_singleton] at hi
    split at hi
    · cases hi
      cases hp
    · cases hi

def declareIn (arena : List Scope) (i : Nat) (symbol : Symbol) : List Scope :=
  arena.modify i fun scope => { scope with symbols := symbol :: scope.symbols }

@[simp] theorem length_declareIn (arena : List Scope) (i : Nat) (symbol : Symbol) :
    (declareIn arena i symbol).length = arena.length := List.length_modify ..

theorem getElem?_declareIn_ne (arena : List Scope) {i j : Nat} (symbol : Symbol) (h : i ≠ j) :
    (declareIn arena i symbol)[j]? = arena[j]? := List.getElem?_modify_ne _ _ h

theorem getElem?_declareIn_eq (arena : List Scope) (i : Nat) (symbol : Symbol) :
    (declareIn arena i symbol)[i]? =
      arena[i]?.map fun scope => { scope with symbols := symbol :: scope.symbols } :=
  List.getElem?_modify_eq ..

theorem older_declareIn {arena : List Scope} (h : ParentsOlder arena) (i : Nat) (symbol : Symbol) :
    ParentsOlder (declareIn arena i symbol) := by
  intro j scope p hj hp
  by_cases hij : i = j
  · subst hij
    rw [getElem?_declareIn_eq, Option.map_eq_some_iff] at hj
    obtain ⟨old, hold, rfl⟩ := hj
    exact h i old p hold hp
  · rw [getElem?_declareIn_ne _ _ hij] at hj
    exact h j scope p hj hp

theorem older_concat {arena : List Scope} (h : ParentsOlder arena) {i : Nat}
    (hi : i < arena.length) : ParentsOlder (arena ++ [⟨[], some i⟩]) := by
  intro j scope p hj hp
  obtain hlt | hge := Nat.lt_or_ge j arena.length
  · rw [List.getElem?_append_left hlt] at hj
    exact h j scope p hj hp
  · rw [List.getElem?_append_right hge, List.getElem?_singleton] at hj
    split at hj
    · cases hj
      cases hp
      omega
    · cases hj

namespace SemanticAnalyzer

def scopeDeclare (sa : SemanticAnalyzer) (name : Bytes) (decl : AstNode) : SemanticAnalyzer :=
  { sa with
    arena := declareIn sa.arena sa.currentScope ⟨name, decl⟩
    inArena := by simp [sa.inArena]
    older := older_declareIn sa.older _ _ }

def scopeEnter (sa : SemanticAnalyzer) : SemanticAnalyzer :=
  { sa with
    arena := sa.arena ++ [⟨[], some sa.currentScope⟩]
    currentScope := sa.arena.length
    inArena := by simp
    older := older_concat sa.older sa.inArena }

/-- The parent of a scope that has one. -/
def parentOf (sa : SemanticAnalyzer) (i : Nat) : Option Nat := sa.arena[i]?.bind Scope.parent

theorem parentOf_lt {sa : SemanticAnalyzer} {i p : Nat} (h : sa.parentOf i = some p) :
    p < sa.arena.length := by
  obtain ⟨scope, hscope, hp⟩ := Option.bind_eq_some_iff.mp h
  have hlt := sa.older i scope p hscope hp
  have hi := (List.getElem?_eq_some_iff.mp hscope).1
  omega

def scopeExit (sa : SemanticAnalyzer) : SemanticAnalyzer :=
  match h : sa.parentOf sa.currentScope with
  | some p => { sa with currentScope := p, inArena := parentOf_lt h }
  | none => sa

def error (sa : SemanticAnalyzer) : SemanticAnalyzer := { sa with errorCount := sa.errorCount + 1 }

/-- The symbols of a scope and of the scopes around it; a scope is younger than
its parent, so `i + 1` steps reach the outermost one. -/
def chain (arena : List Scope) : Nat → Nat → List (List Symbol)
  | 0, _ => []
  | steps + 1, i =>
    match arena[i]? with
    | none => []
    | some scope => scope.symbols :: (scope.parent.elim [] fun p => chain arena steps p)

def scopes (sa : SemanticAnalyzer) : List (List Symbol) :=
  chain sa.arena (sa.currentScope + 1) sa.currentScope

/-- The analyzer with nothing but its open scopes, which is all that lookups read. -/
def view (sa : SemanticAnalyzer) : Analyzer :=
  { scopes := sa.scopes, errorCount := sa.errorCount, program := sa.program }

end SemanticAnalyzer

def Action.runArena (fuel : Nat) : Action → SemanticAnalyzer → Option SemanticAnalyzer
  | .scopeEnter, sa => some sa.scopeEnter
  | .scopeExit, sa => some sa.scopeExit
  | .scopeDeclare name decl, sa => some (sa.scopeDeclare name decl)
  | .resolve name, sa => if (sa.view.scopeLookup name).isSome then some sa else some sa.error
  | .checkGeneric callee args, sa => do
    let copied ← instantiate fuel callee args sa.view
    some { sa with program := copied.program }
  | .constDecl name value, sa => do
    let val ← constEvalExpr sa.view fuel value
    let value := match val with
      | some val => some (.literalInt val false)
      | none => value
    some (sa.scopeDeclare name (.constDecl name value))
  | .missingReturn, sa => some sa.error

def runArena (fuel : Nat) (actions : List Action) (sa : SemanticAnalyzer) :
    Option SemanticAnalyzer :=
  actions.foldlM (fun sa action => action.runArena fuel sa) sa

def secondPassArena (fuel : Nat) : Nat → Nat → SemanticAnalyzer → Option SemanticAnalyzer
  | 0, _, _ => none
  | steps + 1, i, sa =>
    match sa.program[i]? with
    | none => some sa
    | some decl => do
      let sa ← runArena fuel (semanticVisitNode decl) sa
      secondPassArena fuel steps (i + 1) sa

/-- `semantic_visit_node` on the program. -/
def visitProgramArena (fuel : Nat) (sa : SemanticAnalyzer) : Option SemanticAnalyzer := do
  let sa ← runArena fuel (sa.program.flatMap firstPass) sa
  secondPassArena fuel fuel 0 sa

-- the equations, before the proofs that share them
section
attribute [local simp] SemanticAnalyzer.chain Action.runArena secondPassArena semanticVisitExpr
  semanticVisitExprOpt semanticVisitExprs semanticVisitArgs semanticVisitNode semanticVisitNodeOpt
  semanticVisitNodes semanticVisitCatchArms declareParam declareTypeParam declarePattern
  checkReturn checkCall firstPass
end

/-! ## §2 The open scopes -/

namespace SemanticAnalyzer

variable {arena : List Scope}

/-- More steps than scopes to walk change nothing. -/
theorem chain_eq (h : ParentsOlder arena) : ∀ {i steps : Nat}, i < steps →
    chain arena steps i = chain arena (i + 1) i := by
  intro i
  induction i using Nat.strongRecOn with
  | ind i ih =>
    intro steps hsteps
    obtain ⟨steps, rfl⟩ : ∃ n, steps = n + 1 := ⟨steps - 1, by omega⟩
    rw [chain, chain]
    cases hscope : arena[i]? with
    | none => rfl
    | some scope =>
      cases hparent : scope.parent with
      | none => simp [hparent]
      | some p =>
        have hlt := h i scope p hscope hparent
        simp [hparent, ih p hlt (show p < steps by omega), ih p hlt hlt]

/-- A scope younger than all of the chain does not show in it. -/
theorem chain_congr (h : ParentsOlder arena) {arena' : List Scope} : ∀ {steps i : Nat},
    (∀ j, j ≤ i → arena'[j]? = arena[j]?) → chain arena' steps i = chain arena steps i := by
  intro steps
  induction steps with
  | zero => intro i _; rfl
  | succ steps ih =>
    intro i hsame
    rw [chain, chain, hsame i (Nat.le_refl i)]
    cases hscope : arena[i]? with
    | none => rfl
    | some scope =>
      cases hparent : scope.parent with
      | none => simp [hparent]
      | some p =>
        have hlt := h i scope p hscope hparent
        simpa [hparent] using ih fun j hj => hsame j (by omega)

/-- The chain of a scope: its symbols, then the chain of its parent. -/
theorem scopes_eq (sa : SemanticAnalyzer) : ∃ scope, sa.arena[sa.currentScope]? = some scope ∧
    sa.scopes = scope.symbols ::
      scope.parent.elim [] fun p => chain sa.arena (p + 1) p := by
  obtain ⟨scope, hscope⟩ : ∃ scope, sa.arena[sa.currentScope]? = some scope :=
    ⟨_, List.getElem?_eq_getElem sa.inArena⟩
  refine ⟨scope, hscope, ?_⟩
  rw [scopes, chain, hscope]
  cases hparent : scope.parent with
  | none => simp [hparent]
  | some p =>
    have hlt := sa.older _ _ p hscope hparent
    simp [hparent, chain_eq sa.older hlt]

theorem view_scopeDeclare (sa : SemanticAnalyzer) (name : Bytes) (decl : AstNode) :
    (sa.scopeDeclare name decl).view = sa.view.scopeDeclare name decl := by
  obtain ⟨scope, hscope, heq⟩ := sa.scopes_eq
  obtain ⟨scope', hscope', heq'⟩ := (sa.scopeDeclare name decl).scopes_eq
  have hdeclared : scope' = { scope with symbols := ⟨name, decl⟩ :: scope.symbols } := by
    have hset := getElem?_declareIn_eq sa.arena sa.currentScope ⟨name, decl⟩
    rw [hscope] at hset
    exact Option.some.inj (hscope'.symm.trans hset)
  have hparent : ∀ p, scope.parent = some p →
      chain (sa.scopeDeclare name decl).arena (p + 1) p = chain sa.arena (p + 1) p := by
    intro p hp
    have hlt := sa.older _ _ p hscope hp
    exact chain_congr sa.older fun j hj => getElem?_declareIn_ne _ _ (by omega)
  have hscopes : (sa.scopeDeclare name decl).scopes =
      (⟨name, decl⟩ :: scope.symbols) :: sa.scopes.tail := by
    rw [heq', heq, hdeclared]
    cases hp : scope.parent with
    | none => simp
    | some p => simp [hparent p hp]
  simp only [view, Analyzer.scopeDeclare, hscopes, heq]
  rfl

theorem view_scopeEnter (sa : SemanticAnalyzer) : sa.scopeEnter.view = sa.view.scopeEnter := by
  obtain ⟨scope, hscope, heq⟩ := sa.scopeEnter.scopes_eq
  have hnew : scope = ⟨[], some sa.currentScope⟩ := by
    have hlast : sa.scopeEnter.arena[sa.scopeEnter.currentScope]? = _ := List.getElem?_concat_length
    exact Option.some.inj (hscope.symm.trans hlast)
  have hin := sa.inArena
  have hchain : chain sa.scopeEnter.arena (sa.currentScope + 1) sa.currentScope = sa.scopes :=
    chain_congr sa.older fun j hj => List.getElem?_append_left (by omega)
  simp only [view, Analyzer.scopeEnter, heq, hnew, Option.elim_some, hchain]
  rfl

theorem view_scopeExit (sa : SemanticAnalyzer) : sa.scopeExit.view = sa.view.scopeExit := by
  obtain ⟨scope, hscope, heq⟩ := sa.scopes_eq
  have hparentOf : sa.parentOf sa.currentScope = scope.parent := by
    rw [parentOf, hscope]
    rfl
  unfold scopeExit
  split
  · next p hp =>
    have hparent := hparentOf.symm.trans hp
    have hlt := parentOf_lt hp
    have hcons : ∃ symbols rest, chain sa.arena (p + 1) p = symbols :: rest := by
      rw [chain, List.getElem?_eq_getElem hlt]
      exact ⟨_, _, rfl⟩
    obtain ⟨symbols, rest, hcons⟩ := hcons
    have hscopes : sa.scopes = scope.symbols :: symbols :: rest := by
      rw [heq, hparent, ← hcons]
      rfl
    have hexit : chain sa.arena (p + 1) p = sa.scopes.tail := by rw [hscopes, hcons, List.tail_cons]
    simp only [view, Analyzer.scopeExit, hscopes]
    rw [scopes, hexit, hscopes]
    rfl
  · next hp =>
    have hscopes : sa.scopes = [scope.symbols] := by
      rw [heq, hparentOf.symm.trans hp]
      rfl
    simp only [view, Analyzer.scopeExit, hscopes]

end SemanticAnalyzer

open SemanticAnalyzer in
/-- An action on the arena is the action on its open scopes. -/
theorem view_runArena (fuel : Nat) (action : Action) (sa : SemanticAnalyzer) :
    (action.runArena fuel sa).map SemanticAnalyzer.view = action.run fuel sa.view := by
  cases action with
  | scopeEnter => exact congrArg some sa.view_scopeEnter
  | scopeExit => exact congrArg some sa.view_scopeExit
  | scopeDeclare name decl => exact congrArg some (sa.view_scopeDeclare name decl)
  | resolve name =>
    simp only [Action.runArena, Action.run]
    split <;> rfl
  | checkGeneric callee args =>
    simp only [Action.runArena, Action.run, instantiate]
    split
    · cases monomorphizeFunc fuel _ _ <;> rfl
    · rfl
  | constDecl name value =>
    simp only [Action.runArena, Action.run, evalConst]
    cases constEvalExpr sa.view fuel value with
    | none => rfl
    | some val => exact congrArg some (sa.view_scopeDeclare name _)
  | missingReturn => rfl

theorem runArena_cons (fuel : Nat) (action : Action) (actions : List Action)
    (sa : SemanticAnalyzer) :
    runArena fuel (action :: actions) sa = (action.runArena fuel sa).bind (runArena fuel actions) :=
  List.foldlM_cons

theorem runArena_append (fuel : Nat) (actions rest : List Action) (sa : SemanticAnalyzer) :
    runArena fuel (actions ++ rest) sa = (runArena fuel actions sa).bind (runArena fuel rest) :=
  List.foldlM_append ..

/-- The visitor on the arena is the visitor on the open scopes. -/
theorem view_run (fuel : Nat) (actions : List Action) (sa : SemanticAnalyzer) :
    (runArena fuel actions sa).map SemanticAnalyzer.view = runActions fuel actions sa.view := by
  induction actions generalizing sa with
  | nil => rfl
  | cons action actions ih =>
    have hstep := view_runArena fuel action sa
    rw [runArena_cons, runActions, List.foldlM_cons, ← hstep]
    cases action.runArena fuel sa with
    | none => rfl
    | some next => exact ih next

/-! ## §3 What a visit gives back -/

/-- The scope of the entry is current again with symbols added in front, and the other scopes of
the entry are as they were. -/
structure Restores (sa sa' : SemanticAnalyzer) : Prop where
  current : sa'.currentScope = sa.currentScope
  others : ∀ i, i < sa.arena.length → i ≠ sa.currentScope → sa'.arena[i]? = sa.arena[i]?
  added : ∃ added, sa'.arena[sa.currentScope]? =
    sa.arena[sa.currentScope]?.map fun scope => { scope with symbols := added ++ scope.symbols }

namespace Restores

variable {sa sa' sa'' : SemanticAnalyzer}

/-- An analyzer with the same scopes. -/
theorem of_eq (harena : sa'.arena = sa.arena) (hcurrent : sa'.currentScope = sa.currentScope) :
    Restores sa sa' where
  current := hcurrent
  others _ _ _ := by rw [harena]
  added := ⟨[], by simp [harena]⟩

theorem length_le (h : Restores sa sa') : sa.arena.length ≤ sa'.arena.length := by
  by_contra hlt
  have hlast : sa'.arena[sa.arena.length - 1]? = none := List.getElem?_eq_none (by omega)
  have hin := sa.inArena
  by_cases heq : sa.arena.length - 1 = sa.currentScope
  · obtain ⟨added, hadded⟩ := h.added
    rw [← heq, hlast, List.getElem?_eq_getElem (by omega)] at hadded
    cases hadded
  · rw [h.others _ (by omega) heq, List.getElem?_eq_getElem (by omega)] at hlast
    cases hlast

theorem trans (h : Restores sa sa') (h' : Restores sa' sa'') : Restores sa sa'' where
  current := h'.current.trans h.current
  others i hi hne := by
    rw [h'.others i (Nat.lt_of_lt_of_le hi h.length_le) (by rwa [h.current]), h.others i hi hne]
  added := by
    obtain ⟨added, hadded⟩ := h.added
    obtain ⟨added', hadded'⟩ := h'.added
    rw [h.current, hadded] at hadded'
    refine ⟨added' ++ added, ?_⟩
    rw [hadded', Option.map_map]
    simp [Function.comp_def]

theorem scopeDeclare (sa : SemanticAnalyzer) (name : Bytes) (decl : AstNode) :
    Restores sa (sa.scopeDeclare name decl) where
  current := rfl
  others _ _ hne := getElem?_declareIn_ne _ _ (Ne.symm hne)
  added := ⟨[⟨name, decl⟩], getElem?_declareIn_eq ..⟩

/-- What a scope encloses does not touch the scope around it. -/
theorem enclosed (h : Restores sa.scopeEnter sa') : Restores sa sa'.scopeExit := by
  have hin := sa.inArena
  have hold : ∀ i, i < sa.arena.length → sa'.arena[i]? = sa.arena[i]? := by
    intro i hi
    rw [h.others i (by simp [SemanticAnalyzer.scopeEnter]; omega) (Nat.ne_of_lt hi)]
    exact List.getElem?_append_left hi
  have hparent : sa'.parentOf sa'.currentScope = some sa.currentScope := by
    obtain ⟨added, hadded⟩ := h.added
    rw [h.current, SemanticAnalyzer.parentOf, hadded]
    simp [SemanticAnalyzer.scopeEnter]
  have hexit : sa'.scopeExit.arena = sa'.arena ∧ sa'.scopeExit.currentScope = sa.currentScope := by
    unfold SemanticAnalyzer.scopeExit
    split
    · next p hp =>
      rw [hparent] at hp
      cases hp
      exact ⟨rfl, rfl⟩
    · next hp =>
      rw [hparent] at hp
      cases hp
  refine ⟨hexit.2, ?_, [], ?_⟩
  · intro i hi _
    rw [hexit.1, hold i hi]
  · rw [hexit.1, hold _ hin]
    simp

end Restores

/-! ## §4 Balanced lists of actions -/

/-- An action that neither opens nor closes a scope. -/
def Action.Inner : Action → Prop
  | .scopeEnter => False
  | .scopeExit => False
  | _ => True

inductive Balanced : List Action → Prop where
  | nil : Balanced []
  | cons {action : Action} {actions : List Action} :
    action.Inner → Balanced actions → Balanced (action :: actions)
  | enclosed {actions rest : List Action} : Balanced actions → Balanced rest →
    Balanced (.scopeEnter :: actions ++ .scopeExit :: rest)

theorem Balanced.append {actions rest : List Action} (h : Balanced actions) (h' : Balanced rest) :
    Balanced (actions ++ rest) := by
  induction h with
  | nil => exact h'
  | cons hinner _ ih => exact .cons hinner ih
  | enclosed hactions _ _ ih =>
    have henclosed := Balanced.enclosed hactions ih
    simpa using henclosed

theorem balanced_of_inner {actions : List Action} (h : ∀ action ∈ actions, action.Inner) :
    Balanced actions := by
  induction actions with
  | nil => exact .nil
  | cons action actions ih =>
    exact .cons (h _ List.mem_cons_self) (ih fun a ha => h a (List.mem_cons_of_mem _ ha))

/-- One action inside a scope adds at most one symbol to it. -/
theorem restores_inner {fuel : Nat} {action : Action} (hinner : action.Inner)
    {sa sa' : SemanticAnalyzer} (h : action.runArena fuel sa = some sa') : Restores sa sa' := by
  cases action with
  | scopeEnter => cases hinner
  | scopeExit => cases hinner
  | scopeDeclare name decl =>
    cases h
    exact .scopeDeclare sa name decl
  | resolve name =>
    simp only [Action.runArena] at h
    split at h
    · cases h
      exact .of_eq rfl rfl
    · cases h
      exact .of_eq rfl rfl
  | checkGeneric callee args =>
    obtain ⟨copied, -, hsa⟩ := Option.bind_eq_some_iff.mp h
    cases hsa
    exact .of_eq rfl rfl
  | constDecl name value =>
    obtain ⟨val, -, hsa⟩ := Option.bind_eq_some_iff.mp h
    cases hsa
    exact .scopeDeclare sa name _
  | missingReturn =>
    cases h
    exact .of_eq rfl rfl

/-- Balanced actions give the entry scope back. -/
theorem restores_of_balanced {fuel : Nat} {actions : List Action} (hactions : Balanced actions) :
    ∀ {sa sa' : SemanticAnalyzer}, runArena fuel actions sa = some sa' → Restores sa sa' := by
  induction hactions with
  | nil =>
    intro sa sa' h
    cases h
    exact .of_eq rfl rfl
  | cons hinner _ ih =>
    intro sa sa' h
    rw [runArena_cons] at h
    obtain ⟨next, hnext, hrest⟩ := Option.bind_eq_some_iff.mp h
    exact (restores_inner hinner hnext).trans (ih hrest)
  | enclosed _ _ ih ihrest =>
    intro sa sa' h
    rw [List.cons_append, runArena_cons] at h
    obtain ⟨entered, hentered, h⟩ := Option.bind_eq_some_iff.mp h
    cases hentered
    rw [runArena_append] at h
    obtain ⟨inside, hinside, h⟩ := Option.bind_eq_some_iff.mp h
    rw [runArena_cons] at h
    obtain ⟨left, hleft, hrest⟩ := Option.bind_eq_some_iff.mp h
    cases hleft
    exact (Restores.enclosed (ih hinside)).trans (ihrest hrest)

/-! ## §5 The lists of the visitor -/

theorem inner_declareParam {params : List AstNode} :
    ∀ action ∈ params.flatMap declareParam, action.Inner := by
  intro action haction
  obtain ⟨param, -, hparam⟩ := List.mem_flatMap.mp haction
  unfold declareParam at hparam
  split at hparam
  · rw [List.mem_singleton.mp hparam]
    trivial
  · cases hparam

theorem inner_declareTypeParam {typeParams : List AstNode} :
    ∀ action ∈ typeParams.flatMap declareTypeParam, action.Inner := by
  intro action haction
  obtain ⟨param, -, hparam⟩ := List.mem_flatMap.mp haction
  unfold declareTypeParam at hparam
  split at hparam
  · rw [List.mem_singleton.mp hparam]
    trivial
  · cases hparam

theorem balanced_declareIdent (var : Option Bytes) : Balanced (declareIdent var) := by
  cases var with
  | none => exact .nil
  | some name => exact .cons trivial .nil

theorem balanced_declarePattern (pattern : Option AstNode) : Balanced (declarePattern pattern) := by
  unfold declarePattern
  split
  · exact .cons trivial .nil
  · exact .nil

theorem balanced_checkReturn (returnType body : Option AstNode) :
    Balanced (checkReturn returnType body) := by
  unfold checkReturn
  split
  · exact .nil
  · split
    · exact .nil
    · exact .cons trivial .nil
  · exact .nil

theorem balanced_checkCall (callee : Option AstNode) (args : List AstNode) :
    Balanced (checkCall callee args) := by
  unfold checkCall
  split
  · exact .cons trivial .nil
  · exact .nil

theorem Balanced.scope {actions : List Action} (h : Balanced actions) :
    Balanced (.scopeEnter :: actions ++ [.scopeExit]) := .enclosed h .nil

mutual

theorem balanced_visitExpr (node : AstNode) : Balanced (semanticVisitExpr node) := by
  cases node with
  | ident name => exact .cons trivial .nil
  | binaryOp op left right customOp =>
    exact (balanced_visitExprOpt left).append (balanced_visitExprOpt right)
  | unaryOp op operand => exact balanced_visitExprOpt operand
  | call callee args =>
    simp only [semanticVisitExpr]
    split
    · exact balanced_visitExprs args
    · split
      · exact balanced_visitArgs args
      · exact ((balanced_visitExprOpt callee).append (balanced_visitExprs args)).append
          (balanced_checkCall callee args)
  | index target index => exact (balanced_visitExprOpt target).append (balanced_visitExprOpt index)
  | fieldAccess target field => exact balanced_visitExprOpt target
  | matchNode value arms => exact balanced_visitExprOpt value
  | lambda params body =>
    exact ((balanced_of_inner inner_declareParam).append (balanced_visitExprOpt body)).scope
  | arrayLit elements => exact balanced_visitExprs elements
  | _ => exact .nil

theorem balanced_visitExprOpt (node : Option AstNode) : Balanced (semanticVisitExprOpt node) := by
  cases node with
  | none => exact .nil
  | some node => exact balanced_visitExpr node

theorem balanced_visitExprs (nodes : List AstNode) : Balanced (semanticVisitExprs nodes) := by
  cases nodes with
  | nil => exact .nil
  | cons node nodes => exact (balanced_visitExpr node).append (balanced_visitExprs nodes)

theorem balanced_visitArgs (nodes : List AstNode) : Balanced (semanticVisitArgs nodes) := by
  cases nodes with
  | nil => exact .nil
  | cons node nodes =>
    simp only [semanticVisitArgs]
    split
    · exact balanced_visitArgs nodes
    · exact (balanced_visitExpr node).append (balanced_visitArgs nodes)

end

mutual

theorem balanced_visitNode (node : AstNode) : Balanced (semanticVisitNode node) := by
  cases node with
  | funcDecl name typeParams params returnType pre post body info =>
    refine .cons trivial (Balanced.scope (.append (.append (.append ?_ ?_) ?_) ?_))
    · exact balanced_of_inner inner_declareTypeParam
    · exact balanced_of_inner inner_declareParam
    · exact balanced_visitNodeOpt body
    · exact balanced_checkReturn returnType body
  | block stmts => exact (balanced_visitNodes stmts).scope
  | letNode name type value isMut isGlobal =>
    exact (balanced_visitExprOpt value).append (.cons trivial .nil)
  | constDecl name value => exact .cons trivial .nil
  | typeAlias name underlying => exact .cons trivial .nil
  | structDecl name fields methods contracts isPub =>
    exact .cons trivial (balanced_visitNodes methods)
  | classDecl name fields methods contracts isPub =>
    exact .cons trivial (balanced_visitNodes methods)
  | enumDecl name variants isPub => exact .cons trivial .nil
  | returnNode value => exact balanced_visitExprOpt value
  | ifLet pattern condition thenBlock =>
    exact ((balanced_visitExprOpt condition).append (balanced_declarePattern pattern)).append
      (balanced_visitNodeOpt thenBlock)
  | ifNode condition thenBlock elifChain elseBlock =>
    exact (((balanced_visitExprOpt condition).append (balanced_visitNodeOpt thenBlock)).append
      (balanced_visitNodeOpt elifChain)).append (balanced_visitNodeOpt elseBlock)
  | whileNode condition body =>
    exact (balanced_visitExprOpt condition).append (balanced_visitNodeOpt body)
  | forNode var indexVar iterable body =>
    exact (((balanced_declareIdent var).append (balanced_declareIdent indexVar)).append
      (balanced_visitExprOpt iterable)).append (balanced_visitNodeOpt body)
  | exprStmt expr => exact balanced_visitExprOpt expr
  | tryNode body catchArms finallyBody =>
    exact ((balanced_visitNodeOpt body).append (balanced_visitCatchArms catchArms)).append
      (balanced_visitNodeOpt finallyBody)
  | throwNode value => exact balanced_visitExprOpt value
  | runBlock body => exact balanced_visitNodes body
  | _ => exact .nil

theorem balanced_visitNodeOpt (node : Option AstNode) : Balanced (semanticVisitNodeOpt node) := by
  cases node with
  | none => exact .nil
  | some node => exact balanced_visitNode node

theorem balanced_visitNodes (nodes : List AstNode) : Balanced (semanticVisitNodes nodes) := by
  cases nodes with
  | nil => exact .nil
  | cons node nodes => exact (balanced_visitNode node).append (balanced_visitNodes nodes)

theorem balanced_visitCatchArms (arms : List AstNode) :
    Balanced (semanticVisitCatchArms arms) := by
  cases arms with
  | nil => exact .nil
  | cons arm arms =>
    cases arm with
    | catchArm type var body isCatchAll =>
      exact ((balanced_declareIdent var).append (balanced_visitNodeOpt body)).append
        (balanced_visitCatchArms arms)
    | _ => exact balanced_visitCatchArms arms

end

/-! ## §6 Every visit -/

theorem balanced_firstPass (decl : AstNode) : Balanced (firstPass decl) := by
  unfold firstPass
  split
  all_goals first | exact .cons trivial .nil | exact .nil

theorem balanced_flatMap {f : AstNode → List Action} (hf : ∀ node, Balanced (f node))
    (nodes : List AstNode) : Balanced (nodes.flatMap f) := by
  induction nodes with
  | nil => exact .nil
  | cons node nodes ih => exact (hf node).append ih

theorem restores_secondPass {fuel : Nat} : ∀ (steps i : Nat) {sa sa' : SemanticAnalyzer},
    secondPassArena fuel steps i sa = some sa' → Restores sa sa' := by
  intro steps
  induction steps with
  | zero => intro i sa sa' h; cases h
  | succ steps ih =>
    intro i sa sa' h
    rw [secondPassArena] at h
    split at h
    · cases h
      exact .of_eq rfl rfl
    · next decl _ =>
      obtain ⟨visited, hvisited, hrest⟩ := Option.bind_eq_some_iff.mp h
      exact (restores_of_balanced (balanced_visitNode decl) hvisited).trans (ih _ hrest)

/-- Whenever a visit returns, of any tree or of the program itself with the copies it appends, the
scope stack is balanced. -/
theorem scopes_balanced (fuel : Nat) (node : AstNode) (sa sa' : SemanticAnalyzer)
    (h : runArena fuel (semanticVisitNode node) sa = some sa' ∨
      runArena fuel (semanticVisitExpr node) sa = some sa' ∨
      visitProgramArena fuel sa = some sa') : Restores sa sa' := by
  obtain hnode | hexpr | hprogram := h
  · exact restores_of_balanced (balanced_visitNode node) hnode
  · exact restores_of_balanced (balanced_visitExpr node) hexpr
  · obtain ⟨declared, hdeclared, hrest⟩ := Option.bind_eq_some_iff.mp hprogram
    exact (restores_of_balanced (balanced_flatMap balanced_firstPass _) hdeclared).trans
      (restores_secondPass _ _ hrest)

/-- A function with a variable leaves its name behind. -/
theorem scopes_balanced_func : ∃ node sa',
    node = AstNode.funcDecl (bytes "f") [] [] none [] []
        (some (.block [.letNode (bytes "x") none (some (.literalBool true)) false false])) {} ∧
      runArena 0 (semanticVisitNode node) semanticCreateArena = some sa' ∧
      Restores semanticCreateArena sa' := by
  refine ⟨_, _, rfl, rfl, ?_⟩
  exact scopes_balanced 0 (.funcDecl (bytes "f") [] [] none [] []
    (some (.block [.letNode (bytes "x") none (some (.literalBool true)) false false])) {}) _ _
    (.inl rfl)

end Aether.Semantic
