/-
Aether.CTranspiler.ScopeCheck — reading a function for names that the C text
gets wrong.

`check` goes through the program as `c_stmt.c` does and keeps only names:
those under which C sees another variable than the language (`stale`), those
whose drop call stands before (`gone`), and those that the C block declares.
-/
import Aether.CTranspiler.Scopes

namespace Aether.CTranspiler

open Aether.Semantic (patternNames paramName)

/-! ## §1 Names -/

structure Check where
  stale : List Bytes := []
  gone : List Bytes := []
  /-- declared in the C block before the block of the program -/
  before : List Bytes := []
  /-- declared in the C block since -/
  names : List Bytes := []
  /-- the label counter of the emitter -/
  label : Nat := 0
  /-- no expression mentions a stale name -/
  uses : Bool := true
  /-- no drop call mentions a stale name or one that is cut -/
  drops : Bool := true
  /-- no C block declares a name twice -/
  once : Bool := true
  /-- no name is mentioned after its drop call, and each drop call is for a
  name of its block -/
  safe : Bool := true

namespace Check

def use (name : Bytes) (k : Check) : Check :=
  { k with
    uses := k.uses && !k.stale.contains name
    safe := k.safe && !k.gone.contains name }

def mentions (names : List Bytes) (k : Check) : Check := names.foldl (fun k name => k.use name) k

def drop (m : Managed) (k : Check) : Check :=
  { k with
    drops := k.drops && m.printed.var == m.var && !k.stale.contains m.var
    safe := k.safe && k.names.contains m.printed.var && !k.gone.contains m.printed.var
    gone := m.printed.var :: k.gone }

def bind (name : Bytes) (k : Check) : Check :=
  { k with
    gone := k.gone.filter (· != name)
    names := name :: k.names
    once := k.once && !(k.names ++ k.before).contains name }

def declare (name : Bytes) (k : Check) : Check :=
  { k.bind name with stale := k.stale.filter (· != name) }

def declareOwn (name : Bytes) (k : Check) : Check :=
  { k.bind name with stale := name :: k.stale }

/-- A variable of the program that is not declared. -/
def hide (name : Bytes) (k : Check) : Check := { k with stale := name :: k.stale }

def hideAll (names : List Bytes) (k : Check) : Check := names.foldl (fun k name => k.hide name) k

def declareAll (names : List Bytes) (k : Check) : Check :=
  names.foldl (fun k name => k.declare name) k

/-- The initialiser of `v` must not mention `v`. -/
def useInit (v name : Bytes) (k : Check) : Check :=
  if name = v then { k with uses := false } else k.use name

def declareWith (v : Bytes) (names : List Bytes) (k : Check) : Check :=
  (names.foldl (fun k name => k.useInit v name) k).declare v

def labels (n : Nat) (k : Check) : Check := { k with label := k.label + n }

/-- A C block. -/
def inBraces (f : Check → Check) (k : Check) : Check :=
  let k' := f { k with before := [], names := [] }
  { k' with stale := k.stale, gone := k.gone, before := k.before, names := k.names }

/-- A block of the program without braces: C sees its names after it. -/
def inBlock (f : Check → Check) (k : Check) : Check :=
  let k' := f { k with before := k.names ++ k.before, names := [] }
  { k' with
    stale := k'.names ++ k.stale, before := k.before, names := k'.names ++ k.names }

def block (hidden : List Bytes) (managed : List Managed) (f : Check → Check) : Check → Check :=
  inBlock fun k => managed.foldl (fun k m => k.drop m) (f (k.hideAll hidden))

end Check

/-! ## §2 Statements -/

section

variable (printed : AstNode → List Bytes) (cg : EmitContext)

def checkText (node : AstNode) (k : Check) : Check := (k.labels (cg.labels node)).mentions (printed node)

def checkTextOpt : Option AstNode → Check → Check
  | none => id
  | some node => checkText printed cg node

def checkTexts : List AstNode → Check → Check
  | [] => id
  | node :: nodes => fun k => checkTexts nodes (checkText printed cg node k)

def checkLet (name : Bytes) : Option AstNode → Check → Check
  | none => Check.declareWith name []
  | some node => fun k => (k.labels (cg.labels node)).declareWith name (printed node)

/-- A return or a throw through a local variable of the emitter. -/
def checkThrows (own : String) (text : Check → Check) (k : Check) : Check :=
  if cg.throws then text (k.declareOwn (bytes own)) else text k

def checkFor (var indexVar : Option Bytes) (body : Check → Check) : AstNode → Check → Check
  | .binaryOp .range left right _ => checkRange left right
  | .binaryOp .rangeInclusive left right _ => checkRange left right
  | iterable => Check.inBraces fun k =>
    (checkText printed cg iterable (k.declareOwn (bytes "__arr"))).inBraces fun k =>
      (k.declareOwn (bytes "__i")).inBraces fun k =>
        body (k.declareAll (var.toList ++ indexVar.toList))
where
  checkRange (left right : Option AstNode) (k : Check) : Check :=
    let counter := bytes ("__i_" ++ toString k.label)
    (k.labels 2).inBraces fun k =>
      let k := checkTextOpt printed cg left (k.declareOwn (bytes "__range_start"))
      let k := checkTextOpt printed cg right (k.declareOwn (bytes "__range_end"))
      (k.declareOwn counter).inBraces fun k =>
        body (k.declareAll (var.toList ++ indexVar.toList))

mutual

def check : AstNode → Check → Check
  | .letNode name _ value _ _ => checkLet printed cg name value
  | .constDecl name value => checkLet printed cg name value
  | .ifNode condition thenBlock elifChain elseBlock => fun k =>
    ((checkTextOpt printed cg condition k).inBraces (checkBlock [] thenBlock)).inBraces
      (checkElifs elifChain (checkBlock [] elseBlock))
  | .ifLet pattern condition thenBlock => Check.inBraces fun k =>
    (checkTextOpt printed cg condition (k.declareOwn (bytes "__iflet_val"))).inBraces fun k =>
      checkBlock [] thenBlock (k.declareAll (patternNames pattern))
  | .whileNode condition body => fun k =>
    (checkTextOpt printed cg condition k).inBraces (checkBlock [] body)
  | .forNode var indexVar none body => checkBlock (var.toList ++ indexVar.toList) body
  | .forNode var indexVar (some iterable) body =>
    checkFor printed cg var indexVar (checkBlock [] body) iterable
  | .returnNode value => checkThrows cg "__ret" (checkTextOpt printed cg value)
  | .deferNode body => checkBlock [] body
  | .exprStmt expr => checkTextOpt printed cg expr
  | .block stmts => Check.block [] (stmts.flatMap (nodeManaged cg.classes)) (checkStmts stmts)
  | .matchNode value arms => Check.inBraces fun k =>
    checkArms arms (checkTextOpt printed cg value (k.declareOwn (bytes "__match_val")))
  | .tryNode body catchArms finallyBody => Check.inBraces fun k =>
    checkBlock [] finallyBody
      (((k.declareOwn (bytes "__aether_try_val")).inBraces (checkBlock [] body)).inBraces
        (checkHandlers catchArms))
  | .throwNode value =>
    checkThrows cg "__err" (if cg.throws then id else checkTextOpt printed cg value)
  | .unsafeNode body => checkFirst body
  | .region _ body => checkBlock [] body
  | .spawn call => checkTexts printed cg (spawnExprs call)
  | _ => id

def checkBlockNode (hidden : List Bytes) : AstNode → Check → Check
  | .block stmts => Check.block hidden (stmts.flatMap (nodeManaged cg.classes)) (checkStmts stmts)
  | _ => id

def checkBlock (hidden : List Bytes) : Option AstNode → Check → Check
  | none => id
  | some node => checkBlockNode hidden node

def checkStmts : List AstNode → Check → Check
  | [] => id
  | stmt :: stmts => fun k => checkStmts stmts (check stmt k)

def checkFirst : List AstNode → Check → Check
  | [] => id
  | node :: _ => checkBlockNode [] node

def checkElifs : Option AstNode → (Check → Check) → Check → Check
  | none, last => last
  | some node, last => checkElif node last

def checkElif : AstNode → (Check → Check) → Check → Check
  | .ifNode condition thenBlock elifChain _, last => fun k =>
    ((checkTextOpt printed cg condition k).inBraces (checkBlock [] thenBlock)).inBraces
      (checkElifs elifChain last)
  | _, last => last

def checkArms : List AstNode → Check → Check
  | [] => id
  | arm :: arms => checkArm arm (checkArms arms)

def checkArm : AstNode → (Check → Check) → Check → Check
  | .matchArm pattern patterns body, others => fun k =>
    (k.inBraces fun k => checkBlock [] body
      (checkTexts printed cg (armExprs pattern patterns)
        (k.hideAll (armNames pattern patterns)))).inBraces others
  | _, others => others

def checkHandlers : List AstNode → Check → Check
  | [] => id
  | arm :: arms => fun k => checkHandlers arms (checkHandler arm k)

def checkHandler : AstNode → Check → Check
  | .catchArm _ var body _ => checkBlock var.toList body
  | _ => id

end

end

/-! ## §3 Functions -/

/-- The names that the parameters have in the C text. -/
def checkMainParams : List AstNode → Check → Check
  | [] => id
  | .param name type .. :: params =>
    if isStringType type then fun k => (k.declare name).hideAll (params.flatMap paramName)
    else Check.hideAll (name :: params.flatMap paramName)
  | _ :: params => Check.hideAll (params.flatMap paramName)

def checkFuncBody (printed : AstNode → List Bytes) (cg : EmitContext) : AstNode → Check → Check
  | .block stmts => checkBlockNode printed cg [] (.block stmts)
  | expr => checkText printed cg expr

/-- The parameters and the body are one C block. -/
def checkFunction (printed : AstNode → List Bytes) (classes : List Bytes)
    (labels : AstNode → Nat) (label : Nat) : AstNode → Check
  | .funcDecl name _ params _ _ _ (some body) info =>
    checkFuncBody printed ⟨classes, info.isThrows, labels⟩ body
      (if name = bytes "main" then
        checkMainParams params
          ((Check.declareOwn (bytes "argc") { label := label }).declareOwn (bytes "argv"))
      else Check.declareAll (params.flatMap paramName) { label := label })
  | _ => { label := label }

end Aether.CTranspiler
