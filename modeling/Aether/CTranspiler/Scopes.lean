/-
Aether.CTranspiler.Scopes — which declaration an identifier refers to.

`cScan` reads the C text under C's rules: braces are scopes, the
statements of an `inlined` block are in the scope around it, and a variable
is in scope in its own initialiser. `scan` reads the function under the
language's rules (`SPECIFICATION.md` §5.2, §5.3): every block is a scope, an
initialiser does not see its variable, a declaration hides an earlier one of
the same name, and the names of loops, patterns and `catch` are seen in
their bodies.

Variables of the program are numbered in the order of their declarations.
-/
import Aether.CTranspiler.Stmt

namespace Aether.CTranspiler

open Aether.Semantic (patternNames paramName)

/-! ## §1 Identifiers in the C text -/

/-- A variable of the program, or one of the emitter's own. -/
inductive Target where
  | program (i : Nat)
  | own (i : Nat)
  deriving DecidableEq, Repr

structure CScan where
  /-- the identifiers in scope, the latest first -/
  env : List (Bytes × Target)
  /-- those that the C block declares so far -/
  block : List Bytes
  next : Nat
  nextOwn : Nat
  /-- what the identifiers in expressions refer to, so far -/
  found : List (Option Target)
  /-- what the identifiers in drop calls refer to, so far -/
  drops : List (Option Target)
  /-- a block declares an identifier twice -/
  twice : Bool
  /-- the variables in scope whose drop calls stand before -/
  released : List Target
  /-- a variable is used or released after its drop call, or released in
  another C block than its own -/
  late : Bool

namespace CScan

def start : CScan where
  env := []
  block := []
  next := 0
  nextOwn := 0
  found := []
  drops := []
  twice := false
  released := []
  late := false

def refersToReleased (name : Bytes) (c : CScan) : Bool :=
  match c.env.lookup name with
  | some target => c.released.contains target
  | none => false

def use (name : Bytes) (c : CScan) : CScan :=
  { c with
    found := c.found ++ [c.env.lookup name]
    late := c.late || c.refersToReleased name }

def uses (names : List Bytes) (c : CScan) : CScan := names.foldl (fun c name => c.use name) c

def drop (name : Bytes) (c : CScan) : CScan :=
  { c with
    drops := c.drops ++ [c.env.lookup name]
    late := c.late || c.refersToReleased name || !c.block.contains name
    released := (c.env.lookup name).toList ++ c.released }

def bind (name : Bytes) (target : Target) (c : CScan) : CScan :=
  { c with
    env := (name, target) :: c.env
    block := name :: c.block
    twice := c.twice || c.block.contains name }

def declare (name : Bytes) (c : CScan) : CScan :=
  { c.bind name (.program c.next) with next := c.next + 1 }

def declareOwn (name : Bytes) (c : CScan) : CScan :=
  { c.bind name (.own c.nextOwn) with nextOwn := c.nextOwn + 1 }

def declareVar (v : CVar) (c : CScan) : CScan :=
  if v.own then c.declareOwn v.text else c.declare v.text

/-- A variable of the program that is not declared. -/
def unprinted (c : CScan) : CScan := { c with next := c.next + 1 }

def inBraces (f : CScan → CScan) (c : CScan) : CScan :=
  { f { c with block := [] } with env := c.env, block := c.block, released := c.released }

end CScan

section

-- the identifiers that `c_emit_expr` prints for a node
variable (printed : AstNode → List Bytes)

def namesOpt : Option AstNode → List Bytes
  | none => []
  | some node => printed node

def textNames (text : CText) : List Bytes := text.nodes.flatMap printed

def initNames : Option CText → List Bytes
  | none => []
  | some text => textNames printed text

mutual

def cScan : CStmt → CScan → CScan
  | .comment => id
  | .decl v init _ => fun c => (c.declareVar v).uses (initNames printed init)
  | .unprinted _ => CScan.unprinted
  | .expr text => CScan.uses (textNames printed text)
  | .ret value => CScan.uses (initNames printed value)
  | .brk => id
  | .cont => id
  | .goto _ => id
  | .longjmp => id
  | .braces body => CScan.inBraces (cScanList body)
  | .ite cond thenBody elseBody => fun c =>
    ((c.uses (initNames printed cond)).inBraces (cScanList thenBody)).inBraces (cScanList elseBody)
  | .while cond body => fun c => (c.uses (textNames printed cond)).inBraces (cScanList body)
  | .forCounter counter cond body => CScan.inBraces fun c =>
    ((c.declareOwn counter).uses (textNames printed cond)).inBraces (cScanList body)
  | .tryCatch body handlers => fun c => (c.inBraces (cScanList body)).inBraces (cScanList handlers)
  | .inlined body => fun c =>
    ((body.flatMap managedOf).map fun m => m.printed.var).foldl (fun c name => c.drop name)
      (cScanList body c)
  | .deferred isPrinted body => if isPrinted then cScanList body else id

def cScanList : List CStmt → CScan → CScan
  | [] => id
  | stmt :: stmts => fun c => cScanList stmts (cScan stmt c)

end

/-- The parameters and the body are one C block. -/
def cScanFunction (f : CFunction) : CScan :=
  cScanList printed f.body (f.params.foldl (fun c v => c.declareVar v) CScan.start)

/-! ## §2 Names in the language -/

structure Scan where
  /-- the variables in scope, the latest first -/
  env : List (Bytes × Nat)
  next : Nat
  found : List (Option Nat)
  drops : List (Option Nat)

namespace Scan

def use (name : Bytes) (a : Scan) : Scan := { a with found := a.found ++ [a.env.lookup name] }

def uses (names : List Bytes) (a : Scan) : Scan := names.foldl (fun a name => a.use name) a

def drop (name : Bytes) (a : Scan) : Scan := { a with drops := a.drops ++ [a.env.lookup name] }

def declare (name : Bytes) (a : Scan) : Scan :=
  { a with env := (name, a.next) :: a.env, next := a.next + 1 }

def declareAll (names : List Bytes) (a : Scan) : Scan :=
  names.foldl (fun a name => a.declare name) a

def inScope (f : Scan → Scan) (a : Scan) : Scan := { f a with env := a.env }

/-- A block after the declarations of `vars`; its managed variables are
dropped at its end. -/
def block (vars : List Bytes) (managed : List Managed) (f : Scan → Scan) : Scan → Scan :=
  inScope fun a => managed.foldl (fun a m => a.drop m.var) (f (a.declareAll vars))

end Scan

-- the classes of the program, and whether the function throws
variable (classes : List Bytes) (throws : Bool)

/-- The managed variables that a statement of a block declares. -/
def nodeManaged : AstNode → List Managed
  | .letNode name type _ _ _ => managedBy classes name type
  | _ => []

/-- The bounds of a range are printed one by one. -/
def iterableNames : AstNode → List Bytes
  | .binaryOp .range left right _ => namesOpt printed left ++ namesOpt printed right
  | .binaryOp .rangeInclusive left right _ => namesOpt printed left ++ namesOpt printed right
  | iterable => printed iterable

/-- The expressions in the condition of an arm. -/
def armExprs (pattern : Option AstNode) (patterns : List AstNode) : List AstNode :=
  if isWildcard pattern then [] else patternExprs pattern ++ patterns

mutual

def scan : AstNode → Scan → Scan
  | .letNode name _ value _ _ => fun a => (a.uses (namesOpt printed value)).declare name
  | .constDecl name value => fun a => (a.uses (namesOpt printed value)).declare name
  | .ifNode condition thenBlock elifChain elseBlock => fun a =>
    ((a.uses (namesOpt printed condition)).inScope (scanBlock [] thenBlock)).inScope
      (scanElifs elifChain (scanBlock [] elseBlock))
  | .ifLet pattern condition thenBlock => Scan.inScope fun a =>
    (a.uses (namesOpt printed condition)).inScope fun a =>
      scanBlock [] thenBlock (a.declareAll (patternNames pattern))
  | .whileNode condition body => fun a =>
    (a.uses (namesOpt printed condition)).inScope (scanBlock [] body)
  | .forNode var indexVar none body => scanBlock (var.toList ++ indexVar.toList) body
  | .forNode var indexVar (some iterable) body => Scan.inScope fun a =>
    (a.uses (iterableNames printed iterable)).inScope fun a =>
      scanBlock [] body (a.declareAll (var.toList ++ indexVar.toList))
  | .returnNode value => Scan.uses (namesOpt printed value)
  | .deferNode body => scanBlock [] body
  | .exprStmt expr => Scan.uses (namesOpt printed expr)
  | .block stmts => Scan.block [] (stmts.flatMap (nodeManaged classes)) (scanStmts stmts)
  | .matchNode value arms => Scan.inScope fun a => scanArms arms (a.uses (namesOpt printed value))
  | .tryNode body catchArms finallyBody => Scan.inScope fun a =>
    scanBlock [] finallyBody
      ((a.inScope (scanBlock [] body)).inScope (scanHandlers catchArms))
  -- the value of an error is lost in a function that throws
  | .throwNode value => if throws then id else Scan.uses (namesOpt printed value)
  | .unsafeNode body => scanFirst body
  | .region _ body => scanBlock [] body
  | .spawn call => Scan.uses ((spawnExprs call).flatMap printed)
  | _ => id

def scanBlockNode (vars : List Bytes) : AstNode → Scan → Scan
  | .block stmts => Scan.block vars (stmts.flatMap (nodeManaged classes)) (scanStmts stmts)
  | _ => id

def scanBlock (vars : List Bytes) : Option AstNode → Scan → Scan
  | none => id
  | some node => scanBlockNode vars node

def scanStmts : List AstNode → Scan → Scan
  | [] => id
  | stmt :: stmts => fun a => scanStmts stmts (scan stmt a)

def scanFirst : List AstNode → Scan → Scan
  | [] => id
  | node :: _ => scanBlockNode [] node

/-- The chain of `elif`, and `last` for the `else` after it. -/
def scanElifs : Option AstNode → (Scan → Scan) → Scan → Scan
  | none, last => last
  | some node, last => scanElif node last

def scanElif : AstNode → (Scan → Scan) → Scan → Scan
  | .ifNode condition thenBlock elifChain _, last => fun a =>
    ((a.uses (namesOpt printed condition)).inScope (scanBlock [] thenBlock)).inScope
      (scanElifs elifChain last)
  | _, last => last

def scanArms : List AstNode → Scan → Scan
  | [] => id
  | arm :: arms => scanArm arm (scanArms arms)

def scanArm : AstNode → (Scan → Scan) → Scan → Scan
  | .matchArm pattern patterns body, others => fun a =>
    (a.inScope fun a => scanBlock [] body
      ((a.declareAll (armNames pattern patterns)).uses
        ((armExprs pattern patterns).flatMap printed))).inScope others
  | _, others => others

def scanHandlers : List AstNode → Scan → Scan
  | [] => id
  | arm :: arms => fun a => scanHandlers arms (scanHandler arm a)

def scanHandler : AstNode → Scan → Scan
  | .catchArm _ var body _ => scanBlock var.toList body
  | _ => id

end

-- the equations, before the proofs that share them
section
attribute [local simp] scan
end

end

def Scan.start : Scan := { env := [], next := 0, found := [], drops := [] }

def scanFuncBody (printed : AstNode → List Bytes) (classes : List Bytes) (throws : Bool) :
    AstNode → Scan → Scan
  | .block stmts => scanBlockNode printed classes throws [] (.block stmts)
  | expr => Scan.uses (printed expr)

/-- The parameters are seen in the body. -/
def scanFunction (printed : AstNode → List Bytes) (classes : List Bytes) : AstNode → Scan
  | .funcDecl _ _ params _ _ _ (some body) info =>
    scanFuncBody printed classes info.isThrows body
      (Scan.start.declareAll (params.flatMap paramName))
  | _ => Scan.start

end Aether.CTranspiler
