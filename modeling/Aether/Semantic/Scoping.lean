/-
Aether.Semantic.Scoping — where the language sees a name.

`occurrences` lists the identifiers in expression position, each with the
names declared in the scopes around it (`SPECIFICATION.md` §5.2, §7.3:
variables are scoped to their block, loop variables to the loop), and says
whether the visitor comes there.
-/
import Aether.Semantic.Analyzer

namespace Aether.Semantic

/-! ## §1 Occurrences -/

/-- An identifier in expression position. -/
structure Occurrence where
  name : Bytes
  inScope : List Bytes
  /-- the visitor looks the name up -/
  visited : Bool

def Occurrence.Declared (o : Occurrence) : Prop := o.name ∈ o.inScope

instance (o : Occurrence) : Decidable o.Declared := inferInstanceAs (Decidable (_ ∈ _))

/-- The visitor that comes to a node, if any. -/
inductive Visitor where
  | node | expr | none
  deriving DecidableEq

/-- The visitor `next` for a child, if the node is visited by `want`. -/
def Visitor.child (v want next : Visitor) : Visitor := if v = want then next else .none

/-- The names that a pattern binds. -/
def patternNames : Option AstNode → List Bytes
  | some (.ident name) => [name]
  | _ => []

def paramName : AstNode → List Bytes
  | .param name .. => [name]
  | _ => []

def typeParamNames (typeParams : List AstNode) : List Bytes := typeParams.filterMap typeParamName

/-- The names that a statement declares for the statements after it. -/
def declares : AstNode → List Bytes
  | .letNode name .. => [name]
  | .constDecl name _ => [name]
  | .funcDecl name .. => [name]
  | .structDecl name .. => [name]
  | .classDecl name .. => [name]
  | .enumDecl name .. => [name]
  | .typeAlias name _ => [name]
  | _ => []

mutual

def occurrences (v : Visitor) (env : List Bytes) : AstNode → List Occurrence
  | .ident name => [⟨name, env, v = .expr⟩]
  | .binaryOp _ left right _ =>
    occurrencesOpt (v.child .expr .expr) env left ++ occurrencesOpt (v.child .expr .expr) env right
  | .unaryOp _ operand => occurrencesOpt (v.child .expr .expr) env operand
  | .call callee args =>
    if isConstructorCall callee args then occurrencesList (v.child .expr .expr) env args
    else if isBuiltinCall callee then occurrencesArgs (v.child .expr .expr) env args
    else occurrencesOpt (v.child .expr .expr) env callee ++
      occurrencesList (v.child .expr .expr) env args
  | .index target index =>
    occurrencesOpt (v.child .expr .expr) env target ++
      occurrencesOpt (v.child .expr .expr) env index
  | .slice target start stop =>
    occurrencesOpt .none env target ++ occurrencesOpt .none env start ++
      occurrencesOpt .none env stop
  | .fieldAccess target _ => occurrencesOpt (v.child .expr .expr) env target
  | .cast left _ => occurrencesOpt .none env left
  | .ternary items => occurrencesList .none env items
  | .lambda params body =>
    occurrencesOpt (v.child .expr .expr) (params.flatMap paramName ++ env) body
  | .arrayLit elements => occurrencesList (v.child .expr .expr) env elements
  | .matchNode value arms =>
    occurrencesOpt (v.child .expr .expr) env value ++ occurrencesList .none env arms
  | .matchArm pattern patterns body =>
    occurrencesOpt .none (patternNames pattern ++ patterns.flatMap (fun p => patternNames (some p)) ++
      env) body
  | .block stmts => occurrencesSeq (v.child .node .node) env stmts
  | .letNode _ _ value _ _ => occurrencesOpt (v.child .node .expr) env value
  | .constDecl _ value => occurrencesOpt .none env value
  | .exprStmt expr => occurrencesOpt (v.child .node .expr) env expr
  | .returnNode value => occurrencesOpt (v.child .node .expr) env value
  | .throwNode value => occurrencesOpt (v.child .node .expr) env value
  | .ifNode condition thenBlock elifChain elseBlock =>
    occurrencesOpt (v.child .node .expr) env condition ++
      occurrencesOpt (v.child .node .node) env thenBlock ++
      occurrencesOpt (v.child .node .node) env elifChain ++
      occurrencesOpt (v.child .node .node) env elseBlock
  | .ifLet pattern condition thenBlock =>
    occurrencesOpt (v.child .node .expr) env condition ++
      occurrencesOpt (v.child .node .node) (patternNames pattern ++ env) thenBlock
  | .whileNode condition body =>
    occurrencesOpt (v.child .node .expr) env condition ++
      occurrencesOpt (v.child .node .node) env body
  | .forNode var indexVar iterable body =>
    occurrencesOpt (v.child .node .expr) env iterable ++
      occurrencesOpt (v.child .node .node) (var.toList ++ indexVar.toList ++ env) body
  | .tryNode body catchArms finallyBody =>
    occurrencesOpt (v.child .node .node) env body ++
      occurrencesArms (v.child .node .node) env catchArms ++
      occurrencesOpt (v.child .node .node) env finallyBody
  | .deferNode body => occurrencesOpt .none env body
  | .unsafeNode body => occurrencesSeq .none env body
  | .region _ body => occurrencesOpt .none env body
  | .spawn call => occurrencesOpt .none env call
  | .runBlock body => occurrencesSeq (v.child .node .node) env body
  | .funcDecl name typeParams params _ pre post body _ =>
    -- generic functions are left out
    if typeParams ≠ [] then []
    else
      occurrencesDefaults (params.flatMap paramName ++ name :: env) params ++
        occurrencesList .none (params.flatMap paramName ++ name :: env) pre ++
        occurrencesList .none (params.flatMap paramName ++ name :: env) post ++
        occurrencesOpt (v.child .node .node) (params.flatMap paramName ++ name :: env) body
  | .structDecl name _ methods _ _ => occurrencesList (v.child .node .node) (name :: env) methods
  | .classDecl name _ methods _ _ => occurrencesList (v.child .node .node) (name :: env) methods
  | .implBlock _ _ methods => occurrencesList .none (bytes "self" :: env) methods
  | .traitDecl _ methods _ => occurrencesList .none (bytes "self" :: env) methods
  | .protocolDecl _ methods => occurrencesList .none (bytes "self" :: env) methods
  | _ => []

def occurrencesOpt (v : Visitor) (env : List Bytes) : Option AstNode → List Occurrence
  | none => []
  | some node => occurrences v env node

/-- Nodes side by side. -/
def occurrencesList (v : Visitor) (env : List Bytes) : List AstNode → List Occurrence
  | [] => []
  | node :: nodes => occurrences v env node ++ occurrencesList v env nodes

/-- Nodes one after the other. -/
def occurrencesSeq (v : Visitor) (env : List Bytes) : List AstNode → List Occurrence
  | [] => []
  | node :: nodes => occurrences v env node ++ occurrencesSeq v (declares node ++ env) nodes

/-- The arguments of a builtin; type names are no identifiers. -/
def occurrencesArgs (v : Visitor) (env : List Bytes) : List AstNode → List Occurrence
  | [] => []
  | node :: nodes =>
    (if isTypeName node then [] else occurrences v env node) ++ occurrencesArgs v env nodes

/-- The arms of a `try`, each with its variable. -/
def occurrencesArms (v : Visitor) (env : List Bytes) : List AstNode → List Occurrence
  | [] => []
  | .catchArm _ var body _ :: arms =>
    occurrencesOpt v (var.toList ++ env) body ++ occurrencesArms v env arms
  | _ :: arms => occurrencesArms v env arms

/-- The default arguments. -/
def occurrencesDefaults (env : List Bytes) : List AstNode → List Occurrence
  | [] => []
  | .param _ _ _ _ defaultValue :: params =>
    occurrencesOpt .none env defaultValue ++ occurrencesDefaults env params
  | _ :: params => occurrencesDefaults env params

end

-- the equations, before the proofs that share them
section
attribute [local simp] occurrences
end

/-! ## §2 Names that outlive their scope -/

mutual

/-- The names that the visitor declares in the scope around theirs: the
variables of `for`, `if let` and `catch`, methods, and the variables of
`#run` blocks. -/
def outlivingNames : AstNode → List Bytes
  | .forNode var indexVar _ body => var.toList ++ indexVar.toList ++ outlivingNamesOpt body
  | .ifLet pattern _ thenBlock => patternNames pattern ++ outlivingNamesOpt thenBlock
  | .tryNode body catchArms finallyBody =>
    outlivingNamesOpt body ++ outlivingNamesArms catchArms ++ outlivingNamesOpt finallyBody
  | .structDecl _ _ methods _ _ => outlivingNamesList methods
  | .classDecl _ _ methods _ _ => outlivingNamesList methods
  | .runBlock body => outlivingNamesList body
  | .funcDecl _ _ _ _ _ _ body _ => outlivingNamesOpt body
  | .block stmts => outlivingNamesSeq stmts
  | .ifNode _ thenBlock elifChain elseBlock =>
    outlivingNamesOpt thenBlock ++ outlivingNamesOpt elifChain ++ outlivingNamesOpt elseBlock
  | .whileNode _ body => outlivingNamesOpt body
  | _ => []

/-- A branch; its own names are seen in it only. -/
def outlivingNamesOpt : Option AstNode → List Bytes
  | none => []
  | some node => declares node ++ outlivingNames node

def outlivingNamesList : List AstNode → List Bytes
  | [] => []
  | node :: nodes => declares node ++ outlivingNames node ++ outlivingNamesList nodes

def outlivingNamesSeq : List AstNode → List Bytes
  | [] => []
  | node :: nodes => outlivingNames node ++ outlivingNamesSeq nodes

def outlivingNamesArms : List AstNode → List Bytes
  | [] => []
  | .catchArm _ var body _ :: arms =>
    var.toList ++ outlivingNamesOpt body ++ outlivingNamesArms arms
  | _ :: arms => outlivingNamesArms arms

end

-- the equations, before the proofs that share them
section
attribute [local simp] outlivingNames
end

/-! ## §3 Programs -/

/-- The names of a declaration at the top of a program. -/
def topLevelNames : AstNode → List Bytes
  | .traitDecl name _ _ => [name]
  | .poolDecl name _ _ _ => [name]
  | .protocolDecl name _ => [name]
  | .moduleDecl name _ => [name]
  | decl => declares decl

def runStmts : AstNode → List AstNode
  | .runBlock stmts => stmts
  | _ => []

/-- The declarations that the `#run` blocks generate. -/
def generatedDecls (parse : Bytes → Option (List AstNode)) (decls : List AstNode) : List AstNode :=
  ((decls.flatMap runStmts).filterMap emitText).flatMap fun code => (parse code).getD []

/-- The names that are declared everywhere. -/
def globalNames (parse : Bytes → Option (List AstNode)) (decls : List AstNode) : List Bytes :=
  builtinNames ++ decls.flatMap topLevelNames ++ (generatedDecls parse decls).flatMap declares

/-- A declaration with function bodies. -/
def hasFunctions : AstNode → Bool
  | .funcDecl .. | .structDecl .. | .classDecl .. | .implBlock .. | .traitDecl ..
  | .protocolDecl .. => true
  | _ => false

/-- The identifiers in the bodies of the functions that are not generic. -/
def bodyOccurrences (parse : Bytes → Option (List AstNode)) (decls : List AstNode) :
    List Occurrence :=
  (decls.filter hasFunctions).flatMap (occurrences .node (globalNames parse decls))

def isGeneric : AstNode → Bool
  | .funcDecl _ (_ :: _) .. => true
  | _ => false

/-- The declarations of a program. The statements of a `#run` block declare
no generic function: `parse_statement` has no case for functions. -/
structure Program where
  decls : List AstNode
  runs : ∀ stmts, .runBlock stmts ∈ decls → ∀ name decl,
    .scopeDeclare name decl ∈ semanticVisitNodes stmts → isGeneric decl = false

end Aether.Semantic
