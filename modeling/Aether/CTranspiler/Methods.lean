/-
Aether.CTranspiler.Methods — the C symbols of methods: definitions in
structs and classes (`c_emit_func_decl`), in impl blocks
(`NODE_IMPL_BLOCK` in `c_stmt.c`), and method calls (`c_emit_call` in
`c_expr.c`).

A method call does not look the method up: its symbol is made of the name
and of whether there are arguments.
-/
import Aether.CTranspiler.Names

namespace Aether.CTranspiler

/-! ## §1 Definitions -/

/-- A method definition with the type it is for, and whether it stands in an
impl block. -/
structure MethodDef where
  typeName : Bytes
  inImpl : Bool
  name : Bytes
  params : List AstNode
  returnType : Option AstNode
  info : FuncInfo

/-- The function definitions of a list of methods. -/
def methodsOf (typeName : Bytes) (inImpl : Bool) (methods : List AstNode) : List MethodDef :=
  methods.filterMap fun method =>
    match method with
    | .funcDecl name _ params returnType _ _ _ info =>
      some { typeName, inImpl, name, params, returnType, info }
    | _ => none

/-- The method definitions that a declaration is emitted with. -/
def declMethods : AstNode → List MethodDef
  | .structDecl name _ methods _ _ => methodsOf name false methods
  | .classDecl name _ methods _ _ => methodsOf name false methods
  | .implBlock _ typeName methods => methodsOf typeName true methods
  | _ => []

def methodDefs (decls : List AstNode) : List MethodDef := decls.flatMap declMethods

/-- The symbol of a function definition, as in `cFuncDeclName`. -/
def funcSymbol (name : Bytes) (params : List AstNode) (returnType : Option AstNode)
    (info : FuncInfo) : Bytes :=
  if name = bytes "main" then bytes "main"
  else
    (if info.isSys then bytes "__aether_sys_" else []) ++ mangleFuncName name info.sigHash ++
      (if isMethod params then methodSuffix returnType else [])

theorem cFuncDeclName_eq (name : Bytes) (typeParams params : List AstNode)
    (returnType : Option AstNode) (pre post : List AstNode) (body : Option AstNode)
    (info : FuncInfo) :
    cFuncDeclName (.funcDecl name typeParams params returnType pre post body info) =
      some (funcSymbol name params returnType info) := by
  by_cases hmain : name = bytes "main"
  · simp [cFuncDeclName, funcSymbol, hmain]
  · simp [cFuncDeclName, funcSymbol, hmain]

namespace MethodDef

/-- The symbol that the definition is emitted under. -/
def symbol (d : MethodDef) : Bytes :=
  if d.inImpl then d.typeName ++ bytes "_" ++ d.name ++ methodSuffix d.returnType
  else funcSymbol d.name d.params d.returnType d.info

end MethodDef

/-! ## §2 Calls -/

/-- The symbol that `target.method(args)` is emitted with. -/
def methodCallSymbol : AstNode → Option Bytes
  | .call (some (.fieldAccess _ field)) args =>
    some (field ++ if args.length > 0 then bytes "_setter" else bytes "_getter")
  | _ => none

end Aether.CTranspiler
