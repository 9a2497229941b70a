/-
Aether.CTranspiler.Overload — operator overloads in `c_expr.c`: the
signature hash of a use, the search for the operator function, and the
dispatch at the start of `c_emit_binary_op` and `c_emit_unary_op`.

The `resolved` pointer of an identifier is the parameter `resolved`, which
gives an identifier's declaration.
-/
import Aether.CTranspiler.Names

namespace Aether.CTranspiler

/-! ## §1 Operators with an overload -/

/-- `binop_to_op_symbol` -/
def binopToOpSymbol : BinOp → Option Bytes
  | .add => some (bytes "+")
  | .sub => some (bytes "-")
  | .mul => some (bytes "*")
  | .div => some (bytes "/")
  | .mod => some (bytes "%")
  | .eq => some (bytes "==")
  | .neq => some (bytes "!=")
  | .lt => some (bytes "<")
  | .gt => some (bytes ">")
  | .le => some (bytes "<=")
  | .ge => some (bytes ">=")
  | .bitAnd => some (bytes "&")
  | .bitOr => some (bytes "|")
  | .bitXor => some (bytes "^")
  | .shl => some (bytes "<<")
  | .shr => some (bytes ">>")
  | _ => none

/-- `unaryop_to_op_symbol` -/
def unaryopToOpSymbol : UnaryOp → Option Bytes
  | .neg => some (bytes "-")
  | .not => some (bytes "!")
  | .bitNot => some (bytes "~")
  | _ => none

/-- `"op_%s"` -/
def opName (symbol : Bytes) : Bytes := bytes "op_" ++ symbol

/-- The name of a custom operator's function: the symbol is copied into 64
bytes and the name printed into 64 bytes. -/
def customOpName (customOp : Bytes) : Bytes := (opName (customOp.take 63)).take 63

/-! ## §2 Signature hash of a use -/

/-- The type of the declaration that an identifier was resolved to. -/
def declaredType : AstNode → Option AstNode
  | .letNode _ type _ _ _ => type
  | .param _ type _ _ _ => type
  | _ => none

def hashType (hash : UInt32) : Option AstNode → UInt32
  | some (.typePrimitive prim) => hashByte hash (UInt8.ofNat prim.ctorIdx)
  | some (.typeNamed name) => name.foldl hashByte hash
  | _ => hashByte hash 0xFF

section Resolved

variable (resolved : Bytes → Option AstNode)

/-- What an operand adds to the hash; `none` is a NULL operand. -/
def hashOperand (hash : UInt32) : Option AstNode → UInt32
  | some (.ident name) =>
    match resolved name with
    | some decl => hashType hash (declaredType decl)
    | none => hashByte hash 0xFF
  | some (.literalInt _ _) => hashByte hash (UInt8.ofNat PrimType.i64.ctorIdx)
  | some (.literalFloat _) => hashByte hash (UInt8.ofNat PrimType.f64.ctorIdx)
  | _ => hashByte hash 0xFF

def computeOpSigHash (opName : Bytes) (left right : Option AstNode) : UInt32 :=
  hashOperand resolved (hashOperand resolved (opName.foldl hashByte 5381) left) right

/-! ## §3 Dispatch -/

/-- An operator function with this name and signature hash. -/
def isOpFunc (opName : Bytes) (sigHash : UInt32) : AstNode → Bool
  | .funcDecl name _ _ _ _ _ _ info =>
    info.isOperator && name == opName && info.sigHash == sigHash
  | _ => false

def findOpFuncBySig (decls : List AstNode) (opName : Bytes) (sigHash : UInt32) : Option AstNode :=
  decls.find? (isOpFunc opName sigHash)

/-- What an operator expression becomes: a call of an overload that was
found, a call under a name that was not looked up, or a C operator. -/
inductive Dispatch where
  | overload (func : AstNode) (name : Bytes)
  | direct (name : Bytes)
  | builtin

/-- The call of the overload with this name and hash, if there is one. -/
def dispatchBySig (decls : List AstNode) (opName : Bytes) (sigHash : UInt32) : Dispatch :=
  match findOpFuncBySig decls opName sigHash with
  | some func => .overload func (mangleOpSig opName sigHash)
  | none => .builtin

/-- The dispatch of `c_emit_binary_op`. -/
def dispatchBinary (decls : List AstNode) (op : BinOp) (left right : Option AstNode)
    (customOp : Bytes) : Dispatch :=
  match binopToOpSymbol op with
  | some symbol =>
    dispatchBySig decls (opName symbol) (computeOpSigHash resolved (opName symbol) left right)
  | none =>
    if op = .custom then
      let name := customOpName customOp
      .direct (mangleOpSig name (computeOpSigHash resolved name left right))
    else .builtin

/-- The dispatch of `c_emit_unary_op`, which hashes a NULL right operand. -/
def dispatchUnary (decls : List AstNode) (op : UnaryOp) (operand : Option AstNode) : Dispatch :=
  match unaryopToOpSymbol op with
  | some symbol =>
    dispatchBySig decls (opName symbol) (computeOpSigHash resolved (opName symbol) operand none)
  | none => .builtin

/-- The dispatch of an operator expression. -/
def dispatch (decls : List AstNode) : AstNode → Dispatch
  | .binaryOp op left right customOp => dispatchBinary resolved decls op left right customOp
  | .unaryOp op operand => dispatchUnary resolved decls op operand
  | _ => .builtin

end Resolved

end Aether.CTranspiler
