/-
Aether.Ast — the syntax tree of `include/aether/ast.h`.

One constructor for each `NodeType` that the parser builds, with the fields
it fills (`NODE_IF` has two, one for `if let`). A child that the source allows to be NULL is an `Option`, an `AstNodeList`
(which drops NULL on append) a list. A name child, which is always an
identifier node, is its text. Source locations and the `resolved` pointers
that semantic analysis fills are not part of the tree.
-/
import Aether.Bytes

namespace Aether

/-! ## §1 Operators and primitive types -/

inductive BinOp where
  | add | sub | mul | div | mod
  | eq | neq | lt | gt | le | ge
  | and | or
  | bitAnd | bitOr | bitXor
  | shl | shr
  | assign | addAssign | subAssign | mulAssign | divAssign
  | range | rangeInclusive
  | concat
  | orElse
  | power
  | custom
  | errorContext
  deriving DecidableEq, Repr

inductive UnaryOp where
  | neg | not | bitNot
  | ref | deref | addr
  | owned | mut | heap
  | inc | dec | arrayLen
  deriving DecidableEq, Repr

inductive PrimType where
  | void | bool | byte
  | u8 | u16 | u32 | u64 | u128
  | i8 | i16 | i32 | i64
  | f32 | f64
  | string
  deriving DecidableEq, Repr

inductive AccessLevel where
  | accessPub | accessPrivate | accessInternal
  deriving DecidableEq, Repr

/-! ## §2 Flags of declarations -/

/-- The fields of `FuncDecl` that are not nodes, with the values
`node_func_decl` gives them. -/
structure FuncInfo where
  isSys : Bool := false
  isPub : Bool := false
  access : AccessLevel := .accessPub
  isStatic : Bool := false
  sysIndex : Int := -1
  isThrows : Bool := false
  isOperator : Bool := false
  isExported : Bool := false
  isKernelLayout : Bool := false
  isInline : Bool := false
  isForceInline : Bool := false
  isNoInline : Bool := false
  entryAddr : Int := -1
  hasLayout : Bool := false
  layoutStart : UInt64 := 0
  layoutMax : UInt64 := 0
  layoutBits : Int := 0
  layoutSignature : Int := 0
  layoutFile : Bytes := []
  hasTest : Bool := false
  sigHash : UInt32 := 0
  deriving DecidableEq, Repr

/-- `AttrData`, with the values `parse_attribute` starts from. -/
structure AttrData where
  name : Bytes
  intValue : Int := -1
  hasLayoutStart : Bool := false
  layoutStart : Int := 0
  hasLayoutMax : Bool := false
  layoutMax : Int := 0
  layoutBits : Int := 0
  layoutSignature : Int := 0
  layoutFile : Bytes := []
  hasModuleAbi : Bool := false
  moduleAbiVersion : Int := -1
  deriving DecidableEq, Repr

/-- The three ownership flags of a `TypeNode`. -/
structure RefKind where
  isRef : Bool := false
  isOwned : Bool := false
  isRc : Bool := false
  deriving DecidableEq, Repr

/-! ## §3 Nodes -/

inductive AstNode where
  -- top-level declarations
  | program (decls : List AstNode)
  | funcDecl (name : Bytes) (typeParams params : List AstNode) (returnType : Option AstNode)
      (preConditions postConditions : List AstNode) (body : Option AstNode) (info : FuncInfo)
  | param (name : Bytes) (type : Option AstNode) (isMut isVarargs : Bool)
      (defaultValue : Option AstNode)
  | structDecl (name : Bytes) (fields methods contracts : List AstNode) (isPub : Bool)
  | field (name : Bytes) (type : Option AstNode)
  | enumDecl (name : Bytes) (variants : List AstNode) (isPub : Bool)
  | enumVariant (name : Bytes) (payloadTypes : List AstNode)
  | constDecl (name : Bytes) (value : Option AstNode)
  | importNode (path : Bytes)
  | moduleDecl (name : Bytes) (moduleAbiVersion : Int)
  | typeAlias (name : Bytes) (underlying : Option AstNode)
  | traitDecl (name : Bytes) (methods : List AstNode) (isPub : Bool)
  | implBlock (traitName typeName : Bytes) (methods : List AstNode)
  | classDecl (name : Bytes) (fields methods contracts : List AstNode) (isPub : Bool)
  | poolDecl (name : Bytes) (size count alignment : UInt64)
  | protocolDecl (name : Bytes) (methods : List AstNode)
  -- statements
  | block (stmts : List AstNode)
  | letNode (name : Bytes) (type value : Option AstNode) (isMut isGlobal : Bool)
  | ifNode (condition thenBlock elifChain elseBlock : Option AstNode)
  | ifLet (pattern condition thenBlock : Option AstNode)
  | whileNode (condition body : Option AstNode)
  | forNode (var indexVar : Option Bytes) (iterable body : Option AstNode)
  | returnNode (value : Option AstNode)
  | breakNode (label : Option Bytes)
  | continueNode (label : Option Bytes)
  | deferNode (body : Option AstNode)
  | exprStmt (expr : Option AstNode)
  | matchNode (value : Option AstNode) (arms : List AstNode)
  | matchArm (pattern : Option AstNode) (patterns : List AstNode) (body : Option AstNode)
  | tryNode (body : Option AstNode) (catchArms : List AstNode) (finallyBody : Option AstNode)
  | throwNode (value : Option AstNode)
  | catchArm (type : Option AstNode) (var : Option Bytes) (body : Option AstNode)
      (isCatchAll : Bool)
  -- expressions
  | literalInt (value : UInt64) (isNegative : Bool)
  | literalFloat (text : Bytes)
  | literalString (text : Bytes)
  | literalChar (value : UInt32)
  | literalBool (value : Bool)
  | literalNone
  | ident (name : Bytes)
  | binaryOp (op : BinOp) (left right : Option AstNode) (customOp : Bytes)
  | unaryOp (op : UnaryOp) (operand : Option AstNode)
  | call (callee : Option AstNode) (args : List AstNode)
  | index (target index : Option AstNode)
  | slice (target start stop : Option AstNode)
  | fieldAccess (target : Option AstNode) (field : Bytes)
  | cast (left right : Option AstNode)
  | ternary (items : List AstNode)
  | lambda (params : List AstNode) (body : Option AstNode)
  | arrayLit (elements : List AstNode)
  -- types
  | typePrimitive (prim : PrimType)
  | typeNamed (name : Bytes)
  | typeArray (elemType : Option AstNode) (arraySize : Int)
  | typeSlice (elemType : Option AstNode)
  | typeTuple (tupleTypes : List AstNode)
  | typeOptional (elemType : Option AstNode)
  | typeRef (elemType : Option AstNode) (kind : RefKind)
  | typePtr (elemType : Option AstNode)
  | typeFn (paramTypes : List AstNode) (returnType : Option AstNode)
  | typeInfer
  -- special
  | asmBlock (text : Option Bytes) (outputs : List Bytes)
  | unsafeNode (body : List AstNode)
  | attr (data : AttrData)
  | region (name : Bytes) (body : Option AstNode)
  | runBlock (body : List AstNode)
  | typeParam (name : Bytes) (constraint : Option AstNode)
  | spawn (call : Option AstNode)
  | yieldNode

end Aether
