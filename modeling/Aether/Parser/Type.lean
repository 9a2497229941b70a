/-
Aether.Parser.Type — types and attributes of `src/parser.c`: `parse_type`,
`parse_type_base`, `parse_type_postfix`, `parse_attribute`.
-/
import Aether.Parser.Expr

namespace Aether

/-! ## §1 Integer conversions -/

/-- The C conversion of a 64-bit value to `int`. -/
def castInt (v : UInt64) : Int := Int.bmod v.toNat (2 ^ 32)

/-- The C conversion of a 64-bit value to `int64_t`. -/
def castInt64 (v : UInt64) : Int := Int.bmod v.toNat (2 ^ 64)

/-! ## §2 Types -/

/-- The names of the primitive types. -/
def primTypes : List (Bytes × PrimType) :=
  [(bytes "void", .void), (bytes "bool", .bool), (bytes "byte", .byte), (bytes "u8", .u8),
    (bytes "u16", .u16), (bytes "u32", .u32), (bytes "u64", .u64), (bytes "u128", .u128),
    (bytes "i8", .i8), (bytes "i16", .i16), (bytes "i32", .i32), (bytes "i64", .i64),
    (bytes "f32", .f32), (bytes "f64", .f64), (bytes "string", .string), (bytes "int", .i64),
    (bytes "float", .f32), (bytes "double", .f64), (bytes "char", .byte)]

def primTypeOf (name : Bytes) : Option PrimType := primTypes.lookup name

/-- A type named by an identifier. -/
def namedType (name : Bytes) : AstNode :=
  match primTypeOf name with
  | some prim => .typePrimitive prim
  | none => if name = bytes "_" ∨ name = bytes "auto" then .typeInfer else .typeNamed name

/-- The loop of a parenthesised list of types. -/
def typeList (types : List AstNode) : ParseM (List AstNode) := do
  if ← checkAny [.rparen, .eof] then return types
  else
    let type ← parseType
    if ← matchTok .comma then recur (.typeList (appendNode types type))
    else return appendNode types type

/-- A parenthesised list of types, if it is there. -/
def parseTypeList : ParseM (List AstNode) := do
  if ← matchTok .lparen then
    let types ← recur (.typeList [])
    expect .rparen
    return types
  else return []

def parseFnType : ParseM (Option AstNode) := do
  let paramTypes ← parseTypeList
  let returnType ← parseTypeAnnotation
  return some (.typeFn paramTypes returnType)

/-- A type behind a marker that makes it a reference. -/
def parseRefType (kind : RefKind) : ParseM (Option AstNode) := do
  let inner ← parseType
  return some (.typeRef inner kind)

def parsePtrType : ParseM (Option AstNode) := do
  let elem ← parseType
  return some (.typePtr elem)

/-- `[T]` or `[T; N]`. -/
def parseArrayType : ParseM (Option AstNode) := do
  let elem ← parseType
  if ← matchAny [.comma, .semicolon] then
    let size ← takeTok
    expect .rbracket
    return some (.typeArray elem (if size.type = .intLiteral then castInt size.intValue else 0))
  else
    expect .rbracket
    return some (.typeSlice elem)

/-- A tuple, or one type in parentheses. -/
def parseTupleType : ParseM (Option AstNode) := do
  let first ← parseType
  if ← matchTok .comma then
    let types ← recur (.typeList first.toList)
    expect .rparen
    return some (.typeTuple types)
  else
    expect .rparen
    return first

/-- `parse_type_base`, with its tests in the source's order: the one for
`ptr` comes after every identifier was taken as a name, the second one for
`func` after the first. -/
def typeBase : ParseM (Option AstNode) := do
  if ← matchTok .kwFunc then parseFnType
  else if ← check .ident then
    let name ← takeTok
    return some (namedType name.text)
  else if ← matchTok .kwDyn then parseRefType { isRef := true }
  else if (← check .ident) && svEqCstr (← get).current.text "ptr" then
    advance
    parsePtrType
  else if ← matchTok .star then parsePtrType
  else if ← matchTok .lbracket then parseArrayType
  else if ← matchTok .kwRef then parseRefType {}
  else if ← matchTok .kwOwned then parseRefType { isOwned := true }
  else if ← matchTok .kwRc then parseRefType { isRc := true }
  else if ← matchTok .kwFunc then parseFnType
  else if ← matchTok .lparen then parseTupleType
  else
    parserError "expected type"
    advance
    return none

/-- The tokens after which a `?` makes an optional type. -/
def optionalEnd : List TokenType :=
  [.newline, .eq, .rparen, .comma, .semicolon, .rbrace, .eof, .colon, .rbracket]

/-- `parse_type_postfix`. -/
def typePostfix (base : Option AstNode) : ParseM (Option AstNode) := do
  if ← check .question then
    if optionalEnd.contains (← get).lexer.peekNext.type then
      advance
      return some (.typeOptional base)
    else return base
  else return base

def type : ParseM (Option AstNode) := do
  let base ← recur .typeBase
  typePostfix base

/-! ## §3 Attributes -/

/-- Store an integer argument under its key. -/
def AttrData.setInt (attr : AttrData) (key : Bytes) (val : UInt64) : AttrData :=
  if key = bytes "start" then { attr with hasLayoutStart := true, layoutStart := castInt64 val }
  else if key = bytes "max" then { attr with hasLayoutMax := true, layoutMax := castInt64 val }
  else if key = bytes "bits" then { attr with layoutBits := castInt val }
  else if key = bytes "signature" then { attr with layoutSignature := castInt val }
  else if key = bytes "version" then
    { attr with hasModuleAbi := true, moduleAbiVersion := castInt64 val }
  else attr

/-- The value after a key. -/
def attributeValue (attr : AttrData) (key : Bytes) : ParseM AttrData := do
  if ← matchAny [.eq, .colon] then
    if ← check .intLiteral then
      let val ← takeTok
      return attr.setInt key val.intValue
    else if ← check .stringLiteral then
      let val ← takeTok
      return { attr with layoutFile := val.text }
    else
      advance
      return attr
  else return attr

def attributeArgs (attr : AttrData) : ParseM AttrData := do
  if ← checkAny [.rparen, .eof] then return attr
  else
    skipAll [.newline]
    if ← check .rparen then return attr
    else
      let key ← takeTok
      let attr ← attributeValue attr key.text
      skipAll [.comma]
      skipAll [.newline]
      recur (.attributeArgs attr)

def attributePayload (attr : AttrData) : ParseM AttrData := do
  if ← checkAny [.ident, .kwLayout, .kwEntry] then recur (.attributeArgs attr)
  else if ← check .intLiteral then
    let val ← takeTok
    return { attr with intValue := castInt64 val.intValue }
  else
    modify (Parser.skipTo [.rparen])
    return attr

def parseAttribute : ParseM (Option AttrData) := do
  if ← checkAny [.ident, .kwExport, .kwEntry, .kwLayout] then
    let t ← takeTok
    if ← matchTok .lparen then
      let attr ← attributePayload { name := t.text }
      expect .rparen
      return some attr
    else return some { name := t.text }
  else return none

/-- The attribute loop of declarations, which skips newlines after each
attribute, and of statements, which does not. -/
def attributes (skipNewlines : Bool) (last : Option AttrData) : ParseM (Option AttrData) := do
  if ← matchTok .at then
    let attr ← parseAttribute
    skipNewlinesIf skipNewlines
    recur (.attributes skipNewlines attr)
  else return last

end Aether
