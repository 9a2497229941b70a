/-
Aether.Parser.Decl — declarations of `src/parser.c`: `parse_func_decl`,
`parse_struct_decl`, `parse_enum_decl`, `parse_declaration` and
`parser_parse`. Each branch of `parse_declaration` is a definition of its
own, which starts after the branch's keyword and gives the declarations
with its own appended.
-/
import Aether.Parser.Stmt

namespace Aether

/-! ## §1 Functions -/

def typeParams (params : List AstNode) : ParseM (List AstNode) := do
  if ← checkAny [.gt, .eof] then return params
  else if ← check .ident then
    let tp ← takeTok
    let constraint ← parseTypeAnnotation
    let params := params ++ [.typeParam tp.text constraint]
    if ← matchTok .comma then recur (.typeParams params) else return params
  else
    advance
    if ← matchTok .comma then recur (.typeParams params) else return params

def parseTypeParams : ParseM (List AstNode) := do
  if ← matchTok .lt then
    let params ← recur (.typeParams [])
    expect .gt
    return params
  else return []

/-- `..` and the third dot. -/
def matchEllipsis : ParseM Bool := do
  if ← matchTok .dotDot then
    let _ ← matchTok .dot
    return true
  else return false

/-- `: type` of a parameter, and whether dots make it variadic. -/
def parseParamType : ParseM (Option AstNode × Bool) := do
  if ← matchTok .colon then
    let isVarargs ← matchEllipsis
    let type ← parseType
    return (type, isVarargs)
  else return (none, false)

def params (acc : List AstNode) : ParseM (List AstNode) := do
  if ← checkAny [.rparen, .eof] then return acc
  else
    let isMut ← matchTok .kwMut
    let isVarargs ← matchEllipsis
    if ← checkAny [.ident, .kwSelf] then
      let name ← takeTok
      let (type, typeVarargs) ← parseParamType
      let defaultValue ← parseInitializer
      let acc := acc ++ [.param name.text type isMut (isVarargs || typeVarargs) defaultValue]
      if ← matchTok .comma then recur (.params acc) else return acc
    else
      parserError "expected parameter name"
      return acc

/-- `(params)`, if it is there. -/
def parseParamList : ParseM (List AstNode) := do
  if ← matchTok .lparen then
    let params ← parseParams
    expect .rparen
    return params
  else return []

/-- One step of the djb2 hash. -/
def hashByte (hash : UInt32) (c : UInt8) : UInt32 := (hash <<< 5) + hash + c.toUInt32

/-- What the type of a parameter adds to the signature hash. -/
def hashParam (hash : UInt32) (param : AstNode) : UInt32 :=
  match param with
  | .param _ (some (.typePrimitive prim)) _ _ _ => hashByte hash (UInt8.ofNat prim.ctorIdx)
  | .param _ (some (.typeNamed name)) _ _ _ => name.foldl hashByte hash
  | _ => hashByte hash 0xFF

def sigHash (name : Bytes) (params : List AstNode) : UInt32 :=
  params.foldl hashParam (name.foldl hashByte 5381)

def isOperatorName (name : Bytes) : Bool := name.take 3 == bytes "op_"

/-- `pre(expr)` and `post(expr)`. -/
def parseCondition : ParseM (Option AstNode) := do
  expect .lparen
  let cond ← parseExpr
  expect .rparen
  return cond

def contracts (pre post : List AstNode) : ParseM (List AstNode × List AstNode) := do
  if ← matchTok .kwPre then
    let cond ← parseCondition
    recur (.contracts (appendNode pre cond) post)
  else if ← matchTok .kwPost then
    let cond ← parseCondition
    recur (.contracts pre (appendNode post cond))
  else return (pre, post)

/-- A block, an arrow and the expression to return, or no body. -/
def parseFuncBody : ParseM (Option AstNode) := do
  if ← matchTok .lbrace then
    let block ← parseBlockBraced
    return some block
  else if ← matchTok .arrow then
    match ← parseExpr with
    | some expr => return some (.block [.returnNode (some expr)])
    | none => return none
  else return none

def funcDecl : ParseM (Option AstNode) := do
  if ← check .ident then
    let name ← takeTok
    let typeParams ← parseTypeParams
    let params ← parseParamList
    let returnType ← parseTypeAnnotation
    let isThrows ← matchTok .kwThrows
    let isOperator := isOperatorName name.text
    let (pre, post) ← recur (.contracts [] [])
    let body ← parseFuncBody
    return some (.funcDecl name.text typeParams params returnType pre post body
      { isThrows := isThrows
        isOperator := isOperator
        sigHash := if isOperator then sigHash name.text params else 0 })
  else
    parserError "expected function name"
    return none

/-! ## §2 Structs and enums -/

/-- A method of a struct gets `self: ref Struct` as its first parameter. -/
def addSelf (structName : Bytes) : AstNode → AstNode
  | .funcDecl name typeParams params returnType pre post body info =>
    .funcDecl name typeParams
      (.param (bytes "self") (some (.typeRef (some (.typeNamed structName)) {})) false false none
        :: params)
      returnType pre post body info
  | node => node

def structMembers (structName : Bytes) (fields methods contracts : List AstNode) :
    ParseM (List AstNode × List AstNode × List AstNode) := do
  if ← checkAny [.rbrace, .eof] then return (fields, methods, contracts)
  else if ← matchAny [.newline, .semicolon] then
    recur (.structMembers structName fields methods contracts)
  else
    let _ ← matchTok .kwPub
    if ← matchTok .kwContract then
      let cond ← parseCondition
      recur (.structMembers structName fields methods (appendNode contracts cond))
    else if ← matchTok .kwFunc then
      let method ← parseFuncDecl
      recur (.structMembers structName fields
        (appendNode methods (method.map (addSelf structName))) contracts)
    else if ← check .ident then
      let fname ← takeTok
      let type ← parseTypeAnnotation
      let _ ← matchTok .semicolon
      recur (.structMembers structName (fields ++ [.field fname.text type]) methods contracts)
    else
      parserError "expected field name"
      return (fields, methods, contracts)

def parseStructDecl (isPub : Bool) : ParseM (Option AstNode) := do
  if ← check .ident then
    let name ← takeTok
    if ← matchTok .lbrace then
      let (fields, methods, contracts) ← recur (.structMembers name.text [] [] [])
      expect .rbrace
      return some (.structDecl name.text fields methods contracts isPub)
    else return some (.structDecl name.text [] [] [] isPub)
  else
    parserError "expected struct name"
    return none

/-- `s->type = NODE_CLASS_DECL`. -/
def asClass : AstNode → AstNode
  | .structDecl name fields methods contracts isPub => .classDecl name fields methods contracts isPub
  | node => node

def enumVariants (variants : List AstNode) : ParseM (List AstNode) := do
  if ← checkAny [.rbrace, .eof] then return variants
  else if ← matchAny [.newline, .semicolon] then recur (.enumVariants variants)
  else if ← check .ident then
    let vname ← takeTok
    let payload ← parseTypeList
    recur (.enumVariants (variants ++ [.enumVariant vname.text payload]))
  else
    parserError "expected variant name"
    return variants

def parseEnumDecl (isPub : Bool) : ParseM (Option AstNode) := do
  if ← check .ident then
    let name ← takeTok
    if ← matchTok .lbrace then
      let variants ← recur (.enumVariants [])
      expect .rbrace
      return some (.enumDecl name.text variants isPub)
    else return some (.enumDecl name.text [] isPub)
  else
    parserError "expected enum name"
    return none

/-! ## §3 The branches of a declaration -/

/-- The modifiers before a declaration's keyword. -/
structure Modifiers where
  isPub : Bool
  access : AccessLevel
  isStatic : Bool
  isInline : Bool
  deriving DecidableEq, Repr

def parseModifiers : ParseM Modifiers := do
  let isPub ← matchTok .kwPub
  let isPrivate ← matchTok .kwPrivate
  let isInternal ← matchTok .kwInternal
  let isStatic ← matchTok .kwStatic
  let isInline ← matchTok .kwInline
  return { isPub := isPub
           access := if isPrivate then .accessPrivate
             else if isInternal then .accessInternal
             else .accessPub
           isStatic := isStatic
           isInline := isInline }

def AstNode.mapInfo (f : FuncInfo → FuncInfo) : AstNode → AstNode
  | .funcDecl name typeParams params returnType pre post body info =>
    .funcDecl name typeParams params returnType pre post body (f info)
  | node => node

/-- What the last attribute before a function sets. -/
def applyAttr (attr : AttrData) (info : FuncInfo) : FuncInfo :=
  if attr.name = bytes "export" then { info with isExported := true }
  else if attr.name = bytes "force_inline" then { info with isForceInline := true }
  else if attr.name = bytes "no_inline" then { info with isNoInline := true }
  else if attr.name = bytes "entry" then { info with entryAddr := attr.intValue }
  else if attr.name = bytes "layout" then
    { info with
      hasLayout := true
      layoutStart := UInt64.ofInt attr.layoutStart
      layoutMax := UInt64.ofInt attr.layoutMax
      layoutBits := attr.layoutBits
      layoutSignature := attr.layoutSignature
      layoutFile := attr.layoutFile }
  else if attr.name = bytes "kernel_layout" then { info with isKernelLayout := true }
  else if attr.name = bytes "test" then { info with hasTest := true }
  else info

def applyModifiers (m : Modifiers) (info : FuncInfo) : FuncInfo :=
  { info with access := m.access, isPub := m.isPub, isStatic := m.isStatic, isInline := m.isInline }

def declFunc (decls : List AstNode) (attr : Option AttrData) (m : Modifiers) :
    ParseM (List AstNode) := do
  let func ← parseFuncDecl
  let setInfo := fun info => (attr.elim id applyAttr) (applyModifiers m info)
  return appendNode decls (func.map (AstNode.mapInfo setInfo))

def parseInt : ParseM (Option Int) := do
  if ← check .intLiteral then
    let tok ← takeTok
    return some (castInt tok.intValue)
  else return none

/-- `at(N)` of a syscall. -/
def parseSysIndex : ParseM (Option Int) := do
  if ← matchTok .kwAt then
    expect .lparen
    let index ← parseInt
    expect .rparen
    return index
  else return none

def declSys (decls : List AstNode) (m : Modifiers) : ParseM (List AstNode) := do
  if ← matchTok .kwFunc then
    match ← parseFuncDecl with
    | none => return decls
    | some func =>
      let index ← parseSysIndex
      let setInfo := fun info : FuncInfo =>
        { info with
          isSys := true
          access := m.access
          isPub := m.isPub
          sysIndex := index.getD info.sysIndex }
      return decls ++ [func.mapInfo setInfo]
  else
    parserError "expected 'func' after 'sys'"
    return decls

def declConst (decls : List AstNode) : ParseM (List AstNode) := do
  if ← check .ident then
    let name ← takeTok
    expect .eq
    let init ← parseExpr
    return decls ++ [.constDecl name.text init]
  else return decls

def declLet (decls : List AstNode) : ParseM (List AstNode) := do
  let isMut ← matchTok .kwMut
  if ← check .ident then
    let name ← takeTok
    let type ← parseTypeAnnotation
    let value ← parseInitializer
    return decls ++ [.letNode name.text type value isMut true]
  else
    parserError "expected variable name in let"
    return decls

def declImport (decls : List AstNode) : ParseM (List AstNode) := do
  let path ← takeTok
  return decls ++ [.importNode path.text]

def moduleBody (decls : List AstNode) : ParseM (List AstNode) := do
  if ← checkAny [.rbrace, .eof] then return decls
  else
    skipAll [.newline]
    let decls ← parseDeclaration decls
    skipAll [.newline]
    recur (.moduleBody decls)

/-- The ABI version that `@module_abi` gives a module. -/
def moduleAbi (attr : Option AttrData) (name : Token) : ParseM Int := do
  match attr with
  | none => return -1
  | some attr =>
    if attr.name = bytes "module_abi" then
      if attr.hasModuleAbi then return Int.bmod attr.moduleAbiVersion (2 ^ 32)
      else
        modify fun p => p.error name "@module_abi requires version=N argument"
        return -1
    else return -1

/-- The declarations of a braced body go to the same list. -/
def parseModuleBody (decls : List AstNode) : ParseM (List AstNode) := do
  if ← check .lbrace then
    advance
    let decls ← recur (.moduleBody decls)
    expect .rbrace
    return decls
  else return decls

def declModule (decls : List AstNode) (attr : Option AttrData) : ParseM (List AstNode) := do
  let name ← takeTok
  let decls ← parseModuleBody decls
  let version ← moduleAbi attr name
  return decls ++ [.moduleDecl name.text version]

def topAsm (depth : Nat) : ParseM Unit := do
  if depth = 0 then return
  else if ← check .eof then return
  else
    let type := (← get).current.type
    let depth := if type = .lbrace then depth + 1 else if type = .rbrace then depth - 1 else depth
    if depth = 0 then return
    else
      advance
      recur (.topAsm depth)

def isSpaceOrBrace (c : UInt8) : Bool := isSpace c || c == ch '}'

def declAsm (decls : List AstNode) : ParseM (List AstNode) := do
  if ← matchTok .lbrace then
    let asmStart := (← get).current.tokStart
    recur (.topAsm 1)
    let asmEnd := (← get).current.tokStart
    let text := trimEnd isSpaceOrBrace (textBetween asmStart asmEnd)
    expect .rbrace
    return decls ++ [.asmBlock (if text = [] then none else some text) []]
  else
    parserError "expected '\x7b' after 'asm' at top level"
    return decls

/-- The body loop of traits, protocols and impl blocks. -/
def methods (acc : List AstNode) : ParseM (List AstNode) := do
  if ← checkAny [.rbrace, .eof] then return acc
  else if ← matchAny [.newline, .semicolon] then recur (.methods acc)
  else if ← matchTok .kwFunc then
    let method ← parseFuncDecl
    recur (.methods (appendNode acc method))
  else
    advance
    recur (.methods acc)

def parseMethods : ParseM (List AstNode) := do
  if ← matchTok .lbrace then
    let methods ← recur (.methods [])
    expect .rbrace
    return methods
  else return []

def declTrait (decls : List AstNode) (isPub : Bool) : ParseM (List AstNode) := do
  if ← check .ident then
    let name ← takeTok
    let methods ← parseMethods
    return decls ++ [.traitDecl name.text methods isPub]
  else return decls

/-- An integer after the word `word`, 0 when it is missing. -/
def parseSized (word : String) : ParseM UInt64 := do
  if (← check .ident) && svEqCstr (← get).current.text word then
    advance
    if ← check .intLiteral then
      let tok ← takeTok
      return tok.intValue
    else return 0
  else return 0

/-- A comma and an integer after a word. -/
def parseCommaSized (word : String) : ParseM UInt64 := do
  if ← matchTok .comma then parseSized word else return 0

def declPool (decls : List AstNode) : ParseM (List AstNode) := do
  if ← check .ident then
    let name ← takeTok
    if (← check .ident) && svEqCstr (← get).current.text "of" then
      advance
      let size ← parseSized "size"
      let count ← parseCommaSized "count"
      let alignment ← parseCommaSized "alignment"
      return decls ++ [.poolDecl name.text size count alignment]
    else return decls ++ [.poolDecl name.text 0 0 0]
  else
    parserError "expected pool name"
    return decls

def declProtocol (decls : List AstNode) : ParseM (List AstNode) := do
  if ← check .ident then
    let name ← takeTok
    let methods ← parseMethods
    return decls ++ [.protocolDecl name.text methods]
  else
    parserError "expected protocol name"
    return decls

/-- `= type`, if it is there. -/
def parseUnderlying : ParseM (Option AstNode) := do
  if ← matchTok .eq then parseType else return none

def declTypeAlias (decls : List AstNode) : ParseM (List AstNode) := do
  if ← check .ident then
    let name ← takeTok
    let underlying ← parseUnderlying
    return decls ++ [.typeAlias name.text underlying]
  else
    parserError "expected type alias name"
    return decls

def declImpl (decls : List AstNode) : ParseM (List AstNode) := do
  if ← check .ident then
    let traitName ← takeTok
    if ← matchTok .kwFor then
      if ← check .ident then
        let typeName ← takeTok
        let methods ← parseMethods
        return decls ++ [.implBlock traitName.text typeName.text methods]
      else return decls
    else return decls
  else return decls

def runBody (stmts : List AstNode) : ParseM (List AstNode) := do
  if ← checkAny [.rbrace, .eof] then return stmts
  else if ← matchAny [.newline, .semicolon] then recur (.runBody stmts)
  else
    let stmt ← parseStatement
    recur (.runBody (appendNode stmts stmt))

def declRun (decls : List AstNode) : ParseM (List AstNode) := do
  if ← matchTok .kwRun then
    if ← matchTok .lbrace then
      let stmts ← recur (.runBody [])
      expect .rbrace
      return decls ++ [.runBlock stmts]
    else return decls ++ [.runBlock []]
  else
    parserError "expected 'run' after #"
    return decls

/-! ## §4 Declarations and programs -/

/-- The branches of `parse_declaration`, after attributes and modifiers. -/
def declBranches (decls : List AstNode) (attr : Option AttrData) (m : Modifiers) :
    ParseM (List AstNode) := do
  if ← matchTok .kwFunc then declFunc decls attr m
  else if ← matchTok .kwSys then declSys decls m
  else if ← matchTok .kwStruct then return appendNode decls (← parseStructDecl m.isPub)
  else if ← matchTok .kwClass then
    return appendNode decls ((← parseStructDecl m.isPub).map asClass)
  else if ← matchTok .kwEnum then return appendNode decls (← parseEnumDecl m.isPub)
  else if ← matchTok .kwConst then declConst decls
  else if ← matchTok .kwLet then declLet decls
  else if ← matchTok .kwImport then declImport decls
  else if ← matchTok .kwModule then declModule decls attr
  else if ← matchTok .kwAsm then declAsm decls
  else if ← matchTok .kwTrait then declTrait decls m.isPub
  else if ← matchTok .kwPool then declPool decls
  else if ← matchTok .kwProtocol then declProtocol decls
  else if ← matchTok .kwType then declTypeAlias decls
  else if ← matchTok .kwImpl then declImpl decls
  else if ← matchTok .hash then declRun decls
  else
    parserError "expected declaration"
    advance
    return decls

def declaration (decls : List AstNode) : ParseM (List AstNode) := do
  if ← syncIfPanicking then return decls
  else
    skipAll [.newline]
    let attr ← recur (.attributes true none)
    let m ← parseModifiers
    declBranches decls attr m

def program (decls : List AstNode) : ParseM (List AstNode) := do
  if ← check .eof then return decls
  else
    let decls ← parseDeclaration decls
    skipAll [.newline]
    recur (.program decls)

/-- `parser_parse`. -/
def parserParse : ParseM AstNode := do
  advance
  let decls ← recur (.program [])
  return .program decls

/-! ## §5 The parser -/

/-- The body of each procedure. -/
def procs : ∀ proc : Proc, ParseM proc.Result
  | .exprPrec minPrec => exprPrec minPrec
  | .prefixExpr => prefixExpr
  | .postfixLoop left => postfixLoop left
  | .infixLoop minPrec left hadInfix => infixLoop minPrec left hadInfix
  | .infixExpr left => infixExpr left
  | .callArgs args => callArgs args
  | .arrayElements elements => arrayElements elements
  | .lambdaParams params => lambdaParams params
  | .matchArms arms => matchArms arms
  | .matchArm => matchArm
  | .morePatterns patterns => morePatterns patterns
  | .type => type
  | .typeBase => typeBase
  | .typeList types => typeList types
  | .attributes skipNewlines last => attributes skipNewlines last
  | .attributeArgs attr => attributeArgs attr
  | .statement => statement
  | .blockLoop stmts => blockLoop stmts
  | .elifs => elifs
  | .spawnArgs args => spawnArgs args
  | .asmOutputs outputs => asmOutputs outputs
  | .asmBody depth asmEnd => asmBody depth asmEnd
  | .catchArms arms => catchArms arms
  | .declaration decls => declaration decls
  | .funcDecl => funcDecl
  | .typeParams acc => typeParams acc
  | .params acc => params acc
  | .contracts pre post => contracts pre post
  | .structMembers name fields methods contracts => structMembers name fields methods contracts
  | .enumVariants variants => enumVariants variants
  | .methods acc => methods acc
  | .moduleBody decls => moduleBody decls
  | .topAsm depth => topAsm depth
  | .runBody stmts => runBody stmts
  | .program decls => program decls

end Aether
