/-
Aether.Parser.Stmt — `parse_statement` and the block loop of
`src/parser.c`. Each branch of `parse_statement` is a definition of its
own, which starts after the branch's keyword.
-/
import Aether.Parser.Type

namespace Aether

/-! ## §1 Declarations and control flow -/

/-- `= expr`, if it is there. -/
def parseInitializer : ParseM (Option AstNode) := do
  if ← matchTok .eq then parseExpr else return none

def parseLet : ParseM (Option AstNode) := do
  let isMut ← matchTok .kwMut
  if ← check .ident then
    let name ← takeTok
    let type ← parseTypeAnnotation
    let value ← parseInitializer
    return some (.letNode name.text type value isMut false)
  else
    parserError "expected variable name in let"
    return none

def parseIfLet : ParseM (Option AstNode) := do
  let pattern ← parsePattern
  expect .eq
  let value ← parseExpr
  let _ ← matchTok .lbrace
  let body ← parseBlockBraced
  return some (.ifLet pattern value (some body))

/-- A block, if a brace opens it. -/
def parseOptionalBlock : ParseM (Option AstNode) := do
  if ← check .lbrace then
    advance
    let block ← parseBlockBraced
    return some block
  else return none

/-- The chain of elif nodes, each linked to the next. -/
def elifs : ParseM (Option AstNode) := do
  if ← matchTok .kwElif then
    let cond ← parseExpr
    let block ← parseOptionalBlock
    skipAll [.newline]
    let chain ← recur .elifs
    return some (.ifNode cond block chain none)
  else return none

def parseElse : ParseM (Option AstNode) := do
  if ← matchTok .kwElse then
    let _ ← matchTok .lbrace
    let block ← parseBlockBraced
    return some block
  else return none

def parseIf : ParseM (Option AstNode) := do
  if ← matchTok .kwLet then parseIfLet
  else
    let cond ← parseExpr
    modify Parser.ensure
    advance
    let thenBlock ← parseBlockBraced
    skipAll [.newline]
    let elifChain ← recur .elifs
    skipAll [.newline]
    let elseBlock ← parseElse
    return some (.ifNode cond (some thenBlock) elifChain elseBlock)

def parseWhile : ParseM (Option AstNode) := do
  let cond ← parseExpr
  let body ← parseOptionalBlock
  return some (.whileNode cond body)

/-- The variables of a for loop: value variable and index variable. -/
def parseForVars : ParseM (Option Bytes × Option Bytes) := do
  if ← check .ident then
    let v ← takeTok
    if ← matchTok .comma then
      if ← check .ident then
        let v2 ← takeTok
        return (some v2.text, some v.text)
      else return (some v.text, none)
    else return (some v.text, none)
  else return (none, none)

/-- `in expr`, if it is there. -/
def parseIterable : ParseM (Option AstNode) := do
  if ← matchTok .kwIn then parseExpr else return none

def parseFor : ParseM (Option AstNode) := do
  let (var, indexVar) ← parseForVars
  let iterable ← parseIterable
  let body ← parseOptionalBlock
  return some (.forNode var indexVar iterable body)

/-- The value of return and throw: none at the end of the line. -/
def parseValue : ParseM (Option AstNode) := do
  if ← checkAny [.newline, .rbrace, .eof] then return none else parseExpr

def parseReturn : ParseM (Option AstNode) := do
  let value ← parseValue
  return some (.returnNode value)

def parseThrow : ParseM (Option AstNode) := do
  let value ← parseValue
  return some (.throwNode value)

def parseLabel : ParseM (Option Bytes) := do
  if ← check .ident then
    let label ← takeTok
    return some label.text
  else return none

def parseBreak : ParseM (Option AstNode) := do
  let label ← parseLabel
  return some (.breakNode label)

def parseContinue : ParseM (Option AstNode) := do
  let label ← parseLabel
  return some (.continueNode label)

/-- A block, or one statement. -/
def parseBlockOrStatement : ParseM (Option AstNode) := do
  if ← matchTok .lbrace then
    let block ← parseBlockBraced
    return some block
  else parseStatement

def parseDefer : ParseM (Option AstNode) := do
  let body ← parseBlockOrStatement
  return some (.deferNode body)

/-! ## §2 Spawn, region, assembly, unsafe, try -/

def spawnArgs (args : List AstNode) : ParseM (List AstNode) := do
  if ← checkAny [.rparen, .eof] then return args
  else
    skipAll [.newline]
    if ← check .rparen then return args
    else
      let arg ← parseExpr
      if ← matchTok .comma then recur (.spawnArgs (appendNode args arg))
      else return appendNode args arg

def parseSpawn : ParseM (Option AstNode) := do
  if ← checkAny [.ident, .kwSelf] then
    let tok ← takeTok
    let callee := if tok.type = .kwSelf then bytes "self" else tok.text
    if ← matchTok .lparen then
      let args ← recur (.spawnArgs [])
      expect .rparen
      return some (.spawn (some (.call (some (.ident callee)) args)))
    else
      parserError "expected '(' for spawn function call"
      return none
  else
    parserError "expected function name for spawn"
    return none

def parseRegionName : ParseM Bytes := do
  if ← check .stringLiteral then
    let tok ← takeTok
    return tok.text
  else return bytes "anon"

def parseRegion : ParseM (Option AstNode) := do
  expect .lparen
  let name ← parseRegionName
  expect .rparen
  let body ← parseBlockOrStatement
  return some (.region name body)

def asmOutputs (outputs : List Bytes) : ParseM (List Bytes) := do
  if ← checkAny [.rparen, .eof] then return outputs
  else if ← check .ident then
    let var ← takeTok
    let _ ← matchTok .comma
    recur (.asmOutputs (outputs ++ [var.text]))
  else return outputs

/-- The end of the assembly text after the closing brace of `depth` open
ones: `asmEnd` follows the tokenizer. -/
def asmBody (depth : Nat) (asmEnd : Bytes) : ParseM Bytes := do
  if depth = 0 then return asmEnd
  else if ← check .eof then return asmEnd
  else
    advance
    let p ← get
    if p.previous.type = .lbrace then recur (.asmBody (depth + 1) p.current.tokStart)
    else if p.previous.type = .rbrace then
      recur (.asmBody (depth - 1) (if depth = 1 then p.current.tokStart else p.current.tokPos))
    else recur (.asmBody depth p.current.tokPos)

def isSpace (c : UInt8) : Bool := c == ch ' ' || c == ch '\t' || c == ch '\n' || c == ch '\r'

/-- Drop trailing characters. -/
def trimEnd (drop : UInt8 → Bool) (text : Bytes) : Bytes := (text.reverse.dropWhile drop).reverse

/-- Trim the text, its closing brace, and the text before it; `none` when
nothing is left. -/
def asmText (text : Bytes) : Option Bytes :=
  let text := trimEnd isSpace text
  let text := if text.getLast? = some (ch '}') then trimEnd isSpace text.dropLast else text
  if text = [] then none else some text

/-- `: (var1, var2)`, if it is there. -/
def parseAsmOutputs : ParseM (List Bytes) := do
  if ← matchTok .colon then
    expect .lparen
    let outputs ← recur (.asmOutputs [])
    expect .rparen
    return outputs
  else return []

def parseAsm : ParseM (Option AstNode) := do
  let outputs ← parseAsmOutputs
  if ← matchTok .lbrace then
    let asmStart := (← get).previous.tokPos
    let asmEnd ← recur (.asmBody 1 asmStart)
    return some (.asmBlock (asmText (textBetween asmStart asmEnd)) outputs)
  else
    parserError "asm block requires { }"
    return none

def parseUnsafe : ParseM (Option AstNode) := do
  match ← parseBlockOrStatement with
  | some body => return some (.unsafeNode [body])
  | none => return none

/-- The error type of a catch arm, its variable, and whether it is `_`. -/
def parseCatchHead : ParseM (Option AstNode × Option Bytes × Bool) := do
  if ← check .ident then
    let type ← takeTok
    if type.text = bytes "_" then return (none, none, true)
    else if ← matchTok .lparen then
      let var ← parseLabel
      expect .rparen
      return (some (.typeNamed type.text), var, false)
    else return (some (.typeNamed type.text), none, false)
  else return (none, none, false)

def catchArms (arms : List AstNode) : ParseM (List AstNode) := do
  if ← matchTok .kwCatch then
    let (type, var, isCatchAll) ← parseCatchHead
    let _ ← matchTok .lbrace
    let body ← parseBlockBraced
    recur (.catchArms (arms ++ [.catchArm type var (some body) isCatchAll]))
  else return arms

def parseTry : ParseM (Option AstNode) := do
  let _ ← matchTok .lbrace
  let body ← parseBlockBraced
  let arms ← recur (.catchArms [])
  if ← matchTok .kwFinally then
    let _ ← matchTok .lbrace
    let finallyBody ← parseBlockBraced
    return some (.tryNode (some body) arms (some finallyBody))
  else return some (.tryNode (some body) arms none)

/-! ## §3 Statements and blocks -/

def parseExprStmt : ParseM (Option AstNode) := do
  match ← parseExpr with
  | some expr => return some (.exprStmt (some expr))
  | none => return none

/-- The branches of `parse_statement`, after recovery and attributes. -/
def statementBranches : ParseM (Option AstNode) := do
  if ← matchTok .kwLet then parseLet
  else if ← matchTok .kwIf then parseIf
  else if ← matchTok .kwWhile then parseWhile
  else if ← matchTok .kwFor then parseFor
  else if ← matchTok .kwReturn then parseReturn
  else if ← matchTok .kwBreak then parseBreak
  else if ← matchTok .kwContinue then parseContinue
  else if ← matchTok .kwDefer then parseDefer
  else if ← matchTok .kwSpawn then parseSpawn
  else if ← matchTok .kwYield then return some .yieldNode
  else if ← matchTok .kwRegion then parseRegion
  else if ← matchTok .kwMatch then return some (← parseMatch)
  else if ← matchTok .kwAsm then parseAsm
  else if ← matchTok .kwUnsafe then parseUnsafe
  else if ← matchTok .kwTry then parseTry
  else if ← matchTok .kwThrow then parseThrow
  else parseExprStmt

def statement : ParseM (Option AstNode) := do
  if ← syncIfPanicking then return none
  else
    let _ ← recur (.attributes false none)
    statementBranches

def blockLoop (stmts : List AstNode) : ParseM (List AstNode) := do
  if ← checkAny [.rbrace, .eof] then return stmts
  else
    skipAll [.newline, .semicolon]
    if ← check .rbrace then return stmts
    else
      let stmt ← parseStatement
      recur (.blockLoop (appendNode stmts stmt))

end Aether
