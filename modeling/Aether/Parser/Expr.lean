/-
Aether.Parser.Expr — expressions of `src/parser.c`: `parse_prefix`,
`parse_infix`, `parse_expr_prec`, match arms and patterns.

A string literal is cut into pieces first (`stringPieces`); the pieces
with an expression are parsed by a parser of their own, whose errors are
dropped with it.
-/
import Aether.Parser.State

namespace Aether

open Lib.Procedures

/-- `node_list_append`: NULL is dropped. -/
def appendNode (list : List AstNode) (node : Option AstNode) : List AstNode := list ++ node.toList

/-! ## §1 String interpolation -/

/-- A piece of a string literal with interpolations. -/
inductive Piece where
  | literal (text : Bytes)
  | expr (text : Bytes)
  deriving DecidableEq, Repr

def isBrace (c : UInt8) : Bool := c == ch '{' || c == ch '}'

/-- The text up to the brace that closes `depth` open ones, and the rest
after it. -/
def matchBrace (depth : Nat) (text : Bytes) : Bytes → Option (Bytes × Bytes)
  | [] => none
  | c :: cs =>
    match cs with
    | [] => if c = ch '}' ∧ depth = 1 then some (text, []) else none
    | c' :: cs' =>
      if c = ch '\\' ∧ isBrace c' then matchBrace depth (text ++ [c, c']) cs'
      else if c = ch '{' then matchBrace (depth + 1) (text ++ [c]) (c' :: cs')
      else if c = ch '}' then
        if depth = 1 then some (text, c' :: cs')
        else matchBrace (depth - 1) (text ++ [c]) (c' :: cs')
      else matchBrace depth (text ++ [c]) (c' :: cs')

/-- A literal piece, unless it is empty. -/
def literalPiece (text : Bytes) : List Piece := if text = [] then [] else [.literal text]

def exprPiece (text : Bytes) : List Piece := if text = [] then [] else [.expr text]

/-- Whether an unescaped brace opens somewhere. -/
def hasInterp (escaped : Bool) : Bytes → Bool
  | [] => false
  | c :: cs => (c = ch '{' && !escaped) || hasInterp (c = ch '\\') cs

/-- The pieces of a literal's content; `literal` is the text since the
last piece. The text between an unmatched brace and the last piece is a
piece, the brace itself is dropped. -/
def piecesLoop : Nat → Bool → Bytes → Bytes → List Piece
  | 0, _, _, _ => []
  | _ + 1, _, literal, [] => literalPiece literal
  | fuel + 1, escaped, literal, c :: cs =>
    if c = ch '{' ∧ escaped = false then
      match matchBrace 1 [] cs with
      | some (expr, rest) =>
        literalPiece literal ++ exprPiece expr ++ piecesLoop fuel false [] rest
      | none => literalPiece literal ++ piecesLoop fuel false [] cs
    else piecesLoop fuel (c = ch '\\') (literal ++ [c]) cs

/-- The content of a string token, without its quotes. -/
def stringContent (raw : Bytes) : Bytes :=
  if raw.length ≥ 2 ∧ raw.head? = some (ch '"') ∧ raw.getLast? = some (ch '"') then
    raw.tail.dropLast
  else raw

/-- The pieces of a string token, `none` when it has no interpolation. -/
def stringPieces (raw : Bytes) : Option (List Piece) :=
  let content := stringContent raw
  if hasInterp false content then some (piecesLoop (content.length + 1) false [] content)
  else none

/-- Unescape `\{` and `\}`. -/
def unescapeBraces : Bytes → Bytes
  | [] => []
  | c :: cs =>
    match cs with
    | [] => [c]
    | c' :: cs' =>
      if c = ch '\\' ∧ isBrace c' then c' :: unescapeBraces cs'
      else c :: unescapeBraces (c' :: cs')

-- the equations, before the proofs that share them
section
attribute [local simp] matchBrace hasInterp unescapeBraces
end

def quote (text : Bytes) : Bytes := ch '"' :: text ++ [ch '"']

/-- Join the next part to the result so far. -/
def concatNode (result : Option AstNode) (node : AstNode) : AstNode :=
  match result with
  | some left => .binaryOp .concat (some left) (some node) []
  | none => node

/-- Join the pieces; each expression gets a parser of its own. -/
def interpolation : List Piece → Option AstNode → ParseM (Option AstNode)
  | [], result => return result
  | .literal text :: rest, result =>
    interpolation rest (some (concatNode result (.literalString (quote (unescapeBraces text)))))
  | .expr text :: rest, result => do
    match ← recurOn (.exprPrec .min) (parserCreate text) with
    | some node => interpolation rest (some (concatNode result node))
    | none => interpolation rest result

def parseStringLiteral (token : Token) : ParseM (Option AstNode) :=
  match stringPieces token.text with
  | none => return some (.literalString token.text)
  | some pieces => do
    let result ← interpolation pieces none
    return some (result.getD (.literalString (quote [])))

/-! ## §2 Patterns and match arms -/

/-- `..=` or `..`; true for the inclusive one. -/
def matchRange : ParseM Bool := do
  if ← matchTok .dotDotEq then return true
  else
    let _ ← matchTok .dotDot
    return false

/-- The int pattern, with a range after it. -/
def parseIntPattern : ParseM (Option AstNode) := do
  let t ← takeTok
  if ← checkAny [.dotDot, .dotDotEq] then
    let inclusive ← matchRange
    if ← check .intLiteral then
      let stop ← takeTok
      return some (.binaryOp (if inclusive then .rangeInclusive else .range)
        (some (.literalInt t.intValue false)) (some (.literalInt stop.intValue false)) [])
    else
      parserError "expected range end value"
      return none
  else return some (.literalInt t.intValue false)

def parsePattern : ParseM (Option AstNode) := do
  if ← matchTok .kwTrue then return some (.literalBool true)
  else if ← matchTok .kwFalse then return some (.literalBool false)
  else if ← matchTok .kwNone then return some .literalNone
  else if ← check .intLiteral then parseIntPattern
  else if ← check .stringLiteral then
    let t ← takeTok
    return some (.literalString t.text)
  else if ← check .ident then
    let t ← takeTok
    return some (.ident t.text)
  else if ← checkAny [.comma, .arrow, .newline, .rbrace] then return none
  else
    parserError "expected pattern"
    return none

def morePatterns (patterns : List AstNode) : ParseM (List AstNode) := do
  if ← matchTok .comma then
    skipAll [.newline]
    let extra ← parsePattern
    recur (.morePatterns (appendNode patterns extra))
  else return patterns

def parseArmBody (pattern : Option AstNode) (patterns : List AstNode) : ParseM AstNode := do
  expect .arrow
  let body ← parseExpr
  return .matchArm pattern patterns body

def matchArm : ParseM AstNode := do
  let _ ← matchTok .kwCase
  skipAll [.newline]
  if ← check .arrow then parseArmBody none []
  else
    let pattern ← parsePattern
    let patterns ← recur (.morePatterns [])
    parseArmBody pattern patterns

def matchArms (arms : List AstNode) : ParseM (List AstNode) := do
  if ← checkAny [.rbrace, .eof] then return arms
  else if ← matchAny [.newline, .semicolon] then recur (.matchArms arms)
  else
    let arm ← parseMatchArm
    recur (.matchArms (arms ++ [arm]))

/-- The match of `parse_statement` and of `parse_prefix`, after the keyword. -/
def parseMatch : ParseM AstNode := do
  let value ← parseExpr
  if ← matchTok .lbrace then
    let arms ← recur (.matchArms [])
    expect .rbrace
    return .matchNode value arms
  else return .matchNode value []

/-! ## §3 Prefix expressions -/

def parseUnary (op : UnaryOp) : ParseM (Option AstNode) := do
  advance
  let operand ← parseExprPrec .unary
  return some (.unaryOp op operand)

/-- Prefix `++` and `--` take a prefix expression as operand. -/
def parseIncDec (op : UnaryOp) : ParseM (Option AstNode) := do
  advance
  let operand ← parsePrefix
  match operand with
  | none => return none
  | some operand => return some (.unaryOp op (some operand))

def parseParenthesized : ParseM (Option AstNode) := do
  advance
  let expr ← parseExpr
  expect .rparen
  return expr

def arrayElements (elements : List AstNode) : ParseM (List AstNode) := do
  if ← checkAny [.rbracket, .eof] then return elements
  else
    let elem ← parseExpr
    if ← matchTok .comma then recur (.arrayElements (appendNode elements elem))
    else return appendNode elements elem

def parseArrayLit : ParseM (Option AstNode) := do
  advance
  let elements ← recur (.arrayElements [])
  expect .rbracket
  return some (.arrayLit elements)

def lambdaParams (params : List AstNode) : ParseM (List AstNode) := do
  if ← checkAny [.pipe, .eof] then return params
  else if ← check .ident then
    let pt ← takeTok
    let type ← parseTypeAnnotation
    let params := params ++ [.param pt.text type false false none]
    if ← matchTok .comma then recur (.lambdaParams params) else return params
  else
    advance
    if ← matchTok .comma then recur (.lambdaParams params) else return params

def parseLambda : ParseM (Option AstNode) := do
  advance
  let params ← recur (.lambdaParams [])
  expect .pipe
  let _ ← matchTok .arrow
  if ← matchTok .lbrace then
    let body ← parseBlockBraced
    return some (.lambda params (some body))
  else
    let body ← parseExpr
    return some (.lambda params body)

/-- Consume the current token and give a leaf. -/
def leaf (node : AstNode) : ParseM (Option AstNode) := do
  advance
  return some node

def prefixExpr : ParseM (Option AstNode) := do
  let token := (← get).current
  match token.type with
  | .intLiteral => leaf (.literalInt token.intValue false)
  | .floatLiteral => leaf (.literalFloat token.floatText)
  | .stringLiteral =>
    advance
    parseStringLiteral token
  | .charLiteral => leaf (.literalChar token.intValue.toUInt32)
  | .kwTrue => leaf (.literalBool true)
  | .kwFalse => leaf (.literalBool false)
  | .kwNone => leaf .literalNone
  | .kwSelf => leaf (.ident (bytes "self"))
  | .kwMatch =>
    advance
    return some (← parseMatch)
  | .ident => leaf (.ident token.text)
  | .lparen => parseParenthesized
  | .plusPlus => parseIncDec .inc
  | .minusMinus => parseIncDec .dec
  | .lbracket => parseArrayLit
  | .minus => parseUnary .neg
  | .bang => parseUnary .not
  | .kwNot => parseUnary .not
  | .tilde => parseUnary .bitNot
  | .ampersand => parseUnary .addr
  | .star => parseUnary .deref
  | .pipe => parseLambda
  | .kwRef => parseUnary .ref
  | .kwOwned => parseUnary .owned
  | .kwHeap => parseUnary .heap
  | .hash => parseUnary .arrayLen
  | _ =>
    parserError "expected expression"
    advance
    return none

/-! ## §4 Infix expressions -/

def callArgs (args : List AstNode) : ParseM (List AstNode) := do
  if ← checkAny [.rparen, .eof] then return args
  else
    skipAll [.newline]
    if ← check .rparen then return args
    else if ← check .comma then
      -- an empty argument
      let args := args ++ [.literalNone]
      if ← matchTok .comma then recur (.callArgs args) else return args
    else
      let arg ← parseExpr
      if ← matchTok .comma then recur (.callArgs (appendNode args arg))
      else return appendNode args arg

def parseCall (left : AstNode) : ParseM (Option AstNode) := do
  advance
  let args ← recur (.callArgs [])
  expect .rparen
  return some (.call (some left) args)

def parseIndex (left : AstNode) : ParseM (Option AstNode) := do
  advance
  let index ← parseExpr
  if ← matchTok .dotDot then
    let stop ← parseExpr
    expect .rbracket
    return some (.slice (some left) index stop)
  else
    expect .rbracket
    return some (.index (some left) index)

/-- `left.field` and `left::variant`. -/
def parseFieldAccess (left : AstNode) (message : String) : ParseM (Option AstNode) := do
  advance
  if ← check .ident then
    let field ← takeTok
    return some (.fieldAccess (some left) field.text)
  else
    parserError message
    return some left

def parseCast (left : AstNode) : ParseM (Option AstNode) := do
  advance
  let type ← parseType
  match type with
  | none =>
    parserError "expected type after 'as'"
    return some left
  | some type => return some (.cast (some left) (some type))

/-- An error context when a string follows, a ternary otherwise. -/
def parseQuestion (left : AstNode) : ParseM (Option AstNode) := do
  if (← get).lexer.peekNext.type = .stringLiteral then
    advance
    let right ← parseExprPrec .ternary
    return some (.binaryOp .errorContext (some left) right [])
  else
    advance
    let middle ← parseExprPrec .ternary
    expect .colon
    -- PREC_TERNARY - 1
    let right ← parseExprPrec .assignment
    return some (.ternary (appendNode (appendNode [left] middle) right))

/-- The binary operator switch of `parse_infix`. -/
def binaryOpOf : TokenType → Option BinOp
  | .plus => some .add
  | .minus => some .sub
  | .star => some .mul
  | .starStar => some .power
  | .slash => some .div
  | .percent => some .mod
  | .eqEq => some .eq
  | .bangEq => some .neq
  | .lt => some .lt
  | .gt => some .gt
  | .ltEq => some .le
  | .gtEq => some .ge
  | .andAnd | .kwAnd => some .and
  | .pipePipe => some .or
  | .kwOr => some .or
  | .ampersand => some .bitAnd
  | .pipe => some .bitOr
  | .caret => some .bitXor
  | .ltLt => some .shl
  | .gtGt => some .shr
  | .dotDot => some .range
  | .dotDotEq => some .rangeInclusive
  | .eq => some .assign
  | .plusEq => some .addAssign
  | .minusEq => some .subAssign
  | .starEq => some .mulAssign
  | .slashEq => some .divAssign
  | .unicodeOp => some .custom
  | _ => none

def parseBinary (left : AstNode) (token : Token) : ParseM (Option AstNode) :=
  match binaryOpOf token.type with
  | none => return some left
  | some op => do
    advance
    let right ← parseExprPrec (tokenPrecedence token.type)
    return some (.binaryOp op (some left) right (if op = .custom then token.text else []))

def infixExpr (left : AstNode) : ParseM (Option AstNode) := do
  let token := (← get).current
  match token.type with
  | .lparen => parseCall left
  | .lbracket => parseIndex left
  | .dot => parseFieldAccess left "expected field name"
  | .colonColon => parseFieldAccess left "expected variant name after ::"
  -- left to the lambda level: the token stays
  | .pipe => return some left
  | .kwAs => parseCast left
  | .question => parseQuestion left
  | _ => parseBinary left token

/-- The tokens that end an expression. -/
def exprEnd : List TokenType :=
  [.eof, .newline, .rparen, .rbracket, .rbrace, .comma, .colon, .semicolon]

def infixLoop (minPrec : Precedence) (left : AstNode) (hadInfix : Bool) :
    ParseM (Option AstNode) := do
  skipNewlinesIf hadInfix
  if ← checkAny exprEnd then return some left
  else
    let prec := tokenPrecedence (← get).current.type
    if prec.level < minPrec.level then return some left
    else if prec = .min then return some left
    else
      match ← parseInfix left with
      | none => return none
      | some left => recur (.infixLoop minPrec left true)

/-- The postfix loop. Its test for `++` decides the operator and is the
only move: a `--` stays the current token. -/
def postfixLoop (left : AstNode) : ParseM AstNode := do
  if ← checkAny [.plusPlus, .minusMinus] then
    let op := if ← matchTok .plusPlus then .inc else .dec
    recur (.postfixLoop (.unaryOp op (some left)))
  else return left

def exprPrec (minPrec : Precedence) : ParseM (Option AstNode) := do
  if ← check .eof then return none
  else
    match ← parsePrefix with
    | none => return none
    | some left =>
      let left ← recur (.postfixLoop left)
      recur (.infixLoop minPrec left false)

end Aether
