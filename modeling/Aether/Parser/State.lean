/-
Aether.Parser.State — the parser state of `include/aether/parser.h`, token
management of `src/parser.c`, and the procedures of the parser.

The lexer is the tokens it has yet to deliver and the end-of-file token it
returns after them. `Proc` has one entry for each recursive function of
`src/parser.c` and one for each of its loops whose body calls such a
function; a loop entry carries the loop's accumulators. Loops that only
move over tokens are plain functions (`Parser.skipAll`, `Parser.sync`).
-/
import Aether.Ast
import Aether.Tokenizer
import Aether.Lib.Procedures

namespace Aether

open Lib.Procedures

/-! ## §1 State -/

/-- The tokens to come. Every call past the last one gives `eof`. -/
structure Lexer where
  pending : List Token
  eof : Token
  eof_type : eof.type = .eof

theorem tokensLoop_eof : ∀ (fuel : Nat) (t : Tokenizer), (tokensLoop fuel t).2.type = .eof
  | 0, _ => rfl
  | fuel + 1, t => by
    rw [tokensLoop]
    by_cases h : (tokenizerNext t).1.type = .eof
    · simp [h]
    · simp [h, tokensLoop_eof fuel]

def lexerCreate (source : Bytes) : Lexer where
  pending := (tokensOf source).1
  eof := (tokensOf source).2
  eof_type := tokensLoop_eof _ _

structure ParseError where
  token : Token
  message : String
  deriving DecidableEq, Repr

/-- `error_count` is the length of `errors`. -/
structure Parser where
  lexer : Lexer
  current : Token
  previous : Token
  hasCurrent : Bool
  errors : List ParseError
  panicMode : Bool

def parserOf (lexer : Lexer) : Parser :=
  { lexer := lexer, current := .zero, previous := .zero, hasCurrent := false, errors := []
    panicMode := false }

def parserCreate (source : Bytes) : Parser := parserOf (lexerCreate source)

/-! ## §2 Token management -/

/-- `lexer_advance`: the token delivered and the tokens after it. -/
def Lexer.advance (l : Lexer) : Token × Lexer :=
  match l.pending with
  | [] => (l.eof, l)
  | tok :: rest => (tok, { l with pending := rest })

/-- `lexer_peek_next`: the token after the current one. -/
def Lexer.peekNext (l : Lexer) : Token := l.pending.headD l.eof

def Parser.advance (p : Parser) : Parser :=
  { p with
    previous := p.current
    current := p.lexer.advance.1
    lexer := p.lexer.advance.2
    hasCurrent := true }

/-- `if (!p->has_current) parser_advance(p);` -/
def Parser.ensure (p : Parser) : Parser := if p.hasCurrent then p else p.advance

def Parser.error (p : Parser) (token : Token) (message : String) : Parser :=
  { p with errors := p.errors ++ [⟨token, message⟩], panicMode := true }

/-- Move over tokens of the given types, `pending` bounding the moves. -/
def Parser.skipLoop (types : List TokenType) : List Token → Parser → Parser
  | [], p => if types.contains p.current.type then p.advance else p
  | _ :: rest, p =>
    if types.contains p.current.type then Parser.skipLoop types rest p.advance else p

/-- `while (parser_match(p, T1) || parser_match(p, T2) ...);` -/
def Parser.skipAll (types : List TokenType) (p : Parser) : Parser :=
  Parser.skipLoop types p.ensure.lexer.pending p.ensure

/-- Move to a token of the given types or to the end. -/
def Parser.skipToLoop (types : List TokenType) : List Token → Parser → Parser
  | [], p => if types.contains p.current.type || p.current.type = .eof then p else p.advance
  | _ :: rest, p =>
    if types.contains p.current.type || p.current.type = .eof then p
    else Parser.skipToLoop types rest p.advance

def Parser.skipTo (types : List TokenType) (p : Parser) : Parser :=
  Parser.skipToLoop types p.ensure.lexer.pending p.ensure

/-- `STMT_START`. -/
def stmtStart : List TokenType :=
  [.kwLet, .kwIf, .kwWhile, .kwFor, .kwReturn, .kwBreak, .kwContinue, .kwDefer, .kwMatch, .kwAsm,
    .kwFunc, .kwStruct, .kwEnum, .kwConst, .kwImport, .kwModule, .kwPub, .kwStatic, .kwUnsafe,
    .kwTry, .kwThrow, .kwType, .kwSpawn, .kwYield, .at, .rbrace]

/-- `parser_sync`. -/
def Parser.sync (p : Parser) : Parser := { p with panicMode := false }.skipTo stmtStart

/-! ## §3 Precedence -/

inductive Precedence where
  | min
  | assignment
  | ternary
  | logicalOr
  | logicalAnd
  | comparison
  | cast
  | bitOr
  | bitXor
  | bitAnd
  | shift
  | range
  | term
  | factor
  | unary
  | call
  | primary
  deriving DecidableEq, Repr

/-- The enumeration value. -/
def Precedence.level : Precedence → Nat
  | .min => 0
  | .assignment => 1
  | .ternary => 2
  | .logicalOr => 3
  | .logicalAnd => 4
  | .comparison => 5
  | .cast => 6
  | .bitOr => 7
  | .bitXor => 8
  | .bitAnd => 9
  | .shift => 10
  | .range => 11
  | .term => 12
  | .factor => 13
  | .unary => 14
  | .call => 15
  | .primary => 16

def tokenPrecedence : TokenType → Precedence
  | .lparen | .lbracket | .dot | .colonColon => .call
  | .eq | .plusEq | .minusEq | .starEq | .slashEq => .assignment
  | .pipePipe | .kwOr => .logicalOr
  | .andAnd | .kwAnd => .logicalAnd
  | .eqEq | .bangEq | .lt | .gt | .ltEq | .gtEq => .comparison
  | .kwAs => .cast
  | .pipe => .bitOr
  | .caret => .bitXor
  | .ampersand => .bitAnd
  | .ltLt | .gtGt => .shift
  | .dotDot | .dotDotEq => .range
  | .plus | .minus => .term
  | .star | .slash | .percent | .starStar => .factor
  | .question => .ternary
  | .unicodeOp => .term
  | _ => .min

/-! ## §4 Procedures -/

inductive Proc where
  -- expressions
  | exprPrec (minPrec : Precedence)
  | prefixExpr
  | postfixLoop (left : AstNode)
  | infixLoop (minPrec : Precedence) (left : AstNode) (hadInfix : Bool)
  | infixExpr (left : AstNode)
  | callArgs (args : List AstNode)
  | arrayElements (elements : List AstNode)
  | lambdaParams (params : List AstNode)
  | matchArms (arms : List AstNode)
  | matchArm
  | morePatterns (patterns : List AstNode)
  -- types and attributes
  | type
  | typeBase
  | typeList (types : List AstNode)
  | attributes (skipNewlines : Bool) (last : Option AttrData)
  | attributeArgs (attr : AttrData)
  -- statements
  | statement
  | blockLoop (stmts : List AstNode)
  | elifs
  | spawnArgs (args : List AstNode)
  | asmOutputs (outputs : List Bytes)
  | asmBody (depth : Nat) (asmEnd : Bytes)
  | catchArms (arms : List AstNode)
  -- declarations
  | declaration (decls : List AstNode)
  | funcDecl
  | typeParams (params : List AstNode)
  | params (params : List AstNode)
  | contracts (pre post : List AstNode)
  | structMembers (structName : Bytes) (fields methods contracts : List AstNode)
  | enumVariants (variants : List AstNode)
  | methods (methods : List AstNode)
  | moduleBody (decls : List AstNode)
  | topAsm (depth : Nat)
  | runBody (stmts : List AstNode)
  | program (decls : List AstNode)

/-- What a procedure returns. -/
abbrev Proc.Result : Proc → Type
  | .exprPrec _ | .prefixExpr | .infixLoop .. | .infixExpr _ => Option AstNode
  | .postfixLoop _ | .matchArm => AstNode
  | .callArgs _ | .arrayElements _ | .lambdaParams _ | .matchArms _ | .morePatterns _ => List AstNode
  | .type | .typeBase => Option AstNode
  | .typeList _ => List AstNode
  | .attributes .. => Option AttrData
  | .attributeArgs _ => AttrData
  | .statement | .elifs => Option AstNode
  | .blockLoop _ | .spawnArgs _ | .catchArms _ => List AstNode
  | .asmOutputs _ => List Bytes
  | .asmBody .. => Bytes
  | .funcDecl => Option AstNode
  | .declaration _ | .typeParams _ | .params _ => List AstNode
  | .contracts .. => List AstNode × List AstNode
  | .structMembers .. => List AstNode × List AstNode × List AstNode
  | .enumVariants _ | .methods _ | .moduleBody _ | .runBody _ | .program _ => List AstNode
  | .topAsm _ => Unit

abbrev ParseM := StateProg Parser Proc Proc.Result

/-- `parser_check`. -/
def check (type : TokenType) : ParseM Bool := do
  modify Parser.ensure
  return (← get).current.type = type

/-- `parser_check_any`. -/
def checkAny (types : List TokenType) : ParseM Bool := do
  modify Parser.ensure
  return types.contains (← get).current.type

def advance : ParseM Unit := modify Parser.advance

/-- `parser_match`. -/
def matchTok (type : TokenType) : ParseM Bool := do
  if ← check type then
    advance
    return true
  else return false

/-- `parser_match(p, T1) || parser_match(p, T2) ...`. -/
def matchAny (types : List TokenType) : ParseM Bool := do
  if ← checkAny types then
    advance
    return true
  else return false

def parserError (message : String) : ParseM Unit := modify fun p => p.error p.current message

/-- `parser_expect`. -/
def expect (type : TokenType) : ParseM Unit := do
  if ← check type then advance
  else parserError "expected token"

def skipAll (types : List TokenType) : ParseM Unit := modify (Parser.skipAll types)

/-- Skip newlines when `b` holds. -/
def skipNewlinesIf (b : Bool) : ParseM Unit :=
  modify fun p => if b then p.skipAll [.newline] else p

/-- The current token, consumed. -/
def takeTok : ParseM Token := do
  let tok := (← get).current
  advance
  return tok

/-- Recover from an error before a statement or declaration; true at the
end of the text. -/
def syncIfPanicking : ParseM Bool := do
  if (← get).panicMode then
    modify Parser.sync
    check .eof
  else return false

/-! ## §5 Calls under the source's names -/

def recur (proc : Proc) : ParseM proc.Result := callProc proc

/-- Call a procedure of a parser of its own and drop that parser. -/
def recurOn (proc : Proc) (sub : Parser) : ParseM proc.Result := do
  let (result, _) ← callOn proc sub
  return result

def parseExprPrec (minPrec : Precedence) : ParseM (Option AstNode) := recur (.exprPrec minPrec)

def parseExpr : ParseM (Option AstNode) := parseExprPrec .min

def parsePrefix : ParseM (Option AstNode) := recur .prefixExpr

def parseInfix (left : AstNode) : ParseM (Option AstNode) := recur (.infixExpr left)

def parseMatchArm : ParseM AstNode := recur .matchArm

def parseType : ParseM (Option AstNode) := recur .type

def parseStatement : ParseM (Option AstNode) := recur .statement

def parseFuncDecl : ParseM (Option AstNode) := recur .funcDecl

def parseDeclaration (decls : List AstNode) : ParseM (List AstNode) := recur (.declaration decls)

def parseParams : ParseM (List AstNode) := recur (.params [])

/-- `parse_type_annotation`: `: type`, if it is there. -/
def parseTypeAnnotation : ParseM (Option AstNode) := do
  if ← matchTok .colon then parseType else return none

/-- `parse_block_braced`. -/
def parseBlockBraced : ParseM AstNode := do
  let stmts ← recur (.blockLoop [])
  expect .rbrace
  return .block stmts

end Aether
