/-
Aether.Token — token types, the keyword table and tokens of
`include/aether/tokenizer.h`.

A pointer into the source text is the text from there to the end, so the
distance of two pointers is the difference of two lengths. A token keeps
the tokenizer's `start` and `pos` of the moment it was made: the parser
reads them when it captures the raw text of an assembly block. A float
literal keeps the cleaned digits that the source hands to `strtod`.
-/
import Aether.Bytes

namespace Aether

inductive TokenType where
  | eof | error | invalid
  | newline
  | ident | intLiteral | floatLiteral | stringLiteral | charLiteral
  | kwFunc | kwLet | kwMut | kwIf | kwElif | kwElse | kwWhile | kwFor | kwIn | kwReturn
  | kwTrue | kwFalse | kwNone | kwAsm | kwBreak | kwContinue | kwStruct | kwEnum | kwClass
  | kwMatch | kwCase | kwTry | kwThrow | kwCatch | kwAnd | kwOr | kwNot | kwImport | kwConst
  | kwRef | kwOwned | kwRc | kwHeap | kwRegion | kwPrivate | kwPub | kwInternal | kwStatic
  | kwDefer | kwUnsafe | kwModule | kwSys | kwContract | kwIfLet | kwPre | kwPost | kwDrop
  | kwInit | kwSelf | kwType | kwTrait | kwImpl | kwPool | kwProtocol | kwVirtual | kwDyn
  | kwThrows | kwExport | kwEntry | kwLayout | kwRun | kwProp | kwInline | kwAt | kwFinally
  | kwAs | kwSpawn | kwYield
  | plus | minus | star | slash | percent
  | eq | eqEq | bang | bangEq | lt | gt | ltEq | gtEq
  | ampersand | andAnd | pipe | pipePipe | caret | tilde | ltLt | gtGt
  | arrow | dotDot | dotDotEq | colon | comma | dot | at | hash
  | lparen | rparen | lbracket | rbracket | lbrace | rbrace
  | starStar
  | plusEq | plusPlus | minusEq | minusMinus | starEq | slashEq
  | pipeLambda | question | backslash | semicolon | colonColon | unicodeOp
  deriving DecidableEq, Repr

/-- `KEYWORDS`. -/
def keywords : List (Bytes × TokenType) :=
  [(bytes "func", .kwFunc), (bytes "let", .kwLet), (bytes "mut", .kwMut), (bytes "if", .kwIf),
    (bytes "elif", .kwElif), (bytes "else", .kwElse), (bytes "while", .kwWhile),
    (bytes "for", .kwFor), (bytes "in", .kwIn), (bytes "return", .kwReturn),
    (bytes "true", .kwTrue), (bytes "false", .kwFalse), (bytes "none", .kwNone),
    (bytes "asm", .kwAsm), (bytes "break", .kwBreak), (bytes "continue", .kwContinue),
    (bytes "struct", .kwStruct), (bytes "enum", .kwEnum), (bytes "class", .kwClass),
    (bytes "match", .kwMatch), (bytes "case", .kwCase), (bytes "try", .kwTry),
    (bytes "throw", .kwThrow), (bytes "catch", .kwCatch), (bytes "finally", .kwFinally),
    (bytes "and", .kwAnd), (bytes "or", .kwOr), (bytes "not", .kwNot),
    (bytes "import", .kwImport), (bytes "const", .kwConst), (bytes "ref", .kwRef),
    (bytes "owned", .kwOwned), (bytes "rc", .kwRc), (bytes "heap", .kwHeap),
    (bytes "region", .kwRegion), (bytes "private", .kwPrivate), (bytes "public", .kwPub),
    (bytes "internal", .kwInternal), (bytes "static", .kwStatic), (bytes "defer", .kwDefer),
    (bytes "unsafe", .kwUnsafe), (bytes "module", .kwModule), (bytes "sys", .kwSys),
    (bytes "contract", .kwContract), (bytes "pre", .kwPre), (bytes "post", .kwPost),
    (bytes "drop", .kwDrop), (bytes "init", .kwInit), (bytes "self", .kwSelf),
    (bytes "type", .kwType), (bytes "trait", .kwTrait), (bytes "impl", .kwImpl),
    (bytes "pool", .kwPool), (bytes "protocol", .kwProtocol), (bytes "virtual", .kwVirtual),
    (bytes "dyn", .kwDyn), (bytes "throws", .kwThrows), (bytes "export", .kwExport),
    (bytes "entry", .kwEntry), (bytes "layout", .kwLayout), (bytes "run", .kwRun),
    (bytes "prop", .kwProp), (bytes "inline", .kwInline), (bytes "at", .kwAt),
    (bytes "iflet", .kwIfLet), (bytes "as", .kwAs), (bytes "spawn", .kwSpawn),
    (bytes "yield", .kwYield)]

structure Location where
  line : Nat := 0
  col : Nat := 0
  len : Nat := 0
  deriving DecidableEq, Repr

structure Token where
  type : TokenType
  loc : Location := {}
  text : Bytes := []
  intValue : UInt64 := 0
  floatText : Bytes := []
  tokStart : Bytes := []
  tokPos : Bytes := []
  deriving DecidableEq, Repr

/-- The zeroed token of a fresh parser: type 0 is `TOKEN_EOF`. -/
def Token.zero : Token := { type := .eof }

end Aether
