/-
Aether.CTranspiler.Interpolation — the contents of string literals, and
what they mean.

A content is a sequence of items: literal text with its escapes, braces
that have no partner, and expressions between braces. `meaning` is what the
language specification says: escapes are decoded and each expression is
replaced by its value. `Faithful` says that the node built for the literal
has this value, `Clean` is the condition for it on the items.
-/
import Aether.CTranspiler.StringLiteral
import Aether.Parser.Steps

namespace Aether.CTranspiler

open Lib.Procedures

/-! ## §1 Values of expressions -/

mutual

/-- The value of an expression made of concatenations and string literals;
`value` gives what any other expression evaluates to. -/
def evaluate (value : AstNode → Bytes) : AstNode → Option Bytes
  | .binaryOp .concat left right _ =>
    (evaluateOpt value left).bind fun l => (evaluateOpt value right).map (l ++ ·)
  | .literalString text => (cEmitLiteralString text).value
  | node => some (value node)

/-- No expression gives no text. -/
def evaluateOpt (value : AstNode → Bytes) : Option AstNode → Option Bytes
  | none => some []
  | some node => evaluate value node

end

/-! ## §2 Items -/

/-- The escapes of one character that the specification lists. -/
inductive Escape where
  | newline | tab | backslash | quote | openBrace | closeBrace
  deriving DecidableEq, Repr

/-- The character after the backslash. -/
def Escape.letter : Escape → UInt8
  | .newline => ch 'n'
  | .tab => ch 't'
  | .backslash => ch '\\'
  | .quote => ch '"'
  | .openBrace => ch '\x7b'
  | .closeBrace => ch '\x7d'

def Escape.byte : Escape → UInt8
  | .newline => ch '\n'
  | .tab => ch '\t'
  | e => e.letter

/-- A character that stands for itself. -/
def isPlain (c : UInt8) : Bool := !(c == ch '\\' || c == ch '"' || isBrace c)

/-- Every brace of the text has its partner in it, `depth` braces being open
before it. An escaped brace does not count, and the text may not escape the
brace after it. -/
def balanced (depth : Nat) : Bytes → Bool
  | [] => depth = 0
  | c :: cs =>
    match cs with
    | [] => c != ch '\\' && c != ch '\x7b' && depth = (if c = ch '\x7d' then 1 else 0)
    | c' :: cs' =>
      if c = ch '\\' ∧ isBrace c' then balanced depth cs'
      else if c = ch '\x7b' then balanced (depth + 1) (c' :: cs')
      else if c = ch '\x7d' then depth != 0 && balanced (depth - 1) (c' :: cs')
      else balanced depth (c' :: cs')

/-- An item of a literal's content. -/
inductive Item where
  | plain (c : UInt8) (isPlain : isPlain c = true)
  | escape (e : Escape)
  | hex (high low : UInt8) (digits : isHexChar high = true ∧ isHexChar low = true)
  | openBrace
  | closeBrace
  | expr (text : Bytes) (balanced : text ≠ [] ∧ balanced 0 text = true)
  deriving DecidableEq

def Item.bytes : Item → Bytes
  | .plain c _ => [c]
  | .escape e => [ch '\\', e.letter]
  | .hex high low _ => [ch '\\', ch 'x', high, low]
  | .openBrace => [ch '\x7b']
  | .closeBrace => [ch '\x7d']
  | .expr text _ => ch '\x7b' :: text ++ [ch '\x7d']

/-- No brace that has no partner is followed by its partner. -/
def Partnerless : List Item → Prop
  | [] => True
  | item :: items => (item = .openBrace → .closeBrace ∉ items) ∧ Partnerless items

/-- The content of a string literal. -/
structure StringContent where
  items : List Item
  partnerless : Partnerless items

def render (items : List Item) : Bytes := items.flatMap Item.bytes

/-! ## §3 What a content means -/

/-- What an item stands for: a byte, or the text of an expression. -/
inductive Part where
  | byte (b : UInt8)
  | expr (text : Bytes)
  deriving DecidableEq, Repr

def hexByte (high low : UInt8) : UInt8 :=
  UInt8.ofNat (((Lib.CStringLiteral.hexDigit high).getD 0) * 16 +
    (Lib.CStringLiteral.hexDigit low).getD 0)

def Item.part : Item → Part
  | .plain c _ => .byte c
  | .escape e => .byte e.byte
  | .hex high low _ => .byte (hexByte high low)
  | .openBrace => .byte (ch '\x7b')
  | .closeBrace => .byte (ch '\x7d')
  | .expr text _ => .expr text

/-- A part with the values of the expressions put in. -/
def Part.fill (words : Bytes → Bytes) : Part → Bytes
  | .byte b => [b]
  | .expr text => words text

namespace StringContent

variable (s : StringContent)

def bytes : Bytes := render s.items

def meaning (words : Bytes → Bytes) : Bytes := s.items.flatMap fun item => item.part.fill words

/-- Whatever the expressions are parsed to and evaluate to, the node that is
built for the literal evaluates to its meaning. -/
def Faithful : Prop :=
  ∀ (procs : ∀ proc : Proc, ParseM proc.Result) (value : AstNode → Bytes)
    (words : Bytes → Bytes) (token : Token) (p : Parser),
    token.text = quote s.bytes →
    (∀ text, .expr text ∈ s.items.map Item.part →
      ∃ result p', ProcReturns procs (.exprPrec .min) (parserCreate text) result p' ∧
        evaluateOpt value result = some (words text)) →
    ∃ node, Steps procs (parseStringLiteral token) p (some node) p ∧
      evaluate value node = some (s.meaning words)

end StringContent

/-! ## §4 When the meaning is kept -/

/-- Each item, with whether an escaped backslash stands right before it. -/
def marked (afterBackslash : Bool) : List Item → List (Bool × Item)
  | [] => []
  | item :: items => (afterBackslash, item) :: marked (item = .escape .backslash) items

def Item.isHex : Item → Bool
  | .hex _ _ _ => true
  | _ => false

def Item.isExpr : Item → Bool
  | .expr _ _ => true
  | _ => false

/-- A brace without a partner. -/
def Item.isLoneBrace (item : Item) : Bool := item = .openBrace || item = .closeBrace

/-- What lies between two expressions fits in the buffer, and no byte of it
that is written as a `\x` escape is followed by a hexadecimal digit. -/
def fitsBuffer (run : Bytes) : Bool := run.length ≤ processedMax && separated run

/-- Every run of bytes between two expressions fits; `run` is the one that
was begun. -/
def runsFit (run : Bytes) : List Item → Bool
  | [] => fitsBuffer run
  | item :: items =>
    match item.part with
    | .byte b => runsFit (run ++ [b]) items
    | .expr _ => fitsBuffer run && runsFit [] items

/-- The items of a literal that means what it should: no hexadecimal escape,
no expression right after an escaped backslash, and runs that fit. Then
either nothing opens an interpolation, or no lone brace comes right after an
escaped backslash and every opening brace has its partner. -/
structure StringContent.Clean (s : StringContent) : Prop where
  noHex : ∀ item ∈ s.items, item.isHex = false
  noHiddenExpr : ∀ m ∈ marked false s.items, m.1 = true → m.2.isExpr = false
  runs : runsFit [] s.items = true
  braces :
    (∀ m ∈ marked false s.items, m.1 = false → m.2 ≠ .openBrace ∧ m.2.isExpr = false) ∨
      .openBrace ∉ s.items ∧ ∀ m ∈ marked false s.items, m.1 = true → m.2.isLoneBrace = false

end Aether.CTranspiler
