/-
Aether.Tokenizer — `src/tokenizer.c`.

`tokenizerNext` is translated branch by branch. The scanning loops recurse
on the remaining text; the two comment scanners call `tokenizerNext`
again, which therefore runs on fuel (`nextFuel`), one unit for each byte
that is left. `tokensOf` is the token sequence a lexer hands to the
parser: all tokens before the end of the text, and the end-of-file token
that every later call returns.

Every byte of the source is a `UInt8`; `isalpha`, `isdigit` and `isalnum`
are those of the C locale.
-/
import Aether.Token

namespace Aether

/-- The byte of an ASCII character. -/
def ch (c : Char) : UInt8 := UInt8.ofNat c.toNat

/-! ## §1 Character classes -/

def isAlpha (c : UInt8) : Bool :=
  (ch 'a' ≤ c && c ≤ ch 'z') || (ch 'A' ≤ c && c ≤ ch 'Z')

def isDigit (c : UInt8) : Bool := ch '0' ≤ c && c ≤ ch '9'

def isIdentStart (c : UInt8) : Bool := isAlpha c || c == ch '_'

def isIdentContinue (c : UInt8) : Bool := isAlpha c || isDigit c || c == ch '_'

def isHexChar (c : UInt8) : Bool :=
  isDigit c || (ch 'a' ≤ c && c ≤ ch 'f') || (ch 'A' ≤ c && c ≤ ch 'F')

/-! ## §2 Tokenizer state -/

structure Tokenizer where
  start : Bytes
  pos : Bytes
  line : Nat
  col : Nat
  deriving DecidableEq, Repr

def tokenizerCreate (source : Bytes) : Tokenizer :=
  { start := source, pos := source, line := 1, col := 1 }

/-- The text between two pointers. -/
def textBetween (start pos : Bytes) : Bytes := start.take (start.length - pos.length)

def makeToken (t : Tokenizer) (type : TokenType) : Token :=
  { type := type
    loc := { line := t.line, col := t.col, len := t.start.length - t.pos.length }
    text := textBetween t.start t.pos
    tokStart := t.start
    tokPos := t.pos }

def errorToken (t : Tokenizer) (msg : String) : Token :=
  { type := .error
    loc := { line := t.line, col := t.col, len := t.start.length - t.pos.length }
    text := bytes msg
    tokStart := t.start
    tokPos := t.pos }

/-- `t->pos += n; t->col += n`. -/
def Tokenizer.bump (t : Tokenizer) (n : Nat) : Tokenizer :=
  { t with pos := t.pos.drop n, col := t.col + n }

def Tokenizer.emit (t : Tokenizer) (type : TokenType) : Token × Tokenizer := (makeToken t type, t)

/-! ## §3 Blanks and comments -/

/-- Skip spaces and tabs; a tab counts four columns. -/
def skipWhitespaceInline (col : Nat) : Bytes → Nat × Bytes
  | [] => (col, [])
  | c :: cs =>
    if c = ch ' ' then skipWhitespaceInline (col + 1) cs
    else if c = ch '\t' then skipWhitespaceInline (col + 4) cs
    else (col, c :: cs)

/-- Skip to after the next newline; the line and column there. -/
def skipLine (line col : Nat) : Bytes → Nat × Nat × Bytes
  | [] => (line, col, [])
  | c :: cs => if c = ch '\n' then (line + 1, 1, cs) else skipLine line (col + 1) cs

/-- The loop of `scan_block_comment`: nesting depth, line and column. -/
def skipBlockComment : Nat → Nat → Nat → Bytes → Nat × Nat × Nat × Bytes
  | 0, line, col, cs => (0, line, col, cs)
  | depth + 1, line, col, [] => (depth + 1, line, col, [])
  | depth + 1, line, col, [c] =>
    if c = ch '\n' then (depth + 1, line + 1, 1, []) else (depth + 1, line, col + 1, [])
  | depth + 1, line, col, c :: c' :: cs =>
    if c = ch '*' ∧ c' = ch '/' then skipBlockComment depth line (col + 2) cs
    else if c = ch '/' ∧ c' = ch '*' then skipBlockComment (depth + 2) line (col + 2) cs
    else if c = ch '\n' then skipBlockComment (depth + 1) (line + 1) 1 (c' :: cs)
    else skipBlockComment (depth + 1) line (col + 1) (c' :: cs)

/-! ## §4 Words, numbers, strings, characters -/

def keywordType (word : Bytes) : TokenType := (keywords.lookup word).getD .ident

/-- The scan of `scan_ident_or_keyword` does not move the column. -/
def scanIdentOrKeyword (t : Tokenizer) : Token × Tokenizer :=
  let t := { t with pos := t.pos.dropWhile isIdentContinue }
  t.emit (keywordType (textBetween t.start t.pos))

/-- The first thirty characters that are not underscores. -/
def cleanDigits (text : Bytes) : Bytes := (text.filter (· != ch '_')).take 30

/-- The value of a hexadecimal, octal, binary or decimal digit. -/
def digitValue (c : UInt8) : Nat :=
  if isDigit c then (c - ch '0').toNat
  else if ch 'a' ≤ c then (c - ch 'a').toNat + 10
  else (c - ch 'A').toNat + 10

/-- The number that digits denote in a base. -/
def digitsValue (base : Nat) (digits : Bytes) : Nat :=
  digits.foldl (fun n c => base * n + digitValue c) 0

/-- `strtoull` on a text of digits only: it saturates. -/
def strtoull (digits : Bytes) (base : Nat) : UInt64 :=
  UInt64.ofNat (min (digitsValue base digits) (2 ^ 64 - 1))

/-- The accumulating loop of the `0b` and `0o` literals, which wraps. -/
def shiftDigits (shift : UInt64) (digits : Bytes) : UInt64 :=
  digits.foldl
    (fun val c => if c = ch '_' then val else (val <<< shift) ||| (c - ch '0').toUInt64) 0

def isHexOrUnderscore (c : UInt8) : Bool := isHexChar c || c == ch '_'

def isBinOrUnderscore (c : UInt8) : Bool := c == ch '0' || c == ch '1' || c == ch '_'

def isOctOrUnderscore (c : UInt8) : Bool := (ch '0' ≤ c && c ≤ ch '7') || c == ch '_'

def isDigitOrUnderscore (c : UInt8) : Bool := isDigit c || c == ch '_'

/-- A literal with a two-character prefix: its digits run as `accept` says. -/
def scanPrefixed (t : Tokenizer) (accept : UInt8 → Bool) (value : Bytes → UInt64) :
    Token × Tokenizer :=
  let digits := t.start.drop 2
  let t := { t with pos := digits.dropWhile accept }
  ({ makeToken t .intLiteral with intValue := value (digits.takeWhile accept) }, t)

/-- A dot and the digits after it, when a digit follows the dot. -/
def skipFraction : Bytes → Bool × Bytes
  | c :: d :: cs =>
    if c = ch '.' ∧ isDigit d then (true, (d :: cs).dropWhile isDigitOrUnderscore)
    else (false, c :: d :: cs)
  | cs => (false, cs)

/-- An exponent with an optional sign. -/
def skipExponent : Bytes → Bool × Bytes
  | c :: cs =>
    if c = ch 'e' ∨ c = ch 'E' then
      match cs with
      | s :: cs' =>
        if s = ch '+' ∨ s = ch '-' then (true, cs'.dropWhile isDigitOrUnderscore)
        else (true, (s :: cs').dropWhile isDigitOrUnderscore)
      | [] => (true, [])
    else (false, c :: cs)
  | [] => (false, [])

def scanDecimal (t : Tokenizer) : Token × Tokenizer :=
  let (hasFraction, pos) := skipFraction (t.pos.dropWhile isDigitOrUnderscore)
  let (hasExponent, pos) := skipExponent pos
  let t := { t with pos := pos }
  let clean := cleanDigits (textBetween t.start t.pos)
  if hasFraction || hasExponent then
    ({ makeToken t .floatLiteral with floatText := clean }, t)
  else ({ makeToken t .intLiteral with intValue := strtoull clean 10 }, t)

def scanNumber (t : Tokenizer) : Token × Tokenizer :=
  match t.start with
  | c :: next :: _ =>
    if c = ch '0' then
      if next = ch 'x' ∨ next = ch 'X' then
        scanPrefixed t isHexOrUnderscore fun digits => strtoull (cleanDigits digits) 16
      else if next = ch 'b' ∨ next = ch 'B' then
        scanPrefixed t isBinOrUnderscore (shiftDigits 1)
      else if next = ch 'o' ∨ next = ch 'O' then
        scanPrefixed t isOctOrUnderscore (shiftDigits 3)
      else scanDecimal t
    else scanDecimal t
  | _ => scanDecimal t

/-- Move over one character of a string literal. -/
def stringCol (line col : Nat) (c : UInt8) : Nat × Nat :=
  if c = ch '\n' then (line + 1, 1) else (line, col + 1)

/-- The loop of `scan_string`, up to after the closing quote. -/
def scanStringLoop (line col : Nat) : Bytes → Nat × Nat × Bytes
  | [] => (line, col, [])
  | c :: cs =>
    if c = ch '"' then (line, col + 1, cs)
    else if c = ch '\\' then
      match cs with
      | [] => (line, col + 1, [])
      | c' :: cs' =>
        scanStringLoop (stringCol line (col + 1) c').1 (stringCol line (col + 1) c').2 cs'
    else scanStringLoop (stringCol line col c).1 (stringCol line col c).2 cs

def scanString (t : Tokenizer) : Token × Tokenizer :=
  let (line, col, pos) := scanStringLoop t.line t.col t.pos
  let t := { t with pos := pos, line := line, col := col }
  t.emit .stringLiteral

/-- The value of the one-character escapes of a character literal. -/
def escapeValue (c : UInt8) : UInt64 :=
  if c = ch 'n' then 10
  else if c = ch 'r' then 13
  else if c = ch 't' then 9
  else if c = ch '\\' then 92
  else if c = ch '\'' then 39
  else 0

/-- A character literal up to before its closing quote: value and state. -/
def scanCharBody (t : Tokenizer) : UInt64 × Tokenizer :=
  match t.pos with
  | [] => (0, t)
  | c :: cs =>
    if c = ch '\\' then
      match cs with
      | [] => (0, t.bump 1)
      | e :: es =>
        if e = ch 'x' then
          match es with
          | h :: l :: _ =>
            if isHexChar h ∧ isHexChar l then (strtoull [h, l] 16, t.bump 4)
            else (0, t.bump 3)
          | _ => (0, t.bump 3)
        else (escapeValue e, t.bump 2)
    else (c.toUInt64, t.bump 1)

def scanChar (t : Tokenizer) : Token × Tokenizer :=
  let (value, t) := scanCharBody t
  let t := if t.pos.head? = some (ch '\'') then t.bump 1 else t
  ({ makeToken t .charLiteral with intValue := value }, t)

/-- The delimiters that end the symbol of an `op_` name. -/
def isOpDelimiter (c : UInt8) : Bool :=
  c == ch '(' || c == ch ')' || c == ch '{' || c == ch '}' || c == ch '[' || c == ch ']' ||
  c == ch ',' || c == ch ';' || c == ch ':' || c == ch ' ' || c == ch '\t' || c == ch '\n' ||
  c == ch '\r'

/-- `op_` and the symbol after it are one identifier. -/
def scanOperatorName (t : Tokenizer) : Token × Tokenizer :=
  let name := (t.pos.drop 3).takeWhile (fun c => !isOpDelimiter c)
  (t.bump (3 + name.length)).emit .ident

/-! ## §5 Operators -/

/-- The two-character switch, by the first character `c`, the next one and
the text after it: how many more characters the token has, and its type. -/
def twoCharType (c next : UInt8) (rest : Bytes) : Option (Nat × TokenType) :=
  if c = ch '=' then some (if next = ch '=' then (1, .eqEq) else (0, .eq))
  else if c = ch '!' then some (if next = ch '=' then (1, .bangEq) else (0, .bang))
  else if c = ch '<' then
    some (if next = ch '=' then (1, .ltEq) else if next = ch '<' then (1, .ltLt) else (0, .lt))
  else if c = ch '>' then
    some (if next = ch '=' then (1, .gtEq) else if next = ch '>' then (1, .gtGt) else (0, .gt))
  else if c = ch '&' then some (if next = ch '&' then (1, .andAnd) else (0, .ampersand))
  else if c = ch '|' then
    -- the source compares one character with the constant '||', which is 0x7c7c
    some (if next.toNat = 0x7c7c then (1, .pipePipe) else (0, .pipe))
  else if c = ch '-' then
    some (if next = ch '>' then (1, .arrow)
      else if next = ch '=' then (1, .minusEq)
      else if next = ch '-' then (1, .minusMinus)
      else (0, .minus))
  else if c = ch '+' then
    some (if next = ch '=' then (1, .plusEq) else if next = ch '+' then (1, .plusPlus)
      else (0, .plus))
  else if c = ch '*' then
    some (if next = ch '=' then (1, .starEq) else if next = ch '*' then (1, .starStar)
      else (0, .star))
  else if c = ch '.' then
    some (if next = ch '.' then
        if rest.head? = some (ch '=') then (2, .dotDotEq) else (1, .dotDot)
      else (0, .dot))
  else if c = ch ':' then some (if next = ch ':' then (1, .colonColon) else (0, .colon))
  else none

/-- The two-character switch, after the first character `c` was consumed;
`none` when it falls through. -/
def scanTwoChar (t : Tokenizer) (c : UInt8) : Option (Token × Tokenizer) :=
  match t.pos with
  | [] => none
  | next :: rest => (twoCharType c next rest).map fun (n, type) => (t.bump n).emit type

/-- The type of a single-character token. -/
def singleCharType (c : UInt8) : Option TokenType :=
  if c = ch '(' then some .lparen
  else if c = ch ')' then some .rparen
  else if c = ch '[' then some .lbracket
  else if c = ch ']' then some .rbracket
  else if c = ch '{' then some .lbrace
  else if c = ch '}' then some .rbrace
  else if c = ch ',' then some .comma
  else if c = ch ';' then some .semicolon
  else if c = ch '?' then some .question
  else if c = ch '~' then some .tilde
  else if c = ch '^' then some .caret
  else if c = ch '%' then some .percent
  else if c = ch '@' then some .at
  else none

def isUtf8Continuation (c : UInt8) : Bool := c &&& 0xC0 == 0x80

/-- The last switch. A byte over 127 was consumed before, and the branch
consumes one more before it looks for continuation bytes. -/
def scanSingleChar (t : Tokenizer) (c : UInt8) : Token × Tokenizer :=
  match singleCharType c with
  | some type => t.emit type
  | none =>
    if c > 127 then
      let t := t.bump 1
      (t.bump (t.pos.takeWhile isUtf8Continuation).length).emit .unicodeOp
    else (errorToken t "Unexpected character", t)

/-! ## §6 The next token -/

/-- `#` alone and `#run` give the same token; its location is the `#`. -/
def scanHash (t : Tokenizer) : Token × Tokenizer :=
  let t := t.bump 1
  ({ type := .hash, loc := { line := t.line, col := t.col - 1, len := 1 }, text := bytes "#"
     tokStart := t.start, tokPos := t.pos }, t)

/-- Everything but comments, at a character `c` that is not a blank. -/
def scanToken (t : Tokenizer) (c : UInt8) (cs : Bytes) : Token × Tokenizer :=
  if c = ch '\n' then
    let t := { t with pos := cs, line := t.line + 1, col := 1 }
    t.emit .newline
  else if c = ch '\\' then (t.bump 1).emit .backslash
  else if c = ch '/' then
    -- the source tests its own slash for an equals sign here
    if c = ch '=' then (t.bump 1).emit .slashEq else (t.bump 1).emit .slash
  else if c = ch '#' then scanHash t
  else if c = ch 'o' ∧ cs.take 2 = bytes "p_" then scanOperatorName t
  else if isIdentStart c then scanIdentOrKeyword (t.bump 1)
  else if isDigit c then scanNumber (t.bump 1)
  else if c = ch '"' then scanString (t.bump 1)
  else if c = ch '\'' then scanChar (t.bump 1)
  else (scanTwoChar (t.bump 1) c).getD (scanSingleChar (t.bump 1) c)

/-- `tokenizer_next`; out of fuel it reports the end of the text. -/
def nextFuel : Nat → Tokenizer → Token × Tokenizer
  | 0, t => t.emit .eof
  | fuel + 1, t =>
    match t.pos with
    | [] => t.emit .eof
    | _ =>
      let (col, pos) := skipWhitespaceInline t.col t.pos
      match pos with
      | [] => ({ t with start := t.pos, pos := [], col := col } : Tokenizer).emit .eof
      | c :: cs =>
        let t := { t with start := pos, pos := pos, col := col }
        if c = ch '/' ∧ cs.head? = some (ch '/') then
          let (line, col, pos) := skipLine t.line (t.col + 2) (t.pos.drop 2)
          nextFuel fuel { t with pos := pos, line := line, col := col }
        else if c = ch '/' ∧ cs.head? = some (ch '*') then
          let (depth, line, col, pos) := skipBlockComment 1 t.line (t.col + 2) (t.pos.drop 2)
          let t := { t with pos := pos, line := line, col := col }
          if depth > 0 then (errorToken t "Unclosed block comment '/* ... */'", t)
          else nextFuel fuel t
        else scanToken t c cs

def tokenizerNext (t : Tokenizer) : Token × Tokenizer := nextFuel (t.pos.length + 1) t

/-! ## §7 The token sequence of a text -/

/-- The tokens from here to the end, and the end-of-file token. -/
def tokensLoop : Nat → Tokenizer → List Token × Token
  | 0, t => ([], makeToken t .eof)
  | fuel + 1, t =>
    let (tok, t) := tokenizerNext t
    if tok.type = .eof then ([], tok)
    else
      let (tokens, eof) := tokensLoop fuel t
      (tok :: tokens, eof)

def tokensOf (source : Bytes) : List Token × Token :=
  tokensLoop (source.length + 1) (tokenizerCreate source)

end Aether
