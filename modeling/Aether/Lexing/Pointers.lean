/-
Aether.Lexing.Pointers — the positions of the tokenizer.

`start` and `pos` of `src/tokenizer.c` are offsets into the source here, so
that one behind its end can be told from its end. The advance of a scanner
is the number of bytes it moves `pos` on; like the source, it reads only
before the end, but nothing stops a scanner from moving on without a look.
`tokenizerNextAt` is `tokenizer_next` on the offsets, `none` when the fuel
for its calls of itself ran out.
-/
import Aether.Lexing.Walk

namespace Aether.Lexing

open Aether.Lib.Scanner

/-! ## §1 How far a scanner moves -/

/-- The length of the run of accepted characters at the front. -/
def runLength (accept : UInt8 → Bool) (cs : Bytes) : Nat := (cs.takeWhile accept).length

/-- `skip_line`: up to after the newline. -/
def lineLength (cs : Bytes) : Nat :=
  let n := runLength (fun c => c != ch '\n') cs
  if n < cs.length then n + 1 else n

/-- The loop of `scan_block_comment`: the depth it ends on and its advance. -/
def blockLength : Nat → Bytes → Nat × Nat
  | 0, _ => (0, 0)
  | depth + 1, [] => (depth + 1, 0)
  | depth + 1, [_] => (depth + 1, 1)
  | depth + 1, c :: c' :: cs =>
    if c = ch '*' ∧ c' = ch '/' then
      let (left, n) := blockLength depth cs
      (left, n + 2)
    else if c = ch '/' ∧ c' = ch '*' then
      let (left, n) := blockLength (depth + 2) cs
      (left, n + 2)
    else
      let (left, n) := blockLength (depth + 1) (c' :: cs)
      (left, n + 1)

/-- The fraction: a dot is consumed when a digit follows it. -/
def fractionLength : Bytes → Nat
  | c :: d :: cs =>
    if c = ch '.' ∧ isDigit d then 1 + runLength isDigitOrUnderscore (d :: cs) else 0
  | _ => 0

/-- The exponent: its letter, a sign and its digits. -/
def exponentLength : Bytes → Nat
  | c :: cs =>
    if c = ch 'e' ∨ c = ch 'E' then
      match cs with
      | s :: cs' =>
        if s = ch '+' ∨ s = ch '-' then 2 + runLength isDigitOrUnderscore cs'
        else 1 + runLength isDigitOrUnderscore cs
      | [] => 1
    else 0
  | [] => 0

def decimalLength (cs : Bytes) : Nat :=
  let digits := runLength isDigitOrUnderscore cs
  let fraction := fractionLength (cs.drop digits)
  digits + fraction + exponentLength (cs.drop (digits + fraction))

/-- `scan_number` behind the first digit. A prefix sets `pos` to two after
the start, which is one after the letter. -/
def numberLength (c : UInt8) : Bytes → Nat
  | next :: cs =>
    if c = ch '0' ∧ (next = ch 'x' ∨ next = ch 'X') then 1 + runLength isHexOrUnderscore cs
    else if c = ch '0' ∧ (next = ch 'b' ∨ next = ch 'B') then 1 + runLength isBinOrUnderscore cs
    else if c = ch '0' ∧ (next = ch 'o' ∨ next = ch 'O') then 1 + runLength isOctOrUnderscore cs
    else decimalLength (next :: cs)
  | [] => decimalLength []

/-- The loop of `scan_string`. -/
def stringLength : Bytes → Nat
  | [] => 0
  | c :: cs =>
    if c = ch '"' then 1
    else if c = ch '\\' then
      match cs with
      | [] => 1
      | _ :: cs' => stringLength cs' + 2
    else stringLength cs + 1

/-- `scan_char` up to before the closing quote. Behind `\x` the source moves
on by one byte whether or not there is one. -/
def charBodyLength : Bytes → Nat
  | [] => 0
  | c :: cs =>
    if c = ch '\\' then
      match cs with
      | [] => 1
      | e :: es =>
        if e = ch 'x' then
          match es with
          | h :: l :: _ => if isHexChar h ∧ isHexChar l then 4 else 3
          | _ => 3
        else 2
    else 1

def charLength (cs : Bytes) : Nat :=
  let n := charBodyLength cs
  if (cs.drop n).head? = some (ch '\'') then n + 1 else n

/-- `op_` and the symbol, behind the `o`. -/
def operatorNameLength (cs : Bytes) : Nat :=
  2 + runLength (fun c => !isOpDelimiter c) (cs.drop 2)

/-- The last switch. For a byte over 127 the source moves on once more, as if
it had not consumed that byte. -/
def singleLength (c : UInt8) (cs : Bytes) : Nat :=
  match singleCharType c with
  | some _ => 0
  | none => if c > 127 then 1 + runLength isUtf8Continuation (cs.drop 1) else 0

/-- Behind the first character of an operator. -/
def operatorLength (c : UInt8) : Bytes → Nat
  | [] => singleLength c []
  | next :: rest =>
    match twoCharType c next rest with
    | some (n, _) => n
    | none => singleLength c (next :: rest)

/-- The advance of a token behind its first character. -/
def tokenLength (c : UInt8) (cs : Bytes) : Nat :=
  if c = ch '\n' then 0
  else if c = ch '\\' then 0
  else if c = ch '/' then 0
  else if c = ch '#' then 0
  else if c = ch 'o' ∧ cs.take 2 = bytes "p_" then operatorNameLength cs
  else if isIdentStart c then runLength isIdentContinue cs
  else if isDigit c then numberLength c cs
  else if c = ch '"' then stringLength cs
  else if c = ch '\'' then charLength cs
  else operatorLength c cs

/-! ## §2 The next token -/

/-- `t->start` and `t->pos`. -/
structure Pointers where
  start : Nat
  pos : Nat
  deriving DecidableEq, Repr

/-- A token with the pointers `make_token` gives its text by. -/
structure PlacedToken where
  type : TokenType
  start : Nat
  stop : Nat
  deriving DecidableEq, Repr

def Pointers.emit (t : Pointers) (type : TokenType) : PlacedToken × Pointers :=
  (⟨type, t.start, t.pos⟩, t)

/-- `tokenizer_next`. -/
def tokenizerNextAt (source : Bytes) : Nat → Pointers → Option (PlacedToken × Pointers)
  | 0, _ => none
  | fuel + 1, t =>
    if t.pos < source.length then
      let pos := t.pos + runLength isBlank (source.drop t.pos)
      match source.drop pos with
      | [] => some (Pointers.emit ⟨t.pos, pos⟩ .eof)
      | c :: cs =>
        if c = ch '/' ∧ cs.head? = some (ch '/') then
          tokenizerNextAt source fuel ⟨pos, pos + 2 + lineLength cs.tail⟩
        else if c = ch '/' ∧ cs.head? = some (ch '*') then
          let (depth, n) := blockLength 1 cs.tail
          if depth > 0 then some (Pointers.emit ⟨pos, pos + 2 + n⟩ .error)
          else tokenizerNextAt source fuel ⟨pos, pos + 2 + n⟩
        else some (Pointers.emit ⟨pos, pos + 1 + tokenLength c cs⟩ (takes c cs).1)
    else some (t.emit .eof)

/-- A call of `tokenizer_next` that returns. -/
def Call (source : Bytes) (t : Pointers) (tok : PlacedToken) (t' : Pointers) : Prop :=
  ∃ fuel, tokenizerNextAt source fuel t = some (tok, t')

/-- A number of calls one after the other, from `tokenizer_create` on. -/
inductive Calls (source : Bytes) : List PlacedToken → Pointers → Prop
  | create : Calls source [] ⟨0, 0⟩
  | next {toks : List PlacedToken} {t t' : Pointers} {tok : PlacedToken} (h : Calls source toks t)
      (hcall : Call source t tok t') : Calls source (toks ++ [tok]) t'

end Aether.Lexing
