/-
Aether.Command.Fmt — `cmd_fmt` of `src/aether.c`.

The command reads a file, tokenizes it and writes the tokens back with its
own blanks. `cmdFmt` is from the text of the file to the text that is
written; `none` is the return with an error, which leaves the file alone.
Files that cannot be opened and failed allocations are left out.
-/
import Aether.Tokenizer

namespace Aether.Command

/-! ## §1 The loop -/

/-- The locals of the loop. The buffer is kept as the text in it. -/
structure FmtState where
  out : Bytes := []
  atLineStart : Bool := true
  prevNewline : Bool := false

/-- `indent`, which nothing in the loop changes. -/
def indent : Nat := 0

def FmtState.push (s : FmtState) (text : Bytes) : FmtState := { s with out := s.out ++ text }

def FmtState.newline (s : FmtState) : FmtState :=
  if s.prevNewline then s
  else { out := s.out ++ [ch '\n'], prevNewline := true, atLineStart := true }

def FmtState.indented (s : FmtState) : FmtState :=
  if s.atLineStart then
    { s with out := s.out ++ List.replicate (4 * indent) (ch ' '), atLineStart := false }
  else s

def spaceBefore (type : TokenType) : Bool :=
  type == .kwIf || type == .kwWhile || type == .kwFor || type == .kwReturn || type == .kwLet ||
  type == .kwFunc

def spaceAfter (type : TokenType) : Bool :=
  type == .comma || type == .semicolon || type == .colon || type == .arrow

/-- `out_pos > 0 && out[out_pos-1] != '\n' && out[out_pos-1] != ' '`. -/
def needsSpace (last : Option UInt8) : Bool :=
  match last with
  | some c => c != ch '\n' && c != ch ' '
  | none => false

/-- The blank that is written before a token, by the last byte before it. -/
def blankBefore (last : Option UInt8) (type : TokenType) : Bytes :=
  if spaceBefore type && needsSpace last then [ch ' '] else []

def blankAfter (type : TokenType) : Bytes := if spaceAfter type then [ch ' '] else []

/-- The loop over the tokens; `rlen` is the length of the source. -/
def fmtLoop (rlen : Nat) (s : FmtState) : List Token → Option Bytes
  | [] => some s.out
  | tok :: toks =>
    if tok.type = .error then none
    else if tok.type = .newline then fmtLoop rlen s.newline toks
    else
      let s := { s with prevNewline := false }.indented
      let s := s.push (blankBefore s.out.getLast? tok.type)
      -- a full buffer ends the loop, and what is in it is written
      if s.out.length + tok.text.length + 1 > rlen * 2 then some s.out
      else fmtLoop rlen ((s.push tok.text).push (blankAfter tok.type)) toks

def cmdFmt (source : Bytes) : Option Bytes := fmtLoop source.length {} (tokensOf source).1

end Aether.Command
