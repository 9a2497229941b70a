/-
Aether.Codegen.Output — how the text of the NASM generator is put together.

All text goes through `cg_write`, which drops what does not fit the output
buffer, and most of it through `cg_write_fmt`, which formats into 512 bytes.
The lines of an asm block are first copied into a buffer of 1024 bytes, with
the slots of variables in the place of their names. What the callers ask for
is a list of requests here; nothing in the source reports that a request was
not met in full (`codegenGenerate_complete_iff`).
-/
import Aether.Ast
import Aether.Lib.BoundedWriter
import Aether.Lib.Numerals

namespace Aether.Codegen.Output

open Aether.Lib.BoundedWriter Aether.Lib.Numerals

/-! ## §1 Asm lines -/

def newline : UInt8 := 10

/-- `' '` or `'\t'`. -/
def isBlank (c : UInt8) : Bool := c == 32 || c == 9

/-- The lines of a text; a newline at its end opens no further line. -/
def asmLines (text : Bytes) : List Bytes :=
  if text = [] then []
  else text.takeWhile (· ≠ newline) :: asmLines (text.drop ((text.takeWhile (· ≠ newline)).length + 1))
termination_by text.length
decreasing_by
  rename_i h
  have hpos := List.length_pos_iff.mpr h
  rw [List.length_drop]
  omega

/-- `extern` lines are not emitted where they stand. -/
def isExternLine (line : Bytes) : Bool := (bytes "extern").isPrefixOf (line.dropWhile isBlank)

/-- A comment of the source language. -/
def isCommentLine (line : Bytes) : Bool := (bytes "//").isPrefixOf (line.dropWhile isBlank)

abbrev Slots := List (Bytes × Int)

/-- What `%s` prints of bytes that a NUL follows. -/
def printed (s : Bytes) : Bytes := s.takeWhile (· ≠ 0)

/-- `%+d` -/
def signedDecimal (n : Int) : Bytes :=
  (if n < 0 then bytes "-" else bytes "+") ++ decimal n.natAbs

def slotText (offset : Int) : Bytes := bytes "[rbp" ++ signedDecimal offset ++ bytes "]"

/-- At a bracket: the length of the name behind it and the variable's slot,
if the bracket is closed right behind the name of a variable. -/
def slotReference (slots : Slots) : Bytes → Option (Nat × Int)
  | [] => none
  | c :: rest =>
    let name := rest.takeWhile fun c => !(c == 93 || isBlank c || c == newline)
    if c == 91 && (rest.drop name.length).head? == some 93 && 0 < name.length &&
        name.length < 256 then
      match slots.find? (·.1 == printed name) with
      | some (_, offset) => some (name.length, offset)
      | none => none
    else none

/-- What is copied for a line, piece by piece: bytes of the line and slots. -/
def linePieces (slots : Slots) : Bytes → List Bytes
  | [] => []
  | c :: rest =>
    match slotReference slots (c :: rest) with
    | some (len, offset) => slotText offset :: linePieces slots (rest.drop (len + 1))
    | none => [c] :: linePieces slots rest
termination_by line => line.length
decreasing_by
  · rw [List.length_drop, List.length_cons]
    omega
  · simp

/-- The copying loop: `buf` is what `line_buf` has so far. A slot at the end
may be cut by `snprintf`. -/
def fillLine : List Bytes → Bytes → Bytes
  | [], buf => buf
  | piece :: pieces, buf =>
    if buf.length < 1024 - 8 then fillLine pieces ((buf ++ piece).take 1023) else buf

/-! ## §2 Requests -/

inductive Request where
  /-- `cg_write` -/
  | write (s : Bytes)
  /-- `cg_write_fmt`, with what its format and arguments stand for. -/
  | format (s : Bytes)
  /-- An asm block among the statements of a function. -/
  | asmBlock (text : Bytes) (slots : Slots)
  /-- An asm block at the top level. -/
  | topLevelAsm (text : Bytes)

/-- What `cg_write` is called with, and what it stands for. -/
structure Piece where
  passed : Bytes
  asked : Bytes

def cgWrite (s : Bytes) : Piece := ⟨s, s⟩

/-- The first 511 bytes are passed on. -/
def cgWriteFmt (s asked : Bytes) : Piece := ⟨s.take 511, asked⟩

/-- The line of an asm block in full. -/
def fullLine (slots : Slots) (line : Bytes) : Bytes := (linePieces slots line).flatten

def asmLinePiece (slots : Slots) (line : Bytes) : List Piece :=
  if line = [] then [cgWrite [newline]]
  else if isExternLine line || isCommentLine line then []
  else [cgWriteFmt (printed (fillLine (linePieces slots line) []) ++ [newline])
    (fullLine slots line ++ [newline])]

def topLevelLinePiece (line : Bytes) : List Piece :=
  if line = [] then [cgWrite [newline]]
  else if isCommentLine line then []
  else [cgWriteFmt (printed line ++ [newline]) (line ++ [newline])]

def Request.pieces : Request → List Piece
  | .write s => [cgWrite s]
  | .format s => [cgWriteFmt s s]
  | .asmBlock text slots =>
    if text = [] then []
    else [cgWrite (bytes "; begin asm block\n")] ++ (asmLines text).flatMap (asmLinePiece slots) ++
      [cgWrite (bytes "; end asm block\n")]
  | .topLevelAsm text =>
    if text = [] then []
    else [cgWrite (bytes "; top-level asm block\n")] ++ (asmLines text).flatMap topLevelLinePiece ++
      [cgWrite (bytes "; end top-level asm block\n\n")]

def externLines (text : Bytes) : List Bytes := (asmLines text).filter isExternLine

mutual

/-- `collect_externs_from_block`: the lines that it writes at the top. -/
def collectExternsFromBlock : AstNode → List Bytes
  | .asmBlock (some text) _ => externLines text
  | .block stmts => collectExternsFromBlocks stmts
  | _ => []

def collectExternsFromBlocks : List AstNode → List Bytes
  | [] => []
  | stmt :: stmts => collectExternsFromBlock stmt ++ collectExternsFromBlocks stmts

end

def externPiece (line : Bytes) : Piece := cgWriteFmt (printed line ++ [newline]) (line ++ [newline])

/-- The requests of `codegen_generate`: those ahead of the extern lines, the
extern lines of the function bodies, and the rest. -/
structure Generation where
  head : List Request
  bodies : List AstNode
  rest : List Request

def Generation.externs (g : Generation) : List Bytes := collectExternsFromBlocks g.bodies

def Generation.pieces (g : Generation) : List Piece :=
  g.head.flatMap Request.pieces ++ g.externs.map externPiece ++ g.rest.flatMap Request.pieces

/-- `INITIAL_CAP`; the capacity never changes. -/
def initialCap : Nat := 262144

/-- The text that `codegen_generate` returns. -/
def codegenGenerate (g : Generation) : Bytes :=
  writeAll initialCap [] (g.pieces.map Piece.passed)

/-- The text that was asked for. -/
def Generation.asked (g : Generation) : Bytes := (g.pieces.map Piece.asked).flatten

end Aether.Codegen.Output
