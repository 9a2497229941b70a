/-
Aether.Asm.X86Backend — the text of `asm_backend_x86_64.c`.

The backend prints the representation as NASM text again. `str_fmt` formats
into 256 bytes, which no piece fills.
-/
import Aether.Asm.Ir
import Aether.Lib.TextLines
import Aether.Tokenizer

namespace Aether.Asm.X86Backend

open Aether.Lib.Numerals Aether.Lib.TextLines

def emitReg (reg : AsmRegister) : Bytes := bytes ((asmRegName reg .x86_64).getD "??")

def emitSize : AsmSizeSpec → Bytes
  | .byte => bytes "byte "
  | .word => bytes "word "
  | .dword => bytes "dword "
  | .qword => bytes "qword "
  | .oword => bytes "oword "
  | .tword => bytes "tword "
  | .none => []

/-- `%+ld`. -/
def plusDecimal (i : Int) : Bytes := if i < 0 then intDecimal i else ch '+' :: intDecimal i

def hexDigitLower (n : Nat) : UInt8 := if n < 10 then digit n else ch 'a' + UInt8.ofNat (n - 10)

/-- `%lx`. -/
def hexLower (n : Nat) : Bytes :=
  if n < 16 then [hexDigitLower n] else hexLower (n / 16) ++ [hexDigitLower (n % 16)]

def emitScale (scale : Int) : Bytes := if scale > 1 then ch '*' :: intDecimal scale else []

def emitMem (mem : AsmMem) : Bytes :=
  emitSize mem.size ++
    match mem.mode with
    | .direct =>
      if mem.label ≠ [] then bytes "[" ++ mem.label ++ bytes "]"
      else bytes "[0x" ++ hexLower mem.displacement.toUInt64.toNat ++ bytes "]"
    | .base => bytes "[" ++ emitReg mem.base ++ bytes "]"
    | .baseDisp =>
      bytes "[" ++ bytes ((asmRegName mem.base .x86_64).getD "(null)") ++
        plusDecimal mem.displacement.toInt ++ bytes "]"
    | .baseIndex =>
      bytes "[" ++ emitReg mem.base ++ bytes "+" ++ emitReg mem.index ++ emitScale mem.scale ++
        bytes "]"
    | .baseIndexDisp =>
      bytes "[" ++ emitReg mem.base ++ bytes "+" ++ emitReg mem.index ++ emitScale mem.scale ++
        plusDecimal mem.displacement.toInt ++ bytes "]"
    | .ripRel => bytes "[rel " ++ mem.label ++ bytes "]"
    | .none => bytes "[?]"

def emitOp (op : AsmOperand) : Bytes :=
  match op.type with
  | .register => emitReg op.reg
  | .immediate => intDecimal op.immediate.toInt
  | .memory => emitMem op.mem
  | .label => op.label
  | .expr => op.expr

/-- Pieces with a comma between two of them. -/
def joinComma : List Bytes → Bytes
  | [] => []
  | piece :: pieces => piece ++ pieces.flatMap fun piece => bytes ", " ++ piece

def emitInstr (instr : AsmInstruction) : Bytes :=
  bytes "    " ++ (if instr.isLockPrefix then bytes "lock " else []) ++
    (if instr.isRepPrefix then bytes "rep " else []) ++ instr.mnemonic ++
    (match instr.sizeSpec with
      | some size => bytes " " ++ emitSize size
      | none => []) ++
    (if instr.operands = [] then [] else bytes " " ++ joinComma (instr.operands.map emitOp)) ++
    bytes "\n"

def dataName : AsmDirectiveType → String
  | .db => "db "
  | .dw => "dw "
  | .dd => "dd "
  | _ => "dq "

def emitDir (dir : AsmDirective) : Bytes :=
  let value := intDecimal dir.value.toInt
  let hex := hexLower dir.value.toUInt64.toNat
  match dir.type with
  | .sectionDir => bytes "section " ++ dir.name ++ bytes "\n"
  | .global => bytes "global " ++ dir.name ++ bytes "\n"
  | .externDir => bytes "extern " ++ dir.name ++ bytes "\n"
  | .align => bytes "align " ++ value ++ bytes "\n"
  | .org => bytes "[org 0x" ++ hex ++ bytes "]\n"
  | .bits => bytes "[bits " ++ value ++ bytes "]\n"
  | .times => bytes "times " ++ value ++ bytes " "
  | .db | .dw | .dd | .dq =>
    bytes (dataName dir.type) ++ joinComma (dir.dataOperands.map emitOp) ++ bytes "\n"
  | .resb => bytes "resb " ++ value ++ bytes "\n"
  | .resw => bytes "resw " ++ value ++ bytes "\n"
  | .resd => bytes "resd " ++ value ++ bytes "\n"
  | .resq => bytes "resq " ++ value ++ bytes "\n"
  | _ => bytes "; unknown directive: " ++ dir.name ++ bytes "\n"

def emitElement : AsmElement → Bytes
  | .instruction instr => emitInstr instr
  | .directive dir => emitDir dir
  | .label label => label.name ++ bytes ":\n"
  | .comment text => bytes "; " ++ text ++ bytes "\n"

def emitBlock (block : AsmIRBlock) : Bytes := block.flatMap emitElement

end Aether.Asm.X86Backend
