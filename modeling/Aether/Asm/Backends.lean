/-
Aether.Asm.Backends — the text the ARM64 and RISC-V backends emit.

`asm_backend_arm64.c` and `asm_backend_riscv64.c` are the same code with
other texts: a register table column, a memory operand syntax, a mnemonic
table, two special lines for a push and a pop of a register, and the names
of the directives. `Backend` holds the texts and `emitBlock` is the code.

`str_fmt` formats into 256 bytes. A name has fewer than 48 characters, a
comment fewer than 128 and a number at most 20, so no piece is cut.
-/
import Aether.Asm.Ir
import Aether.Lib.TextLines

namespace Aether.Asm

open Aether.Lib.TextLines

/-! ## §1 The common code -/

/-- What one of the two backends writes in its own way. -/
structure Backend where
  header : Bytes
  commentMark : Bytes
  unknownMark : Bytes
  immediateMark : Bytes
  mapReg : AsmRegister → Bytes
  emitMem : AsmMem → Bytes
  mnemonics : List (String × String)
  pushRegister : Bytes → Bytes
  popRegister : Bytes → Bytes
  dataNames : AsmDirectiveType → String

/-- `map_mnemonic`, a chain of `strcmp`. -/
def mapMnemonic (mnemonics : List (String × String)) (x86 : Bytes) : Bytes :=
  match mnemonics.find? fun row => bytes row.1 == x86 with
  | some row => bytes row.2
  | none => x86

def emitOp (b : Backend) (op : AsmOperand) : Bytes :=
  match op.type with
  | .register => b.mapReg op.reg
  | .immediate => b.immediateMark ++ intDecimal op.immediate.toInt
  | .memory => b.emitMem op.mem
  | .label => op.label
  | .expr => op.expr

/-- The operands, the first behind a blank and the others behind a comma. -/
def emitOperands (b : Backend) : List AsmOperand → Bytes
  | [] => []
  | op :: rest => bytes " " ++ emitOp b op ++ rest.flatMap fun op => bytes ", " ++ emitOp b op

/-- The register of a one-operand instruction of the mnemonic. -/
def onRegister (mnemonic : String) (instr : AsmInstruction) : Option AsmRegister :=
  match instr.operands with
  | [op] => if instr.mnemonic = bytes mnemonic ∧ op.type = .register then some op.reg else none
  | _ => none

def emitInstr (b : Backend) (instr : AsmInstruction) : Bytes :=
  bytes "    " ++ mapMnemonic b.mnemonics instr.mnemonic ++
    match onRegister "push" instr, onRegister "pop" instr with
    | some reg, _ => b.pushRegister (b.mapReg reg)
    | none, some reg => b.popRegister (b.mapReg reg)
    | none, none => emitOperands b instr.operands ++ bytes "\n"

/-- The values of a data directive; only immediates have a text. -/
def emitData : List AsmOperand → Bytes
  | [] => []
  | op :: rest => value op ++ rest.flatMap fun op => bytes ", " ++ value op
where
  value (op : AsmOperand) : Bytes :=
    if op.type = .immediate then intDecimal op.immediate.toInt else []

def emitDir (b : Backend) (dir : AsmDirective) : Bytes :=
  match dir.type with
  | .sectionDir => bytes ".section " ++ dir.name ++ bytes "\n"
  | .global => bytes ".globl " ++ dir.name ++ bytes "\n"
  | .externDir => bytes ".extern " ++ dir.name ++ bytes "\n"
  | .align => bytes ".balign " ++ intDecimal dir.value.toInt ++ bytes "\n"
  | .db | .dw | .dd | .dq => bytes (b.dataNames dir.type) ++ emitData dir.dataOperands ++ bytes "\n"
  | .resb => bytes ".zero " ++ intDecimal dir.value.toInt ++ bytes "\n"
  | .resw => bytes ".zero " ++ intDecimal (dir.value * 2).toInt ++ bytes "\n"
  | .resd => bytes ".zero " ++ intDecimal (dir.value * 4).toInt ++ bytes "\n"
  | .resq => bytes ".zero " ++ intDecimal (dir.value * 8).toInt ++ bytes "\n"
  | _ => b.unknownMark ++ bytes " unknown directive: " ++ dir.name ++ bytes "\n"

def emitElement (b : Backend) : AsmElement → Bytes
  | .instruction instr => emitInstr b instr
  | .directive dir => emitDir b dir
  | .label label => label.name ++ bytes ":\n"
  | .comment text => b.commentMark ++ bytes " " ++ text ++ bytes "\n"

def emitBlock (b : Backend) (block : AsmIRBlock) : Bytes :=
  b.header ++ block.flatMap (emitElement b)

/-! ## §2 ARM64 -/

namespace Arm64

def mapReg (reg : AsmRegister) : Bytes := bytes ((asmRegName reg .arm64).getD "x0")

def emitMem (mem : AsmMem) : Bytes :=
  match mem.mode with
  | .base => bytes "[" ++ mapReg mem.base ++ bytes "]"
  | .baseDisp =>
    bytes "[" ++ mapReg mem.base ++ bytes ", #" ++ intDecimal mem.displacement.toInt ++ bytes "]"
  | .baseIndex =>
    bytes "[" ++ mapReg mem.base ++ bytes ", " ++ mapReg mem.index ++ bytes ", lsl #" ++
      intDecimal mem.scale ++ bytes "]"
  | .baseIndexDisp =>
    bytes "[" ++ mapReg mem.base ++ bytes ", " ++ mapReg mem.index ++ bytes ", lsl #" ++
      intDecimal mem.scale ++ bytes ", #" ++ intDecimal mem.displacement.toInt ++ bytes "]"
  | .ripRel => bytes "[" ++ mem.label ++ bytes "]"
  | .direct =>
    if mem.label ≠ [] then bytes "[" ++ mem.label ++ bytes "]"
    else bytes "[" ++ intDecimal mem.displacement.toInt ++ bytes "]"
  | .none => bytes "[x0]"

def mnemonics : List (String × String) :=
  [("mov", "mov"), ("add", "add"), ("sub", "sub"), ("mul", "mul"), ("div", "udiv"),
   ("and", "and"), ("or", "orr"), ("xor", "eor"), ("not", "mvn"), ("neg", "neg"),
   ("cmp", "cmp"), ("test", "tst"), ("ret", "ret"), ("call", "bl"), ("jmp", "b"),
   ("nop", "nop"), ("int", "svc"), ("syscall", "svc #0"), ("push", "stp"), ("pop", "ldp"),
   ("jz", "b.eq"), ("je", "b.eq"), ("jnz", "b.ne"), ("jne", "b.ne"), ("jg", "b.gt"),
   ("jge", "b.ge"), ("jl", "b.lt"), ("jle", "b.le")]

def dataNames : AsmDirectiveType → String
  | .db => ".byte "
  | .dw => ".hword "
  | .dd => ".word "
  | _ => ".quad "

def backend : Backend where
  header := bytes ".arch armv8-a\n.text\n\n"
  commentMark := bytes "//"
  unknownMark := bytes ";"
  immediateMark := bytes "#"
  mapReg := mapReg
  emitMem := emitMem
  mnemonics := mnemonics
  pushRegister reg := bytes " " ++ reg ++ bytes ", [sp, #-16]!\n"
  popRegister reg := bytes " " ++ reg ++ bytes ", [sp], #16\n"
  dataNames := dataNames

end Arm64

/-! ## §3 RISC-V -/

namespace Riscv64

def mapReg (reg : AsmRegister) : Bytes := bytes ((asmRegName reg .riscv64).getD "a0")

/-- The index and its scale have no place in the text. -/
def emitMem (mem : AsmMem) : Bytes :=
  match mem.mode with
  | .base | .baseIndex => bytes "(" ++ mapReg mem.base ++ bytes ")"
  | .baseDisp | .baseIndexDisp =>
    intDecimal mem.displacement.toInt ++ bytes "(" ++ mapReg mem.base ++ bytes ")"
  | .ripRel => bytes "(" ++ mem.label ++ bytes ")"
  | .direct =>
    if mem.label ≠ [] then bytes "(" ++ mem.label ++ bytes ")"
    else bytes "(" ++ intDecimal mem.displacement.toInt ++ bytes ")"
  | .none => bytes "(a0)"

def mnemonics : List (String × String) :=
  [("mov", "mv"), ("add", "add"), ("sub", "sub"), ("mul", "mul"), ("div", "divu"),
   ("and", "and"), ("or", "or"), ("xor", "xor"), ("not", "not"), ("neg", "neg"),
   ("cmp", "sub"), ("ret", "ret"), ("call", "jal"), ("jmp", "j"), ("nop", "nop"),
   ("int", "ecall"), ("syscall", "ecall"), ("push", "sd"), ("pop", "ld"),
   ("jz", "beqz"), ("je", "beqz"), ("jnz", "bnez"), ("jne", "bnez"), ("jg", "bgt"),
   ("jge", "bge"), ("jl", "blt"), ("jle", "ble")]

def dataNames : AsmDirectiveType → String
  | .db => ".byte "
  | .dw => ".half "
  | .dd => ".word "
  | _ => ".dword "

def backend : Backend where
  header := bytes ".text\n\n"
  commentMark := bytes "#"
  unknownMark := bytes "#"
  immediateMark := []
  mapReg := mapReg
  emitMem := emitMem
  mnemonics := mnemonics
  pushRegister reg := bytes " " ++ reg ++ bytes ", -16(sp)\n    addi sp, sp, -16\n"
  popRegister reg := bytes " " ++ reg ++ bytes ", 0(sp)\n    addi sp, sp, 16\n"
  dataNames := dataNames

end Riscv64

end Aether.Asm
