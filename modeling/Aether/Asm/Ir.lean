/-
Aether.Asm.Ir — the assembler's intermediate representation.

`asm_ir.c` keeps a parsed block as a list of instructions, directives,
labels and comments. An operand is a C struct with a type tag: the fields
that the tag does not select are there as well, so they are kept here.

`AsmRegister` has the registers with an x86-64 name, the only ones the
parser makes, and `count`, which stands for "no register".
-/
import Aether.Bytes

namespace Aether.Asm

/-! ## §1 Registers -/

inductive AsmRegister where
  | rax | rbx | rcx | rdx | rsi | rdi | rbp | rsp | r8 | r9 | r10 | r11 | r12 | r13 | r14 | r15
  | eax | ebx | ecx | edx | esi | edi | ebp | esp | r8d | r9d | r10d | r11d | r12d | r13d
  | r14d | r15d | ax | bx | cx | dx | si | di | bp | sp | r8w | r9w | r10w | r11w | r12w | r13w
  | r14w | r15w | al | bl | cl | dl | ah | bh | ch | dh | sil | dil | bpl | spl | r8b | r9b
  | r10b | r11b | r12b | r13b | r14b | r15b | xmm0 | xmm1 | xmm2 | xmm3 | xmm4 | xmm5 | xmm6
  | xmm7 | xmm8 | xmm9 | xmm10 | xmm11 | xmm12 | xmm13 | xmm14 | xmm15 | cs | ds | es | fs | gs
  | ss | count
  deriving DecidableEq, Repr

inductive AsmArch where
  | x86_64 | arm64 | riscv64
  deriving DecidableEq, Repr

/-- A row of `asm_reg_table`. -/
structure AsmRegEntry where
  x86_64Name : Option String
  arm64Name : Option String
  riscv64Name : Option String
  widthBits : Nat

def asmRegTable : AsmRegister → AsmRegEntry
  | .rax => ⟨some "rax", some "x0", some "a0", 64⟩
  | .rbx => ⟨some "rbx", some "x19", some "s1", 64⟩
  | .rcx => ⟨some "rcx", some "x1", some "a1", 64⟩
  | .rdx => ⟨some "rdx", some "x2", some "a2", 64⟩
  | .rsi => ⟨some "rsi", some "x3", some "a3", 64⟩
  | .rdi => ⟨some "rdi", some "x4", some "a4", 64⟩
  | .rbp => ⟨some "rbp", some "x29", some "s0", 64⟩
  | .rsp => ⟨some "rsp", some "sp", some "sp", 64⟩
  | .r8 => ⟨some "r8", some "x5", some "a5", 64⟩
  | .r9 => ⟨some "r9", some "x6", some "a6", 64⟩
  | .r10 => ⟨some "r10", some "x7", some "a7", 64⟩
  | .r11 => ⟨some "r11", some "x8", some "s2", 64⟩
  | .r12 => ⟨some "r12", some "x9", some "s3", 64⟩
  | .r13 => ⟨some "r13", some "x10", some "s4", 64⟩
  | .r14 => ⟨some "r14", some "x11", some "s5", 64⟩
  | .r15 => ⟨some "r15", some "x12", some "s6", 64⟩
  | .eax => ⟨some "eax", some "w0", some "a0", 32⟩
  | .ebx => ⟨some "ebx", some "w19", some "s1", 32⟩
  | .ecx => ⟨some "ecx", some "w1", some "a1", 32⟩
  | .edx => ⟨some "edx", some "w2", some "a2", 32⟩
  | .esi => ⟨some "esi", some "w3", some "a3", 32⟩
  | .edi => ⟨some "edi", some "w4", some "a4", 32⟩
  | .ebp => ⟨some "ebp", some "w29", some "s0", 32⟩
  | .esp => ⟨some "esp", some "wsp", some "sp", 32⟩
  | .r8d => ⟨some "r8d", some "w5", some "a5", 32⟩
  | .r9d => ⟨some "r9d", some "w6", some "a6", 32⟩
  | .r10d => ⟨some "r10d", some "w7", some "a7", 32⟩
  | .r11d => ⟨some "r11d", some "w8", some "s2", 32⟩
  | .r12d => ⟨some "r12d", some "w9", some "s3", 32⟩
  | .r13d => ⟨some "r13d", some "w10", some "s4", 32⟩
  | .r14d => ⟨some "r14d", some "w11", some "s5", 32⟩
  | .r15d => ⟨some "r15d", some "w12", some "s6", 32⟩
  | .ax => ⟨some "ax", none, none, 16⟩
  | .bx => ⟨some "bx", none, none, 16⟩
  | .cx => ⟨some "cx", none, none, 16⟩
  | .dx => ⟨some "dx", none, none, 16⟩
  | .si => ⟨some "si", none, none, 16⟩
  | .di => ⟨some "di", none, none, 16⟩
  | .bp => ⟨some "bp", none, none, 16⟩
  | .sp => ⟨some "sp", none, none, 16⟩
  | .r8w => ⟨some "r8w", none, none, 16⟩
  | .r9w => ⟨some "r9w", none, none, 16⟩
  | .r10w => ⟨some "r10w", none, none, 16⟩
  | .r11w => ⟨some "r11w", none, none, 16⟩
  | .r12w => ⟨some "r12w", none, none, 16⟩
  | .r13w => ⟨some "r13w", none, none, 16⟩
  | .r14w => ⟨some "r14w", none, none, 16⟩
  | .r15w => ⟨some "r15w", none, none, 16⟩
  | .al => ⟨some "al", none, none, 8⟩
  | .bl => ⟨some "bl", none, none, 8⟩
  | .cl => ⟨some "cl", none, none, 8⟩
  | .dl => ⟨some "dl", none, none, 8⟩
  | .ah => ⟨some "ah", none, none, 8⟩
  | .bh => ⟨some "bh", none, none, 8⟩
  | .ch => ⟨some "ch", none, none, 8⟩
  | .dh => ⟨some "dh", none, none, 8⟩
  | .sil => ⟨some "sil", none, none, 8⟩
  | .dil => ⟨some "dil", none, none, 8⟩
  | .bpl => ⟨some "bpl", none, none, 8⟩
  | .spl => ⟨some "spl", none, none, 8⟩
  | .r8b => ⟨some "r8b", none, none, 8⟩
  | .r9b => ⟨some "r9b", none, none, 8⟩
  | .r10b => ⟨some "r10b", none, none, 8⟩
  | .r11b => ⟨some "r11b", none, none, 8⟩
  | .r12b => ⟨some "r12b", none, none, 8⟩
  | .r13b => ⟨some "r13b", none, none, 8⟩
  | .r14b => ⟨some "r14b", none, none, 8⟩
  | .r15b => ⟨some "r15b", none, none, 8⟩
  | .xmm0 => ⟨some "xmm0", some "v0", none, 128⟩
  | .xmm1 => ⟨some "xmm1", some "v1", none, 128⟩
  | .xmm2 => ⟨some "xmm2", some "v2", none, 128⟩
  | .xmm3 => ⟨some "xmm3", some "v3", none, 128⟩
  | .xmm4 => ⟨some "xmm4", some "v4", none, 128⟩
  | .xmm5 => ⟨some "xmm5", some "v5", none, 128⟩
  | .xmm6 => ⟨some "xmm6", some "v6", none, 128⟩
  | .xmm7 => ⟨some "xmm7", some "v7", none, 128⟩
  | .xmm8 => ⟨some "xmm8", some "v8", none, 128⟩
  | .xmm9 => ⟨some "xmm9", some "v9", none, 128⟩
  | .xmm10 => ⟨some "xmm10", some "v10", none, 128⟩
  | .xmm11 => ⟨some "xmm11", some "v11", none, 128⟩
  | .xmm12 => ⟨some "xmm12", some "v12", none, 128⟩
  | .xmm13 => ⟨some "xmm13", some "v13", none, 128⟩
  | .xmm14 => ⟨some "xmm14", some "v14", none, 128⟩
  | .xmm15 => ⟨some "xmm15", some "v15", none, 128⟩
  | .cs => ⟨some "cs", none, none, 16⟩
  | .ds => ⟨some "ds", none, none, 16⟩
  | .es => ⟨some "es", none, none, 16⟩
  | .fs => ⟨some "fs", none, none, 16⟩
  | .gs => ⟨some "gs", none, none, 16⟩
  | .ss => ⟨some "ss", none, none, 16⟩
  | .count => ⟨none, none, none, 0⟩

def asmRegName (reg : AsmRegister) : AsmArch → Option String
  | .x86_64 => (asmRegTable reg).x86_64Name
  | .arm64 => (asmRegTable reg).arm64Name
  | .riscv64 => (asmRegTable reg).riscv64Name

/-! ## §2 Operands -/

inductive AsmSizeSpec where
  | none | byte | word | dword | qword | oword | tword
  deriving DecidableEq, Repr

inductive AsmAddrMode where
  | none | direct | base | baseDisp | baseIndex | baseIndexDisp | ripRel
  deriving DecidableEq, Repr

structure AsmMem where
  mode : AsmAddrMode := .none
  base : AsmRegister := .rax
  index : AsmRegister := .rax
  scale : Int := 0
  displacement : Int64 := 0
  label : Bytes := []
  size : AsmSizeSpec := .none
  deriving DecidableEq

inductive AsmOperandType where
  | register | immediate | memory | label | expr
  deriving DecidableEq, Repr

/-- `AsmOperand`, all its fields zero where nothing set them. -/
structure AsmOperand where
  type : AsmOperandType := .register
  reg : AsmRegister := .rax
  immediate : Int64 := 0
  mem : AsmMem := {}
  label : Bytes := []
  expr : Bytes := []
  deriving DecidableEq

def asmOpReg (reg : AsmRegister) : AsmOperand := { type := .register, reg }

def asmOpImm (immediate : Int64) : AsmOperand := { type := .immediate, immediate }

def asmOpLabel (label : Bytes) : AsmOperand := { type := .label, label }

def asmOpMem (mem : AsmMem) : AsmOperand := { type := .memory, mem }

def asmOpExpr (expr : Bytes) : AsmOperand := { type := .expr, expr }

/-- `asm_mem_init`: no registers, scale one. -/
def asmMemInit : AsmMem := { base := .count, index := .count, scale := 1 }

def asmMemBase (base : AsmRegister) : AsmMem := { asmMemInit with mode := .base, base }

def asmMemBaseDisp (base : AsmRegister) (displacement : Int64) : AsmMem :=
  { asmMemInit with mode := .baseDisp, base, displacement }

def asmMemBaseIndex (base index : AsmRegister) (scale : Int) : AsmMem :=
  { asmMemInit with mode := .baseIndex, base, index, scale }

def asmMemFull (base index : AsmRegister) (scale : Int) (displacement : Int64) : AsmMem :=
  { asmMemInit with mode := .baseIndexDisp, base, index, scale, displacement }

def asmMemRipRel (label : Bytes) : AsmMem := { asmMemInit with mode := .ripRel, label }

/-! ## §3 Blocks -/

structure AsmInstruction where
  mnemonic : Bytes
  operands : List AsmOperand := []
  sizeSpec : Option AsmSizeSpec := none
  isLockPrefix : Bool := false
  isRepPrefix : Bool := false
  deriving DecidableEq

def ASM_MAX_OPERANDS : Nat := 3

def asmInstrInit (mnemonic : Bytes) : AsmInstruction := { mnemonic := mnemonic.take 11 }

/-- A fourth operand is dropped without a word. -/
def asmInstrAddOperand (instr : AsmInstruction) (op : AsmOperand) : AsmInstruction :=
  if instr.operands.length ≥ ASM_MAX_OPERANDS then instr
  else { instr with operands := instr.operands ++ [op] }

inductive AsmDirectiveType where
  | none | sectionDir | global | externDir | align | times | db | dw | dd | dq
  | resb | resw | resd | resq | org | bits | incbin | equ | struc | macroDir
  deriving DecidableEq, Repr

structure AsmDirective where
  type : AsmDirectiveType := .none
  name : Bytes := []
  value : Int64 := 0
  dataOperands : List AsmOperand := []
  deriving DecidableEq

structure AsmLabel where
  name : Bytes
  isLocal : Bool := false
  deriving DecidableEq

inductive AsmElement where
  | instruction (instr : AsmInstruction)
  | directive (dir : AsmDirective)
  | label (label : AsmLabel)
  | comment (text : Bytes)
  deriving DecidableEq

/-- The elements of an `AsmIRBlock`. -/
abbrev AsmIRBlock := List AsmElement

end Aether.Asm
