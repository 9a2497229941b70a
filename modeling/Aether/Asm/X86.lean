/-
Aether.Asm.X86 — the x86-64 instructions that the translation tables have.

The 64-bit instructions over registers, immediates and the memory operands
of the parser: how the representation holds them, and what they do. Only
the order of a store to the stack and of the move of its pointer is a
parameter (`StackRules`), because another machine with the same instructions
and wider stack slots is compared with this one later.
-/
import Aether.Asm.Ir
import Aether.Asm.Machine
import Aether.Lib.Listing

namespace Aether.Asm.X86

open Aether.Lib

/-! ## §1 Syntax -/

inductive Reg where
  | rax | rbx | rcx | rdx | rsi | rdi | rbp | rsp | r8 | r9 | r10 | r11 | r12 | r13 | r14 | r15
  deriving DecidableEq, Repr

inductive Scale where
  | one | two | four | eight
  deriving DecidableEq, Repr

/-- A memory operand as `asm_parse_mem` reads it. -/
inductive Mem where
  | base (base : Reg)
  | baseDisp (base : Reg) (disp : Int64)
  | baseIndex (base index : Reg) (scale : Scale)
  | baseIndexDisp (base index : Reg) (scale : Scale) (disp : Int64)
  | rel (label : LabelName)
  | direct (label : LabelName)
  | absolute (address : Int64)
  deriving DecidableEq

inductive Operand where
  | reg (reg : Reg)
  | imm (value : Int64)
  | mem (mem : Mem)
  deriving DecidableEq

/-- What an instruction can write. -/
inductive Dest where
  | reg (reg : Reg)
  | mem (mem : Mem)
  deriving DecidableEq

/-- The operands of a two-operand instruction: at most one in memory. -/
inductive Pair where
  | toReg (dst : Reg) (src : Operand)
  | regToMem (dst : Mem) (src : Reg)
  | immToMem (dst : Mem) (value : Int64)
  deriving DecidableEq

inductive BinOp where
  | mov | add | sub | and | or | xor | cmp
  deriving DecidableEq, Repr

inductive UnOp where
  | not | neg
  deriving DecidableEq, Repr

inductive JumpOp where
  | je | jz | jne | jnz | jg | jge | jl | jle
  deriving DecidableEq, Repr

inductive Instr where
  | bin (op : BinOp) (args : Pair)
  | un (op : UnOp) (dst : Dest)
  | push (src : Operand)
  | pop (dst : Dest)
  | jmp (label : LabelName)
  | jmpTo (target : Operand)
  | jcc (op : JumpOp) (label : LabelName)
  deriving DecidableEq

inductive Item where
  | label (label : LabelName)
  | instr (instr : Instr)
  deriving DecidableEq

abbrev Block := List Item

/-! ## §2 The representation -/

def Reg.asm : Reg → AsmRegister
  | .rax => .rax
  | .rbx => .rbx
  | .rcx => .rcx
  | .rdx => .rdx
  | .rsi => .rsi
  | .rdi => .rdi
  | .rbp => .rbp
  | .rsp => .rsp
  | .r8 => .r8
  | .r9 => .r9
  | .r10 => .r10
  | .r11 => .r11
  | .r12 => .r12
  | .r13 => .r13
  | .r14 => .r14
  | .r15 => .r15

def Scale.toNat : Scale → Nat
  | .one => 1
  | .two => 2
  | .four => 4
  | .eight => 8

def Mem.asm : Mem → AsmMem
  | .base b => asmMemBase b.asm
  | .baseDisp b d => asmMemBaseDisp b.asm d
  | .baseIndex b x scale => asmMemBaseIndex b.asm x.asm scale.toNat
  | .baseIndexDisp b x scale d => asmMemFull b.asm x.asm scale.toNat d
  | .rel l => asmMemRipRel l.text
  | .direct l => { asmMemInit with mode := .direct, label := l.text }
  | .absolute a => { asmMemInit with mode := .direct, displacement := a }

def Operand.asm : Operand → AsmOperand
  | .reg r => asmOpReg r.asm
  | .imm v => asmOpImm v
  | .mem m => asmOpMem m.asm

def Dest.asm : Dest → AsmOperand
  | .reg r => asmOpReg r.asm
  | .mem m => asmOpMem m.asm

def Pair.asm : Pair → List AsmOperand
  | .toReg dst src => [asmOpReg dst.asm, src.asm]
  | .regToMem dst src => [asmOpMem dst.asm, asmOpReg src.asm]
  | .immToMem dst value => [asmOpMem dst.asm, asmOpImm value]

def BinOp.mnemonic : BinOp → String
  | .mov => "mov"
  | .add => "add"
  | .sub => "sub"
  | .and => "and"
  | .or => "or"
  | .xor => "xor"
  | .cmp => "cmp"

def UnOp.mnemonic : UnOp → String
  | .not => "not"
  | .neg => "neg"

def JumpOp.mnemonic : JumpOp → String
  | .je => "je"
  | .jz => "jz"
  | .jne => "jne"
  | .jnz => "jnz"
  | .jg => "jg"
  | .jge => "jge"
  | .jl => "jl"
  | .jle => "jle"

def Instr.asm : Instr → AsmInstruction
  | .bin op args => { mnemonic := bytes op.mnemonic, operands := args.asm }
  | .un op dst => { mnemonic := bytes op.mnemonic, operands := [dst.asm] }
  | .push src => { mnemonic := bytes "push", operands := [src.asm] }
  | .pop dst => { mnemonic := bytes "pop", operands := [dst.asm] }
  | .jmp l => { mnemonic := bytes "jmp", operands := [asmOpLabel l.text] }
  | .jmpTo target => { mnemonic := bytes "jmp", operands := [target.asm] }
  | .jcc op l => { mnemonic := bytes op.mnemonic, operands := [asmOpLabel l.text] }

def Item.asm : Item → AsmElement
  | .label l => .label { name := l.text, isLocal := l.text.head? == some 46 }
  | .instr i => .instruction i.asm

def Block.asm (block : Block) : AsmIRBlock := block.map Item.asm

/-! ## §3 Execution -/

structure State where
  regs : Reg → Word
  mem : Memory
  flags : Flags

def State.set (s : State) (r : Reg) (v : Word) : State :=
  { s with regs := fun r' => if r' = r then v else s.regs r' }

@[simp] theorem State.set_regs (s : State) (r r' : Reg) (v : Word) :
    (s.set r v).regs r' = if r' = r then v else s.regs r' := rfl

@[simp] theorem State.set_mem (s : State) (r : Reg) (v : Word) : (s.set r v).mem = s.mem := rfl

@[simp] theorem State.set_flags (s : State) (r : Reg) (v : Word) : (s.set r v).flags = s.flags :=
  rfl

/-- How far a push or a pop moves the stack pointer, and whether the pop
moves it after it wrote its register. -/
structure StackRules where
  slot : Word
  moveLast : Bool

/-- The rules of the processor. -/
def rules : StackRules := { slot := 8, moveLast := false }

def BinOp.result (a b : Word) : BinOp → Word
  | .mov => b
  | .add => a + b
  | .sub => a - b
  | .and => a &&& b
  | .or => a ||| b
  | .xor => a ^^^ b
  | .cmp => a

def BinOp.flags (old : Flags) (a b : Word) : BinOp → Flags
  | .mov => old
  | .add => addFlags a b
  | .sub | .cmp => subFlags a b
  | .and => logicFlags (a &&& b)
  | .or => logicFlags (a ||| b)
  | .xor => logicFlags (a ^^^ b)

def JumpOp.cond : JumpOp → Cond
  | .je | .jz => .eq
  | .jne | .jnz => .ne
  | .jg => .gt
  | .jge => .ge
  | .jl => .lt
  | .jle => .le

variable (symbols : LabelName → Word)

/-- `base + index * scale + displacement`, or the place of a label. -/
def Mem.address (s : State) : Mem → Word
  | .base b => s.regs b
  | .baseDisp b d => s.regs b + d.toBitVec
  | .baseIndex b x scale => s.regs b + s.regs x * BitVec.ofNat 64 scale.toNat
  | .baseIndexDisp b x scale d => s.regs b + s.regs x * BitVec.ofNat 64 scale.toNat + d.toBitVec
  | .rel l => symbols l
  | .direct l => symbols l
  | .absolute a => a.toBitVec

def Operand.value (s : State) : Operand → Word
  | .reg r => s.regs r
  | .imm v => v.toBitVec
  | .mem m => load64 s.mem (m.address symbols s)

def Dest.value (s : State) : Dest → Word
  | .reg r => s.regs r
  | .mem m => load64 s.mem (m.address symbols s)

def Dest.write (s : State) (v : Word) : Dest → State
  | .reg r => s.set r v
  | .mem m => { s with mem := store64 s.mem (m.address symbols s) v }

def Pair.dest : Pair → Dest
  | .toReg dst _ => .reg dst
  | .regToMem dst _ => .mem dst
  | .immToMem dst _ => .mem dst

def Pair.source : Pair → Operand
  | .toReg _ src => src
  | .regToMem _ src => .reg src
  | .immToMem _ value => .imm value

def Instr.exec (stack : StackRules) (s : State) : Instr → Flow LabelName Word State
  | .bin op args =>
    let a := args.dest.value symbols s
    let b := args.source.value symbols s
    let s' := { s with flags := op.flags s.flags a b }
    .next (if op = .cmp then s' else args.dest.write symbols s' (op.result a b))
  | .un op dst =>
    let a := dst.value symbols s
    match op with
    | .not => .next (dst.write symbols s (~~~a))
    | .neg => .next (dst.write symbols { s with flags := subFlags 0 a } (-a))
  | .push src =>
    let v := src.value symbols s
    let s' := s.set .rsp (s.regs .rsp - stack.slot)
    .next { s' with mem := store64 s.mem (s'.regs .rsp) v }
  | .pop dst =>
    let v := load64 s.mem (s.regs .rsp)
    if stack.moveLast then
      let s' := dst.write symbols s v
      .next (s'.set .rsp (s'.regs .rsp + stack.slot))
    else
      .next (dst.write symbols (s.set .rsp (s.regs .rsp + stack.slot)) v)
  | .jmp l => .goto l s
  | .jmpTo target => .leave (target.value symbols s) s
  | .jcc op l => if op.cond.holds s.flags then .goto l s else .next s

def Item.exec (stack : StackRules) : Item → State → Flow LabelName Word State
  | .label _, s => .next s
  | .instr i, s => i.exec symbols stack s

def Item.labelOf : Item → Option LabelName
  | .label l => some l
  | .instr _ => none

/-- The block as a program for the stack rules. -/
def code (stack : StackRules) (block : Block) : Listing Item LabelName Word State where
  items := block
  labelOf := Item.labelOf
  exec := Item.exec symbols stack

end Aether.Asm.X86
