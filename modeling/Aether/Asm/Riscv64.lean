/-
Aether.Asm.Riscv64 — RISC-V assembly as its assembler reads it.

The instructions of the mnemonics that the backend's table maps the 64-bit
integer instructions to, with the `addi` it writes behind a push or a pop.
A program is read from a text line by line (`Assembles`).
-/
import Aether.Asm.Machine
import Aether.Lib.Listing
import Aether.Lib.TextLines

namespace Aether.Asm.Riscv64

open Aether.Lib Aether.Lib.TextLines

/-! ## §1 Syntax -/

inductive Reg where
  | zero | ra | sp | gp | tp | t0 | t1 | t2 | s0 | s1 | a0 | a1 | a2 | a3 | a4 | a5 | a6 | a7
  | s2 | s3 | s4 | s5 | s6 | s7 | s8 | s9 | s10 | s11 | t3 | t4 | t5 | t6
  deriving DecidableEq, Repr

inductive AluOp where
  | add | sub | and | or | xor
  deriving DecidableEq, Repr

/-- The last operand of an operation: `sub` takes no immediate. -/
inductive Operand where
  | reg (reg : Reg)
  | imm (value : Int64)
  deriving DecidableEq

/-- `offset(base)`; without a number the offset is zero. -/
structure Address where
  offset : Option Int64
  base : Reg
  deriving DecidableEq

inductive Instr where
  | mv (d m : Reg)
  | alu (op : AluOp) (d a : Reg) (b : Operand)
  | addi (d a : Reg) (value : Int64)
  | not (d m : Reg)
  | neg (d m : Reg)
  | sd (a : Reg) (address : Address)
  | ld (d : Reg) (address : Address)
  | j (label : LabelName)
  | beqz (a : Reg) (label : LabelName)
  | bnez (a : Reg) (label : LabelName)
  | bgt (a b : Reg) (label : LabelName)
  | bge (a b : Reg) (label : LabelName)
  | blt (a b : Reg) (label : LabelName)
  | ble (a b : Reg) (label : LabelName)
  deriving DecidableEq

inductive Item where
  | label (label : LabelName)
  | instr (instr : Instr)
  deriving DecidableEq

/-! ## §2 Text -/

def Reg.name : Reg → String
  | .zero => "zero"
  | .ra => "ra"
  | .sp => "sp"
  | .gp => "gp"
  | .tp => "tp"
  | .t0 => "t0"
  | .t1 => "t1"
  | .t2 => "t2"
  | .s0 => "s0"
  | .s1 => "s1"
  | .a0 => "a0"
  | .a1 => "a1"
  | .a2 => "a2"
  | .a3 => "a3"
  | .a4 => "a4"
  | .a5 => "a5"
  | .a6 => "a6"
  | .a7 => "a7"
  | .s2 => "s2"
  | .s3 => "s3"
  | .s4 => "s4"
  | .s5 => "s5"
  | .s6 => "s6"
  | .s7 => "s7"
  | .s8 => "s8"
  | .s9 => "s9"
  | .s10 => "s10"
  | .s11 => "s11"
  | .t3 => "t3"
  | .t4 => "t4"
  | .t5 => "t5"
  | .t6 => "t6"

def Reg.text (r : Reg) : Bytes := bytes r.name

def AluOp.mnemonic : AluOp → String
  | .add => "add"
  | .sub => "sub"
  | .and => "and"
  | .or => "or"
  | .xor => "xor"

def Operand.text : Operand → Bytes
  | .reg r => r.text
  | .imm v => intDecimal v.toInt

def Address.text (address : Address) : Bytes :=
  (match address.offset with
    | some o => intDecimal o.toInt
    | none => []) ++ bytes "(" ++ address.base.text ++ bytes ")"

def Instr.mnemonic : Instr → String
  | .mv .. => "mv"
  | .alu op .. => op.mnemonic
  | .addi .. => "addi"
  | .not .. => "not"
  | .neg .. => "neg"
  | .sd .. => "sd"
  | .ld .. => "ld"
  | .j .. => "j"
  | .beqz .. => "beqz"
  | .bnez .. => "bnez"
  | .bgt .. => "bgt"
  | .bge .. => "bge"
  | .blt .. => "blt"
  | .ble .. => "ble"

def Instr.operands : Instr → Bytes
  | .mv d m | .not d m | .neg d m => d.text ++ bytes ", " ++ m.text
  | .alu _ d a b => d.text ++ bytes ", " ++ (a.text ++ bytes ", " ++ b.text)
  | .addi d a v => d.text ++ bytes ", " ++ (a.text ++ bytes ", " ++ intDecimal v.toInt)
  | .sd a address | .ld a address => a.text ++ bytes ", " ++ address.text
  | .j l => l.text
  | .beqz a l | .bnez a l => a.text ++ bytes ", " ++ l.text
  | .bgt a b l | .bge a b l | .blt a b l | .ble a b l =>
    a.text ++ bytes ", " ++ (b.text ++ bytes ", " ++ l.text)

def Item.line : Item → Bytes
  | .label l => l.text ++ bytes ":"
  | .instr i => bytes "    " ++ bytes i.mnemonic ++ bytes " " ++ i.operands

/-! ## §3 What the instructions take -/

/-- Twelve bits with a sign. -/
def isImm12 (v : Int64) : Bool := decide (-2048 ≤ v.toInt) && decide (v.toInt ≤ 2047)

def Instr.ok : Instr → Bool
  | .alu op _ _ (.imm v) => op != .sub && isImm12 v
  | .addi _ _ v => isImm12 v
  | .sd _ address | .ld _ address => address.offset.all isImm12
  | _ => true

def Item.labelOf : Item → Option LabelName
  | .label l => some l
  | .instr _ => none

def Item.branchOf : Item → Option LabelName
  | .instr (.j l) | .instr (.beqz _ l) | .instr (.bnez _ l) | .instr (.bgt _ _ l)
  | .instr (.bge _ _ l) | .instr (.blt _ _ l) | .instr (.ble _ _ l) => some l
  | _ => none

def allRegs : List Reg :=
  [.zero, .ra, .sp, .gp, .tp, .t0, .t1, .t2, .s0, .s1, .a0, .a1, .a2, .a3, .a4, .a5, .a6, .a7,
   .s2, .s3, .s4, .s5, .s6, .s7, .s8, .s9, .s10, .s11, .t3, .t4, .t5, .t6]

/-- No assembler takes the name of a register for a label. -/
def isRegName (text : Bytes) : Bool := allRegs.any fun r => text == r.text

/-- The items are instructions with operands they take, labels of names of
their own, and branches to these labels. -/
structure WellFormed (items : List Item) : Prop where
  ok : ∀ i, .instr i ∈ items → i.ok = true
  distinct : (items.filterMap Item.labelOf).Nodup
  named : ∀ l ∈ items.filterMap Item.labelOf, isRegName l.text = false
  defined : ∀ e ∈ items, ∀ l, e.branchOf = some l → l ∈ items.filterMap Item.labelOf

/-- The directive that stands before the program. -/
def header : Bytes := bytes ".text\n\n"

/-- The text is a program: these items, line by line. -/
def Assembles (text : Bytes) (items : List Item) : Prop :=
  text = header ++ unlines (items.map Item.line) ∧ WellFormed items

/-! ## §4 Execution -/

/-- The registers but `zero`, which is never read. -/
structure State where
  regs : Reg → Word
  mem : Memory

def State.get (t : State) (r : Reg) : Word := if r = .zero then 0 else t.regs r

def State.set (t : State) (r : Reg) (v : Word) : State :=
  { t with regs := fun r' => if r' = r then v else t.regs r' }

@[simp] theorem State.set_mem (t : State) (r : Reg) (v : Word) : (t.set r v).mem = t.mem := rfl

theorem State.get_set (t : State) {r : Reg} (hr : r ≠ .zero) (r' : Reg) (v : Word) :
    (t.set r v).get r' = if r' = r then v else t.get r' := by
  by_cases h : r' = r
  · subst h
    simp [get, set, hr]
  · simp [get, set, h]

def Operand.value (t : State) : Operand → Word
  | .reg r => t.get r
  | .imm v => v.toBitVec

def AluOp.result (a b : Word) : AluOp → Word
  | .add => a + b
  | .sub => a - b
  | .and => a &&& b
  | .or => a ||| b
  | .xor => a ^^^ b

def Address.place (t : State) (address : Address) : Word :=
  t.get address.base + (address.offset.getD 0).toBitVec

def Instr.exec (t : State) : Instr → Flow LabelName Word State
  | .mv d m => .next (t.set d (t.get m))
  | .alu op d a b => .next (t.set d (op.result (t.get a) (b.value t)))
  | .addi d a v => .next (t.set d (t.get a + v.toBitVec))
  | .not d m => .next (t.set d (~~~(t.get m)))
  | .neg d m => .next (t.set d (-(t.get m)))
  | .sd a address => .next { t with mem := store64 t.mem (address.place t) (t.get a) }
  | .ld d address => .next (t.set d (load64 t.mem (address.place t)))
  | .j l => .goto l t
  | .beqz a l => branch (t.get a == 0) l
  | .bnez a l => branch (t.get a != 0) l
  | .bgt a b l => branch ((t.get b).slt (t.get a)) l
  | .bge a b l => branch ((t.get b).sle (t.get a)) l
  | .blt a b l => branch ((t.get a).slt (t.get b)) l
  | .ble a b l => branch ((t.get a).sle (t.get b)) l
where
  branch (taken : Bool) (l : LabelName) : Flow LabelName Word State :=
    if taken then .goto l t else .next t

def Item.exec : Item → State → Flow LabelName Word State
  | .label _, t => .next t
  | .instr i, t => i.exec t

def code (items : List Item) : Listing Item LabelName Word State where
  items := items
  labelOf := Item.labelOf
  exec := Item.exec

end Aether.Asm.Riscv64
