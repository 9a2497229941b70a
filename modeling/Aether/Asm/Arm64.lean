/-
Aether.Asm.Arm64 — ARM64 assembly as its assembler reads it.

The instructions of the mnemonics that the backend's table maps the 64-bit
integer instructions to: their operands, their text, which operands they
take, and what they do. A program is read from a text line by line
(`Assembles`).
-/
import Aether.Asm.Machine
import Aether.Lib.Listing
import Aether.Lib.TextLines

namespace Aether.Asm.Arm64

open Aether.Lib Aether.Lib.Numerals Aether.Lib.TextLines

/-! ## §1 Syntax -/

inductive Reg where
  | x (n : Fin 31)
  | sp
  | xzr
  deriving DecidableEq, Repr

def Reg.text : Reg → Bytes
  | .x n => bytes "x" ++ decimal n
  | .sp => bytes "sp"
  | .xzr => bytes "xzr"

inductive ShiftKind where
  | lsl | lsr | asr | ror
  deriving DecidableEq, Repr

structure Shift where
  kind : ShiftKind
  amount : Fin 64
  deriving DecidableEq

/-- The last operand of a data-processing instruction. -/
inductive Operand where
  | reg (reg : Reg) (shift : Option Shift)
  | imm (value : Int64)
  deriving DecidableEq

inductive AluOp where
  | add | sub | and | orr | eor
  deriving DecidableEq, Repr

inductive Address where
  | offset (base : Reg) (offset : Int64)
  | preIndex (base : Reg) (offset : Int64)
  | postIndex (base : Reg) (offset : Int64)
  deriving DecidableEq

inductive Instr where
  | movReg (d m : Reg)
  | movImm (d : Reg) (value : Int64)
  | alu (op : AluOp) (d n : Reg) (m : Operand)
  | mvn (d m : Reg) (shift : Option Shift)
  | neg (d m : Reg) (shift : Option Shift)
  | cmp (n : Reg) (m : Operand)
  | stp (a b : Reg) (address : Address)
  | ldp (a b : Reg) (address : Address)
  | branch (label : LabelName)
  | branchCond (cond : Cond) (label : LabelName)
  deriving DecidableEq

inductive Item where
  | label (label : LabelName)
  | instr (instr : Instr)
  deriving DecidableEq

/-! ## §2 Text -/

def ShiftKind.text : ShiftKind → Bytes
  | .lsl => bytes "lsl"
  | .lsr => bytes "lsr"
  | .asr => bytes "asr"
  | .ror => bytes "ror"

def shiftText : Option Shift → Bytes
  | none => []
  | some shift => bytes ", " ++ shift.kind.text ++ bytes " #" ++ decimal shift.amount

def Operand.text : Operand → Bytes
  | .reg r shift => r.text ++ shiftText shift
  | .imm v => bytes "#" ++ intDecimal v.toInt

def Address.text : Address → Bytes
  | .offset base o => bytes "[" ++ base.text ++ bytes ", #" ++ intDecimal o.toInt ++ bytes "]"
  | .preIndex base o => bytes "[" ++ base.text ++ bytes ", #" ++ intDecimal o.toInt ++ bytes "]!"
  | .postIndex base o => bytes "[" ++ base.text ++ bytes "], #" ++ intDecimal o.toInt

def AluOp.mnemonic : AluOp → String
  | .add => "add"
  | .sub => "sub"
  | .and => "and"
  | .orr => "orr"
  | .eor => "eor"

def condMnemonic : Cond → String
  | .eq => "b.eq"
  | .ne => "b.ne"
  | .gt => "b.gt"
  | .ge => "b.ge"
  | .lt => "b.lt"
  | .le => "b.le"

def Instr.mnemonic : Instr → String
  | .movReg .. | .movImm .. => "mov"
  | .alu op .. => op.mnemonic
  | .mvn .. => "mvn"
  | .neg .. => "neg"
  | .cmp .. => "cmp"
  | .stp .. => "stp"
  | .ldp .. => "ldp"
  | .branch _ => "b"
  | .branchCond cond _ => condMnemonic cond

def Instr.operands : Instr → Bytes
  | .movReg d m => d.text ++ bytes ", " ++ m.text
  | .movImm d v => d.text ++ bytes ", " ++ (bytes "#" ++ intDecimal v.toInt)
  | .alu _ d n m => d.text ++ bytes ", " ++ (n.text ++ bytes ", " ++ m.text)
  | .mvn d m shift | .neg d m shift => d.text ++ bytes ", " ++ (m.text ++ shiftText shift)
  | .cmp n m => n.text ++ bytes ", " ++ m.text
  | .stp a b address | .ldp a b address =>
    a.text ++ bytes ", " ++ (b.text ++ bytes ", " ++ address.text)
  | .branch l | .branchCond _ l => l.text

def Item.line : Item → Bytes
  | .label l => l.text ++ bytes ":"
  | .instr i => bytes "    " ++ bytes i.mnemonic ++ bytes " " ++ i.operands

/-! ## §3 What the instructions take -/

/-- The immediates of an addition: twelve bits, maybe twelve bits up. The
assembler turns a negative one into the opposite instruction. -/
def isArithImm (v : Int64) : Bool :=
  let m := v.toInt.natAbs
  m < 4096 || (m % 4096 == 0 && m < 4096 * 4096)

/-- One of the four 16-bit parts, the others zero. -/
def isWideImm (w : Word) : Bool :=
  [0, 16, 32, 48].any fun (s : Nat) => w &&& ~~~(0xffff#64 <<< s) == 0

/-- A bitmask immediate: a rotated run of ones, repeated over the word. -/
def isBitmaskImm (w : Word) : Bool :=
  [2, 4, 8, 16, 32, 64].any fun (size : Nat) =>
    w.rotateRight size == w &&
      (List.range (size - 1)).any fun ones => (List.range size).any fun r =>
        (w.rotateRight r).extractLsb' 0 size == BitVec.ofNat size (2 ^ (ones + 1) - 1)

/-- What `mov` takes: one part of the value or of its complement, or a
bitmask; only the last can go to the stack pointer. -/
def isMovImm (d : Reg) (v : Int64) : Bool :=
  isBitmaskImm v.toBitVec ||
    (d != .sp && (isWideImm v.toBitVec || isWideImm (~~~v.toBitVec)))

def Operand.takesArith (n : Reg) : Operand → Bool
  | .reg m none => m != .sp
  | .reg m (some shift) => m != .sp && n != .sp && shift.kind != .ror
  | .imm v => n != .xzr && isArithImm v

def Operand.takesLogic (n : Reg) : Operand → Bool
  | .reg m _ => m != .sp && n != .sp
  | .imm v => n != .sp && isBitmaskImm v.toBitVec

/-- A pair is addressed in eight-byte steps of seven bits. -/
def Address.ok : Address → Bool
  | .offset base o | .preIndex base o | .postIndex base o =>
    base != .xzr && o.toInt % 8 == 0 && decide (-512 ≤ o.toInt) && decide (o.toInt ≤ 504)

def Instr.ok : Instr → Bool
  | .movReg d m => !(d == .sp && m == .xzr) && !(d == .xzr && m == .sp)
  | .movImm d v => isMovImm d v
  | .alu op d n m =>
    match op with
    | .add | .sub => d != .xzr && m.takesArith n
    | .and | .orr | .eor => m.takesLogic n
  | .mvn d m _ => d != .sp && m != .sp
  | .neg d m shift => d != .sp && m != .sp && shift.all fun shift => shift.kind != .ror
  | .cmp n m => m.takesArith n
  | .stp a b address => a != .sp && b != .sp && address.ok
  | .ldp a b address => a != .sp && b != .sp && a != b && address.ok
  | .branch _ | .branchCond .. => true

def Item.labelOf : Item → Option LabelName
  | .label l => some l
  | .instr _ => none

def Item.branchOf : Item → Option LabelName
  | .instr (.branch l) | .instr (.branchCond _ l) => some l
  | _ => none

/-- No assembler takes the name of a register for a label. -/
def isRegName (text : Bytes) : Bool :=
  text == Reg.sp.text || text == Reg.xzr.text ||
    (List.finRange 31).any fun n => text == (Reg.x n).text

/-- The items are instructions with operands they take, labels of names of
their own, and branches to these labels. -/
structure WellFormed (items : List Item) : Prop where
  ok : ∀ i, .instr i ∈ items → i.ok = true
  distinct : (items.filterMap Item.labelOf).Nodup
  named : ∀ l ∈ items.filterMap Item.labelOf, isRegName l.text = false
  defined : ∀ e ∈ items, ∀ l, e.branchOf = some l → l ∈ items.filterMap Item.labelOf

/-- The directives that stand before the program. -/
def header : Bytes := bytes ".arch armv8-a\n.text\n\n"

/-- The text is a program: these items, line by line. -/
def Assembles (text : Bytes) (items : List Item) : Prop :=
  text = header ++ unlines (items.map Item.line) ∧ WellFormed items

/-! ## §4 Execution -/

structure State where
  x : Fin 31 → Word
  sp : Word
  mem : Memory
  flags : Flags

def State.get (t : State) : Reg → Word
  | .x n => t.x n
  | .sp => t.sp
  | .xzr => 0

def State.set (t : State) (r : Reg) (v : Word) : State :=
  match r with
  | .x n => { t with x := fun m => if m = n then v else t.x m }
  | .sp => { t with sp := v }
  | .xzr => t

@[simp] theorem State.set_mem (t : State) (r : Reg) (v : Word) : (t.set r v).mem = t.mem := by
  cases r <;> rfl

@[simp] theorem State.set_flags (t : State) (r : Reg) (v : Word) :
    (t.set r v).flags = t.flags := by
  cases r <;> rfl

theorem State.get_set (t : State) {r : Reg} (hr : r ≠ .xzr) (r' : Reg) (v : Word) :
    (t.set r v).get r' = if r' = r then v else t.get r' := by
  cases r <;> cases r' <;> simp_all [set, get]

def Shift.apply (shift : Shift) (v : Word) : Word :=
  match shift.kind with
  | .lsl => v <<< shift.amount.val
  | .lsr => v >>> shift.amount.val
  | .asr => v.sshiftRight shift.amount
  | .ror => v.rotateRight shift.amount

def shifted (shift : Option Shift) (v : Word) : Word :=
  match shift with
  | none => v
  | some shift => shift.apply v

def Operand.value (t : State) : Operand → Word
  | .reg r shift => shifted shift (t.get r)
  | .imm v => v.toBitVec

def AluOp.result (a b : Word) : AluOp → Word
  | .add => a + b
  | .sub => a - b
  | .and => a &&& b
  | .orr => a ||| b
  | .eor => a ^^^ b

/-- Where the pair is, and the state with the base register moved. -/
def Address.resolve (t : State) : Address → Word × State
  | .offset base o => (t.get base + o.toBitVec, t)
  | .preIndex base o => (t.get base + o.toBitVec, t.set base (t.get base + o.toBitVec))
  | .postIndex base o => (t.get base, t.set base (t.get base + o.toBitVec))

def Instr.exec (t : State) : Instr → Flow LabelName Word State
  | .movReg d m => .next (t.set d (t.get m))
  | .movImm d v => .next (t.set d v.toBitVec)
  | .alu op d n m => .next (t.set d (op.result (t.get n) (m.value t)))
  | .mvn d m shift => .next (t.set d (~~~(shifted shift (t.get m))))
  | .neg d m shift => .next (t.set d (-(shifted shift (t.get m))))
  | .cmp n m => .next { t with flags := subFlags (t.get n) (m.value t) }
  | .stp a b address =>
    let (at_, t') := address.resolve t
    .next { t' with mem := store64 (store64 t.mem at_ (t.get a)) (at_ + 8) (t.get b) }
  | .ldp a b address =>
    let (at_, t') := address.resolve t
    .next ((t'.set a (load64 t.mem at_)).set b (load64 t.mem (at_ + 8)))
  | .branch l => .goto l t
  | .branchCond cond l => if cond.holds t.flags then .goto l t else .next t

def Item.exec : Item → State → Flow LabelName Word State
  | .label _, t => .next t
  | .instr i, t => i.exec t

def code (items : List Item) : Listing Item LabelName Word State where
  items := items
  labelOf := Item.labelOf
  exec := Item.exec

end Aether.Asm.Arm64
