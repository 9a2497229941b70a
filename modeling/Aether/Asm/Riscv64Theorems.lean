/-
Aether.Asm.Riscv64Theorems — which blocks the RISC-V backend translates.

Of the lines of a block only labels, register moves, jumps and the pushes
and pops of a register are RISC-V assembly. A push and a pop are two lines
each and move the stack pointer by sixteen, the pop after it wrote its
register, where x86 moves it by eight: the text runs as the block does
under these rules (`wide`), and so means the same exactly when the block's
endings do not depend on them.
-/
import Aether.Asm.Riscv64
import Aether.Asm.Translation

namespace Aether.Asm.Riscv64

open Aether.Lib Aether.Lib.TextLines

/-! ## §1 Registers -/

/-- The register of the table's RISC-V column. -/
def ofX86 : X86.Reg → Reg
  | .rax => .a0
  | .rbx => .s1
  | .rcx => .a1
  | .rdx => .a2
  | .rsi => .a3
  | .rdi => .a4
  | .rbp => .s0
  | .rsp => .sp
  | .r8 => .a5
  | .r9 => .a6
  | .r10 => .a7
  | .r11 => .s2
  | .r12 => .s3
  | .r13 => .s4
  | .r14 => .s5
  | .r15 => .s6

theorem mapReg_asm (r : X86.Reg) : mapReg r.asm = (ofX86 r).text := by
  cases r <;> rfl

theorem mem_allRegs (r : Reg) : r ∈ allRegs := by
  cases r <;> decide

/-- The names are words, and no two are the same. -/
theorem allRegs_apart : (∀ r ∈ allRegs, r.text.all continuesLabel = true ∧
    r.text.head?.any startsLabel = true) ∧
    ∀ r ∈ allRegs, ∀ r' ∈ allRegs, r.text = r'.text → r = r' := by
  decide

theorem Reg.text_word (r : Reg) : r.text.all continuesLabel = true :=
  (allRegs_apart.1 r (mem_allRegs r)).1

theorem Reg.startsWord (r : Reg) : StartsWord r.text := by
  have h := (allRegs_apart.1 r (mem_allRegs r)).2
  cases htext : r.text with
  | nil => simp [htext] at h
  | cons c rest => exact ⟨c, rest, rfl, by simpa [htext] using h⟩

theorem Reg.text_injective {r r' : Reg} (h : r.text = r'.text) : r = r' :=
  allRegs_apart.2 r (mem_allRegs r) r' (mem_allRegs r') h

theorem isRegName_text (r : Reg) : isRegName r.text = true :=
  List.any_eq_true.mpr ⟨r, mem_allRegs r, by simp⟩

theorem ofX86_injective {r r' : X86.Reg} (h : ofX86 r = ofX86 r') : r = r' := by
  cases r <;> cases r' <;> first | rfl | cases h

theorem ofX86_ne_zero (r : X86.Reg) : ofX86 r ≠ .zero := by
  cases r <;> simp [ofX86]

/-! ## §2 The lines of a block -/

/-- What the mnemonics of the table are told apart by. -/
inductive Family where
  | mv | alu (op : AluOp) | addi | not | neg | sd | ld | j
  | beqz | bnez | bgt | bge | blt | ble
  deriving DecidableEq

def Family.mnemonic : Family → String
  | .mv => "mv"
  | .alu op => op.mnemonic
  | .addi => "addi"
  | .not => "not"
  | .neg => "neg"
  | .sd => "sd"
  | .ld => "ld"
  | .j => "j"
  | .beqz => "beqz"
  | .bnez => "bnez"
  | .bgt => "bgt"
  | .bge => "bge"
  | .blt => "blt"
  | .ble => "ble"

def families : List Family :=
  [.mv, .alu .add, .alu .sub, .alu .and, .alu .or, .alu .xor, .addi, .not, .neg, .sd, .ld, .j,
   .beqz, .bnez, .bgt, .bge, .blt, .ble]

def Instr.family : Instr → Family
  | .mv .. => .mv
  | .alu op .. => .alu op
  | .addi .. => .addi
  | .not .. => .not
  | .neg .. => .neg
  | .sd .. => .sd
  | .ld .. => .ld
  | .j .. => .j
  | .beqz .. => .beqz
  | .bnez .. => .bnez
  | .bgt .. => .bgt
  | .bge .. => .bge
  | .blt .. => .blt
  | .ble .. => .ble

/-- A comparison becomes a subtraction. -/
def familyOf : X86.Instr → Family
  | .bin .mov _ => .mv
  | .bin .add _ => .alu .add
  | .bin .sub _ => .alu .sub
  | .bin .and _ => .alu .and
  | .bin .or _ => .alu .or
  | .bin .xor _ => .alu .xor
  | .bin .cmp _ => .alu .sub
  | .un .not _ => .not
  | .un .neg _ => .neg
  | .push _ => .sd
  | .pop _ => .ld
  | .jmp _ | .jmpTo _ => .j
  | .jcc op _ =>
    match op with
    | .je | .jz => .beqz
    | .jne | .jnz => .bnez
    | .jg => .bgt
    | .jge => .bge
    | .jl => .blt
    | .jle => .ble

theorem mem_families (f : Family) : f ∈ families := by
  cases f with
  | alu op => cases op <;> decide
  | _ => decide

/-- No two mnemonics are the same and none has a blank or a newline. -/
theorem families_apart : (∀ f ∈ families, ∀ g ∈ families,
    bytes f.mnemonic = bytes g.mnemonic → f = g) ∧
    ∀ f ∈ families, (32 : UInt8) ∉ bytes f.mnemonic ∧ (10 : UInt8) ∉ bytes f.mnemonic := by
  decide

theorem Instr.mnemonic_eq (i : Instr) : i.mnemonic = i.family.mnemonic := by
  cases i <;> rfl

theorem mapMnemonic_eq (i : X86.Instr) :
    mapMnemonic backend.mnemonics i.asm.mnemonic = bytes (familyOf i).mnemonic := by
  cases i with
  | bin op args => cases op <;> rfl
  | un op dst => cases op <;> rfl
  | jcc op l => cases op <;> rfl
  | push | pop | jmp | jmpTo => rfl

def operandText : X86.Operand → Bytes
  | .reg r => (ofX86 r).text
  | .imm v => intDecimal v.toInt
  | .mem m => emitMem m.asm

def destText : X86.Dest → Bytes
  | .reg r => (ofX86 r).text
  | .mem m => emitMem m.asm

/-- The operands of an instruction that is no push or pop of a register. -/
def operandsOf : X86.Instr → Bytes
  | .bin _ args => destText args.dest ++ bytes ", " ++ operandText args.source
  | .un _ dst => destText dst
  | .push src => operandText src
  | .pop dst => destText dst
  | .jmp l | .jcc _ l => l.text
  | .jmpTo target => operandText target

/-- The lines of an element. -/
def linesOf : X86.Item → List Bytes
  | .label l => [labelLine l]
  | .instr (.push (.reg r)) =>
    [instrLine "sd" ((ofX86 r).text ++ bytes ", -16(sp)"), instrLine "addi" (bytes "sp, sp, -16")]
  | .instr (.pop (.reg r)) =>
    [instrLine "ld" ((ofX86 r).text ++ bytes ", 0(sp)"), instrLine "addi" (bytes "sp, sp, 16")]
  | .instr i => [instrLine (familyOf i).mnemonic (operandsOf i)]

theorem emitOp_operand (o : X86.Operand) : emitOp backend o.asm = operandText o := by
  cases o with
  | reg r => exact mapReg_asm r
  | imm v => rfl
  | mem m => rfl

theorem emitOp_dest (d : X86.Dest) : emitOp backend d.asm = destText d := by
  cases d with
  | reg r => exact mapReg_asm r
  | mem m => rfl

theorem emitOperands_pair (args : X86.Pair) :
    emitOperands backend args.asm =
      bytes " " ++ (destText args.dest ++ bytes ", " ++ operandText args.source) := by
  cases args <;>
    simp [X86.Pair.asm, X86.Pair.dest, X86.Pair.source, emitOperands, ← emitOp_operand,
      ← emitOp_dest, X86.Operand.asm, X86.Dest.asm]

theorem emitOperands_eq (i : X86.Instr) :
    emitOperands backend i.asm.operands = bytes " " ++ operandsOf i := by
  cases i with
  | bin op args => exact emitOperands_pair args
  | un op dst => simp [X86.Instr.asm, emitOperands, operandsOf, emitOp_dest]
  | push src => simp [X86.Instr.asm, emitOperands, operandsOf, emitOp_operand]
  | pop dst => simp [X86.Instr.asm, emitOperands, operandsOf, emitOp_dest]
  | jmp l => simp [X86.Instr.asm, emitOperands, operandsOf, emitOp, asmOpLabel]
  | jmpTo target => simp [X86.Instr.asm, emitOperands, operandsOf, emitOp_operand]
  | jcc op l => simp [X86.Instr.asm, emitOperands, operandsOf, emitOp, asmOpLabel]

theorem emitInstr_other {i : X86.Instr} (hpush : i.pushed = none) (hpop : i.popped = none) :
    emitInstr backend i.asm = unlines [instrLine (familyOf i).mnemonic (operandsOf i)] := by
  have hnewline : bytes "\n" = [10] := rfl
  rw [emitInstr_of_other backend hpush hpop, emitOperands_eq, mapMnemonic_eq, hnewline]
  simp [instrLine]

theorem emitInstr_eq (i : X86.Instr) : emitInstr backend i.asm = unlines (linesOf (.instr i)) := by
  cases i with
  | push src =>
    cases src with
    | reg r =>
      have hwrite : bytes ", -16(sp)\n    addi sp, sp, -16\n" =
          bytes ", -16(sp)" ++ 10 :: (instrLine "addi" (bytes "sp, sp, -16") ++ [10]) := rfl
      rw [emitInstr_of_pushed backend rfl, mapMnemonic_eq]
      change _ ++ (bytes " " ++ mapReg r.asm ++ bytes ", -16(sp)\n    addi sp, sp, -16\n") = _
      rw [mapReg_asm, hwrite]
      simp [linesOf, instrLine, familyOf, Family.mnemonic]
    | imm v => exact emitInstr_other rfl rfl
    | mem m => exact emitInstr_other rfl rfl
  | pop dst =>
    cases dst with
    | reg r =>
      have hwrite : bytes ", 0(sp)\n    addi sp, sp, 16\n" =
          bytes ", 0(sp)" ++ 10 :: (instrLine "addi" (bytes "sp, sp, 16") ++ [10]) := rfl
      rw [emitInstr_of_popped backend rfl rfl, mapMnemonic_eq]
      change _ ++ (bytes " " ++ mapReg r.asm ++ bytes ", 0(sp)\n    addi sp, sp, 16\n") = _
      rw [mapReg_asm, hwrite]
      simp [linesOf, instrLine, familyOf, Family.mnemonic]
    | mem m => exact emitInstr_other rfl rfl
  | bin | un | jmp | jmpTo | jcc => exact emitInstr_other rfl rfl

theorem emitBlock_eq (block : X86.Block) :
    emitBlock backend block.asm = header ++ unlines (block.flatMap linesOf) := by
  have helement : ∀ e : X86.Item, emitElement backend e.asm = unlines (linesOf e) := by
    intro e
    cases e with
    | label l =>
      have hcolon : bytes ":\n" = bytes ":" ++ [10] := rfl
      simp [X86.Item.asm, emitElement, linesOf, labelLine, hcolon]
    | instr i => exact emitInstr_eq i
  rw [emitBlock, X86.Block.asm, List.flatMap_map, unlines_flatMap]
  simp only [helement]
  rfl

/-! ## §3 The instructions that the lines spell -/

/-- `-16(sp)` and `0(sp)`. -/
def slotBelow : Address := { offset := some (-16), base := .sp }

def slotAt : Address := { offset := some 0, base := .sp }

/-- The items of an element's lines, where the lines are some. -/
def readItems : X86.Item → Option (List Item)
  | .label l => some [.label l]
  | .instr (.bin .mov (.toReg d (.reg m))) => some [.instr (.mv (ofX86 d) (ofX86 m))]
  | .instr (.push (.reg r)) => some [.instr (.sd (ofX86 r) slotBelow), .instr (.addi .sp .sp (-16))]
  | .instr (.pop (.reg r)) => some [.instr (.ld (ofX86 r) slotAt), .instr (.addi .sp .sp 16)]
  | .instr (.jmp l) => some [.instr (.j l)]
  | _ => none

theorem intDecimal_slots : intDecimal (-16 : Int64).toInt = bytes "-16" ∧
    intDecimal (16 : Int64).toInt = bytes "16" ∧ intDecimal (0 : Int64).toInt = bytes "0" := by
  have hneg : (-16 : Int64).toInt = -16 := by decide
  have hpos : (16 : Int64).toInt = 16 := by decide
  have hzero : (0 : Int64).toInt = 0 := by decide
  have hsixteen : Numerals.decimal 16 = bytes "16" := by
    rw [Numerals.decimal_of_le (by omega), Numerals.decimal_of_lt (by omega)]
    rfl
  have hnone : Numerals.decimal 0 = bytes "0" := by
    rw [Numerals.decimal_of_lt (by omega)]
    rfl
  rw [hneg, hpos, hzero]
  refine ⟨?_, hsixteen, hnone⟩
  change 45 :: Numerals.decimal 16 = _
  rw [hsixteen]
  rfl

theorem slot_text : slotBelow.text = bytes "-16(sp)" ∧ slotAt.text = bytes "0(sp)" := by
  constructor
  · simp only [slotBelow, Address.text, intDecimal_slots]
    rfl
  · simp only [slotAt, Address.text, intDecimal_slots]
    rfl

theorem lines_of_readItems {e : X86.Item} {items : List Item} (h : readItems e = some items) :
    items.map Item.line = linesOf e := by
  have hbelow : bytes ", -16(sp)" = bytes ", " ++ slotBelow.text := by rw [slot_text.1]; rfl
  have hat : bytes ", 0(sp)" = bytes ", " ++ slotAt.text := by rw [slot_text.2]; rfl
  have hdown : bytes "sp, sp, -16" = Reg.sp.text ++ bytes ", " ++ (Reg.sp.text ++ bytes ", " ++
      intDecimal (-16 : Int64).toInt) := by rw [intDecimal_slots.1]; rfl
  have hup : bytes "sp, sp, 16" = Reg.sp.text ++ bytes ", " ++ (Reg.sp.text ++ bytes ", " ++
      intDecimal (16 : Int64).toInt) := by rw [intDecimal_slots.2.1]; rfl
  unfold readItems at h
  split at h <;> simp only [Option.some.injEq, reduceCtorEq] at h <;> subst h
  · rfl
  · rfl
  · simp [linesOf, hbelow, hdown, Item.line, instrLine, Instr.mnemonic, Instr.operands]
  · simp [linesOf, hat, hup, Item.line, instrLine, Instr.mnemonic, Instr.operands]
  · rfl

/-- The operand texts are of two kinds, told apart by the first byte. -/
inductive OperandKind : Bytes → Prop where
  | reg (r : Reg) : OperandKind r.text
  | other (c : UInt8) (rest : Bytes) (hc : startsLabel c = false) : OperandKind (c :: rest)

theorem emitMem_cons (m : X86.Mem) :
    ∃ c rest, emitMem m.asm = c :: rest ∧ startsLabel c = false := by
  have hopen : bytes "(" = [40] := rfl
  have hnumber : ∀ (i : Int) (more : Bytes), ∃ c rest,
      intDecimal i ++ more = c :: rest ∧ startsLabel c = false := by
    intro i more
    obtain ⟨c, rest, hi, hc⟩ := intDecimal_cons i
    exact ⟨c, rest ++ more, by rw [hi]; rfl, hc⟩
  cases m <;>
    simp only [X86.Mem.asm, asmMemBase, asmMemBaseDisp, asmMemBaseIndex, asmMemFull, asmMemRipRel,
      emitMem, hopen, List.append_assoc, List.cons_append, List.nil_append, ne_eq]
  case baseDisp | baseIndexDisp => exact hnumber _ _
  case direct | absolute => split <;> exact ⟨_, _, rfl, rfl⟩
  all_goals exact ⟨_, _, rfl, rfl⟩

theorem operandText_kind (o : X86.Operand) : OperandKind (operandText o) := by
  cases o with
  | reg r => exact .reg _
  | imm v =>
    obtain ⟨c, rest, hi, hc⟩ := intDecimal_cons v.toInt
    exact (congrArg OperandKind hi).mpr (.other c rest hc)
  | mem m =>
    obtain ⟨c, rest, hm, hc⟩ := emitMem_cons m
    exact (congrArg OperandKind hm).mpr (.other c rest hc)

theorem destText_kind (d : X86.Dest) : OperandKind (destText d) := by
  cases d with
  | reg r => exact .reg _
  | mem m => exact operandText_kind (.mem m)

/-- Before the first comma a register name is all there can be. -/
theorem reg_comma_inj {r r' : Reg} {rest rest' : Bytes}
    (h : r.text ++ bytes ", " ++ rest = r'.text ++ bytes ", " ++ rest') : r = r' ∧ rest = rest' := by
  have hcomma : bytes ", " = [44, 32] := rfl
  simp only [hcomma, List.append_assoc, List.cons_append, List.nil_append] at h
  obtain ⟨hreg, hrest⟩ := append_cons_inj (notMem_of_word r.text_word rfl)
    (notMem_of_word r'.text_word rfl) h
  exact ⟨Reg.text_injective hreg, (List.cons.inj hrest).2⟩

/-- One operand is no register with another part behind a comma. -/
theorem kind_ne_list {text : Bytes} (h : OperandKind text) (r : Reg) (rest : Bytes) :
    text ≠ r.text ++ bytes ", " ++ rest := by
  have hcomma : bytes ", " = [44, 32] := rfl
  intro heq
  simp only [hcomma, List.append_assoc, List.cons_append, List.nil_append] at heq
  cases h with
  | reg r' => exact ne_append_cons (notMem_of_word r'.text_word rfl) heq
  | other c more hc => exact r.startsWord.ne_cons hc heq.symm

/-- A word is no register with another part behind a comma. -/
theorem label_ne_list (l : LabelName) (r : Reg) (rest : Bytes) :
    l.text ≠ r.text ++ bytes ", " ++ rest := by
  have hcomma : bytes ", " = [44, 32] := rfl
  simp only [hcomma, List.append_assoc, List.cons_append, List.nil_append]
  exact ne_append_cons (notMem_of_word l.text_word rfl)

/-- A two-operand line is read as a register and what follows the comma. -/
theorem pair_inv {args : X86.Pair} {r : Reg} {rest : Bytes}
    (h : r.text ++ bytes ", " ++ rest = destText args.dest ++ bytes ", " ++ operandText args.source) :
    ∃ d src, args = .toReg d src ∧ r = ofX86 d ∧ rest = operandText src := by
  cases args with
  | toReg d src =>
    obtain ⟨hr, hrest⟩ := reg_comma_inj h
    exact ⟨d, src, rfl, hr, hrest⟩
  | regToMem dst src | immToMem dst src =>
    obtain ⟨c, tail, hm, hc⟩ := emitMem_cons dst
    simp only [X86.Pair.dest, destText, hm, List.append_assoc, List.cons_append] at h
    exact absurd h (r.startsWord.ne_cons hc)

/-- A register name is the text of no other operand. -/
theorem reg_operand_inv {o : X86.Operand} {r : Reg} (h : r.text = operandText o) :
    ∃ r', o = .reg r' ∧ r = ofX86 r' := by
  cases o with
  | reg r' => exact ⟨r', rfl, Reg.text_injective h⟩
  | imm v =>
    obtain ⟨c, rest, hi, hc⟩ := intDecimal_cons v.toInt
    rw [operandText, hi] at h
    exact absurd h (r.startsWord.ne hc)
  | mem m =>
    obtain ⟨c, rest, hm, hc⟩ := emitMem_cons m
    rw [operandText, hm] at h
    exact absurd h (r.startsWord.ne hc)

/-- What a jump goes to is a label, not an operand. -/
theorem label_operand_ne {l : LabelName} (hl : isRegName l.text = false) (o : X86.Operand) :
    l.text ≠ operandText o := by
  intro h
  cases o with
  | reg r =>
    rw [h, operandText, isRegName_text] at hl
    exact absurd hl (by simp)
  | imm v =>
    obtain ⟨c, rest, hi, hc⟩ := intDecimal_cons v.toInt
    rw [operandText, hi] at h
    exact l.startsWord.ne hc h
  | mem m =>
    obtain ⟨c, rest, hm, hc⟩ := emitMem_cons m
    rw [operandText, hm] at h
    exact l.startsWord.ne hc h

/-- A branch of the item goes to something that is no register. -/
def BranchesToName (item : Item) : Prop :=
  ∀ l, item.branchOf = some l → isRegName l.text = false

/-- An instruction other than a push or a pop of a register, and a RISC-V
instruction of the same mnemonic and the same operands. -/
theorem readItems_of_operands {i : X86.Instr} {j : Instr} (hpush : i.pushed = none)
    (hpop : i.popped = none) (hfamily : j.family = familyOf i) (hops : j.operands = operandsOf i)
    (hbranch : BranchesToName (.instr j)) : readItems (.instr i) = some [.instr j] := by
  cases i with
  | bin op args =>
    cases j with
    | mv d m =>
      cases op with
      | mov =>
        obtain ⟨d', src, rfl, rfl, hsrc⟩ := pair_inv hops
        obtain ⟨r', rfl, rfl⟩ := reg_operand_inv hsrc
        rfl
      | _ => simp [Instr.family, familyOf] at hfamily
    | alu aluOp d a b =>
      obtain ⟨d', src, rfl, rfl, hsrc⟩ := pair_inv hops
      exact absurd hsrc.symm (kind_ne_list (operandText_kind src) a b.text)
    | _ => cases op <;> simp [Instr.family, familyOf] at hfamily
  | un op dst =>
    cases j with
    | not d m | neg d m => exact absurd hops.symm (kind_ne_list (destText_kind dst) d _)
    | _ => cases op <;> simp [Instr.family, familyOf] at hfamily
  | push src =>
    cases j with
    | sd a address => exact absurd hops.symm (kind_ne_list (operandText_kind src) a _)
    | _ => simp [Instr.family, familyOf] at hfamily
  | pop dst =>
    cases j with
    | ld a address => exact absurd hops.symm (kind_ne_list (destText_kind dst) a _)
    | _ => simp [Instr.family, familyOf] at hfamily
  | jmp l =>
    cases j with
    | j m => rw [LabelName.text_injective hops]; rfl
    | _ => simp [Instr.family, familyOf] at hfamily
  | jmpTo target =>
    cases j with
    | j m => exact absurd hops (label_operand_ne (hbranch m rfl) target)
    | _ => simp [Instr.family, familyOf] at hfamily
  | jcc op l =>
    cases j with
    | beqz a m | bnez a m | bgt a b m | bge a b m | blt a b m | ble a b m =>
      exact absurd hops.symm (label_ne_list l a _)
    | _ => cases op <;> simp [Instr.family, familyOf] at hfamily

/-- The offset in front of the bracket. -/
theorem Address.text_split (a : Address) : ∃ left, a.text = left ++ 40 :: (a.base.text ++ bytes ")") ∧
    (40 : UInt8) ∉ left ∧
      ((a.offset = none ∧ left = []) ∨ ∃ v, a.offset = some v ∧ left = intDecimal v.toInt) := by
  have hopen : bytes "(" = [40] := rfl
  obtain ⟨o, base⟩ := a
  cases o with
  | none => exact ⟨[], by simp [Address.text, hopen], by simp, .inl ⟨rfl, rfl⟩⟩
  | some v =>
    exact ⟨intDecimal v.toInt, by simp [Address.text, hopen],
      notMem_intDecimal (by decide) (by decide), .inr ⟨v, rfl, rfl⟩⟩

theorem Address.text_injective {a b : Address} (h : a.text = b.text) : a = b := by
  obtain ⟨left, htext, hleft, hoffset⟩ := a.text_split
  obtain ⟨left', htext', hleft', hoffset'⟩ := b.text_split
  rw [htext, htext'] at h
  obtain ⟨hsame, hright⟩ := append_cons_inj hleft hleft' h
  have hbase := Reg.text_injective (List.append_cancel_right hright)
  have ho : a.offset = b.offset := by
    obtain ⟨hnone, hnil⟩ | ⟨v, hsome, hdecimal⟩ := hoffset
    · obtain ⟨hnone', -⟩ | ⟨v', -, hdecimal'⟩ := hoffset'
      · rw [hnone, hnone']
      · rw [hnil, hdecimal'] at hsame
        exact absurd hsame.symm (intDecimal_ne_nil _)
    · obtain ⟨-, hnil'⟩ | ⟨v', hsome', hdecimal'⟩ := hoffset'
      · rw [hdecimal, hnil'] at hsame
        exact absurd hsame (intDecimal_ne_nil _)
      · rw [hdecimal, hdecimal'] at hsame
        rw [hsome, hsome', Int64.toInt_inj.mp (intDecimal_injective hsame)]
  obtain ⟨o, base⟩ := a
  obtain ⟨o', base'⟩ := b
  rw [show o = o' from ho, show base = base' from hbase]

/-- A line with the mnemonic of a family is an instruction of it. -/
theorem instr_of_line {item : Item} {f : Family} {ops : Bytes}
    (h : item.line = instrLine f.mnemonic ops) :
    ∃ j, item = .instr j ∧ j.family = f ∧ j.operands = ops := by
  have hblank : ∀ f : Family, (32 : UInt8) ∉ bytes f.mnemonic := fun f =>
    (families_apart.2 f (mem_families f)).1
  cases item with
  | label m => exact absurd h (labelLine_ne_instrLine m _ _)
  | instr j =>
    obtain ⟨hmnemonic, hops⟩ := instrLine_inj (m := j.mnemonic)
      (j.mnemonic_eq ▸ hblank _) (hblank f) h
    rw [j.mnemonic_eq] at hmnemonic
    exact ⟨j, rfl, families_apart.1 _ (mem_families _) _ (mem_families _) hmnemonic, hops⟩

theorem sd_of_line {item : Item} {r : Reg} {address : Address}
    (h : item.line = instrLine "sd" (r.text ++ bytes ", " ++ address.text)) :
    item = .instr (.sd r address) := by
  obtain ⟨j, rfl, hfamily, hops⟩ := instr_of_line (f := .sd) h
  cases j with
  | sd a address' =>
    obtain ⟨rfl, haddress⟩ := reg_comma_inj hops
    rw [Address.text_injective haddress]
  | _ => simp [Instr.family] at hfamily

theorem ld_of_line {item : Item} {r : Reg} {address : Address}
    (h : item.line = instrLine "ld" (r.text ++ bytes ", " ++ address.text)) :
    item = .instr (.ld r address) := by
  obtain ⟨j, rfl, hfamily, hops⟩ := instr_of_line (f := .ld) h
  cases j with
  | ld a address' =>
    obtain ⟨rfl, haddress⟩ := reg_comma_inj hops
    rw [Address.text_injective haddress]
  | _ => simp [Instr.family] at hfamily

theorem addi_of_line {item : Item} {d a : Reg} {v : Int64}
    (h : item.line = instrLine "addi" (d.text ++ bytes ", " ++ (a.text ++ bytes ", " ++
      intDecimal v.toInt))) : item = .instr (.addi d a v) := by
  obtain ⟨j, rfl, hfamily, hops⟩ := instr_of_line (f := .addi) h
  cases j with
  | addi d' a' v' =>
    obtain ⟨rfl, hrest⟩ := reg_comma_inj hops
    obtain ⟨rfl, hv⟩ := reg_comma_inj hrest
    rw [Int64.toInt_inj.mp (intDecimal_injective hv)]
  | _ => simp [Instr.family] at hfamily

theorem readItems_of_lines {e : X86.Item} {items : List Item}
    (hok : ∀ k ∈ items, BranchesToName k) (h : items.map Item.line = linesOf e) :
    readItems e = some items := by
  have hother : ∀ i : X86.Instr, i.pushed = none → i.popped = none →
      items.map Item.line = [instrLine (familyOf i).mnemonic (operandsOf i)] →
      readItems (.instr i) = some items := by
    intro i hpush hpop hlines
    obtain ⟨item, rfl, hline⟩ := List.map_eq_singleton_iff.mp hlines
    obtain ⟨j, rfl, hfamily, hops⟩ := instr_of_line hline
    exact readItems_of_operands hpush hpop hfamily hops (hok _ (by simp))
  cases e with
  | label l =>
    obtain ⟨item, rfl, hline⟩ := List.map_eq_singleton_iff.mp h
    cases item with
    | label m => rw [labelLine_inj (l := m) (m := l) hline]; rfl
    | instr j => exact absurd hline.symm (labelLine_ne_instrLine l _ _)
  | instr i =>
    cases i with
    | push src =>
      cases src with
      | reg r =>
        rw [← lines_of_readItems (e := .instr (.push (.reg r))) rfl, List.map_cons, List.map_cons,
          List.map_nil] at h
        obtain ⟨first, rest, rfl, hfirst, hrest⟩ := List.map_eq_cons_iff.mp h
        obtain ⟨second, rfl, hsecond⟩ := List.map_eq_singleton_iff.mp hrest
        rw [sd_of_line hfirst, addi_of_line hsecond]
        rfl
      | imm v => exact hother _ rfl rfl h
      | mem m => exact hother _ rfl rfl h
    | pop dst =>
      cases dst with
      | reg r =>
        rw [← lines_of_readItems (e := .instr (.pop (.reg r))) rfl, List.map_cons, List.map_cons,
          List.map_nil] at h
        obtain ⟨first, rest, rfl, hfirst, hrest⟩ := List.map_eq_cons_iff.mp h
        obtain ⟨second, rfl, hsecond⟩ := List.map_eq_singleton_iff.mp hrest
        rw [ld_of_line hfirst, addi_of_line hsecond]
        rfl
      | mem m => exact hother _ rfl rfl h
    | bin | un | jmp | jmpTo | jcc => exact hother _ rfl rfl h

/-! ## §4 The program that a block's text is -/

def itemsOf (e : X86.Item) : List Item := (readItems e).getD []

/-- What the RISC-V text of an element needs for its lines to be ones that
the assembler takes. -/
def Takes : X86.Item → Bool
  | .label l => !isRegName l.text
  | .instr (.bin .mov (.toReg _ (.reg _))) => true
  | .instr (.push (.reg _)) => true
  | .instr (.pop (.reg _)) => true
  | .instr (.jmp _) => true
  | _ => false

theorem newline_notMem_reg (r : Reg) : (10 : UInt8) ∉ r.text := notMem_of_word r.text_word rfl

theorem newline_notMem_label (l : LabelName) : (10 : UInt8) ∉ l.text := notMem_of_word l.text_word rfl

theorem newline_notMem_intDecimal (i : Int) : (10 : UInt8) ∉ intDecimal i :=
  notMem_intDecimal (by decide) (by decide)

theorem newline_notMem_literals : ∀ text ∈ [bytes ", ", bytes "(", bytes ")", bytes "(a0)",
    bytes ", -16(sp)", bytes ", 0(sp)", bytes "sp, sp, -16", bytes "sp, sp, 16", bytes "addi",
    bytes "sd", bytes "ld"], (10 : UInt8) ∉ text := by
  decide

theorem newline_notMem_operandText (o : X86.Operand) : (10 : UInt8) ∉ operandText o := by
  have hlit := newline_notMem_literals
  simp only [List.forall_mem_cons] at hlit
  cases o with
  | reg r => exact newline_notMem_reg _
  | imm v => exact newline_notMem_intDecimal _
  | mem m =>
    cases m <;>
      simp [operandText, X86.Mem.asm, asmMemBase, asmMemBaseDisp, asmMemBaseIndex, asmMemFull,
        asmMemRipRel, asmMemInit, emitMem, mapReg_asm, newline_notMem_reg,
        newline_notMem_intDecimal, newline_notMem_label, hlit]
    all_goals split <;> simp [newline_notMem_label, newline_notMem_intDecimal, hlit]

theorem newline_notMem_destText (d : X86.Dest) : (10 : UInt8) ∉ destText d := by
  cases d with
  | reg r => exact newline_notMem_reg _
  | mem m => exact newline_notMem_operandText (.mem m)

theorem newline_notMem_mnemonic (f : Family) : (10 : UInt8) ∉ bytes f.mnemonic :=
  (families_apart.2 f (mem_families f)).2

theorem newline_notMem_line (item : Item) : (10 : UInt8) ∉ item.line := by
  cases item with
  | label l => exact notMem_labelLine l
  | instr j =>
    have hlit := newline_notMem_literals
    simp only [List.forall_mem_cons] at hlit
    have haddress : ∀ a : Address, (10 : UInt8) ∉ a.text := by
      intro a
      obtain ⟨o, base⟩ := a
      cases o <;> simp [Address.text, newline_notMem_reg, newline_notMem_intDecimal, hlit]
    have hoperand : ∀ o : Operand, (10 : UInt8) ∉ o.text := by
      intro o
      cases o with
      | reg r => exact newline_notMem_reg r
      | imm v => exact newline_notMem_intDecimal _
    apply notMem_instrLine
    · rw [j.mnemonic_eq]
      exact newline_notMem_mnemonic _
    · cases j <;>
        simp [Instr.operands, newline_notMem_reg, newline_notMem_intDecimal, hoperand, haddress,
          newline_notMem_label, hlit]

theorem newline_notMem_linesOf (e : X86.Item) : ∀ l ∈ linesOf e, (10 : UInt8) ∉ l := by
  have hlit := newline_notMem_literals
  simp only [List.forall_mem_cons] at hlit
  have hother : ∀ i : X86.Instr,
      (10 : UInt8) ∉ instrLine (familyOf i).mnemonic (operandsOf i) := by
    intro i
    apply notMem_instrLine (newline_notMem_mnemonic _)
    cases i <;>
      simp [operandsOf, newline_notMem_destText, newline_notMem_operandText, newline_notMem_label,
        hlit]
  intro l hl
  unfold linesOf at hl
  split at hl
  · rw [List.mem_singleton.mp hl]
    exact notMem_labelLine _
  · simp only [List.mem_cons, List.not_mem_nil, or_false] at hl
    cases hl with
    | inl h => rw [h]; exact notMem_instrLine (by simp [hlit]) (by simp [newline_notMem_reg, hlit])
    | inr h => rw [h]; exact notMem_instrLine (by simp [hlit]) (by simp [hlit])
  · simp only [List.mem_cons, List.not_mem_nil, or_false] at hl
    cases hl with
    | inl h => rw [h]; exact notMem_instrLine (by simp [hlit]) (by simp [newline_notMem_reg, hlit])
    | inr h => rw [h]; exact notMem_instrLine (by simp [hlit]) (by simp [hlit])
  · rw [List.mem_singleton.mp hl]
    exact hother _

/-- The text is one program at most: what the elements are read as. -/
theorem items_of_text {block : X86.Block} {items : List Item}
    (hok : ∀ k ∈ items, BranchesToName k)
    (h : emitBlock backend block.asm = header ++ unlines (items.map Item.line)) :
    (∀ e ∈ block, (readItems e).isSome) ∧ items = block.flatMap itemsOf := by
  rw [emitBlock_eq] at h
  have hwritten : ∀ l ∈ block.flatMap linesOf, (10 : UInt8) ∉ l := by
    intro l hl
    obtain ⟨e, -, hl⟩ := List.mem_flatMap.mp hl
    exact newline_notMem_linesOf e l hl
  have hread : ∀ l ∈ items.map Item.line, (10 : UInt8) ∉ l := by
    intro l hl
    obtain ⟨item, -, rfl⟩ := List.mem_map.mp hl
    exact newline_notMem_line item
  have hlines := unlines_inj hwritten hread (List.append_cancel_left h)
  exact read_of_lines (fun e items => readItems_of_lines) hok hlines.symm

theorem text_of_items {block : X86.Block} (h : ∀ e ∈ block, (readItems e).isSome) :
    emitBlock backend block.asm = header ++ unlines ((block.flatMap itemsOf).map Item.line) := by
  rw [emitBlock_eq]
  congr 2
  exact (lines_of_read (fun e items => lines_of_readItems) h).symm

theorem itemsOf_of_readItems {e : X86.Item} {items : List Item} (h : readItems e = some items) :
    itemsOf e = items := by
  rw [itemsOf, h]
  rfl

/-- What the items of an element have of its label and its jump. -/
theorem readItems_labels {e : X86.Item} {items : List Item} (h : readItems e = some items) :
    items.filterMap Item.labelOf = e.labelOf.toList ∧
      items.filterMap Item.branchOf = e.jumpOf.toList := by
  unfold readItems at h
  split at h <;> simp only [Option.some.injEq, reduceCtorEq] at h <;> subst h <;>
    exact ⟨rfl, rfl⟩

theorem takes_iff (e : X86.Item) :
    Takes e = true ↔ (readItems e).isSome ∧ ∀ l, e.labelOf = some l → isRegName l.text = false := by
  unfold Takes readItems
  split <;> simp [X86.Item.labelOf]

/-- The items that the backend can write are all ones the assembler takes. -/
theorem ok_of_readItems {e : X86.Item} {items : List Item} (h : readItems e = some items) :
    ∀ i, .instr i ∈ items → i.ok = true := by
  unfold readItems at h
  split at h <;> simp only [Option.some.injEq, reduceCtorEq] at h <;> subst h <;>
    simp [Instr.ok, slotBelow, slotAt, isImm12]

theorem labels_of_items {block : X86.Block} (h : ∀ e ∈ block, (readItems e).isSome) :
    (block.flatMap itemsOf).filterMap Item.labelOf = block.labels := by
  apply labels_flatMap
  intro e he
  obtain ⟨items, hread⟩ := Option.isSome_iff_exists.mp (h e he)
  rw [itemsOf_of_readItems hread]
  exact (readItems_labels hread).1

theorem wellFormed_iff {block : X86.Block} (h : ∀ e ∈ block, (readItems e).isSome) :
    WellFormed (block.flatMap itemsOf) ↔ X86.LabelsFit block ∧ ∀ e ∈ block, Takes e = true := by
  have hread : ∀ e ∈ block, ∃ items, readItems e = some items := fun e he =>
    Option.isSome_iff_exists.mp (h e he)
  have hmem : ∀ item, item ∈ block.flatMap itemsOf ↔
      ∃ e ∈ block, ∃ items, readItems e = some items ∧ item ∈ items := by
    intro item
    rw [List.mem_flatMap]
    constructor
    · rintro ⟨e, he, hitem⟩
      obtain ⟨items, hitems⟩ := hread e he
      rw [itemsOf_of_readItems hitems] at hitem
      exact ⟨e, he, items, hitems, hitem⟩
    · rintro ⟨e, he, items, hitems, hitem⟩
      exact ⟨e, he, by rw [itemsOf_of_readItems hitems]; exact hitem⟩
  have hlabels := labels_of_items h
  constructor
  · intro hwell
    refine ⟨⟨hlabels ▸ hwell.distinct, ?_⟩, ?_⟩
    · intro e he l hjump
      obtain ⟨items, hitems⟩ := hread e he
      have hbranch : l ∈ items.filterMap Item.branchOf := by
        rw [(readItems_labels hitems).2, hjump]
        simp
      obtain ⟨item, hitem, hl⟩ := List.mem_filterMap.mp hbranch
      rw [← hlabels]
      exact hwell.defined item ((hmem item).mpr ⟨e, he, items, hitems, hitem⟩) l hl
    · intro e he
      refine (takes_iff e).mpr ⟨h e he, fun l hl => hwell.named l ?_⟩
      rw [hlabels]
      exact List.mem_filterMap.mpr ⟨e, he, hl⟩
  · rintro ⟨hfit, htakes⟩
    constructor
    · intro i hi
      obtain ⟨e, he, items, hitems, hitem⟩ := (hmem _).mp hi
      exact ok_of_readItems hitems i hitem
    · rw [hlabels]
      exact hfit.distinct
    · intro l hl
      rw [hlabels] at hl
      obtain ⟨e, he, hlabel⟩ := List.mem_filterMap.mp hl
      exact ((takes_iff e).mp (htakes e he)).2 l hlabel
    · intro item hin l hl
      obtain ⟨e, he, items, hitems, hitem⟩ := (hmem item).mp hin
      have hbranch : l ∈ items.filterMap Item.branchOf := List.mem_filterMap.mpr ⟨item, hitem, hl⟩
      rw [(readItems_labels hitems).2] at hbranch
      rw [hlabels]
      exact hfit.defined e he l (by simpa using hbranch)

/-- The text of a block is a program when the assembler takes every line. -/
theorem assembles_iff (block : X86.Block) (items : List Item) :
    Assembles (emitBlock backend block.asm) items ↔
      X86.LabelsFit block ∧ (∀ e ∈ block, Takes e = true) ∧ items = block.flatMap itemsOf := by
  constructor
  · rintro ⟨htext, hwell⟩
    have hok : ∀ k ∈ items, BranchesToName k := fun k hk l hl =>
      hwell.named l (hwell.defined k hk l hl)
    obtain ⟨hsome, rfl⟩ := items_of_text hok htext
    obtain ⟨hfit, htakes⟩ := (wellFormed_iff hsome).mp hwell
    exact ⟨hfit, htakes, rfl⟩
  · rintro ⟨hfit, htakes, rfl⟩
    have hsome : ∀ e ∈ block, (readItems e).isSome := fun e he =>
      ((takes_iff e).mp (htakes e he)).1
    exact ⟨text_of_items hsome, (wellFormed_iff hsome).mpr ⟨hfit, htakes⟩⟩

/-! ## §5 Runs -/

/-- The states that the register table relates: each register holds what the
x86 register of its row holds, and the memory is the same. -/
structure Related (s : X86.State) (t : State) : Prop where
  regs : ∀ r reg, mapReg r.asm = Reg.text reg → t.get reg = s.regs r
  mem : t.mem = s.mem

theorem related_iff (s : X86.State) (t : State) :
    Related s t ↔ (∀ r, t.get (ofX86 r) = s.regs r) ∧ t.mem = s.mem := by
  constructor
  · rintro ⟨hregs, hmem⟩
    exact ⟨fun r => hregs r _ (mapReg_asm r), hmem⟩
  · rintro ⟨hregs, hmem⟩
    refine ⟨fun r reg h => ?_, hmem⟩
    rw [mapReg_asm] at h
    exact Reg.text_injective h ▸ hregs r

theorem Related.set {s : X86.State} {t : State} (h : Related s t) (r : X86.Reg) (v : Word) :
    Related (s.set r v) (t.set (ofX86 r) v) := by
  obtain ⟨hregs, hmem⟩ := (related_iff s t).mp h
  refine (related_iff _ _).mpr ⟨fun r' => ?_, by simpa using hmem⟩
  rw [State.get_set t (ofX86_ne_zero r), X86.State.set_regs]
  by_cases heq : r' = r
  · rw [if_pos heq, if_pos (congrArg ofX86 heq)]
  · rw [if_neg heq, if_neg fun h => heq (ofX86_injective h)]
    exact hregs r'

theorem State.get_withMem (t : State) (mem : Memory) (r : Reg) :
    State.get { t with mem := mem } r = t.get r := rfl

theorem Related.withMem {s : X86.State} {t : State} (h : Related s t) (mem : Memory) :
    Related { s with mem := mem } { t with mem := mem } := ⟨h.regs, rfl⟩

/-- Every x86 state has a state it is related to. -/
theorem exists_related (s : X86.State) : ∃ t, Related s t := by
  refine ⟨⟨fun reg => match reg with
    | .a0 => s.regs .rax | .s1 => s.regs .rbx | .a1 => s.regs .rcx | .a2 => s.regs .rdx
    | .a3 => s.regs .rsi | .a4 => s.regs .rdi | .s0 => s.regs .rbp | .sp => s.regs .rsp
    | .a5 => s.regs .r8 | .a6 => s.regs .r9 | .a7 => s.regs .r10 | .s2 => s.regs .r11
    | .s3 => s.regs .r12 | .s4 => s.regs .r13 | .s5 => s.regs .r14 | .s6 => s.regs .r15
    | _ => 0, s.mem⟩, (related_iff _ _).mpr ⟨fun r => ?_, rfl⟩⟩
  cases r <;> rfl

/-- The stack as the RISC-V text moves it: by sixteen, and at a pop after
the register was written. -/
def wide : X86.StackRules := { slot := 16, moveLast := true }

/-- The text of the block is a program, and started in a related state it
ends wherever the block does, in a related state. -/
def Translates (symbols : LabelName → Word) (block : X86.Block) : Prop :=
  ∃ items, Assembles (emitBlock backend block.asm) items ∧
    ∀ s t, Related s t → ∀ o s', (X86.code symbols X86.rules block).Ends 0 s o s' →
      ∃ t', (code items).Ends 0 t o t' ∧ Related s' t'

/-- Where the block ends does not depend on the sixteen bytes. -/
def SlotsAgree (symbols : LabelName → Word) (block : X86.Block) : Prop :=
  ∀ s o s', (X86.code symbols X86.rules block).Ends 0 s o s' →
    ∃ s'', (X86.code symbols wide block).Ends 0 s o s'' ∧ s''.regs = s'.regs ∧ s''.mem = s'.mem

/-- One element under the wide rules and its lines, in related states. -/
theorem step_related (symbols : LabelName → Word) {e : X86.Item} (he : Takes e = true)
    {s : X86.State} {t : State} (h : Related s t) :
    Listing.FlowRelated Related (e.exec symbols wide s)
      (Listing.flows Item.exec (itemsOf e) t) := by
  obtain ⟨hregs, hmem⟩ := (related_iff s t).mp h
  obtain ⟨items, hitems⟩ := Option.isSome_iff_exists.mp ((takes_iff e).mp he).1
  have hminus : (-16 : Int64).toBitVec = -(16 : Word) := by decide
  have hplus : (16 : Int64).toBitVec = (16 : Word) := by decide
  have hzero : (0 : Int64).toBitVec = (0 : Word) := by decide
  have hsp : t.get .sp = s.regs .rsp := hregs .rsp
  rw [itemsOf_of_readItems hitems]
  unfold readItems at hitems
  split at hitems <;> simp only [Option.some.injEq, reduceCtorEq] at hitems <;> subst hitems
  · exact h
  · simp only [X86.Item.exec, X86.Instr.exec, X86.Pair.dest, X86.Pair.source, X86.Operand.value,
      X86.BinOp.result, X86.BinOp.flags, X86.Dest.write, reduceCtorEq, if_false, Listing.flows,
      Item.exec, Instr.exec, Listing.FlowRelated, hregs]
    exact h.set _ _
  · -- the store is below the stack pointer, which then moves
    rename_i r
    have hplace : slotBelow.place t = s.regs .rsp - 16 := by
      simp only [slotBelow, Address.place, Option.getD_some, hsp, hminus, BitVec.sub_eq_add_neg]
    have hsum : t.get .sp + (-16 : Int64).toBitVec = s.regs .rsp - 16 := by
      rw [hminus, hsp, BitVec.sub_eq_add_neg]
    simp only [X86.Item.exec, X86.Instr.exec, X86.Operand.value, wide, Listing.flows, Item.exec,
      Instr.exec, Listing.FlowRelated, hplace, X86.State.set_regs, if_true, State.get_withMem, hsum,
      hregs, hmem]
    exact (h.set .rsp (s.regs .rsp - 16)).withMem _
  · -- the load is at the stack pointer, which moves behind it
    rename_i r
    have hplace : slotAt.place t = s.regs .rsp := by
      simp only [slotAt, Address.place, Option.getD_some, hsp, hzero]
      exact BitVec.add_zero _
    have hloaded := h.set r (load64 s.mem (s.regs .rsp))
    have hsp' := ((related_iff _ _).mp hloaded).1 .rsp
    simp only [X86.Item.exec, X86.Instr.exec, X86.Dest.write, wide, if_true, Listing.flows,
      Item.exec, Instr.exec, Listing.FlowRelated, hplace, hmem, hplus]
    have hmoved := hloaded.set .rsp ((s.set r (load64 s.mem (s.regs .rsp))).regs .rsp + 16)
    rw [← hsp'] at hmoved ⊢
    exact hmoved
  · exact ⟨rfl, h⟩

theorem keepsLabels (symbols : LabelName → Word) {block : X86.Block}
    (h : ∀ e ∈ block, Takes e = true) :
    Listing.KeepsLabels (X86.code symbols wide block) (code (block.flatMap itemsOf)) itemsOf := by
  intro e he
  obtain ⟨items, hitems⟩ := Option.isSome_iff_exists.mp ((takes_iff e).mp (h e he)).1
  have hlabel := (readItems_labels hitems).1
  rw [itemsOf_of_readItems hitems]
  constructor
  · intro hnone k hk
    have hnil : items.filterMap Item.labelOf = [] := by
      rw [hlabel]
      exact congrArg Option.toList hnone
    exact List.filterMap_eq_nil_iff.mp hnil k hk
  · intro l hl
    cases e with
    | label m =>
      obtain rfl : m = l := by simpa [X86.code, X86.Item.labelOf] using hl
      exact ⟨.label m, (Option.some.inj hitems).symm, rfl⟩
    | instr i => exact absurd hl (by simp [X86.code, X86.Item.labelOf])

/-- The text runs as the block does under the wide rules. -/
theorem ends_of_wide (symbols : LabelName → Word) {block : X86.Block}
    (h : ∀ e ∈ block, Takes e = true) {s s' : X86.State} {t : State} {o : Option Word}
    (hrelated : Related s t) (hends : (X86.code symbols wide block).Ends 0 s o s') :
    ∃ t', (code (block.flatMap itemsOf)).Ends 0 t o t' ∧ Related s' t' :=
  Listing.Ends.simulated (d := code (block.flatMap itemsOf)) rfl (keepsLabels symbols h)
    (fun e he _ _ hst => step_related symbols (h e he) hst) hends hrelated

/-- The control of a block that is taken does not look at the state. -/
theorem wide_ends (symbols : LabelName → Word) {block : X86.Block}
    (h : ∀ e ∈ block, Takes e = true) {s s' : X86.State} {o : Option Word}
    (hends : (X86.code symbols X86.rules block).Ends 0 s o s') :
    ∃ s'', (X86.code symbols wide block).Ends 0 s o s'' := by
  have hlabels : Listing.KeepsLabels (X86.code symbols X86.rules block)
      (X86.code symbols wide block) fun e => [e] := by
    intro e he
    exact ⟨fun hnone k hk => (List.mem_singleton.mp hk) ▸ hnone, fun l hl => ⟨e, rfl, hl⟩⟩
  have hstep : ∀ e ∈ block, ∀ s t : X86.State, True →
      Listing.FlowRelated (fun _ _ => True) (e.exec symbols X86.rules s)
        (Listing.flows (X86.Item.exec symbols wide) [e] t) := by
    intro e he s t _
    have htakes := h e he
    unfold Takes at htakes
    split at htakes
    · trivial
    · trivial
    · trivial
    · trivial
    · exact ⟨rfl, trivial⟩
    · exact absurd htakes (by simp)
  obtain ⟨s'', hends', -⟩ := Listing.Ends.simulated (d := X86.code symbols wide block)
    (by simp [X86.code]) hlabels hstep hends (t := s) trivial
  exact ⟨s'', hends'⟩

/-- The RISC-V text of a block means what the block means exactly when the
assembler takes each of its lines and the wider stack slots do not show. -/
theorem translates_iff_takes (symbols : LabelName → Word) (block : X86.Block) :
    Translates symbols block ↔
      X86.LabelsFit block ∧ (∀ e ∈ block, Takes e = true) ∧ SlotsAgree symbols block := by
  constructor
  · rintro ⟨items, hassembles, hruns⟩
    obtain ⟨hfit, htakes, rfl⟩ := (assembles_iff block items).mp hassembles
    refine ⟨hfit, htakes, fun s o s' hends => ?_⟩
    obtain ⟨t, hst⟩ := exists_related s
    obtain ⟨t', ht', hs't'⟩ := hruns s t hst o s' hends
    obtain ⟨s'', hwide⟩ := wide_ends symbols htakes hends
    obtain ⟨t'', ht'', hs''t''⟩ := ends_of_wide symbols htakes hst hwide
    obtain ⟨-, rfl⟩ := ht'.unique ht''
    obtain ⟨hregs', hmem'⟩ := (related_iff _ _).mp hs't'
    obtain ⟨hregs'', hmem''⟩ := (related_iff _ _).mp hs''t''
    exact ⟨s'', hwide, funext fun r => (hregs'' r).symm.trans (hregs' r), hmem''.symm.trans hmem'⟩
  · rintro ⟨hfit, htakes, hagree⟩
    refine ⟨_, (assembles_iff block _).mpr ⟨hfit, htakes, rfl⟩, ?_⟩
    intro s t hst o s' hends
    obtain ⟨s'', hwide, hregs, hmem⟩ := hagree s o s' hends
    obtain ⟨t', ht', hs''t'⟩ := ends_of_wide symbols htakes hst hwide
    obtain ⟨hregs'', hmem''⟩ := (related_iff _ _).mp hs''t'
    exact ⟨t', ht', (related_iff _ _).mpr ⟨fun r => (hregs'' r).trans (congrFun hregs r),
      hmem''.trans hmem⟩⟩

/-- An element that neither pushes nor pops. -/
def leavesStack : X86.Item → Bool
  | .instr (.push _) | .instr (.pop _) => false
  | _ => true

/-- A block without pushes and pops ends the same under both rules. -/
theorem slotsAgree_of_leavesStack (symbols : LabelName → Word) {block : X86.Block}
    (h : ∀ e ∈ block, leavesStack e = true) : SlotsAgree symbols block := by
  have hlabels : Listing.KeepsLabels (X86.code symbols X86.rules block)
      (X86.code symbols wide block) fun e => [e] := by
    intro e he
    exact ⟨fun hnone k hk => (List.mem_singleton.mp hk) ▸ hnone, fun l hl => ⟨e, rfl, hl⟩⟩
  have hstep : ∀ e ∈ block, ∀ s t : X86.State, s = t →
      Listing.FlowRelated (· = ·) (e.exec symbols X86.rules s)
        (Listing.flows (X86.Item.exec symbols wide) [e] t) := by
    rintro e he s t rfl
    have hsame : e.exec symbols wide s = e.exec symbols X86.rules s := by
      have hleaves := h e he
      cases e with
      | label l => rfl
      | instr i =>
        cases i with
        | push src | pop dst => exact absurd hleaves (by simp [leavesStack])
        | _ => rfl
    rw [Listing.flows, hsame]
    cases e.exec symbols X86.rules s <;> simp [Listing.FlowRelated, Listing.flows]
  intro s o s' hends
  obtain ⟨s'', hends', rfl⟩ := Listing.Ends.simulated (d := X86.code symbols wide block)
    (by simp [X86.code]) hlabels hstep hends (t := s) rfl
  exact ⟨_, hends', rfl, rfl⟩

end Aether.Asm.Riscv64
