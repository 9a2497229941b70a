/-
Aether.Asm.Arm64Theorems — which blocks the ARM64 backend translates.

Each element of a block gives one line. `readItem` is the instruction that
the line spells, if it spells one: most do not, because the text has the two
operands of x86 where ARM64 takes three, a memory operand where it takes a
register, or one register where it takes a pair. A block all of whose lines
are instructions runs as the x86 block does.
-/
import Aether.Asm.Arm64
import Aether.Asm.Translation

namespace Aether.Asm.Arm64

open Aether.Lib Aether.Lib.Numerals Aether.Lib.TextLines

/-! ## §1 Registers -/

/-- The register of the table's ARM64 column. -/
def ofX86 : X86.Reg → Reg
  | .rax => .x 0
  | .rbx => .x 19
  | .rcx => .x 1
  | .rdx => .x 2
  | .rsi => .x 3
  | .rdi => .x 4
  | .rbp => .x 29
  | .rsp => .sp
  | .r8 => .x 5
  | .r9 => .x 6
  | .r10 => .x 7
  | .r11 => .x 8
  | .r12 => .x 9
  | .r13 => .x 10
  | .r14 => .x 11
  | .r15 => .x 12

theorem text_x (n : Fin 31) :
    (Reg.x n).text = 120 :: if n.val < 10 then [digit n] else [digit (n / 10), digit (n % 10)] := by
  have hx : bytes "x" = [120] := rfl
  rw [Reg.text, hx]
  split
  · rw [decimal_of_lt ‹_›]
    rfl
  · rw [decimal_of_le (by omega), decimal_of_lt (by omega)]
    rfl

theorem mapReg_asm (r : X86.Reg) : mapReg r.asm = (ofX86 r).text := by
  cases r <;> first | rfl | (rw [ofX86, text_x]; rfl)

theorem Reg.text_word (r : Reg) : r.text.all continuesLabel = true := by
  cases r with
  | x n => rw [text_x]; revert n; decide
  | sp => rfl
  | xzr => rfl

theorem Reg.startsWord (r : Reg) : StartsWord r.text := by
  cases r with
  | x n => exact ⟨120, _, text_x n, rfl⟩
  | sp => exact ⟨_, _, rfl, rfl⟩
  | xzr => exact ⟨_, _, rfl, rfl⟩

theorem text_x_ne (n : Fin 31) : (Reg.x n).text ≠ Reg.sp.text ∧ (Reg.x n).text ≠ Reg.xzr.text := by
  rw [text_x]
  revert n
  decide

theorem Reg.text_injective {r r' : Reg} (h : r.text = r'.text) : r = r' := by
  cases r with
  | x n =>
    cases r' with
    | x m =>
      rw [Reg.text, Reg.text] at h
      have := decimal_injective (List.append_cancel_left h)
      rw [Fin.ext this]
    | sp => exact absurd h (text_x_ne n).1
    | xzr => exact absurd h (text_x_ne n).2
  | sp =>
    cases r' with
    | x m => exact absurd h.symm (text_x_ne m).1
    | sp => rfl
    | xzr => exact absurd h (by decide)
  | xzr =>
    cases r' with
    | x m => exact absurd h.symm (text_x_ne m).2
    | sp => exact absurd h (by decide)
    | xzr => rfl

theorem ofX86_injective {r r' : X86.Reg} (h : ofX86 r = ofX86 r') : r = r' := by
  cases r <;> cases r' <;> first | rfl | cases h

theorem ofX86_ne_xzr (r : X86.Reg) : ofX86 r ≠ .xzr := by
  cases r <;> simp [ofX86]

/-! ## §2 The lines of a block -/

/-- The mnemonic that the table has for an instruction. -/
def mnemonicOf : X86.Instr → String
  | .bin op _ =>
    match op with
    | .mov => "mov"
    | .add => "add"
    | .sub => "sub"
    | .and => "and"
    | .or => "orr"
    | .xor => "eor"
    | .cmp => "cmp"
  | .un .not _ => "mvn"
  | .un .neg _ => "neg"
  | .push _ => "stp"
  | .pop _ => "ldp"
  | .jmp _ | .jmpTo _ => "b"
  | .jcc op _ => condMnemonic op.cond

def operandText : X86.Operand → Bytes
  | .reg r => (ofX86 r).text
  | .imm v => bytes "#" ++ intDecimal v.toInt
  | .mem m => emitMem m.asm

def destText : X86.Dest → Bytes
  | .reg r => (ofX86 r).text
  | .mem m => emitMem m.asm

/-- What the backend writes behind the mnemonic and a blank. -/
def operandsOf : X86.Instr → Bytes
  | .bin _ args => destText args.dest ++ bytes ", " ++ operandText args.source
  | .un _ dst => destText dst
  | .push (.reg r) => (ofX86 r).text ++ bytes ", [sp, #-16]!"
  | .push src => operandText src
  | .pop (.reg r) => (ofX86 r).text ++ bytes ", [sp], #16"
  | .pop dst => destText dst
  | .jmp l | .jcc _ l => l.text
  | .jmpTo target => operandText target

/-- The line of an element. -/
def lineOf : X86.Item → Bytes
  | .label l => labelLine l
  | .instr i => instrLine (mnemonicOf i) (operandsOf i)

theorem emitOp_operand (o : X86.Operand) : emitOp backend o.asm = operandText o := by
  cases o with
  | reg r => exact mapReg_asm r
  | imm v => rfl
  | mem m => rfl

theorem emitOp_dest (d : X86.Dest) : emitOp backend d.asm = destText d := by
  cases d with
  | reg r => exact mapReg_asm r
  | mem m => rfl

theorem mapMnemonic_eq (i : X86.Instr) :
    mapMnemonic backend.mnemonics i.asm.mnemonic = bytes (mnemonicOf i) := by
  cases i with
  | bin op args => cases op <;> rfl
  | un op dst => cases op <;> rfl
  | jcc op l => cases op <;> rfl
  | push | pop | jmp | jmpTo => rfl

theorem emitOperands_pair (args : X86.Pair) :
    emitOperands backend args.asm =
      bytes " " ++ (destText args.dest ++ bytes ", " ++ operandText args.source) := by
  cases args <;>
    simp [X86.Pair.asm, X86.Pair.dest, X86.Pair.source, emitOperands, ← emitOp_operand,
      ← emitOp_dest, X86.Operand.asm, X86.Dest.asm]

theorem emitOperands_other {i : X86.Instr} (hpush : i.pushed = none) (hpop : i.popped = none) :
    emitOperands backend i.asm.operands = bytes " " ++ operandsOf i := by
  cases i with
  | bin op args => exact emitOperands_pair args
  | un op dst => simp [X86.Instr.asm, emitOperands, operandsOf, emitOp_dest]
  | push src =>
    cases src with
    | reg r => simp [X86.Instr.pushed] at hpush
    | imm v => simp [X86.Instr.asm, emitOperands, operandsOf, emitOp_operand]
    | mem m => simp [X86.Instr.asm, emitOperands, operandsOf, emitOp_operand]
  | pop dst =>
    cases dst with
    | reg r => simp [X86.Instr.popped] at hpop
    | mem m => simp [X86.Instr.asm, emitOperands, operandsOf, emitOp_dest]
  | jmp l => simp [X86.Instr.asm, emitOperands, operandsOf, emitOp, asmOpLabel]
  | jmpTo target => simp [X86.Instr.asm, emitOperands, operandsOf, emitOp_operand]
  | jcc op l => simp [X86.Instr.asm, emitOperands, operandsOf, emitOp, asmOpLabel]

theorem emitInstr_other {i : X86.Instr} (hpush : i.pushed = none) (hpop : i.popped = none) :
    emitInstr backend i.asm = instrLine (mnemonicOf i) (operandsOf i) ++ [10] := by
  have hnewline : bytes "\n" = [10] := rfl
  rw [emitInstr_of_other backend hpush hpop, emitOperands_other hpush hpop, mapMnemonic_eq,
    hnewline]
  simp [instrLine]

theorem emitInstr_eq (i : X86.Instr) :
    emitInstr backend i.asm = instrLine (mnemonicOf i) (operandsOf i) ++ [10] := by
  cases i with
  | push src =>
    cases src with
    | reg r =>
      have hwrite : bytes ", [sp, #-16]!\n" = bytes ", [sp, #-16]!" ++ [10] := rfl
      rw [emitInstr_of_pushed backend rfl, mapMnemonic_eq]
      change _ ++ (bytes " " ++ mapReg r.asm ++ bytes ", [sp, #-16]!\n") = _
      rw [mapReg_asm, hwrite]
      simp [instrLine, mnemonicOf, operandsOf]
    | imm v => exact emitInstr_other rfl rfl
    | mem m => exact emitInstr_other rfl rfl
  | pop dst =>
    cases dst with
    | reg r =>
      have hwrite : bytes ", [sp], #16\n" = bytes ", [sp], #16" ++ [10] := rfl
      rw [emitInstr_of_popped backend rfl rfl, mapMnemonic_eq]
      change _ ++ (bytes " " ++ mapReg r.asm ++ bytes ", [sp], #16\n") = _
      rw [mapReg_asm, hwrite]
      simp [instrLine, mnemonicOf, operandsOf]
    | mem m => exact emitInstr_other rfl rfl
  | bin | un | jmp | jmpTo | jcc => exact emitInstr_other rfl rfl

theorem emitBlock_eq (block : X86.Block) :
    emitBlock backend block.asm = header ++ unlines (block.flatMap fun e => [lineOf e]) := by
  have helement : ∀ e : X86.Item, emitElement backend e.asm = unlines [lineOf e] := by
    intro e
    cases e with
    | label l =>
      have hcolon : bytes ":\n" = bytes ":" ++ [10] := rfl
      simp [X86.Item.asm, emitElement, lineOf, labelLine, hcolon]
    | instr i => simp [X86.Item.asm, emitElement, lineOf, emitInstr_eq]
  rw [emitBlock, X86.Block.asm, List.flatMap_map, unlines_flatMap]
  simp only [helement]
  rfl

/-! ## §3 The instruction that a line spells -/

/-- The item of an element's line, where the line is one. -/
def readItem : X86.Item → Option Item
  | .label l => some (.label l)
  | .instr (.bin .mov (.toReg d (.reg m))) => some (.instr (.movReg (ofX86 d) (ofX86 m)))
  | .instr (.bin .mov (.toReg d (.imm v))) => some (.instr (.movImm (ofX86 d) v))
  | .instr (.bin .cmp (.toReg n (.reg m))) => some (.instr (.cmp (ofX86 n) (.reg (ofX86 m) none)))
  | .instr (.bin .cmp (.toReg n (.imm v))) => some (.instr (.cmp (ofX86 n) (.imm v)))
  | .instr (.jmp l) => some (.instr (.branch l))
  | .instr (.jcc op l) => some (.instr (.branchCond op.cond l))
  | _ => none

theorem line_of_readItem {e : X86.Item} {item : Item} (h : readItem e = some item) :
    item.line = lineOf e := by
  unfold readItem at h
  split at h <;>
    simp_all only [Option.some.injEq, reduceCtorEq] <;> subst h <;>
    simp [Item.line, lineOf, labelLine, instrLine, Instr.mnemonic, Instr.operands, mnemonicOf,
      operandsOf, destText, operandText, X86.Pair.dest, X86.Pair.source, Operand.text, shiftText]

/-- The operand texts are of three kinds, told apart by the first byte. -/
inductive OperandKind : Bytes → Prop where
  | reg (r : Reg) : OperandKind r.text
  | imm (v : Int64) : OperandKind (35 :: intDecimal v.toInt)
  | mem (rest : Bytes) : OperandKind (91 :: rest)

theorem emitMem_cons (m : X86.Mem) : ∃ rest, emitMem m.asm = 91 :: rest := by
  have hopen : bytes "[" = [91] := rfl
  cases m <;>
    simp only [X86.Mem.asm, asmMemBase, asmMemBaseDisp, asmMemBaseIndex, asmMemFull, asmMemRipRel,
      emitMem, hopen, List.append_assoc, List.cons_append, List.nil_append, ne_eq]
  all_goals first | exact ⟨_, rfl⟩ | (split <;> exact ⟨_, rfl⟩)

theorem emitMem_kind (m : X86.Mem) : OperandKind (emitMem m.asm) := by
  obtain ⟨rest, h⟩ := emitMem_cons m
  exact h ▸ .mem rest

theorem operandText_kind (o : X86.Operand) : OperandKind (operandText o) := by
  cases o with
  | reg r => exact .reg _
  | imm v => exact .imm v
  | mem m => exact emitMem_kind m

theorem destText_kind (d : X86.Dest) : OperandKind (destText d) := by
  cases d with
  | reg r => exact .reg _
  | mem m => exact emitMem_kind m

/-- Before the first comma a register name is all there can be. -/
theorem reg_comma_inj {r r' : Reg} {rest rest' : Bytes}
    (h : r.text ++ bytes ", " ++ rest = r'.text ++ bytes ", " ++ rest') : r = r' ∧ rest = rest' := by
  have hcomma : bytes ", " = [44, 32] := rfl
  simp only [hcomma, List.append_assoc, List.cons_append, List.nil_append] at h
  obtain ⟨hreg, hrest⟩ := append_cons_inj (notMem_of_word r.text_word rfl)
    (notMem_of_word r'.text_word rfl) h
  exact ⟨Reg.text_injective hreg, (List.cons.inj hrest).2⟩

theorem reg_ne_mem (r : Reg) (m : X86.Mem) (more rest : Bytes) :
    r.text ++ more ≠ emitMem m.asm ++ rest := by
  obtain ⟨tail, h⟩ := emitMem_cons m
  rw [h]
  exact r.startsWord.ne_cons rfl

/-- An operand has no part behind a comma that starts with a register. -/
theorem kind_ne_list {text : Bytes} (h : OperandKind text) (r : Reg) (rest : Bytes) :
    text ≠ r.text ++ bytes ", " ++ rest := by
  have hcomma : bytes ", " = [44, 32] := rfl
  intro heq
  simp only [hcomma, List.append_assoc, List.cons_append, List.nil_append] at heq
  cases h with
  | reg r' => exact ne_append_cons (notMem_of_word r'.text_word rfl) heq
  | imm v => exact r.startsWord.ne_cons rfl heq.symm
  | mem more => exact r.startsWord.ne_cons rfl heq.symm

/-- What the mnemonics of the table are told apart by. -/
inductive Family where
  | mov | alu (op : AluOp) | mvn | neg | cmp | stp | ldp | branch | branchCond (cond : Cond)
  deriving DecidableEq

def Family.mnemonic : Family → String
  | .mov => "mov"
  | .alu op => op.mnemonic
  | .mvn => "mvn"
  | .neg => "neg"
  | .cmp => "cmp"
  | .stp => "stp"
  | .ldp => "ldp"
  | .branch => "b"
  | .branchCond cond => condMnemonic cond

def families : List Family :=
  [.mov, .alu .add, .alu .sub, .alu .and, .alu .orr, .alu .eor, .mvn, .neg, .cmp, .stp, .ldp,
   .branch, .branchCond .eq, .branchCond .ne, .branchCond .gt, .branchCond .ge, .branchCond .lt,
   .branchCond .le]

def Instr.family : Instr → Family
  | .movReg .. | .movImm .. => .mov
  | .alu op .. => .alu op
  | .mvn .. => .mvn
  | .neg .. => .neg
  | .cmp .. => .cmp
  | .stp .. => .stp
  | .ldp .. => .ldp
  | .branch _ => .branch
  | .branchCond cond _ => .branchCond cond

def familyOf : X86.Instr → Family
  | .bin .mov _ => .mov
  | .bin .add _ => .alu .add
  | .bin .sub _ => .alu .sub
  | .bin .and _ => .alu .and
  | .bin .or _ => .alu .orr
  | .bin .xor _ => .alu .eor
  | .bin .cmp _ => .cmp
  | .un .not _ => .mvn
  | .un .neg _ => .neg
  | .push _ => .stp
  | .pop _ => .ldp
  | .jmp _ | .jmpTo _ => .branch
  | .jcc op _ => .branchCond op.cond

theorem mem_families (f : Family) : f ∈ families := by
  cases f with
  | alu op => cases op <;> decide
  | branchCond cond => cases cond <;> decide
  | mov | mvn | neg | cmp | stp | ldp | branch => decide

/-- No two mnemonics are the same and none has a blank or a newline. -/
theorem families_apart : (∀ f ∈ families, ∀ g ∈ families,
    bytes f.mnemonic = bytes g.mnemonic → f = g) ∧
    ∀ f ∈ families, (32 : UInt8) ∉ bytes f.mnemonic ∧ (10 : UInt8) ∉ bytes f.mnemonic := by
  decide

theorem Instr.mnemonic_eq (j : Instr) : j.mnemonic = j.family.mnemonic := by
  cases j <;> rfl

theorem mnemonicOf_eq (i : X86.Instr) : mnemonicOf i = (familyOf i).mnemonic := by
  cases i with
  | bin op args => cases op <;> rfl
  | un op dst => cases op <;> rfl
  | push | pop | jmp | jmpTo | jcc => rfl

theorem blank_notMem (f : Family) : (32 : UInt8) ∉ bytes f.mnemonic :=
  (families_apart.2 f (mem_families f)).1

/-- A two-operand line is read as a register and what follows the comma. -/
theorem pair_inv {args : X86.Pair} {r : Reg} {rest : Bytes}
    (h : r.text ++ bytes ", " ++ rest = destText args.dest ++ bytes ", " ++ operandText args.source) :
    ∃ d src, args = .toReg d src ∧ r = ofX86 d ∧ rest = operandText src := by
  cases args with
  | toReg d src =>
    obtain ⟨hr, hrest⟩ := reg_comma_inj h
    exact ⟨d, src, rfl, hr, hrest⟩
  | regToMem dst src | immToMem dst src =>
    simp only [X86.Pair.dest, destText, List.append_assoc] at h
    exact absurd h (reg_ne_mem r dst _ _)

/-- A register name is the text of no other operand. -/
theorem reg_operand_inv {o : X86.Operand} {r : Reg} (h : r.text = operandText o) :
    ∃ r', o = .reg r' ∧ r = ofX86 r' := by
  cases o with
  | reg r' => exact ⟨r', rfl, Reg.text_injective h⟩
  | imm v => exact absurd h (r.startsWord.ne rfl)
  | mem m =>
    obtain ⟨rest, hm⟩ := emitMem_cons m
    rw [operandText, hm] at h
    exact absurd h (r.startsWord.ne rfl)

theorem imm_operand_inv {o : X86.Operand} {v : Int64}
    (h : bytes "#" ++ intDecimal v.toInt = operandText o) : o = .imm v := by
  cases o with
  | reg r' => exact absurd h.symm ((ofX86 r').startsWord.ne rfl)
  | imm w =>
    have := intDecimal_injective (List.append_cancel_left h)
    rw [Int64.toInt_inj.mp this]
  | mem m =>
    obtain ⟨rest, hm⟩ := emitMem_cons m
    rw [operandText, hm] at h
    exact absurd (List.cons.inj h).1 (by decide)

theorem isRegName_text (r : Reg) : isRegName r.text = true := by
  cases r with
  | x n =>
    have : (List.finRange 31).any (fun m => (Reg.x n).text == (Reg.x m).text) = true :=
      List.any_eq_true.mpr ⟨n, List.mem_finRange n, by simp⟩
    simp [isRegName, this]
  | sp => simp [isRegName]
  | xzr => simp [isRegName]

/-- What a branch goes to is a label, not an operand. -/
theorem label_operand_ne {l : LabelName} (hl : isRegName l.text = false) (o : X86.Operand) :
    l.text ≠ operandText o := by
  intro h
  cases o with
  | reg r =>
    rw [h, operandText, isRegName_text] at hl
    exact absurd hl (by simp)
  | imm v => exact l.startsWord.ne rfl h
  | mem m =>
    obtain ⟨rest, hm⟩ := emitMem_cons m
    rw [operandText, hm] at h
    exact l.startsWord.ne rfl h

/-- A branch of the item goes to something that is no register. -/
def BranchesToName (item : Item) : Prop :=
  ∀ l, item.branchOf = some l → isRegName l.text = false

/-- The text of a pushed or popped register is not that of a pair. -/
theorem pair_ne_bracket (a b r : Reg) (more rest : Bytes) :
    a.text ++ bytes ", " ++ (b.text ++ more) ≠ r.text ++ (bytes ", " ++ 91 :: rest) := by
  rw [← List.append_assoc r.text]
  intro h
  exact b.startsWord.ne_cons rfl (reg_comma_inj h).2

/-- The operands of one mnemonic read as those of another machine's
instruction are the ones `readItem` knows. -/
theorem readItem_of_operands {i : X86.Instr} {j : Instr} (hfamily : j.family = familyOf i)
    (hops : j.operands = operandsOf i) (hbranch : BranchesToName (.instr j)) :
    readItem (.instr i) = some (.instr j) := by
  cases i with
  | bin op args =>
    cases j with
    | movReg d m =>
      cases op with
      | mov =>
        obtain ⟨d', src, rfl, rfl, hsrc⟩ := pair_inv hops
        obtain ⟨r', rfl, rfl⟩ := reg_operand_inv hsrc
        rfl
      | _ => simp [Instr.family, familyOf] at hfamily
    | movImm d v =>
      cases op with
      | mov =>
        obtain ⟨d', src, rfl, rfl, hsrc⟩ := pair_inv hops
        obtain rfl := imm_operand_inv hsrc
        rfl
      | _ => simp [Instr.family, familyOf] at hfamily
    | cmp n m =>
      cases op with
      | cmp =>
        obtain ⟨d', src, rfl, rfl, hsrc⟩ := pair_inv hops
        cases m with
        | imm v =>
          obtain rfl := imm_operand_inv hsrc
          rfl
        | reg r shift =>
          cases shift with
          | none =>
            rw [Operand.text, shiftText, List.append_nil] at hsrc
            obtain ⟨r', rfl, rfl⟩ := reg_operand_inv hsrc
            rfl
          | some shift =>
            have := kind_ne_list (operandText_kind src) r (shift.kind.text ++ bytes " #" ++
              decimal shift.amount)
            exact absurd (by simpa [Operand.text, shiftText] using hsrc.symm) this
      | _ => simp [Instr.family, familyOf] at hfamily
    | alu aluOp d n m =>
      obtain ⟨d', src, rfl, rfl, hsrc⟩ := pair_inv hops
      exact absurd hsrc.symm (by
        simpa [List.append_assoc] using kind_ne_list (operandText_kind src) n m.text)
    | _ => cases op <;> simp [Instr.family, familyOf] at hfamily
  | un op dst =>
    have hlist : ∀ (d : Reg) (rest : Bytes), destText dst ≠ d.text ++ bytes ", " ++ rest :=
      kind_ne_list (destText_kind dst)
    cases j with
    | mvn d m shift | neg d m shift => exact absurd hops.symm (hlist d _)
    | _ => cases op <;> simp [Instr.family, familyOf] at hfamily
  | push src =>
    cases j with
    | stp a b address =>
      cases src with
      | reg r =>
        have hwrite : bytes ", [sp, #-16]!" = bytes ", " ++ 91 :: bytes "sp, #-16]!" := rfl
        rw [Instr.operands, operandsOf, hwrite, List.append_assoc b.text] at hops
        exact absurd hops (pair_ne_bracket a b _ _ _)
      | imm v => exact absurd hops.symm (kind_ne_list (operandText_kind (.imm v)) a _)
      | mem m => exact absurd hops.symm (kind_ne_list (operandText_kind (.mem m)) a _)
    | _ => simp [Instr.family, familyOf] at hfamily
  | pop dst =>
    cases j with
    | ldp a b address =>
      cases dst with
      | reg r =>
        have hwrite : bytes ", [sp], #16" = bytes ", " ++ 91 :: bytes "sp], #16" := rfl
        rw [Instr.operands, operandsOf, hwrite, List.append_assoc b.text] at hops
        exact absurd hops (pair_ne_bracket a b _ _ _)
      | mem m => exact absurd hops.symm (kind_ne_list (destText_kind (.mem m)) a _)
    | _ => simp [Instr.family, familyOf] at hfamily
  | jmp l =>
    cases j with
    | branch m => rw [LabelName.text_injective hops]; rfl
    | _ => simp [Instr.family, familyOf] at hfamily
  | jmpTo target =>
    cases j with
    | branch m => exact absurd hops (label_operand_ne (hbranch m rfl) target)
    | _ => simp [Instr.family, familyOf] at hfamily
  | jcc op l =>
    cases j with
    | branchCond cond m =>
      rw [LabelName.text_injective hops]
      simp only [Instr.family, familyOf, Family.branchCond.injEq] at hfamily
      rw [hfamily]
      rfl
    | _ => simp [Instr.family, familyOf] at hfamily

theorem readItem_of_line {e : X86.Item} {item : Item} (h : item.line = lineOf e)
    (hbranch : BranchesToName item) : readItem e = some item := by
  cases e with
  | label l =>
    cases item with
    | label m => rw [labelLine_inj (l := m) (m := l) h]; rfl
    | instr j => exact absurd h.symm (labelLine_ne_instrLine l _ _)
  | instr i =>
    cases item with
    | label m => exact absurd h (labelLine_ne_instrLine m _ _)
    | instr j =>
      obtain ⟨hmnemonic, hops⟩ := instrLine_inj (m := j.mnemonic)
        (j.mnemonic_eq ▸ blank_notMem _) (mnemonicOf_eq i ▸ blank_notMem _) h
      rw [j.mnemonic_eq, mnemonicOf_eq] at hmnemonic
      have hfamily := families_apart.1 _ (mem_families _) _ (mem_families _) hmnemonic
      exact readItem_of_operands hfamily hops hbranch

/-! ## §4 The program that a block's text is -/

/-- The items that the lines of an element are. -/
def readItems (e : X86.Item) : Option (List Item) := (readItem e).map fun item => [item]

def itemsOf (e : X86.Item) : List Item := (readItems e).getD []

/-- What the ARM64 text of an element needs for its line to be one that the
assembler takes. -/
def Takes : X86.Item → Bool
  | .label l => !isRegName l.text
  | .instr (.bin .mov (.toReg _ (.reg _))) => true
  | .instr (.bin .mov (.toReg d (.imm v))) => isMovImm (ofX86 d) v
  | .instr (.bin .cmp (.toReg _ (.reg m))) => m != .rsp
  | .instr (.bin .cmp (.toReg _ (.imm v))) => isArithImm v
  | .instr (.jmp _) | .instr (.jcc _ _) => true
  | _ => false

theorem readItems_of_lines {e : X86.Item} {items : List Item}
    (hok : ∀ k ∈ items, BranchesToName k) (h : items.map Item.line = [lineOf e]) :
    readItems e = some items := by
  obtain ⟨item, rfl, hline⟩ := List.map_eq_singleton_iff.mp h
  rw [readItems, readItem_of_line hline (hok item (by simp))]
  rfl

theorem lines_of_readItems {e : X86.Item} {items : List Item} (h : readItems e = some items) :
    items.map Item.line = [lineOf e] := by
  obtain ⟨item, hread, rfl⟩ := Option.map_eq_some_iff.mp h
  simp [line_of_readItem hread]

theorem newline_notMem_reg (r : Reg) : (10 : UInt8) ∉ r.text := notMem_of_word r.text_word rfl

theorem newline_notMem_intDecimal (i : Int) : (10 : UInt8) ∉ intDecimal i :=
  notMem_intDecimal (by decide) (by decide)

theorem newline_notMem_decimal (n : Nat) : (10 : UInt8) ∉ decimal n := by
  intro h
  obtain ⟨m, hm, hdigit⟩ := digit_of_mem_decimal h
  have := digit_range hm
  rw [← hdigit] at this
  simp at this

theorem newline_notMem_label (l : LabelName) : (10 : UInt8) ∉ l.text := notMem_of_word l.text_word rfl

theorem newline_notMem_literals : ∀ text ∈ [bytes ", ", bytes "[", bytes "]", bytes "]!", bytes ", #",
    bytes "], #", bytes "#", bytes " #", bytes ", lsl #", bytes "[x0]", bytes "lsl", bytes "lsr",
    bytes "asr", bytes "ror", bytes ", [sp, #-16]!", bytes ", [sp], #16"], (10 : UInt8) ∉ text := by
  decide

theorem newline_notMem_emitMem (m : X86.Mem) : (10 : UInt8) ∉ emitMem m.asm := by
  have hlit := newline_notMem_literals
  simp only [List.forall_mem_cons] at hlit
  cases m <;>
    simp [X86.Mem.asm, asmMemBase, asmMemBaseDisp, asmMemBaseIndex, asmMemFull, asmMemRipRel,
      asmMemInit, emitMem, mapReg_asm, newline_notMem_reg, newline_notMem_intDecimal,
      newline_notMem_label, hlit]
  all_goals split <;> simp [newline_notMem_label, newline_notMem_intDecimal, hlit]

theorem newline_notMem_shift (shift : Option Shift) : (10 : UInt8) ∉ shiftText shift := by
  have hlit := newline_notMem_literals
  simp only [List.forall_mem_cons] at hlit
  cases shift with
  | none => simp [shiftText]
  | some shift =>
    obtain ⟨kind, amount⟩ := shift
    cases kind <;> simp [shiftText, ShiftKind.text, newline_notMem_decimal, hlit]

theorem newline_notMem_operand (o : Operand) : (10 : UInt8) ∉ o.text := by
  have hlit := newline_notMem_literals
  simp only [List.forall_mem_cons] at hlit
  cases o <;>
    simp [Operand.text, newline_notMem_reg, newline_notMem_shift, newline_notMem_intDecimal, hlit]

theorem newline_notMem_address (a : Address) : (10 : UInt8) ∉ a.text := by
  have hlit := newline_notMem_literals
  simp only [List.forall_mem_cons] at hlit
  cases a <;> simp [Address.text, newline_notMem_reg, newline_notMem_intDecimal, hlit]

theorem newline_notMem_line (item : Item) : (10 : UInt8) ∉ item.line := by
  cases item with
  | label l => exact notMem_labelLine l
  | instr j =>
    have hlit := newline_notMem_literals
    simp only [List.forall_mem_cons] at hlit
    apply notMem_instrLine
    · rw [j.mnemonic_eq]
      exact (families_apart.2 _ (mem_families _)).2
    · cases j <;>
        simp [Instr.operands, newline_notMem_reg, newline_notMem_intDecimal, newline_notMem_operand,
          newline_notMem_shift, newline_notMem_address, newline_notMem_label, hlit]

theorem newline_notMem_destText (d : X86.Dest) : (10 : UInt8) ∉ destText d := by
  cases d with
  | reg r => exact newline_notMem_reg _
  | mem m => exact newline_notMem_emitMem m

theorem newline_notMem_operandText (o : X86.Operand) : (10 : UInt8) ∉ operandText o := by
  have hlit := newline_notMem_literals
  simp only [List.forall_mem_cons] at hlit
  cases o with
  | reg r => exact newline_notMem_reg _
  | imm v => simp [operandText, newline_notMem_intDecimal, hlit]
  | mem m => exact newline_notMem_emitMem m

theorem newline_notMem_lineOf (e : X86.Item) : (10 : UInt8) ∉ lineOf e := by
  cases e with
  | label l => exact notMem_labelLine l
  | instr i =>
    have hlit := newline_notMem_literals
    simp only [List.forall_mem_cons] at hlit
    apply notMem_instrLine
    · rw [mnemonicOf_eq]
      exact (families_apart.2 _ (mem_families _)).2
    · cases i with
      | push src =>
        cases src <;>
          simp [operandsOf, newline_notMem_reg, newline_notMem_operandText, hlit]
      | pop dst =>
        cases dst <;> simp [operandsOf, newline_notMem_reg, newline_notMem_destText, hlit]
      | _ =>
        simp [operandsOf, newline_notMem_destText, newline_notMem_operandText,
          newline_notMem_label, hlit]

/-- The text is one program at most: what the elements are read as. -/
theorem items_of_text {block : X86.Block} {items : List Item}
    (hok : ∀ k ∈ items, BranchesToName k)
    (h : emitBlock backend block.asm = header ++ unlines (items.map Item.line)) :
    (∀ e ∈ block, (readItems e).isSome) ∧ items = block.flatMap itemsOf := by
  rw [emitBlock_eq] at h
  have hwritten : ∀ l ∈ block.flatMap fun e => [lineOf e], (10 : UInt8) ∉ l := by
    intro l hl
    obtain ⟨e, -, hl⟩ := List.mem_flatMap.mp hl
    exact List.mem_singleton.mp hl ▸ newline_notMem_lineOf e
  have hread : ∀ l ∈ items.map Item.line, (10 : UInt8) ∉ l := by
    intro l hl
    obtain ⟨item, -, rfl⟩ := List.mem_map.mp hl
    exact newline_notMem_line item
  have hlines := unlines_inj hwritten hread (List.append_cancel_left h)
  exact read_of_lines (fun e items => readItems_of_lines) hok hlines.symm

theorem text_of_items {block : X86.Block} (h : ∀ e ∈ block, (readItems e).isSome) :
    emitBlock backend block.asm = header ++ unlines ((block.flatMap itemsOf).map Item.line) := by
  rw [emitBlock_eq]
  congr 2
  exact (lines_of_read (fun e items => lines_of_readItems) h).symm

theorem readItem_labelOf {e : X86.Item} {item : Item} (h : readItem e = some item) :
    item.labelOf = e.labelOf ∧ item.branchOf = e.jumpOf := by
  unfold readItem at h
  split at h <;>
    simp_all only [Option.some.injEq, reduceCtorEq] <;> subst h <;>
    exact ⟨rfl, rfl⟩

/-- An element is taken when its line is an instruction with operands it
takes, or a label that is no register. -/
theorem takes_iff (e : X86.Item) :
    Takes e = true ↔ ∃ item, readItem e = some item ∧ (∀ i, item = .instr i → i.ok = true) ∧
      ∀ l, item.labelOf = some l → isRegName l.text = false := by
  have hsp : ∀ r, (ofX86 r = .sp) = (r = .rsp) := by
    intro r
    cases r <;> simp [ofX86]
  unfold Takes readItem
  split <;>
    simp [Item.labelOf, Instr.ok, Operand.takesArith, ofX86_ne_xzr, hsp]

theorem itemsOf_of_readItem {e : X86.Item} {item : Item} (h : readItem e = some item) :
    itemsOf e = [item] := by
  rw [itemsOf, readItems, h]
  rfl

theorem labels_of_items {block : X86.Block} (h : ∀ e ∈ block, (readItems e).isSome) :
    (block.flatMap itemsOf).filterMap Item.labelOf = block.labels := by
  apply labels_flatMap
  intro e he
  obtain ⟨item, hread⟩ : ∃ item, readItem e = some item := by
    simpa [readItems, Option.isSome_iff_exists] using h e he
  rw [itemsOf_of_readItem hread, List.filterMap_cons, (readItem_labelOf hread).1]
  cases e.labelOf <;> rfl

theorem wellFormed_iff {block : X86.Block} (h : ∀ e ∈ block, (readItems e).isSome) :
    WellFormed (block.flatMap itemsOf) ↔ X86.LabelsFit block ∧ ∀ e ∈ block, Takes e = true := by
  have hread : ∀ e ∈ block, ∃ item, readItem e = some item := by
    intro e he
    simpa [readItems, Option.isSome_iff_exists] using h e he
  have hmem : ∀ item, item ∈ block.flatMap itemsOf ↔ ∃ e ∈ block, readItem e = some item := by
    intro item
    rw [List.mem_flatMap]
    constructor
    · rintro ⟨e, he, hitem⟩
      obtain ⟨item', hread'⟩ := hread e he
      rw [itemsOf_of_readItem hread', List.mem_singleton] at hitem
      exact ⟨e, he, hitem ▸ hread'⟩
    · rintro ⟨e, he, hitem⟩
      exact ⟨e, he, by simp [itemsOf_of_readItem hitem]⟩
  have hlabels := labels_of_items h
  constructor
  · intro hwell
    refine ⟨⟨hlabels ▸ hwell.distinct, ?_⟩, ?_⟩
    · intro e he l hjump
      obtain ⟨item, hitem⟩ := hread e he
      rw [← hlabels]
      exact hwell.defined item ((hmem item).mpr ⟨e, he, hitem⟩) l
        ((readItem_labelOf hitem).2.trans hjump)
    · intro e he
      obtain ⟨item, hitem⟩ := hread e he
      have hin := (hmem item).mpr ⟨e, he, hitem⟩
      refine (takes_iff e).mpr ⟨item, hitem, fun i hi => hwell.ok i (hi ▸ hin), ?_⟩
      intro l hl
      exact hwell.named l (List.mem_filterMap.mpr ⟨item, hin, hl⟩)
  · rintro ⟨hfit, htakes⟩
    constructor
    · intro i hi
      obtain ⟨e, he, hitem⟩ := (hmem _).mp hi
      obtain ⟨item, hitem', hok, -⟩ := (takes_iff e).mp (htakes e he)
      exact hok i (Option.some.inj (hitem'.symm.trans hitem))
    · rw [hlabels]
      exact hfit.distinct
    · intro l hl
      obtain ⟨item, hin, hlabel⟩ := List.mem_filterMap.mp hl
      obtain ⟨e, he, hitem⟩ := (hmem item).mp hin
      obtain ⟨item', hitem', -, hname⟩ := (takes_iff e).mp (htakes e he)
      obtain rfl := Option.some.inj (hitem'.symm.trans hitem)
      exact hname l hlabel
    · intro item hin l hl
      obtain ⟨e, he, hitem⟩ := (hmem item).mp hin
      rw [hlabels]
      exact hfit.defined e he l ((readItem_labelOf hitem).2.symm.trans hl)

/-- The text of a block is a program when the assembler takes every line. -/
theorem assembles_iff (block : X86.Block) (items : List Item) :
    Assembles (emitBlock backend block.asm) items ↔
      X86.LabelsFit block ∧ (∀ e ∈ block, Takes e = true) ∧ items = block.flatMap itemsOf := by
  constructor
  · rintro ⟨htext, hwell⟩
    have hok : ∀ k ∈ items, BranchesToName k := fun k hk l hl =>
      hwell.named l (hwell.defined k hk l hl)
    obtain ⟨hsome, rfl⟩ := items_of_text hok htext
    obtain ⟨hfit, htakes⟩ := (wellFormed_iff hsome).mp hwell
    exact ⟨hfit, htakes, rfl⟩
  · rintro ⟨hfit, htakes, rfl⟩
    have hsome : ∀ e ∈ block, (readItems e).isSome := by
      intro e he
      obtain ⟨item, hitem, -⟩ := (takes_iff e).mp (htakes e he)
      simp [readItems, hitem]
    exact ⟨text_of_items hsome, (wellFormed_iff hsome).mpr ⟨hfit, htakes⟩⟩

/-! ## §5 Runs -/

/-- The states that the register table relates: each register holds what the
x86 register of its row holds, and the memory and the flags are the same. -/
structure Related (s : X86.State) (t : State) : Prop where
  regs : ∀ r reg, mapReg r.asm = Reg.text reg → t.get reg = s.regs r
  mem : t.mem = s.mem
  flags : t.flags = s.flags

theorem related_iff (s : X86.State) (t : State) :
    Related s t ↔ (∀ r, t.get (ofX86 r) = s.regs r) ∧ t.mem = s.mem ∧ t.flags = s.flags := by
  constructor
  · rintro ⟨hregs, hmem, hflags⟩
    exact ⟨fun r => hregs r _ (mapReg_asm r), hmem, hflags⟩
  · rintro ⟨hregs, hmem, hflags⟩
    refine ⟨fun r reg h => ?_, hmem, hflags⟩
    rw [mapReg_asm] at h
    exact Reg.text_injective h ▸ hregs r

theorem Related.set {s : X86.State} {t : State} (h : Related s t) (r : X86.Reg) (v : Word) :
    Related (s.set r v) (t.set (ofX86 r) v) := by
  obtain ⟨hregs, hmem, hflags⟩ := (related_iff s t).mp h
  refine (related_iff _ _).mpr ⟨fun r' => ?_, by simpa using hmem, by simpa using hflags⟩
  rw [State.get_set t (ofX86_ne_xzr r), X86.State.set_regs]
  by_cases heq : r' = r
  · rw [if_pos heq, if_pos (congrArg ofX86 heq)]
  · rw [if_neg heq, if_neg fun h => heq (ofX86_injective h)]
    exact hregs r'

/-- The text of the block is a program, and started in a related state it
ends wherever the block does, in a related state. -/
def Translates (symbols : LabelName → Word) (block : X86.Block) : Prop :=
  ∃ items, Assembles (emitBlock backend block.asm) items ∧
    ∀ s t, Related s t → ∀ o s', (X86.code symbols X86.rules block).Ends 0 s o s' →
      ∃ t', (code items).Ends 0 t o t' ∧ Related s' t'

/-- One element and its line, in related states. -/
theorem step_related (symbols : LabelName → Word) {e : X86.Item} (he : Takes e = true)
    {s : X86.State} {t : State} (h : Related s t) :
    Listing.FlowRelated Related (e.exec symbols X86.rules s)
      (Listing.flows Item.exec (itemsOf e) t) := by
  obtain ⟨hregs, hmem, hflags⟩ := (related_iff s t).mp h
  obtain ⟨item, hitem, -⟩ := (takes_iff e).mp he
  rw [itemsOf_of_readItem hitem]
  unfold readItem at hitem
  split at hitem <;> simp only [Option.some.injEq, reduceCtorEq] at hitem <;> subst hitem
  · exact h
  · -- a move between registers
    simp only [X86.Item.exec, X86.Instr.exec, X86.Pair.dest, X86.Pair.source,
      X86.Operand.value, X86.BinOp.result, X86.BinOp.flags, X86.Dest.write, reduceCtorEq, if_false,
      Listing.flows, Item.exec, Instr.exec, Listing.FlowRelated, hregs]
    exact h.set _ _
  · simp only [X86.Item.exec, X86.Instr.exec, X86.Pair.dest, X86.Pair.source,
      X86.Operand.value, X86.BinOp.result, X86.BinOp.flags, X86.Dest.write, reduceCtorEq, if_false,
      Listing.flows, Item.exec, Instr.exec, Listing.FlowRelated]
    exact h.set _ _
  · -- a comparison: the registers stay and the flags are those of the difference
    simp only [X86.Item.exec, X86.Instr.exec, X86.Pair.dest, X86.Pair.source, X86.Dest.value,
      X86.Operand.value, X86.BinOp.flags, if_true, Listing.flows, Item.exec, Instr.exec,
      Operand.value, shifted, Listing.FlowRelated, hregs]
    exact (related_iff _ _).mpr ⟨hregs, hmem, rfl⟩
  · simp only [X86.Item.exec, X86.Instr.exec, X86.Pair.dest, X86.Pair.source, X86.Dest.value,
      X86.Operand.value, X86.BinOp.flags, if_true, Listing.flows, Item.exec, Instr.exec,
      Operand.value, Listing.FlowRelated, hregs]
    exact (related_iff _ _).mpr ⟨hregs, hmem, rfl⟩
  · exact ⟨rfl, h⟩
  · rename_i op l
    simp only [X86.Item.exec, X86.Instr.exec, Listing.flows, Item.exec, Instr.exec, hflags]
    cases op.cond.holds s.flags with
    | true => exact ⟨rfl, h⟩
    | false => exact h

theorem keepsLabels (symbols : LabelName → Word) {block : X86.Block}
    (h : ∀ e ∈ block, Takes e = true) :
    Listing.KeepsLabels (X86.code symbols X86.rules block) (code (block.flatMap itemsOf)) itemsOf := by
  intro e he
  obtain ⟨item, hitem, -⟩ := (takes_iff e).mp (h e he)
  have hlabel := (readItem_labelOf hitem).1
  rw [itemsOf_of_readItem hitem]
  constructor
  · intro hnone k hk
    rw [List.mem_singleton.mp hk]
    exact hlabel.trans hnone
  · intro l hl
    exact ⟨item, rfl, hlabel.trans hl⟩

/-- The ARM64 text of a block means what the block means exactly when the
assembler takes each of its lines. -/
theorem translates_iff_takes (symbols : LabelName → Word) (block : X86.Block) :
    Translates symbols block ↔ X86.LabelsFit block ∧ ∀ e ∈ block, Takes e = true := by
  constructor
  · rintro ⟨items, hassembles, -⟩
    obtain ⟨hfit, htakes, -⟩ := (assembles_iff block items).mp hassembles
    exact ⟨hfit, htakes⟩
  · rintro ⟨hfit, htakes⟩
    refine ⟨_, (assembles_iff block _).mpr ⟨hfit, htakes, rfl⟩, ?_⟩
    intro s t hrelated o s' hends
    exact Listing.Ends.simulated (d := code (block.flatMap itemsOf)) rfl (keepsLabels symbols htakes)
      (fun e he s t h => step_related symbols (htakes e he) h) hends hrelated

end Aether.Asm.Arm64
