/-
Aether.Asm.Translation — what a backend writes for an x86 block, in lines.

For a block of the 64-bit instructions both backends write a header and
then lines: a mnemonic and operands behind a blank, one line for an element,
or two where a push or a pop of a register is written as two. The facts here
are about the texts: which bytes a name and a number are made of, so that a
line can be told from another, and which instructions the backends single
out.
-/
import Aether.Asm.Backends
import Aether.Asm.X86

namespace Aether.Asm

open Aether.Lib Aether.Lib.Numerals Aether.Lib.TextLines

/-! ## §1 Labels and jumps of a block -/

namespace X86

def Item.jumpOf : Item → Option LabelName
  | .instr (.jmp l) | .instr (.jcc _ l) => some l
  | _ => none

def Block.labels (block : Block) : List LabelName := block.filterMap Item.labelOf

/-- Every label has a name of its own, and every jump goes to one of them. -/
structure LabelsFit (block : Block) : Prop where
  distinct : block.labels.Nodup
  defined : ∀ e ∈ block, ∀ l, e.jumpOf = some l → l ∈ block.labels

end X86

/-! ## §2 Bytes of names and numbers -/

theorem notMem_of_word {text : Bytes} (h : text.all continuesLabel = true) {c : UInt8}
    (hc : continuesLabel c = false) : c ∉ text := by
  intro hmem
  have := List.all_eq_true.mp h c hmem
  simp [hc] at this

theorem LabelName.text_word (l : LabelName) : l.text.all continuesLabel = true := by
  obtain ⟨text, ok⟩ := l
  cases text with
  | nil => simp [isLabelName] at ok
  | cons c rest =>
    simp only [isLabelName, Bool.and_eq_true] at ok
    simp [continuesLabel, ok.1, ← ok.2]

/-- The first byte of a text is a letter, `_` or `.`. -/
def StartsWord (text : Bytes) : Prop := ∃ c rest, text = c :: rest ∧ startsLabel c = true

theorem LabelName.startsWord (l : LabelName) : StartsWord l.text := by
  obtain ⟨text, ok⟩ := l
  cases text with
  | nil => simp [isLabelName] at ok
  | cons c rest =>
    simp only [isLabelName, Bool.and_eq_true] at ok
    exact ⟨c, rest, rfl, ok.1⟩

theorem LabelName.text_injective {l m : LabelName} (h : l.text = m.text) : l = m := by
  cases l
  cases m
  simpa using h

/-- A text that starts a word is not one that starts with another byte. -/
theorem StartsWord.ne_cons {text more rest : Bytes} {c : UInt8} (h : StartsWord text)
    (hc : startsLabel c = false) : text ++ more ≠ c :: rest := by
  obtain ⟨d, tail, rfl, hd⟩ := h
  intro heq
  have hdc : d = c := (List.cons.inj heq).1
  rw [hdc, hc] at hd
  exact absurd hd (by simp)

theorem StartsWord.ne {text rest : Bytes} {c : UInt8} (h : StartsWord text)
    (hc : startsLabel c = false) : text ≠ c :: rest := by
  have hne : text ++ [] ≠ c :: rest := h.ne_cons hc
  rwa [List.append_nil] at hne

theorem notMem_intDecimal {i : Int} {c : UInt8} (hsign : c ≠ 45)
    (hdigit : ¬(48 ≤ c.toNat ∧ c.toNat ≤ 57)) : c ∉ intDecimal i := by
  intro h
  cases mem_intDecimal h with
  | inl h => exact hsign h
  | inr h => exact hdigit h

/-- A number starts with no letter. -/
theorem intDecimal_cons (i : Int) : ∃ c rest, intDecimal i = c :: rest ∧ startsLabel c = false := by
  cases h : intDecimal i with
  | nil => exact absurd h (intDecimal_ne_nil i)
  | cons c rest =>
    refine ⟨c, rest, rfl, ?_⟩
    have hc : c ∈ intDecimal i := by simp [h]
    cases mem_intDecimal hc with
    | inl h => rw [h]; rfl
    | inr h =>
      simp only [startsLabel, Bool.or_eq_false_iff, Bool.and_eq_false_imp, decide_eq_true_eq,
        decide_eq_false_iff_not, beq_eq_false_iff_ne, UInt8.le_iff_toNat_le, ne_eq,
        ← UInt8.toNat_inj]
      refine ⟨⟨⟨?_, ?_⟩, ?_⟩, ?_⟩ <;> simp <;> omega

/-! ## §3 Lines of instructions -/

/-- A line of an instruction. -/
def instrLine (mnemonic : String) (operands : Bytes) : Bytes :=
  bytes "    " ++ bytes mnemonic ++ bytes " " ++ operands

def labelLine (l : LabelName) : Bytes := l.text ++ bytes ":"

/-- A line fixes its mnemonic and its operands. -/
theorem instrLine_inj {m m' : String} {ops ops' : Bytes} (hm : (32 : UInt8) ∉ bytes m)
    (hm' : (32 : UInt8) ∉ bytes m') (h : instrLine m ops = instrLine m' ops') :
    bytes m = bytes m' ∧ ops = ops' := by
  have hblank : bytes " " = [32] := rfl
  simp only [instrLine, hblank, List.append_assoc, List.cons_append, List.nil_append] at h
  exact append_cons_inj hm hm' (List.append_cancel_left h)

theorem labelLine_inj {l m : LabelName} (h : labelLine l = labelLine m) : l = m :=
  LabelName.text_injective (List.append_cancel_right h)

theorem labelLine_ne_instrLine (l : LabelName) (mnemonic : String) (operands : Bytes) :
    labelLine l ≠ instrLine mnemonic operands := by
  have hindent : bytes "    " = [32, 32, 32, 32] := rfl
  rw [labelLine, instrLine, hindent]
  exact l.startsWord.ne_cons rfl

theorem notMem_instrLine {mnemonic : String} {operands : Bytes}
    (hm : (10 : UInt8) ∉ bytes mnemonic) (hops : (10 : UInt8) ∉ operands) :
    (10 : UInt8) ∉ instrLine mnemonic operands := by
  have hindent : (10 : UInt8) ∉ bytes "    " := by decide
  have hblank : (10 : UInt8) ∉ bytes " " := by decide
  simp [instrLine, hm, hops, hindent, hblank]

theorem notMem_labelLine (l : LabelName) : (10 : UInt8) ∉ labelLine l := by
  have hword := notMem_of_word l.text_word (c := 10) rfl
  have hcolon : (10 : UInt8) ∉ bytes ":" := by decide
  simp [labelLine, hword, hcolon]

/-! ## §4 What the backends single out -/

/-- The register that an instruction pushes. -/
def X86.Instr.pushed : X86.Instr → Option AsmRegister
  | .push (.reg r) => some r.asm
  | _ => none

/-- The register that an instruction pops. -/
def X86.Instr.popped : X86.Instr → Option AsmRegister
  | .pop (.reg r) => some r.asm
  | _ => none

theorem onRegister_push (i : X86.Instr) : onRegister "push" i.asm = i.pushed := by
  cases i with
  | bin op args => cases args <;> rfl
  | un op dst => cases op <;> rfl
  | push src => cases src <;> rfl
  | jcc op l => cases op <;> rfl
  | pop | jmp | jmpTo => rfl

theorem onRegister_pop (i : X86.Instr) : onRegister "pop" i.asm = i.popped := by
  cases i with
  | bin op args => cases args <;> rfl
  | un op dst => cases op <;> rfl
  | pop dst => cases dst <;> rfl
  | jcc op l => cases op <;> rfl
  | push | jmp | jmpTo => rfl

theorem emitInstr_of_pushed (b : Backend) {i : X86.Instr} {reg : AsmRegister}
    (h : i.pushed = some reg) :
    emitInstr b i.asm =
      bytes "    " ++ mapMnemonic b.mnemonics i.asm.mnemonic ++ b.pushRegister (b.mapReg reg) := by
  rw [emitInstr, onRegister_push, h]

theorem emitInstr_of_popped (b : Backend) {i : X86.Instr} {reg : AsmRegister}
    (hpush : i.pushed = none) (h : i.popped = some reg) :
    emitInstr b i.asm =
      bytes "    " ++ mapMnemonic b.mnemonics i.asm.mnemonic ++ b.popRegister (b.mapReg reg) := by
  rw [emitInstr, onRegister_push, onRegister_pop, hpush, h]

theorem emitInstr_of_other (b : Backend) {i : X86.Instr} (hpush : i.pushed = none)
    (hpop : i.popped = none) :
    emitInstr b i.asm =
      bytes "    " ++ mapMnemonic b.mnemonics i.asm.mnemonic ++
        (emitOperands b i.asm.operands ++ bytes "\n") := by
  rw [emitInstr, onRegister_push, onRegister_pop, hpush, hpop]

/-- Items that carry the labels of the elements they stand for carry those
of the block. -/
theorem labels_flatMap {κ : Type*} {labelOf : κ → Option LabelName} {f : X86.Item → List κ}
    {block : X86.Block} (h : ∀ e ∈ block, (f e).filterMap labelOf = e.labelOf.toList) :
    (block.flatMap f).filterMap labelOf = block.labels := by
  induction block with
  | nil => rfl
  | cons e block ih =>
    have hrest := ih fun x hx => h x (by simp [hx])
    rw [List.flatMap_cons, List.filterMap_append, hrest, h e (by simp)]
    simp only [X86.Block.labels, List.filterMap_cons]
    cases e.labelOf <;> rfl

end Aether.Asm
