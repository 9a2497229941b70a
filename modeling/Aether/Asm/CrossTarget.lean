/-
Aether.Asm.CrossTarget — when the two backends keep the meaning of a block.

Both results side by side: ARM64 fails only by texts that are no ARM64
assembly, RISC-V also by its wider stack slots.
-/
import Aether.Asm.Arm64Theorems
import Aether.Asm.Riscv64Theorems

namespace Aether.Asm

/-- A block of register moves and jumps keeps its meaning on both targets. -/
theorem moves_translated (symbols : LabelName → Word) {block : X86.Block}
    (hfit : X86.LabelsFit block)
    (h : ∀ e ∈ block, (∃ d m, e = .instr (.bin .mov (.toReg d (.reg m)))) ∨
      ∃ l, e = .instr (.jmp l)) :
    Arm64.Translates symbols block ∧ Riscv64.Translates symbols block := by
  have htakes : ∀ e ∈ block, Arm64.Takes e = true ∧ Riscv64.Takes e = true ∧
      Riscv64.leavesStack e = true := by
    intro e he
    obtain ⟨d, m, rfl⟩ | ⟨l, rfl⟩ := h e he
    · exact ⟨rfl, rfl, rfl⟩
    · exact ⟨rfl, rfl, rfl⟩
  exact ⟨(Arm64.translates_iff_takes _ _).mpr ⟨hfit, fun e he => (htakes e he).1⟩,
    (Riscv64.translates_iff_takes _ _).mpr ⟨hfit, fun e he => (htakes e he).2.1,
      Riscv64.slotsAgree_of_leavesStack symbols fun e he => (htakes e he).2.2⟩⟩

end Aether.Asm
