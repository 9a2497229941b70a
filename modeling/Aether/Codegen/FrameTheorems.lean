/-
Aether.Codegen.FrameTheorems — the frame of a function.

Every slot that `computeFrame` makes comes from `FrameState.add`, wherever in
the body the declaration stands, so what `add` keeps holds of the frame of
every function: the slots lie below `rbp`, inside the frame, one below the
other, each at a multiple of eight.
-/
import Aether.Codegen.Functions

namespace Aether.Codegen.Functions

open Aether.Lib Layout

/-! ## §1 What is added slot by slot -/

theorem alignTo8_dvd (n : Nat) : 8 ∣ alignTo8 n := ⟨(n + 7) / 8, Nat.mul_comm _ _⟩

/-- What one more slot of whole cells keeps. -/
def KeptByAdd (P : FrameState → Prop) : Prop :=
  ∀ f name size actualSize prim, 8 ∣ size → P f → P (f.add name size actualSize prim)

section

variable (reg : Registry) {P : FrameState → Prop}

theorem addLoopVar_keeps (hadd : KeptByAdd P) (name : Option Bytes) {f : FrameState} (h : P f) :
    P (f.addLoopVar name) := by
  cases name with
  | none => exact h
  | some name => exact hadd f name 8 8 .u64 ⟨1, rfl⟩ h

mutual

theorem frameCollect_keeps (hadd : KeptByAdd P) (node : AstNode) {f : FrameState} (h : P f) :
    P (frameCollect reg node f) := by
  cases node with
  | block stmts => exact frameCollectItems_keeps hadd stmts h
  | letNode name type value isMut isGlobal =>
    exact frameCollectOpt_keeps hadd value (hadd f name _ _ _ (alignTo8_dvd _) h)
  | ifNode condition thenBlock elifChain elseBlock =>
    exact frameCollectOpt_keeps hadd elseBlock (frameCollectOpt_keeps hadd elifChain
      (frameCollectOpt_keeps hadd thenBlock (frameCollectOpt_keeps hadd condition h)))
  | ifLet pattern condition thenBlock =>
    exact frameCollectOpt_keeps hadd thenBlock (frameCollectOpt_keeps hadd condition h)
  | whileNode condition body =>
    exact frameCollectOpt_keeps hadd body (frameCollectOpt_keeps hadd condition h)
  | forNode var indexVar iterable body =>
    exact frameCollectOpt_keeps hadd body (frameCollectOpt_keeps hadd iterable
      (addLoopVar_keeps hadd indexVar (addLoopVar_keeps hadd var h)))
  | tryNode body catchArms finallyBody =>
    exact frameCollectArms_keeps hadd catchArms (frameCollectOpt_keeps hadd body h)
  | _ => exact h

theorem frameCollectOpt_keeps (hadd : KeptByAdd P) (node : Option AstNode) {f : FrameState} (h : P f) :
    P (frameCollectOpt reg node f) := by
  cases node with
  | none => exact h
  | some node => exact frameCollect_keeps hadd node h

theorem frameCollectItems_keeps (hadd : KeptByAdd P) (nodes : List AstNode) {f : FrameState} (h : P f) :
    P (frameCollectItems reg nodes f) := by
  cases nodes with
  | nil => exact h
  | cons node nodes => exact frameCollectItems_keeps hadd nodes (frameCollect_keeps hadd node h)

theorem frameCollectArms_keeps (hadd : KeptByAdd P) (arms : List AstNode) {f : FrameState} (h : P f) :
    P (frameCollectArms reg arms f) := by
  cases arms with
  | nil => exact h
  | cons arm arms =>
    cases arm with
    | catchArm type var body isCatchAll =>
      exact frameCollectArms_keeps hadd arms (frameCollectOpt_keeps hadd body h)
    | _ => exact frameCollectArms_keeps hadd arms h

end

theorem frameParams_keeps (hadd : KeptByAdd P) (params : List AstNode) {f : FrameState} (h : P f) :
    P (frameParams reg params f) := by
  induction params generalizing f with
  | nil => exact h
  | cons param params ih => exact ih (hadd f _ _ _ _ (alignTo8_dvd _) h)

end

/-! ## §2 The layout of a frame -/

/-- Slots one below the other from `rbp` down, each at a multiple of eight. -/
structure FrameState.Laid (f : FrameState) : Prop where
  inside : ∀ slot ∈ f.slots, -(f.offset : Int) ≤ slot.stackOffset ∧ slot.stackOffset + slot.size ≤ 0
  apart : f.slots.Pairwise fun (new old : VarSlot) => new.stackOffset + new.size ≤ old.stackOffset
  aligned : ∀ slot ∈ f.slots, (8 : Int) ∣ slot.stackOffset
  offset : 8 ∣ f.offset

theorem laid_nil : FrameState.Laid {} where
  inside := by simp
  apart := .nil
  aligned := by simp
  offset := ⟨0, rfl⟩

theorem FrameState.Laid.add {f : FrameState} (h : f.Laid) (name : Bytes) {size : Nat}
    (actualSize : Nat) (prim : PrimType) (hsize : 8 ∣ size) :
    (f.add name size actualSize prim).Laid where
  inside := by
    intro slot hslot
    rcases List.mem_cons.mp hslot with rfl | hslot
    · simp [FrameState.add]
    · have hinside := h.inside slot hslot
      simp only [FrameState.add]
      omega
  apart := by
    refine .cons (fun slot hslot => ?_) h.apart
    have hinside := h.inside slot hslot
    simp only
    omega
  aligned := by
    intro slot hslot
    rcases List.mem_cons.mp hslot with rfl | hslot
    · have hoffset := h.offset
      simp only
      omega
    · exact h.aligned slot hslot
  offset := Nat.dvd_add h.offset hsize

theorem computeFrame_laid (reg : Registry) (params : List AstNode) (body : Option AstNode) :
    (frameCollectOpt reg body (frameParams reg params {})).Laid := by
  have hadd : KeptByAdd FrameState.Laid :=
    fun f name size actualSize prim hsize h => h.add name actualSize prim hsize
  exact frameCollectOpt_keeps reg hadd body (frameParams_keeps reg hadd params laid_nil)

/-- A frame for the System V ABI: its size is a multiple of 16, and its slots
are at multiples of eight, inside it, no two of them over one another. -/
structure SoundFrame (slots : List VarSlot) (size : Nat) : Prop where
  whole : 16 ∣ size
  aligned : ∀ slot ∈ slots, (8 : Int) ∣ slot.stackOffset
  inside : ∀ slot ∈ slots, -(size : Int) ≤ slot.stackOffset ∧ slot.stackOffset + slot.size ≤ 0
  apart : slots.Pairwise fun (a b : VarSlot) =>
    a.stackOffset + a.size ≤ b.stackOffset ∨ b.stackOffset + b.size ≤ a.stackOffset

theorem FrameState.Laid.sound {f : FrameState} (h : f.Laid) :
    SoundFrame f.slots ((f.offset + 15) / 16 * 16) := by
  refine ⟨⟨_, Nat.mul_comm _ _⟩, h.aligned, fun slot hslot => ?_, h.apart.imp Or.inl⟩
  have hinside := h.inside slot hslot
  omega

theorem slot_below {slots : List VarSlot} {size : Nat} (h : SoundFrame slots size)
    (hpos : ∀ slot ∈ slots, 0 < slot.size) :
    ∀ slot ∈ slots, -(size : Int) ≤ slot.stackOffset ∧ slot.stackOffset < 0 := by
  intro slot hslot
  have hinside := h.inside slot hslot
  have hsize := hpos slot hslot
  omega

/-- Slots of some size differ in their offsets. -/
theorem slot_apart {slots : List VarSlot} {size : Nat} (h : SoundFrame slots size)
    (hpos : ∀ slot ∈ slots, 0 < slot.size) :
    ∀ a ∈ slots, ∀ b ∈ slots, a.stackOffset = b.stackOffset → a = b := by
  have hdistinct : slots.Pairwise fun a b => a.stackOffset = b.stackOffset → a = b :=
    h.apart.imp_of_mem fun ha hb hab heq => by
      have hposa := hpos _ ha
      have hposb := hpos _ hb
      omega
  have hsymm : Std.Symm fun a b : VarSlot => a.stackOffset = b.stackOffset → a = b :=
    ⟨fun a b h heq => (h heq.symm).symm⟩
  exact fun a ha b hb => hdistinct.forall_of_forall (fun _ _ _ => rfl) ha hb

end Aether.Codegen.Functions
