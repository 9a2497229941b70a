/-
Aether.Codegen.FunctionTheorems — the code of a function does what the
function means.

A call is followed by induction on the fuel of its meaning. `Inv` ties the
variables to the slots of the activation, `Above` is what an operator and a
whole call leave as it was, `Kept` what an expression does. The labels of a
program come from one counter, so that each jump finds its own.
-/
import Aether.Codegen.FrameTheorems

namespace Aether.Codegen.Functions

open Aether.Lib Layout
open RangeLoops (Word setIf loadSized)

/-! ## §1 Words and cells -/

theorem loadSized_overLow (size : Nat) (old new : Word) :
    loadSized size (overLow size old new) = loadSized size new := by
  unfold overLow
  split
  · simp only [loadSized]
    congr 1
    ext i hi
    simp [show i < 64 by omega]
  · simp only [loadSized]
    congr 1
    ext i hi
    simp [show i < 64 by omega]
  · simp only [loadSized]
    congr 1
    ext i hi
    simp [show i < 64 by omega]
  · rfl

theorem write_mem_self (s : State) (a : Int) (cell : Cell) : (s.write a cell).mem a = cell :=
  if_pos rfl

theorem write_mem_ne (s : State) {a b : Int} (cell : Cell) (h : b ≠ a) :
    (s.write a cell).mem b = s.mem b :=
  if_neg h

/-! ## §2 What is left as it was -/

/-- The same stack and frame pointers, and memory from the stack pointer on. -/
structure Above (s t : State) : Prop where
  rsp : t.rsp = s.rsp
  rbp : t.rbp = s.rbp
  mem : ∀ a, s.rsp ≤ a → t.mem a = s.mem a

theorem Above.trans {s t u : State} (h : Above s t) (h' : Above t u) : Above s u where
  rsp := h'.rsp.trans h.rsp
  rbp := h'.rbp.trans h.rbp
  mem := fun a ha => (h'.mem a (by rw [h.rsp]; exact ha)).trans (h.mem a ha)

theorem Above.set (s : State) (r : Reg) (w : Word) : Above s (s.set r w) := ⟨rfl, rfl, fun _ _ => rfl⟩

/-! ## §3 Operators -/

def isTrap (x : Stop) : Prop := x = .divideError

/-- What an operator leaves: its result, at the end of its code. -/
structure OpPost (s : State) (pc' : Nat) (w : Word) (b : Nat × State) : Prop where
  place : b.1 = pc'
  value : b.2.regs .rax = w
  above : Above s b.2

section

variable {items : List Instr} {pc : Nat} {s : State}

/-- Items that all go on. -/
theorem does_line {es : List Instr} {t : State} {w : Word} (hat : (machine items).At pc es)
    (hline : (machine items).line pc es s = some t) (hvalue : t.regs .rax = w) (habove : Above s t) :
    (machine items).Does isTrap (pc, s) (.ok w) (OpPost s (pc + es.length)) :=
  .ok (.line hat hline) ⟨rfl, hvalue, habove⟩

theorem does_alu {op : Alu} {w : Word} (hat : (machine items).At pc [.alu op])
    (hw : op.run (s.regs .rax) (s.regs .rcx) = w) :
    (machine items).Does isTrap (pc, s) (.ok w) (OpPost s (pc + 1)) :=
  does_line (t := s.set .rax (op.run (s.regs .rax) (s.regs .rcx))) hat rfl hw (.set s _ _)

theorem does_div {remainder : Bool} (hat : (machine items).At pc [.div remainder]) :
    (machine items).Does isTrap (pc, s)
      (if s.regs .rcx = 0 then .error .divideError
      else .ok (if remainder then s.regs .rax % s.regs .rcx else s.regs .rax / s.regs .rcx))
      (OpPost s (pc + 1)) := by
  by_cases hzero : s.regs .rcx = 0
  · rw [if_pos hzero]
    intro _
    exact ⟨(pc, s), _, .refl _ _, hat.1, if_pos hzero⟩
  · rw [if_neg hzero]
    refine .ok (.next hat.1 (if_neg hzero)) ⟨rfl, rfl, ?_⟩
    exact (Above.set s .rdx _).trans (.set _ .rax _)

theorem does_and {k : Nat} (hunique : (machine items).UniqueLabels)
    (hat : (machine items).At pc
      [.test .rax, .jz (.andFalse k), .test .rcx, .setnz, .label (.andFalse k)]) :
    (machine items).Does isTrap (pc, s) (.ok (setIf (s.regs .rax != 0 && s.regs .rcx != 0)))
      (OpPost s (pc + 5)) := by
  obtain ⟨htest, hjz, htest', hsetnz, hlabel, -⟩ := hat
  have hfound := CallCode.find_of_at hunique hlabel rfl
  have hstart := CallCode.Reaches.next (s := s) htest rfl
  by_cases ha : s.regs .rax = 0
  · have hjump : (machine items).Reaches (pc + 1, { s with zero := s.regs .rax == 0 }) _ :=
      .goto hjz (congrArg some (if_pos (beq_iff_eq.mpr ha))) hfound
    refine .ok ((hstart.trans hjump).trans (.next hlabel rfl)) ⟨rfl, ?_, ⟨rfl, rfl, fun _ _ => rfl⟩⟩
    simp [ha, setIf]
  · have hgo : (machine items).Reaches (pc + 1, { s with zero := s.regs .rax == 0 }) _ :=
      .next hjz (congrArg some (if_neg (by simpa using ha)))
    have hset := ((hstart.trans hgo).trans (.next htest' rfl)).trans (.next hsetnz rfl)
    refine .ok (hset.trans (.next hlabel rfl)) ⟨rfl, ?_, ⟨rfl, rfl, fun _ _ => rfl⟩⟩
    have hbeq : (s.regs .rax == 0) = false := beq_eq_false_iff_ne.mpr ha
    change setIf (!(s.regs .rcx == 0)) = setIf (!(s.regs .rax == 0) && !(s.regs .rcx == 0))
    rw [hbeq]
    rfl

theorem does_or {k : Nat} (hunique : (machine items).UniqueLabels)
    (hat : (machine items).At pc
      [.test .rax, .jnz (.orTrue k), .test .rcx, .setnz, .label (.orTrue k), .test .rax,
        .setnz]) :
    (machine items).Does isTrap (pc, s) (.ok (setIf (s.regs .rax != 0 || s.regs .rcx != 0)))
      (OpPost s (pc + 7)) := by
  obtain ⟨htest, hjnz, htest', hsetnz, hlabel, htestEnd, hsetEnd, -⟩ := hat
  have hfound := CallCode.find_of_at hunique hlabel rfl
  have hstart := CallCode.Reaches.next (s := s) htest rfl
  have hend : ∀ t : State, (machine items).Reaches (pc + 4, t) (pc + 7, _) := fun t =>
    ((CallCode.Reaches.next (s := t) hlabel rfl).trans (.next htestEnd rfl)).trans
      (.next hsetEnd rfl)
  by_cases ha : s.regs .rax = 0
  · have hgo : (machine items).Reaches (pc + 1, { s with zero := s.regs .rax == 0 }) _ :=
      .next hjnz (congrArg some (if_pos (beq_iff_eq.mpr ha)))
    have hset := ((hstart.trans hgo).trans (.next htest' rfl)).trans (.next hsetnz rfl)
    refine .ok (hset.trans (hend _)) ⟨rfl, ?_, ⟨rfl, rfl, fun _ _ => rfl⟩⟩
    by_cases hb : s.regs .rcx = 0 <;> simp [State.set, ha, hb, setIf, bne]
  · have hjump : (machine items).Reaches (pc + 1, { s with zero := s.regs .rax == 0 }) _ :=
      .goto hjnz (congrArg some (if_neg (by simpa using ha))) hfound
    refine .ok ((hstart.trans hjump).trans (hend _)) ⟨rfl, ?_, ⟨rfl, rfl, fun _ _ => rfl⟩⟩
    have hbeq : (s.regs .rax == 0) = false := beq_eq_false_iff_ne.mpr ha
    change setIf (!(s.regs .rax == 0)) = setIf (!(s.regs .rax == 0) || !(s.regs .rcx == 0))
    rw [hbeq]
    rfl

theorem does_orElse {k : Nat} (hunique : (machine items).UniqueLabels)
    (hat : (machine items).At pc
      [.test .rax, .jnz (.orElseHas k), .copy .rax .rcx, .label (.orElseHas k)]) :
    (machine items).Does isTrap (pc, s)
      (.ok (if s.regs .rax = 0 then s.regs .rcx else s.regs .rax)) (OpPost s (pc + 4)) := by
  obtain ⟨htest, hjnz, hcopy, hlabel, -⟩ := hat
  have hfound := CallCode.find_of_at hunique hlabel rfl
  have hstart := CallCode.Reaches.next (s := s) htest rfl
  by_cases ha : s.regs .rax = 0
  · have hgo : (machine items).Reaches (pc + 1, { s with zero := s.regs .rax == 0 }) _ :=
      .next hjnz (congrArg some (if_pos (beq_iff_eq.mpr ha)))
    have hcopied := (hstart.trans hgo).trans (.next hcopy rfl)
    refine .ok (hcopied.trans (.next hlabel rfl)) ⟨rfl, ?_, ⟨rfl, rfl, fun _ _ => rfl⟩⟩
    rw [if_pos ha]
    rfl
  · have hjump : (machine items).Reaches (pc + 1, { s with zero := s.regs .rax == 0 }) _ :=
      .goto hjnz (congrArg some (if_neg (by simpa using ha))) hfound
    refine .ok ((hstart.trans hjump).trans (.next hlabel rfl))
      ⟨rfl, (if_neg ha).symm, ⟨rfl, rfl, fun _ _ => rfl⟩⟩

/-! ### The loop of `**` -/

/-- One turn multiplies and counts down, and the loop ends at zero: `rax`
takes on as many factors as `r8` counts. -/
theorem reaches_power {powStart : Label} (hfound : (machine items).find powStart = some pc)
    (hat : (machine items).At pc [.label powStart, .mul, .dec, .jnz powStart]) (n : Nat) :
    ∀ s : State, (s.regs .r8).toNat = n + 1 → ∀ base m, s.regs .rcx = base →
      s.regs .rax = power base m →
      ∃ t, (machine items).Reaches (pc, s) (pc + 4, t) ∧
        t.regs .rax = power base (m + (n + 1)) ∧ t.rsp = s.rsp ∧ t.rbp = s.rbp ∧ t.mem = s.mem := by
  obtain ⟨hlabel, hmul, hdec, hjnz, -⟩ := hat
  induction n with
  | zero =>
    intro s hr8 base m hrcx hrax
    have hone : s.regs .r8 = 1 := BitVec.eq_of_toNat_eq hr8
    have hturn := ((CallCode.Reaches.next (s := s) hlabel rfl).trans (.next hmul rfl)).trans
      (.next hdec rfl)
    refine ⟨_, hturn.trans (.next hjnz (congrArg some (if_pos ?_))), ?_, rfl, rfl, rfl⟩
    · simp [State.set, hone]
    · simp [State.set, hrax, hrcx, power]
  | succ n ih =>
    intro s hr8 base m hrcx hrax
    have hturn := ((CallCode.Reaches.next (s := s) hlabel rfl).trans (.next hmul rfl)).trans
      (.next hdec rfl)
    have hnext : (s.regs .r8 - 1).toNat = n + 1 := by
      have hle : (1 : Word) ≤ s.regs .r8 := by
        rw [BitVec.le_def, hr8]
        exact Nat.le_add_left 1 (n + 1)
      rw [BitVec.toNat_sub_of_le hle, hr8]
      rfl
    have hne : ¬ (s.regs .r8 - 1 == (0 : Word)) = true := by
      intro heq
      rw [beq_iff_eq.mp heq] at hnext
      cases hnext
    let t : State :=
      { ((s.set .rdx (mulHigh (s.regs .rax) (s.regs .rcx))).set .rax
          (s.regs .rax * s.regs .rcx)).set .r8 (s.regs .r8 - 1) with
        zero := s.regs .r8 - 1 == 0 }
    have hback : (machine items).Reaches (pc, s) (pc, t) :=
      hturn.trans (.goto hjnz (congrArg some (if_neg hne)) hfound)
    have hfactor : t.regs .rax = power base (m + 1) := by
      change s.regs .rax * s.regs .rcx = power base m * base
      rw [hrax, hrcx]
    obtain ⟨u, hreach, hvalue, hrsp, hrbp, hmem⟩ := ih t hnext base (m + 1) hrcx hfactor
    refine ⟨u, hback.trans hreach, ?_, hrsp, hrbp, hmem⟩
    rw [hvalue, show m + 1 + (n + 1) = m + (n + 1 + 1) by omega]

theorem does_power {k : Nat} (hunique : (machine items).UniqueLabels)
    (hat : (machine items).At pc
      [.push .rcx, .push .rax, .peek .rcx 0, .mov .rax 1, .peek .r8 8, .test .r8,
        .jz (.num (k + 1)), .label (.num k), .mul, .dec, .jnz (.num k), .label (.num (k + 1)),
        .drop 16]) :
    (machine items).Does isTrap (pc, s) (.ok (power (s.regs .rax) (s.regs .rcx).toNat))
      (OpPost s (pc + 13)) := by
  obtain ⟨hpush, hpush', hpeek, hmov, hpeek', htest, hjz, hlabel, hmul, hdec, hjnz, hdone, hdrop,
    -⟩ := hat
  have hstart := CallCode.find_of_at hunique hlabel rfl
  have hend := CallCode.find_of_at hunique hdone rfl
  -- what is pushed and read back
  let t : State :=
    { ((((s.pushed (.word (s.regs .rcx))).pushed (.word (s.regs .rax))).set .rcx (s.regs .rax)).set
        .rax 1).set .r8 (s.regs .rcx) with zero := s.regs .rcx == 0 }
  have habove : ∀ a, s.rsp ≤ a → t.mem a = s.mem a := by
    intro a ha
    have hne : a ≠ s.rsp - 8 := by omega
    have hne' : a ≠ s.rsp - 8 - 8 := by omega
    simp [t, State.set, State.pushed, State.write, hne, hne']
  have hready : (machine items).Reaches (pc, s) (pc + 6, t) := by
    have hat : (machine items).At pc [.push .rcx, .push .rax, .peek .rcx 0, .mov .rax 1,
        .peek .r8 8, .test .r8] := ⟨hpush, hpush', hpeek, hmov, hpeek', htest, trivial⟩
    refine .line hat ?_
    have hne : ¬ s.rsp = s.rsp - 8 := by omega
    simp [CallCode.line, machine, Instr.exec, t, State.set, State.pushed, State.write, Cell.bits,
      hne]
    all_goals rfl
  by_cases hzero : s.regs .rcx = 0
  · have hjump : (machine items).Reaches (pc + 6, t) (pc + 11, t) :=
      .goto hjz (congrArg some (if_pos (beq_iff_eq.mpr hzero))) hend
    refine .ok (((hready.trans hjump).trans (.next hdone rfl)).trans (.next hdrop rfl))
      ⟨rfl, ?_, ⟨?_, rfl, habove⟩⟩
    · rw [hzero]
      rfl
    · change s.rsp - 8 - 8 + 16 = s.rsp
      omega
  · have hgo : (machine items).Reaches (pc + 6, t) (pc + 7, t) :=
      .next hjz (congrArg some (if_neg (by simpa [t] using hzero)))
    have hpos : (s.regs .rcx).toNat ≠ 0 := fun h => hzero (BitVec.eq_of_toNat_eq h)
    obtain ⟨u, hreach, hvalue, hrsp, hrbp, hmem⟩ := reaches_power hstart
      ⟨hlabel, hmul, hdec, hjnz, trivial⟩ ((s.regs .rcx).toNat - 1) t
      (by simp [t, State.set]; omega) (s.regs .rax) 0 rfl rfl
    refine .ok ((((hready.trans hgo).trans hreach).trans (.next hdone rfl)).trans
      (.next hdrop rfl)) ⟨rfl, ?_, ⟨?_, hrbp, fun a ha => ?_⟩⟩
    · change u.regs .rax = _
      rw [hvalue, show 0 + ((s.regs .rcx).toNat - 1 + 1) = (s.regs .rcx).toNat by omega]
    · change u.rsp + 16 = s.rsp
      rw [hrsp]
      change s.rsp - 8 - 8 + 16 = s.rsp
      omega
    · change u.mem a = s.mem a
      rw [hmem]
      exact habove a ha

/-- The instructions of an operator leave what it means, or trap. -/
theorem does_binary {k : Nat} {op : BinOp} {o : Code} (hunique : (machine items).UniqueLabels)
    (ho : cgBinary k op = some o) (hat : (machine items).At pc o.1) :
    (machine items).Does isTrap (pc, s) (binary op (s.regs .rax) (s.regs .rcx))
      (OpPost s (pc + o.1.length)) := by
  cases op
  case assign | concat => cases ho
  all_goals
    obtain rfl := Option.some.inj ho
  case and => exact does_and hunique hat
  case or => exact does_or hunique hat
  case orElse => exact does_orElse hunique hat
  case power => exact does_power hunique hat
  case div | divAssign => exact does_div hat
  case mod => exact does_div hat
  case mul | mulAssign =>
    exact does_line hat rfl rfl ((Above.set s .rdx _).trans (.set _ .rax _))
  case range => exact does_line hat rfl rfl (.set s .rax _)
  all_goals
    exact does_alu hat rfl

theorem does_unary {op : UnaryOp} {o : List Instr} (ho : cgUnary op = some o)
    (hat : (machine items).At pc o) :
    (machine items).Does isTrap (pc, s) (unary op (s.regs .rax)) (OpPost s (pc + o.length)) := by
  cases op
  case neg | bitNot =>
    obtain rfl := Option.some.inj ho
    exact does_line hat rfl rfl (.set s .rax _)
  case not =>
    obtain rfl := Option.some.inj ho
    exact does_line hat rfl rfl ⟨rfl, rfl, fun _ _ => rfl⟩
  all_goals
    cases ho

end

/-! ## §4 Activations -/

/-- The frame of a call that is under way: where it is, what it keeps of its
caller, and its slots, inside the frame and apart. -/
structure Activation where
  slots : List VarSlot
  size : Nat
  rbp : Int
  base : Int
  ret : Nat
  inside : ∀ slot ∈ slots, -(size : Int) ≤ slot.stackOffset ∧ slot.stackOffset < 0
  apart : ∀ a ∈ slots, ∀ b ∈ slots, a.stackOffset = b.stackOffset → a = b

/-- The state of an activation with these variables. What is pushed is below
the frame. -/
structure Inv (f : Activation) (env : Env) (s : State) : Prop where
  rbp : s.rbp = f.rbp
  room : s.rsp ≤ f.rbp - f.size
  saved : s.mem f.rbp = .base f.base
  back : s.mem (f.rbp + 8) = .place f.ret
  holds : ∀ name slot w, findSlot f.slots name = some slot → env name = some w →
    loadSized slot.actualSize (s.mem (f.rbp + slot.stackOffset)).bits = loadSized slot.actualSize w

/-- Memory from the stack pointer on, but for the slots. -/
def Kept (f : Activation) (s t : State) : Prop :=
  ∀ a, s.rsp ≤ a → (∀ slot ∈ f.slots, a ≠ f.rbp + slot.stackOffset) → t.mem a = s.mem a

section

variable {f : Activation} {env : Env} {s t u : State}

theorem Kept.trans (h : Kept f s t) (h' : Kept f t u) (hrsp : t.rsp ≤ s.rsp) : Kept f s u := by
  intro a ha hslot
  rw [h' a (by omega) hslot, h a ha hslot]

theorem Kept.of_mem (h : ∀ a, s.rsp ≤ a → t.mem a = s.mem a) : Kept f s t := fun a ha _ => h a ha

theorem mem_of_findSlot {slots : List VarSlot} {name : Bytes} {slot : VarSlot}
    (h : findSlot slots name = some slot) : slot ∈ slots ∧ slot.name = name :=
  ⟨List.mem_of_find?_eq_some h, beq_iff_eq.mp (List.find?_some h :)⟩

/-- Nothing of an activation is below the stack pointer. -/
theorem Inv.of_mem (h : Inv f env s) (hrbp : t.rbp = s.rbp) (hroom : t.rsp ≤ f.rbp - f.size)
    (hmem : ∀ a, s.rsp ≤ a → t.mem a = s.mem a) : Inv f env t where
  rbp := hrbp.trans h.rbp
  room := hroom
  saved := by rw [hmem _ (by have := h.room; omega), h.saved]
  back := by rw [hmem _ (by have := h.room; omega), h.back]
  holds := by
    intro name slot w hslot hw
    have hinside := f.inside slot (mem_of_findSlot hslot).1
    rw [hmem _ (by have := h.room; omega)]
    exact h.holds name slot w hslot hw

theorem Inv.above (h : Inv f env s) (habove : Above s t) : Inv f env t :=
  h.of_mem habove.rbp (by rw [habove.rsp]; exact h.room) habove.mem

theorem Inv.pushed (h : Inv f env s) (cell : Cell) : Inv f env (s.pushed cell) := by
  refine h.of_mem rfl ?_ ?_
  · have := h.room
    change s.rsp - 8 ≤ _
    omega
  · intro a ha
    exact if_neg (by omega)

theorem Kept.pushed (s : State) (cell : Cell) : Kept f s (s.pushed cell) :=
  .of_mem fun _ ha => if_neg (by omega)

/-- A store to the slot of a variable. -/
theorem Inv.assign {name : Bytes} {slot : VarSlot} {v w : Word} (h : Inv f env s)
    (hslot : findSlot f.slots name = some slot)
    (hv : loadSized slot.actualSize v = loadSized slot.actualSize w) :
    Inv f (env.set name w) (s.write (s.rbp + slot.stackOffset) (.word v)) := by
  have hmem := mem_of_findSlot hslot
  have hinside := f.inside slot hmem.1
  refine ⟨h.rbp, h.room, ?_, ?_, ?_⟩
  · exact (if_neg (by rw [h.rbp]; omega)).trans h.saved
  · exact (if_neg (by rw [h.rbp]; omega)).trans h.back
  · intro name' slot' w' hslot' hw'
    by_cases hname : name' = name
    · subst hname
      obtain rfl := Option.some.inj (hslot'.symm.trans hslot)
      obtain rfl : w = w' := Option.some.inj ((if_pos rfl).symm.trans hw')
      rw [h.rbp, write_mem_self]
      exact hv
    · have hmem' := mem_of_findSlot hslot'
      have hne : f.rbp + slot'.stackOffset ≠ s.rbp + slot.stackOffset := by
        intro heq
        rw [h.rbp] at heq
        have hslots := f.apart slot' hmem'.1 slot hmem.1 (by omega)
        exact hname (hmem'.2.symm.trans (by rw [hslots, hmem.2]))
      rw [write_mem_ne s _ hne]
      exact h.holds name' slot' w' hslot' ((if_neg hname).symm.trans hw')

theorem Kept.write {slot : VarSlot} (cell : Cell) (hrbp : s.rbp = f.rbp) (hslot : slot ∈ f.slots) :
    Kept f s (s.write (s.rbp + slot.stackOffset) cell) := by
  intro a _ hne
  refine if_neg ?_
  rw [hrbp]
  exact hne slot hslot

end

/-- What the code of an expression leaves. -/
structure ExprPost (f : Activation) (s : State) (pc' : Nat) (r : Word × Env) (b : Nat × State) :
    Prop where
  place : b.1 = pc'
  value : b.2.regs .rax = r.1
  rsp : b.2.rsp = s.rsp
  kept : Kept f s b.2
  inv : Inv f r.2 b.2

/-- The words from an address on. -/
def StackAt (mem : Int → Cell) : Int → List Word → Prop
  | _, [] => True
  | a, w :: ws => mem a = .word w ∧ StackAt mem (a + 8) ws

theorem StackAt.congr {mem mem' : Int → Cell} {ws : List Word} {a : Int} (h : StackAt mem a ws)
    (hmem : ∀ b, a ≤ b → b < a + 8 * ws.length → mem' b = mem b) : StackAt mem' a ws := by
  induction ws generalizing a with
  | nil => trivial
  | cons w ws ih =>
    rw [List.length_cons] at hmem
    refine ⟨(hmem a (by omega) (by omega)).trans h.1, ih h.2 fun b hb hlt => hmem b ?_ ?_⟩
    · omega
    · omega

/-- What the code of the arguments leaves: the first one on top. -/
structure ArgsPost (f : Activation) (s : State) (pc' n : Nat) (r : List Word × Env)
    (b : Nat × State) : Prop where
  place : b.1 = pc'
  count : r.1.length = n
  stack : StackAt b.2.mem b.2.rsp r.1
  rsp : b.2.rsp + 8 * r.1.length = s.rsp
  kept : Kept f s b.2
  inv : Inv f r.2 b.2

/-! ## §5 Expressions -/

section

variable (reg : Registry) (decls : List AstNode) (items : List Instr)

def ExprOk (n : Nat) : Prop :=
  ∀ (f : Activation) env node k code pc s, cgExpr decls f.slots node k = some code →
    (machine items).At pc code.1 → Inv f env s →
    (machine items).Does isTrap (pc, s) (evalExpr reg decls n f.slots env node)
      (ExprPost f s (pc + code.1.length))

def ArgsOk (n : Nat) : Prop :=
  ∀ (f : Activation) env args k code pc s, cgArgs decls f.slots args k = some code →
    (machine items).At pc code.1 → Inv f env s →
    (machine items).Does isTrap (pc, s) (evalArgs reg decls n f.slots env args)
      (ArgsPost f s (pc + code.1.length) args.length)

/-- The registers of the arguments. -/
def HoldsArgs (s : State) (ws : List Word) : Prop :=
  List.Forall₂ (fun r w => s.regs r = w) (argRegs.take ws.length) ws

def CallOk (n : Nat) : Prop :=
  ∀ name ws pc s, (machine items).items[pc]? = some (.call (.func name)) →
    arity decls name = some ws.length → HoldsArgs s ws →
    (machine items).Does isTrap (pc, s) (callFunc reg decls n name ws) (OpPost s (pc + 1))

variable {reg decls items}

theorem exprPost_of_above {f : Activation} {env : Env} {s t : State} {pc' : Nat} {w : Word}
    {b : Nat × State} (hrsp : t.rsp = s.rsp) (hkept : Kept f s t) (hinv : Inv f env t)
    (h : OpPost t pc' w b) : ExprPost f s pc' (w, env) b where
  place := h.place
  value := h.value
  rsp := h.above.rsp.trans hrsp
  kept := hkept.trans (.of_mem h.above.mem) hrsp.le
  inv := hinv.above h.above

/-- A store to a variable after its value is in `rax`. -/
theorem does_store {f : Activation} {env : Env} {s : State} {pc size : Nat} {name : Bytes}
    {slot : VarSlot} (hat : (machine items).At pc [.store slot.stackOffset size])
    (hslot : findSlot f.slots name = some slot) (hinv : Inv f env s)
    (hsize : size = 8 ∨ size = slot.actualSize) :
    ∃ t, (machine items).Reaches (pc, s) (pc + 1, t) ∧ t.regs = s.regs ∧ t.rsp = s.rsp ∧
      Kept f s t ∧ Inv f (env.set name (s.regs .rax)) t := by
  refine ⟨_, .next hat.1 rfl, rfl, rfl, Kept.write _ hinv.rbp (mem_of_findSlot hslot).1, ?_⟩
  apply hinv.assign hslot
  cases hsize with
  | inl h => rw [h]; rfl
  | inr h => rw [h, loadSized_overLow]

/-- The store of a compound assignment, or none. -/
theorem does_storeBack {f : Activation} {env : Env} {s t : State} {pc : Nat} {w : Word} {op : BinOp}
    {left : AstNode} {store : List Instr}
    (hstore : storeBack f.slots op left = some store)
    (hat : (machine items).At pc store) (h : ExprPost f s pc (w, env) (pc, t)) :
    (machine items).Does isTrap (pc, t)
      (if isCompound op then assign env left w >>= fun env => pure (w, env) else pure (w, env))
      (ExprPost f s (pc + store.length)) := by
  unfold storeBack at hstore
  by_cases hcompound : isCompound op = true
  · rw [if_pos hcompound] at hstore ⊢
    cases left
    case ident name =>
      obtain ⟨slot, hslot, rfl⟩ := Option.map_eq_some_iff.mp hstore
      obtain ⟨u, hreach, hregs, hrsp, hkept, hinv⟩ := does_store hat hslot h.inv (.inl rfl)
      rw [h.value] at hinv
      exact .ok hreach ⟨rfl, (congrFun hregs _).trans h.value, hrsp.trans h.rsp,
        h.kept.trans hkept h.rsp.le, hinv⟩
    all_goals
      cases hstore
  · rw [if_neg hcompound] at hstore ⊢
    obtain rfl := Option.some.inj hstore
    exact .ok (.refl _ _) h

theorem does_binaryOp {n k pc : Nat} {f : Activation} {env : Env} {s : State} {op : BinOp}
    {left right : AstNode} {r l o : Code} {store : List Instr} (hexpr : ExprOk reg decls items n)
    (hunique : (machine items).UniqueLabels) (hr : cgExpr decls f.slots right k = some r)
    (hl : cgExpr decls f.slots left r.2 = some l) (ho : cgBinary l.2 op = some o)
    (hstore : storeBack f.slots op left = some store)
    (hat : (machine items).At pc (r.1 ++ [.push .rax] ++ l.1 ++ [.pop .rcx] ++ o.1 ++ store))
    (hinv : Inv f env s) :
    (machine items).Does isTrap (pc, s)
      (do
        let r ← evalExpr reg decls n f.slots env right
        let l ← evalExpr reg decls n f.slots r.2 left
        let w ← binary op l.1 r.1
        if isCompound op then
          let env ← assign l.2 left w
          return (w, env)
        else return (w, l.2))
      (ExprPost f s
        (pc + (r.1 ++ [Instr.push .rax] ++ l.1 ++ [Instr.pop .rcx] ++ o.1 ++ store).length)) := by
  simp only [CallCode.at_append, List.length_append, List.length_singleton,
    ← Nat.add_assoc] at hat ⊢
  obtain ⟨⟨⟨⟨⟨hatr, hpush, -⟩, hatl⟩, hpop, -⟩, hato⟩, hats⟩ := hat
  refine .bind (hexpr f env right k r pc s hr hatr hinv) ?_
  rintro ⟨b, env₁⟩ ⟨pc₁, s₁⟩ ⟨hplace₁, hb, hrsp₁, hkept₁, hinv₁⟩
  obtain rfl : pc₁ = pc + r.1.length := hplace₁
  refine .after (.next hpush rfl) ?_
  have hkeptPush : Kept f s (s₁.pushed (.word (s₁.regs .rax))) := hkept₁.trans (.pushed _ _) hrsp₁.le
  refine .bind (hexpr f env₁ left r.2 l _ _ hl hatl (hinv₁.pushed _)) ?_
  rintro ⟨a, env₂⟩ ⟨pc₂, s₂⟩ ⟨hplace₂, ha, hrsp₂, hkept₂, hinv₂⟩
  obtain rfl : pc₂ = pc + r.1.length + 1 + l.1.length := hplace₂
  have hrspPush : (s₁.pushed (.word (s₁.regs .rax))).rsp = s.rsp - 8 := by rw [← hrsp₁]; rfl
  have hrsp : s₂.rsp = s.rsp - 8 := hrsp₂.trans hrspPush
  -- the right operand is still on top of the stack
  have htop : (s₂.mem s₂.rsp).bits = b := by
    rw [hrsp₂, hkept₂ _ le_rfl, State.pushed, write_mem_self]
    · exact hb
    · intro slot hslot heq
      have hinside := f.inside slot hslot
      have hroom := hinv.room
      omega
  refine .after (.next hpop rfl) ?_
  let t : State := { s₂.set .rcx (s₂.mem s₂.rsp).bits with rsp := s₂.rsp + 8 }
  have hrspt : t.rsp = s.rsp := by
    change s₂.rsp + 8 = s.rsp
    omega
  have hinvt : Inv f env₂ t :=
    hinv₂.of_mem rfl (by rw [hrspt]; exact hinv.room) fun _ _ => rfl
  have hkeptt : Kept f s t := hkeptPush.trans hkept₂ (by rw [hrspPush]; omega)
  have hop := does_binary (s := t) hunique ho hato
  rw [show t.regs .rax = a from ha, show t.regs .rcx = b from htop] at hop
  refine .bind hop fun w b hpost => ?_
  obtain ⟨pc₃, u⟩ := b
  obtain rfl := hpost.place
  exact does_storeBack hstore hats (exprPost_of_above hrspt hkeptt hinvt hpost)

theorem does_assign {n k pc : Nat} {f : Activation} {env : Env} {s : State} {left right : AstNode}
    {r : Code} {store : List Instr} (hexpr : ExprOk reg decls items n)
    (hr : cgExpr decls f.slots right k = some r) (hstore : storeTo f.slots left = some store)
    (hat : (machine items).At pc (r.1 ++ [.push .rax, .pop .rax] ++ store)) (hinv : Inv f env s) :
    (machine items).Does isTrap (pc, s)
      (do
        let r ← evalExpr reg decls n f.slots env right
        let env ← assign r.2 left r.1
        return (r.1, env))
      (ExprPost f s (pc + (r.1 ++ [Instr.push .rax, Instr.pop .rax] ++ store).length)) := by
  simp only [CallCode.at_append, List.length_append, List.length_cons, List.length_nil,
    ← Nat.add_assoc, Nat.add_zero] at hat ⊢
  obtain ⟨⟨hatr, hpush, hpop, -⟩, hats⟩ := hat
  refine .bind (hexpr f env right k r pc s hr hatr hinv) ?_
  rintro ⟨b, env₁⟩ ⟨pc₁, s₁⟩ ⟨hplace₁, hb, hrsp₁, hkept₁, hinv₁⟩
  obtain rfl : pc₁ = pc + r.1.length := hplace₁
  refine .after ((CallCode.Reaches.next hpush rfl).trans (.next hpop rfl)) ?_
  let p : State := s₁.pushed (.word (s₁.regs .rax))
  let t : State := { p.set .rax (p.mem p.rsp).bits with rsp := p.rsp + 8 }
  have hvalue : t.regs .rax = b := by
    change (p.mem p.rsp).bits = b
    exact (congrArg Cell.bits (write_mem_self s₁ _ _)).trans hb
  have hrspt : t.rsp = s₁.rsp := by
    change s₁.rsp - 8 + 8 = s₁.rsp
    omega
  have hmem : ∀ a, s₁.rsp ≤ a → t.mem a = s₁.mem a := fun a ha => if_neg (by omega)
  have hinvt : Inv f env₁ t := hinv₁.of_mem rfl (by rw [hrspt]; exact hinv₁.room) hmem
  have hkeptt : Kept f s t := hkept₁.trans (.of_mem hmem) hrsp₁.le
  cases left
  case ident name =>
    obtain ⟨slot, hslot, rfl⟩ := Option.map_eq_some_iff.mp hstore
    obtain ⟨u, hreach, hregs, hrsp, hkept, hinvu⟩ := does_store hats hslot hinvt (.inl rfl)
    rw [hvalue] at hinvu
    exact .ok hreach ⟨rfl, (congrFun hregs _).trans hvalue, hrsp.trans (hrspt.trans hrsp₁),
      hkeptt.trans hkept (hrspt.trans hrsp₁).le, hinvu⟩
  all_goals
    cases hstore

theorem argsOk_succ {n : Nat} (hexpr : ExprOk reg decls items n) (hargs : ArgsOk reg decls items n) :
    ArgsOk reg decls items (n + 1) := by
  intro f env args k code pc s hcode hat hinv
  cases args with
  | nil =>
    obtain rfl := Option.some.inj hcode
    exact .ok (.refl _ _) ⟨rfl, rfl, trivial, by simp, fun _ _ _ => rfl, hinv⟩
  | cons arg args =>
    simp only [cgArgs, Option.bind_eq_bind, Option.bind_eq_some_iff, Option.pure_def,
      Option.some.injEq] at hcode
    obtain ⟨a, ha, e, he, rfl⟩ := hcode
    simp only [CallCode.at_append, List.length_append, List.length_singleton, ← Nat.add_assoc,
      evalArgs] at hat ⊢
    obtain ⟨⟨hata, hate⟩, hpush, -⟩ := hat
    refine .bind (hargs f env args k a pc s ha hata hinv) ?_
    rintro ⟨ws, env₁⟩ ⟨pc₁, s₁⟩ ⟨hplace₁, hcount, hstack, hrsp₁, hkept₁, hinv₁⟩
    obtain rfl : pc₁ = pc + a.1.length := hplace₁
    simp only at hrsp₁ hstack hcount hkept₁ hinv₁
    refine .bind (hexpr f env₁ arg a.2 e _ s₁ he hate hinv₁) ?_
    rintro ⟨w, env₂⟩ ⟨pc₂, s₂⟩ ⟨hplace₂, hw, hrsp₂, hkept₂, hinv₂⟩
    obtain rfl : pc₂ = pc + a.1.length + e.1.length := hplace₂
    simp only at hw hrsp₂ hkept₂ hinv₂
    have hroom := hinv.room
    have hle : s₁.rsp ≤ s.rsp := by omega
    refine .ok (.next hpush rfl) ⟨rfl, by simp [hcount], ⟨?_, ?_⟩, ?_, ?_, hinv₂.pushed _⟩
    · rw [← hw]
      exact write_mem_self s₂ _ _
    · -- the words below are not slots, so the expression kept them
      have hnext : (s₂.pushed (.word (s₂.regs .rax))).rsp + 8 = s₁.rsp := by
        change s₂.rsp - 8 + 8 = s₁.rsp
        omega
      rw [hnext]
      refine hstack.congr fun b hb hlt => ?_
      refine (if_neg (by omega)).trans (hkept₂ b hb fun slot hslot heq => ?_)
      have hinside := f.inside slot hslot
      omega
    · change s₂.rsp - 8 + 8 * ((w :: ws).length : Int) = s.rsp
      rw [List.length_cons]
      omega
    · exact (hkept₁.trans hkept₂ hle).trans (.pushed _ _) (by omega)

/-- The words on top of the stack go into registers that are all different. -/
theorem reaches_pops (regs : List Reg) (hnodup : regs.Nodup) :
    ∀ (ws : List Word) (pc : Nat) (s : State), regs.length = ws.length →
      (machine items).At pc (regs.map .pop) → StackAt s.mem s.rsp ws →
      ∃ t, (machine items).Reaches (pc, s) (pc + ws.length, t) ∧
        List.Forall₂ (fun r w => t.regs r = w) regs ws ∧ t.rsp = s.rsp + 8 * ws.length ∧
        t.rbp = s.rbp ∧ t.mem = s.mem ∧ ∀ r, r ∉ regs → t.regs r = s.regs r := by
  induction regs with
  | nil =>
    intro ws pc s hlen _ _
    obtain rfl := List.length_eq_zero_iff.mp hlen.symm
    exact ⟨s, .refl _ _, .nil, by simp, rfl, rfl, fun _ _ => rfl⟩
  | cons r regs ih =>
    intro ws pc s hlen hat hstack
    cases ws with
    | nil => cases hlen
    | cons w ws =>
      obtain ⟨hnotMem, hrest⟩ := List.nodup_cons.mp hnodup
      let s₁ : State := { s.set r (s.mem s.rsp).bits with rsp := s.rsp + 8 }
      obtain ⟨t, hreach, hall, hrsp, hrbp, hmem, hother⟩ :=
        ih hrest ws (pc + 1) s₁ (Nat.succ.inj hlen) hat.2 hstack.2
      have hr : t.regs r = w := by
        rw [hother r hnotMem]
        change (if r = r then (s.mem s.rsp).bits else s.regs r) = w
        rw [if_pos rfl, hstack.1]
        rfl
      refine ⟨t, ?_, .cons hr hall, ?_, hrbp, hmem, ?_⟩
      · rw [List.length_cons, Nat.add_comm ws.length, ← Nat.add_assoc]
        exact (CallCode.Reaches.next hat.1 rfl).trans hreach
      · rw [hrsp, List.length_cons]
        change s.rsp + 8 + 8 * (ws.length : Int) = s.rsp + 8 * ((ws.length + 1 : Nat) : Int)
        omega
      · intro q hq
        rw [List.mem_cons, not_or] at hq
        rw [hother q hq.2]
        exact if_neg hq.1

theorem arity_le {name : Bytes} {argc : Nat} (h : arity decls name = some argc) : argc ≤ 6 := by
  unfold arity at h
  split at h
  · split at h
    · cases h
    · rename_i hguard
      obtain rfl := Option.some.inj h
      simp at hguard
      omega
  · cases h

theorem does_call {n k pc argc : Nat} {f : Activation} {env : Env} {s : State} {name : Bytes}
    {args : List AstNode} {a : Code} (hargs : ArgsOk reg decls items n)
    (hcall : CallOk reg decls items n) (hargc : arity decls name = some argc)
    (hlen : args.length = argc) (ha : cgArgs decls f.slots args k = some a)
    (hat : (machine items).At pc (a.1 ++ popArgs argc ++ [.call (.func name)]))
    (hinv : Inv f env s) :
    (machine items).Does isTrap (pc, s)
      (do
        let a ← evalArgs reg decls n f.slots env args
        let w ← callFunc reg decls n name a.1
        return (w, a.2))
      (ExprPost f s (pc + (a.1 ++ popArgs argc ++ [Instr.call (.func name)]).length)) := by
  have hle := arity_le hargc
  have hpops : (argRegs.take argc).length = argc := by
    rw [List.length_take]
    exact Nat.min_eq_left hle
  have hpopsLength : (popArgs argc).length = argc := (List.length_map _).trans hpops
  simp only [CallCode.at_append, List.length_append, List.length_singleton, ← Nat.add_assoc,
    hpopsLength] at hat ⊢
  obtain ⟨⟨hata, hatPops⟩, hatCall, -⟩ := hat
  refine .bind (hargs f env args k a pc s ha hata hinv) ?_
  rintro ⟨ws, env₁⟩ ⟨pc₁, s₁⟩ ⟨hplace₁, hcount, hstack, hrsp₁, hkept₁, hinv₁⟩
  obtain rfl : pc₁ = pc + a.1.length := hplace₁
  simp only at hrsp₁ hstack hcount hkept₁ hinv₁
  have hws : ws.length = argc := hcount.trans hlen
  obtain ⟨t, hreach, hall, hrsp, hrbp, hmem, -⟩ := reaches_pops (argRegs.take argc)
    ((List.take_sublist _ _).nodup (by decide)) ws _ s₁ (hpops.trans hws.symm) hatPops hstack
  rw [hws] at hreach
  have hrspt : t.rsp = s.rsp := by omega
  have hinvt : Inv f env₁ t :=
    hinv₁.of_mem hrbp (by rw [hrspt]; exact hinv.room) fun a _ => congrFun hmem a
  have hkeptt : Kept f s t :=
    hkept₁.trans (.of_mem fun a _ => congrFun hmem a) (by omega)
  refine .after hreach (.bind (hcall name ws _ t hatCall (hws ▸ hargc) (by rwa [HoldsArgs, hws])) ?_)
  intro w b hpost
  exact .ok (.refl _ _) (exprPost_of_above hrspt hkeptt hinvt hpost)

theorem does_unaryOp {n k pc : Nat} {f : Activation} {env : Env} {s : State} {op : UnaryOp}
    {operand : AstNode} {e : Code} {o : List Instr} (hexpr : ExprOk reg decls items n)
    (he : cgExpr decls f.slots operand k = some e) (ho : cgUnary op = some o)
    (hat : (machine items).At pc (e.1 ++ o)) (hinv : Inv f env s) :
    (machine items).Does isTrap (pc, s)
      (do
        let e ← evalExpr reg decls n f.slots env operand
        let w ← unary op e.1
        return (w, e.2))
      (ExprPost f s (pc + (e.1 ++ o).length)) := by
  simp only [CallCode.at_append, List.length_append, ← Nat.add_assoc] at hat ⊢
  refine .bind (hexpr f env operand k e pc s he hat.1 hinv) ?_
  rintro ⟨a, env₁⟩ ⟨pc₁, s₁⟩ ⟨hplace₁, ha, hrsp₁, hkept₁, hinv₁⟩
  obtain rfl : pc₁ = pc + e.1.length := hplace₁
  have hop := does_unary (s := s₁) ho hat.2
  rw [show s₁.regs .rax = a from ha] at hop
  refine .bind hop fun w b hpost => ?_
  exact .ok (.refl _ _) (exprPost_of_above hrsp₁ hkept₁ hinv₁ hpost)

/-- One instruction that puts the value into `rax`. -/
theorem does_atom {f : Activation} {env : Env} {s : State} {pc : Nat} {item : Instr} {w : Word}
    (hat : (machine items).At pc [item])
    (hmove : (machine items).exec pc item s = some (.next (s.set .rax w))) (hinv : Inv f env s) :
    (machine items).Does isTrap (pc, s) (.ok (w, env)) (ExprPost f s (pc + 1)) :=
  .ok (.next hat.1 hmove) ⟨rfl, rfl, rfl, fun _ _ _ => rfl, hinv.above (.set s _ _)⟩

theorem does_ident {n k pc : Nat} {f : Activation} {env : Env} {s : State} {name : Bytes}
    {code : Code} (hcode : cgExpr decls f.slots (.ident name) k = some code)
    (hat : (machine items).At pc code.1) (hinv : Inv f env s) :
    (machine items).Does isTrap (pc, s) (evalExpr reg decls (n + 1) f.slots env (.ident name))
      (ExprPost f s (pc + code.1.length)) := by
  simp only [cgExpr] at hcode
  simp only [evalExpr]
  cases hconst : findConst decls name with
  | some w =>
    rw [hconst] at hcode
    obtain rfl := Option.some.inj hcode
    exact does_atom hat rfl hinv
  | none =>
    rw [hconst] at hcode
    obtain ⟨slot, hslot, rfl⟩ := Option.map_eq_some_iff.mp hcode
    simp only [readVar, hslot]
    cases hvar : env name with
    | none => exact fun h => by cases h
    | some w =>
      refine does_atom (w := loadSized slot.actualSize w) hat ?_ hinv
      change some (Move.next (s.set .rax (loadSized slot.actualSize
        (s.mem (s.rbp + slot.stackOffset)).bits))) = _
      rw [hinv.rbp, hinv.holds name slot w hslot hvar]

theorem exprOk_succ {n : Nat} (hunique : (machine items).UniqueLabels)
    (hexpr : ExprOk reg decls items n) (hargs : ArgsOk reg decls items n)
    (hcall : CallOk reg decls items n) : ExprOk reg decls items (n + 1) := by
  intro f env node k code pc s hcode hat hinv
  cases node
  case literalInt | literalBool | literalChar | literalNone =>
    obtain rfl := Option.some.inj hcode
    exact does_atom hat rfl hinv
  case ident name => exact does_ident hcode hat hinv
  case binaryOp op left right customOp =>
    cases left with
    | none => cases hcode
    | some left =>
      cases right with
      | none => cases hcode
      | some right =>
        simp only [cgExpr, Option.bind_eq_bind, Option.bind_eq_some_iff, Option.pure_def] at hcode
        obtain ⟨r, hr, hcode⟩ := hcode
        simp only [evalExpr]
        by_cases hassign : op = .assign
        · simp only [hassign, if_true, Option.bind_eq_some_iff, Option.some.injEq] at hcode ⊢
          obtain ⟨store, hstore, rfl⟩ := hcode
          exact does_assign hexpr hr hstore hat hinv
        · simp only [hassign, if_false, Option.bind_eq_some_iff, Option.some.injEq] at hcode ⊢
          obtain ⟨l, hl, o, ho, store, hstore, rfl⟩ := hcode
          exact does_binaryOp hexpr hunique hr hl ho hstore hat hinv
  case unaryOp op operand =>
    cases operand with
    | none => cases hcode
    | some operand =>
      simp only [cgExpr, Option.bind_eq_bind, Option.bind_eq_some_iff, Option.pure_def,
        Option.some.injEq] at hcode
      obtain ⟨e, he, o, ho, rfl⟩ := hcode
      exact does_unaryOp hexpr he ho hat hinv
  case call callee args =>
    cases callee with
    | none => cases hcode
    | some callee =>
      cases callee
      case ident name =>
        simp only [cgExpr, Option.bind_eq_bind, Option.bind_eq_some_iff] at hcode
        obtain ⟨argc, hargc, hcode⟩ := hcode
        by_cases hlen : args.length = argc
        · simp only [hlen, if_true, Option.bind_eq_some_iff, Option.pure_def,
            Option.some.injEq] at hcode
          obtain ⟨a, ha, rfl⟩ := hcode
          exact does_call hargs hcall hargc hlen ha hat hinv
        · simp [hlen] at hcode
      all_goals
        cases hcode
  all_goals
    cases hcode

/-! ## §6 Statements -/

/-- Where a statement ends: after its code, or with a value at the place the
function was called from. -/
def StmtPost (f : Activation) (s : State) (pc' : Nat) (r : Env × Option Word) (b : Nat × State) :
    Prop :=
  match r.2 with
  | none => b.1 = pc' ∧ b.2.rsp = s.rsp ∧ Kept f s b.2 ∧ Inv f r.1 b.2
  | some w => b.1 = f.ret ∧ b.2.regs .rax = w ∧ b.2.rsp = f.rbp + 16 ∧ b.2.rbp = f.base ∧
      ∀ a, f.rbp ≤ a → b.2.mem a = s.mem a

variable (reg decls items) in
def StmtOk (n : Nat) : Prop :=
  ∀ (f : Activation) env node k code pc s, cgStmt decls f.slots node k = some code →
    (machine items).At pc code.1 → Inv f env s →
    (machine items).Does isTrap (pc, s) (execStmt reg decls n f.slots env node)
      (StmtPost f s (pc + code.1.length))

variable (reg decls items) in
def StmtOptOk (n : Nat) : Prop :=
  ∀ (f : Activation) env node k code pc s, cgStmtOpt decls f.slots node k = some code →
    (machine items).At pc code.1 → Inv f env s →
    (machine items).Does isTrap (pc, s) (execStmtOpt reg decls n f.slots env node)
      (StmtPost f s (pc + code.1.length))

variable (reg decls items) in
def StmtsOk (n : Nat) : Prop :=
  ∀ (f : Activation) env nodes k code pc s, cgStmts decls f.slots nodes k = some code →
    (machine items).At pc code.1 → Inv f env s →
    (machine items).Does isTrap (pc, s) (execStmts reg decls n f.slots env nodes)
      (StmtPost f s (pc + code.1.length))

/-- What the rest of a run leaves, the frame being kept so far. -/
theorem StmtPost.after {f : Activation} {s t : State} {pc' : Nat} {r : Env × Option Word}
    {b : Nat × State} (h : StmtPost f t pc' r b) (hrsp : t.rsp = s.rsp) (hkept : Kept f s t)
    (hroom : s.rsp ≤ f.rbp - f.size) : StmtPost f s pc' r b := by
  unfold StmtPost at h ⊢
  cases hr : r.2 with
  | none =>
    rw [hr] at h
    exact ⟨h.1, h.2.1.trans hrsp, hkept.trans h.2.2.1 hrsp.le, h.2.2.2⟩
  | some w =>
    rw [hr] at h
    refine ⟨h.1, h.2.1, h.2.2.1, h.2.2.2.1, fun a ha => (h.2.2.2.2 a ha).trans (hkept a ?_ ?_)⟩
    · omega
    · intro slot hslot
      have := (f.inside slot hslot).2
      omega

theorem reaches_epilogue {f : Activation} {env : Env} {s : State} {pc : Nat}
    (hat : (machine items).At pc epilogue) (hinv : Inv f env s) :
    ∃ t, (machine items).Reaches (pc, s) (f.ret, t) ∧ t.regs = s.regs ∧ t.rsp = f.rbp + 16 ∧
      t.rbp = f.base ∧ t.mem = s.mem := by
  obtain ⟨hleave, hpop, hret, -⟩ := hat
  let s₁ : State := { s with rsp := s.rbp }
  let s₂ : State := { s₁ with rbp := f.base, rsp := s.rbp + 8 }
  have hbase : s.mem s.rbp = .base f.base := by rw [hinv.rbp, hinv.saved]
  have hback : s.mem (s.rbp + 8) = .place f.ret := by rw [hinv.rbp, hinv.back]
  have hpopped : (machine items).exec (pc + 1) .popBase s₁ = some (.next s₂) := by
    simp only [machine, Instr.exec, s₁, hbase]
    rfl
  have hreturned : (machine items).exec (pc + 1 + 1) .ret s₂ =
      some (.place f.ret { s₂ with rsp := s₂.rsp + 8 }) := by
    simp only [machine, Instr.exec, s₂, s₁, hback]
  refine ⟨_, ((CallCode.Reaches.next hleave rfl).trans (.next hpop hpopped)).trans
    (.place hret hreturned), rfl, ?_, rfl, rfl⟩
  change s.rbp + 8 + 8 = f.rbp + 16
  rw [hinv.rbp]
  omega

theorem does_return {n k pc : Nat} {f : Activation} {env : Env} {s : State} {value : AstNode}
    {e : Code} (hexpr : ExprOk reg decls items n) (he : cgExpr decls f.slots value k = some e)
    (hat : (machine items).At pc (e.1 ++ [.push .rax, .pop .rax] ++ epilogue))
    (hinv : Inv f env s) (pc' : Nat) :
    (machine items).Does isTrap (pc, s)
      (do
        let e ← evalExpr reg decls n f.slots env value
        return (e.2, some e.1))
      (StmtPost f s pc') := by
  simp only [CallCode.at_append, List.length_append, List.length_cons, List.length_nil,
    ← Nat.add_assoc, Nat.add_zero] at hat
  obtain ⟨⟨hate, hpush, hpop, -⟩, hatEnd⟩ := hat
  refine .bind (hexpr f env value k e pc s he hate hinv) ?_
  rintro ⟨w, env₁⟩ ⟨pc₁, s₁⟩ ⟨hplace₁, hw, hrsp₁, hkept₁, hinv₁⟩
  obtain rfl : pc₁ = pc + e.1.length := hplace₁
  simp only at hw hrsp₁ hkept₁ hinv₁
  have hpushed := hinv₁.pushed (.word (s₁.regs .rax))
  let p : State := s₁.pushed (.word (s₁.regs .rax))
  let t : State := { p.set .rax (p.mem p.rsp).bits with rsp := p.rsp + 8 }
  have hvalue : t.regs .rax = w := by
    change (p.mem p.rsp).bits = w
    exact (congrArg Cell.bits (write_mem_self s₁ _ _)).trans hw
  have hrspt : t.rsp = s₁.rsp := by
    change s₁.rsp - 8 + 8 = s₁.rsp
    omega
  have hinvt : Inv f env₁ t :=
    hpushed.of_mem rfl (by rw [hrspt]; exact hinv₁.room) fun _ _ => rfl
  have hkeptt : Kept f s t :=
    hkept₁.trans (.of_mem fun a ha => if_neg (by omega)) hrsp₁.le
  obtain ⟨u, hreach, hregs, hrsp, hrbp, hmem⟩ := reaches_epilogue hatEnd hinvt
  refine .ok (((CallCode.Reaches.next hpush rfl).trans (.next hpop rfl)).trans hreach)
    ⟨rfl, (congrFun hregs _).trans hvalue, hrsp, hrbp, fun a ha => ?_⟩
  have hroom := hinv.room
  refine (congrFun hmem a).trans (hkeptt a (by omega) fun slot hslot => ?_)
  have := (f.inside slot hslot).2
  omega

/-- A condition and its test: on to the next item, or to a label when it is 0. -/
theorem does_condition {n k pc pc' : Nat} {f : Activation} {env : Env} {s : State}
    {condition : AstNode} {c : Code} {l : Label} {α : Type} (no yes : Env → Run α)
    {Q : α → Nat × State → Prop} (hexpr : ExprOk reg decls items n)
    (hc : cgExpr decls f.slots condition k = some c)
    (hat : (machine items).At pc (c.1 ++ [.test .rax, .jz l]))
    (hfound : (machine items).find l = some pc') (hinv : Inv f env s)
    (hno : ∀ env t, t.rsp = s.rsp → Kept f s t → Inv f env t →
      (machine items).Does isTrap (pc', t) (no env) Q)
    (hyes : ∀ env t, t.rsp = s.rsp → Kept f s t → Inv f env t →
      (machine items).Does isTrap (pc + c.1.length + 2, t) (yes env) Q) :
    (machine items).Does isTrap (pc, s)
      (do
        let c ← evalExpr reg decls n f.slots env condition
        if c.1 = 0 then no c.2 else yes c.2)
      Q := by
  simp only [CallCode.at_append] at hat
  obtain ⟨hatc, htest, hjz, -⟩ := hat
  refine .bind (hexpr f env condition k c pc s hc hatc hinv) ?_
  rintro ⟨w, env₁⟩ ⟨pc₁, s₁⟩ ⟨hplace₁, hw, hrsp₁, hkept₁, hinv₁⟩
  obtain rfl : pc₁ = pc + c.1.length := hplace₁
  have hw' : s₁.regs .rax = w := hw
  let t : State := { s₁ with zero := s₁.regs .rax == 0 }
  have hinvt : Inv f env₁ t := Inv.above hinv₁ ⟨rfl, rfl, fun _ _ => rfl⟩
  refine .after (.next htest rfl) ?_
  by_cases hzero : w = 0
  · refine .after (.goto hjz (congrArg some (if_pos ?_)) hfound) ?_
    · simpa [hw'] using hzero
    · simpa only [if_pos hzero] using hno env₁ t hrsp₁ hkept₁ hinvt
  · refine .after (.next hjz (congrArg some (if_neg ?_))) ?_
    · simpa [hw'] using hzero
    · simpa only [if_neg hzero] using hyes env₁ t hrsp₁ hkept₁ hinvt

/-- On from the end of a statement that does not return. -/
theorem StmtPost.goes {f : Activation} {s : State} {pc₁ pc₂ : Nat} {r : Env × Option Word}
    {b : Nat × State} (h : StmtPost f s pc₁ r b)
    (hgo : ∀ t, (machine items).Reaches (pc₁, t) (pc₂, t)) :
    ∃ d, (machine items).Reaches b d ∧ StmtPost f s pc₂ r d := by
  unfold StmtPost at h ⊢
  cases hr : r.2 with
  | none =>
    rw [hr] at h
    obtain ⟨pc, t⟩ := b
    obtain rfl : pc = pc₁ := h.1
    exact ⟨_, hgo t, rfl, h.2⟩
  | some w =>
    rw [hr] at h
    exact ⟨b, .refl _ _, h⟩

theorem does_goes {α : Type} {a : Nat × State} {r : Run α} {Q R : α → Nat × State → Prop}
    (h : (machine items).Does isTrap a r Q)
    (hgo : ∀ v b, Q v b → ∃ d, (machine items).Reaches b d ∧ R v d) :
    (machine items).Does isTrap a r R := by
  cases r with
  | ok v =>
    obtain ⟨b, hreach, hb⟩ := h
    obtain ⟨d, hreach', hd⟩ := hgo v b hb
    exact ⟨d, hreach.trans hreach', hd⟩
  | error x => exact h

theorem does_ifNode {n k pc : Nat} {f : Activation} {env : Env} {s : State} {condition : AstNode}
    {thenBlock elifChain elseBlock : Option AstNode} {c t elif e : Code}
    (hunique : (machine items).UniqueLabels) (hexpr : ExprOk reg decls items n)
    (hopt : StmtOptOk reg decls items n) (hboth : (elifChain.isSome && elseBlock.isSome) = false)
    (hc : cgExpr decls f.slots condition (k + 2) = some c)
    (ht : cgStmtOpt decls f.slots thenBlock c.2 = some t)
    (helif : cgStmtOpt decls f.slots elifChain t.2 = some elif)
    (he : cgStmtOpt decls f.slots elseBlock elif.2 = some e)
    (hat : (machine items).At pc (c.1 ++ [.test .rax, .jz (.num k)] ++ t.1 ++
      [.jmp (.num (k + 1)), .label (.num k)] ++ elif.1 ++ e.1 ++ [.label (.num (k + 1))]))
    (hinv : Inv f env s) :
    (machine items).Does isTrap (pc, s)
      (do
        let c ← evalExpr reg decls n f.slots env condition
        if c.1 = 0 then execStmtOpt reg decls n f.slots c.2 (elifChain.or elseBlock)
        else execStmtOpt reg decls n f.slots c.2 thenBlock)
      (StmtPost f s (pc + (c.1 ++ [Instr.test .rax, Instr.jz (.num k)] ++ t.1 ++
        [Instr.jmp (.num (k + 1)), Instr.label (.num k)] ++ elif.1 ++ e.1 ++
        [Instr.label (.num (k + 1))]).length)) := by
  rw [CallCode.at_append, CallCode.at_append, CallCode.at_append, CallCode.at_append,
    CallCode.at_append] at hat
  simp only [List.length_append, List.length_cons, List.length_nil, ← Nat.add_assoc,
    Nat.zero_add] at hat ⊢
  obtain ⟨⟨⟨⟨⟨hatc, hatt⟩, hjmp, hlabel, -⟩, hatelif⟩, hate⟩, hend, -⟩ := hat
  have hroom := hinv.room
  have hfound := CallCode.find_of_at hunique hlabel rfl
  have hfoundEnd := CallCode.find_of_at hunique hend rfl
  refine does_condition (fun env => execStmtOpt reg decls n f.slots env (elifChain.or elseBlock))
    (fun env => execStmtOpt reg decls n f.slots env thenBlock) hexpr hc hatc hfound hinv ?_ ?_
  · intro env₁ t₁ hrsp₁ hkept₁ hinv₁
    refine .after (.next hlabel rfl) ?_
    have hlast : ∀ u, (machine items).Reaches (_, u) (_, u) := fun u => .next hend rfl
    cases elifChain with
    | none =>
      obtain rfl := Option.some.inj helif
      refine does_goes (hopt f env₁ elseBlock _ e _ t₁ he hate hinv₁) fun v b hb => ?_
      exact (hb.after hrsp₁ hkept₁ hroom).goes hlast
    | some elif' =>
      cases elseBlock with
      | some _ => cases hboth
      | none =>
        obtain rfl := Option.some.inj he
        refine does_goes (hopt f env₁ (some elif') _ elif _ t₁ helif hatelif hinv₁) fun v b hb => ?_
        exact (hb.after hrsp₁ hkept₁ hroom).goes hlast
  · intro env₁ t₁ hrsp₁ hkept₁ hinv₁
    refine does_goes (hopt f env₁ thenBlock _ t _ t₁ ht hatt hinv₁) fun v b hb => ?_
    exact (hb.after hrsp₁ hkept₁ hroom).goes fun u =>
      (CallCode.Reaches.goto hjmp rfl hfoundEnd).trans (.next hend rfl)

/-- One turn of a loop, and the rest of its turns by less fuel. -/
theorem does_whileNode {n k pc : Nat} {f : Activation} {env : Env} {s : State} {condition : AstNode}
    {body : Option AstNode} {code : Code}
    (hunique : (machine items).UniqueLabels) (hexpr : ExprOk reg decls items n)
    (hopt : StmtOptOk reg decls items n) (hstmt : StmtOk reg decls items n)
    (hcode : cgStmt decls f.slots (.whileNode (some condition) body) k = some code)
    (hwhole : (machine items).At pc code.1) (hinv : Inv f env s) :
    (machine items).Does isTrap (pc, s)
      (execStmt reg decls (n + 1) f.slots env (.whileNode (some condition) body))
      (StmtPost f s (pc + code.1.length)) := by
  have hcode' := hcode
  simp only [cgStmt, Option.bind_eq_bind, Option.bind_eq_some_iff, Option.pure_def,
    Option.some.injEq] at hcode'
  obtain ⟨c, hc, b, hb, rfl⟩ := hcode'
  have hat := hwhole
  rw [List.append_assoc [Instr.label (.num k)], CallCode.at_append, CallCode.at_append,
    CallCode.at_append] at hat
  simp only [List.length_append, List.length_cons, List.length_nil, ← Nat.add_assoc,
    Nat.zero_add] at hat
  obtain ⟨⟨⟨⟨hlabel, -⟩, hatc⟩, hatb⟩, hjmp, hend, -⟩ := hat
  have hroom := hinv.room
  have hfound := CallCode.find_of_at hunique hlabel rfl
  have hfoundEnd := CallCode.find_of_at hunique hend rfl
  simp only [execStmt]
  refine .after (.next hlabel rfl) ?_
  refine does_condition (fun env => pure (env, none))
    (fun env => do
      let r ← execStmtOpt reg decls n f.slots env body
      if r.2.isSome then return r
      else execStmt reg decls n f.slots r.1 (.whileNode (some condition) body))
    hexpr hc hatc hfoundEnd hinv ?_ ?_
  · intro env₁ t₁ hrsp₁ hkept₁ hinv₁
    refine .ok (.next hend rfl) ⟨?_, hrsp₁, hkept₁, hinv₁⟩
    simp only [List.length_append, List.length_cons, List.length_nil]
    omega
  · intro env₁ t₁ hrsp₁ hkept₁ hinv₁
    have hplace : pc + 1 + c.1.length + 2 = pc + c.1.length + 1 + 1 + 1 := by omega
    rw [hplace]
    have hatb' : (machine items).At (pc + c.1.length + 1 + 1 + 1) b.1 := by
      rwa [show pc + c.1.length + 1 + 1 + 1 = pc + 1 + c.1.length + 1 + 1 by omega]
    refine .bind (hopt f env₁ body _ b _ t₁ hb hatb' hinv₁) ?_
    rintro ⟨env₂, o⟩ ⟨pc₂, s₂⟩ hpost
    cases o with
    | some w => exact .ok (.refl _ _) (hpost.after hrsp₁ hkept₁ hroom)
    | none =>
      obtain ⟨hplace₂, hrsp₂, hkept₂, hinv₂⟩ := hpost
      obtain rfl : pc₂ = pc + 1 + c.1.length + 1 + 1 + b.1.length := hplace₂.trans (by omega)
      refine .after (.goto hjmp rfl hfound) ?_
      refine .mono (hstmt f env₂ _ k _ pc s₂ hcode hwhole hinv₂) fun v b hb => ?_
      exact hb.after (hrsp₂.trans hrsp₁) (hkept₁.trans hkept₂ hrsp₁.le) hroom

theorem does_letNode {n k pc : Nat} {f : Activation} {env : Env} {s : State} {name : Bytes}
    {type value : Option AstNode} {isMut isGlobal : Bool} {code : Code}
    (hexpr : ExprOk reg decls items n)
    (hcode : cgStmt decls f.slots (.letNode name type value isMut isGlobal) k = some code)
    (hat : (machine items).At pc code.1) (hinv : Inv f env s) :
    (machine items).Does isTrap (pc, s)
      (execStmt reg decls (n + 1) f.slots env (.letNode name type value isMut isGlobal))
      (StmtPost f s (pc + code.1.length)) := by
  simp only [cgStmt, Option.bind_eq_bind, Option.bind_eq_some_iff] at hcode
  obtain ⟨slot, hslot, hcode⟩ := hcode
  have hmem := (mem_of_findSlot hslot).1
  cases hnamed : isNamedType type with
  | true => simp [hnamed] at hcode
  | false =>
    simp only [hnamed, Bool.false_eq_true, if_false] at hcode
    cases value with
    | none =>
      obtain rfl := Option.some.inj hcode
      exact .ok (.next hat.1 rfl) ⟨rfl, rfl, .write _ hinv.rbp hmem, hinv.assign hslot rfl⟩
    | some value =>
      simp only [Option.bind_eq_some_iff, Option.pure_def, Option.some.injEq] at hcode
      obtain ⟨e, he, rfl⟩ := hcode
      simp only [CallCode.at_append, List.length_append, List.length_singleton, ← Nat.add_assoc,
        execStmt] at hat ⊢
      refine .bind (hexpr f env value k e pc s he hat.1 hinv) ?_
      rintro ⟨w, env₁⟩ ⟨pc₁, s₁⟩ ⟨hplace₁, hw, hrsp₁, hkept₁, hinv₁⟩
      obtain rfl : pc₁ = pc + e.1.length := hplace₁
      obtain ⟨t, hreach, -, hrsp, hkept, hinvt⟩ := does_store hat.2 hslot hinv₁ (.inr rfl)
      rw [show s₁.regs .rax = w from hw] at hinvt
      exact .ok hreach ⟨rfl, hrsp.trans hrsp₁, hkept₁.trans hkept hrsp₁.le, hinvt⟩

theorem stmtOk_succ {n : Nat} (hunique : (machine items).UniqueLabels)
    (hexpr : ExprOk reg decls items n) (hstmt : StmtOk reg decls items n)
    (hopt : StmtOptOk reg decls items n) (hstmts : StmtsOk reg decls items n) :
    StmtOk reg decls items (n + 1) := by
  intro f env node k code pc s hcode hat hinv
  cases node
  case returnNode value =>
    cases value with
    | none => cases hcode
    | some value =>
      simp only [cgStmt, Option.bind_eq_bind, Option.bind_eq_some_iff, Option.pure_def,
        Option.some.injEq] at hcode
      obtain ⟨e, he, rfl⟩ := hcode
      exact does_return hexpr he hat hinv _
  case letNode name type value isMut isGlobal => exact does_letNode hexpr hcode hat hinv
  case exprStmt expr =>
    cases expr with
    | none => cases hcode
    | some expr =>
      refine .bind (hexpr f env expr k code pc s hcode hat hinv) fun r b hpost => ?_
      exact .ok (.refl _ _) ⟨hpost.place, hpost.rsp, hpost.kept, hpost.inv⟩
  case block stmts => exact hstmts f env stmts k code pc s hcode hat hinv
  case unsafeNode stmts => exact hstmts f env stmts k code pc s hcode hat hinv
  case runBlock body =>
    obtain rfl := Option.some.inj hcode
    exact .ok (.refl _ _) ⟨rfl, rfl, fun _ _ _ => rfl, hinv⟩
  case ifNode condition thenBlock elifChain elseBlock =>
    cases condition with
    | none => cases hcode
    | some condition =>
      simp only [cgStmt, execStmt] at hcode ⊢
      cases hboth : elifChain.isSome && elseBlock.isSome with
      | true => simp [hboth] at hcode
      | false =>
        simp only [hboth, Bool.false_eq_true, if_false, Option.bind_eq_bind,
          Option.bind_eq_some_iff, Option.pure_def, Option.some.injEq] at hcode ⊢
        obtain ⟨c, hc, t, ht, elif, helif, e, he, rfl⟩ := hcode
        exact does_ifNode hunique hexpr hopt hboth hc ht helif he hat hinv
  case whileNode condition body =>
    cases condition with
    | none => cases hcode
    | some condition => exact does_whileNode hunique hexpr hopt hstmt hcode hat hinv
  all_goals
    cases hcode

theorem stmtOptOk_succ {n : Nat} (hstmt : StmtOk reg decls items n) :
    StmtOptOk reg decls items (n + 1) := by
  intro f env node k code pc s hcode hat hinv
  cases node with
  | none =>
    obtain rfl := Option.some.inj hcode
    exact .ok (.refl _ _) ⟨rfl, rfl, fun _ _ _ => rfl, hinv⟩
  | some stmt => exact hstmt f env stmt k code pc s hcode hat hinv

theorem stmtsOk_succ {n : Nat} (hstmt : StmtOk reg decls items n)
    (hstmts : StmtsOk reg decls items n) : StmtsOk reg decls items (n + 1) := by
  intro f env nodes k code pc s hcode hat hinv
  cases nodes with
  | nil =>
    obtain rfl := Option.some.inj hcode
    exact .ok (.refl _ _) ⟨rfl, rfl, fun _ _ _ => rfl, hinv⟩
  | cons stmt stmts =>
    simp only [cgStmts, Option.bind_eq_bind, Option.bind_eq_some_iff, Option.pure_def,
      Option.some.injEq] at hcode
    obtain ⟨a, ha, r, hr, rfl⟩ := hcode
    simp only [CallCode.at_append, List.length_append, ← Nat.add_assoc, execStmts] at hat ⊢
    refine .bind (hstmt f env stmt k a pc s ha hat.1 hinv) ?_
    rintro ⟨env₁, o⟩ ⟨pc₁, s₁⟩ hpost
    cases o with
    | some w => exact .ok (.refl _ _) hpost
    | none =>
      obtain ⟨hplace₁, hrsp₁, hkept₁, hinv₁⟩ := hpost
      obtain rfl : pc₁ = pc + a.1.length := hplace₁
      refine .mono (hstmts f env₁ stmts a.2 r _ s₁ hr hat.2 hinv₁) fun v b hb => ?_
      exact hb.after hrsp₁ hkept₁ hinv.room

end

end Aether.Codegen.Functions
