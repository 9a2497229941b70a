/-
Aether.Codegen.StringRuntimeTheorems — the string routines of the two
generators agree.

The copy loop and the digit loop have an invariant each. A call of
`__aether_itoa` writes the numeral of its argument into the block it is
given, a call of `__aether_concat` the two strings, and both put the saved
registers back (`string_runtimes_agree`).
-/
import Aether.Codegen.StringRuntime

namespace Aether.Codegen.StringRuntime

open Aether.Lib Aether.Asm Listing Numerals

/-! ## §1 Registers and memory -/

@[simp] theorem State.set_regs (s : State) (r r' : Reg) (v : Word) :
    (s.set r v).regs r' = if r' = r then v else s.regs r' := rfl

@[simp] theorem State.set_mem (s : State) (r : Reg) (v : Word) : (s.set r v).mem = s.mem := rfl

@[simp] theorem State.set_stack (s : State) (r : Reg) (v : Word) : (s.set r v).stack = s.stack := rfl

@[simp] theorem State.setByte_regs (s : State) (a : Word) (v : UInt8) :
    (s.setByte a v).regs = s.regs := rfl

@[simp] theorem State.setByte_stack (s : State) (a : Word) (v : UInt8) :
    (s.setByte a v).stack = s.stack := rfl

@[simp] theorem State.setByte_mem (s : State) (a b : Word) (v : UInt8) :
    (s.setByte a v).mem b = if b = a then v else s.mem b := rfl

@[simp] theorem State.push_regs (s : State) (v : Word) (r : Reg) :
    (s.push v).regs r = if r = .rsp then s.regs .rsp - 8 else s.regs r := rfl

@[simp] theorem State.push_mem (s : State) (v : Word) : (s.push v).mem = s.mem := rfl

@[simp] theorem State.push_stack (s : State) (v a : Word) :
    (s.push v).stack a = if a = s.regs .rsp - 8 then v else s.stack a := rfl

/-- The low byte that was set is the one that is read. -/
@[simp] theorem low_setLow (w : Word) (b : UInt8) : low (setLow w b) = b := by
  have hb := b.toNat_lt
  apply UInt8.toNat_inj.mp
  rw [low, setLow, UInt8.toNat_ofNat', BitVec.toNat_ofNat]
  omega

theorem ofNat_succ (i : Nat) : BitVec.ofNat 64 i + 1#64 = BitVec.ofNat 64 (i + 1) := by
  rw [BitVec.ofNat_add]

theorem ofNat_inj_of_lt {i j : Nat} (hi : i < 2 ^ 64) (hj : j < 2 ^ 64)
    (h : BitVec.ofNat 64 i = BitVec.ofNat 64 j) : i = j := by
  have hnat := congrArg BitVec.toNat h
  rw [BitVec.toNat_ofNat, BitVec.toNat_ofNat] at hnat
  omega

/-- What is behind another piece of a block is at no place of the piece. -/
theorem add_ofNat_ne (q : Word) {i j : Nat} (hi : i < 2 ^ 64) (hj : j < 2 ^ 64) (hne : i ≠ j) :
    q + BitVec.ofNat 64 i ≠ q + BitVec.ofNat 64 j := fun heq =>
  hne (ofNat_inj_of_lt hi hj ((BitVec.add_right_inj _).mp heq))

/-! ## §2 The copy loop -/

section Code

variable {env : Env}

/-- Where a label stands. -/
def pos (l : Label) : Nat :=
  ((concatItems ++ memcpyItems ++ itoaItems).findIdx? fun e => Item.labelOf e == some l).getD 0

set_option maxRecDepth 4000 in
theorem find_pos (l : Label) : (code env).find l = some (pos l) := by
  cases l <;> rfl

/-- `n` bytes from place `i` on, the first one first. -/
def copy (dst src : Word) : Nat → Nat → (Word → UInt8) → Word → UInt8
  | _, 0, mem => mem
  | i, n + 1, mem => copy dst src (i + 1) n fun b =>
    if b = dst + BitVec.ofNat 64 i then mem (src + BitVec.ofNat 64 i) else mem b

theorem goes_memcpyLoop (n i : Nat) (s : State) (hlt : i + n < 2 ^ 64)
    (hrcx : s.regs .rcx = BitVec.ofNat 64 i) (hrdx : s.regs .rdx = BitVec.ofNat 64 (i + n)) :
    ∃ s', (code env).Goes (pos .memcpyLoop) s (pos .memcpyDone) s' ∧
      s'.mem = copy (s.regs .rdi) (s.regs .rsi) i n s.mem ∧ s'.stack = s.stack ∧
      ∀ r, r ≠ .rax → r ≠ .rcx → s'.regs r = s.regs r := by
  induction n generalizing i s with
  | zero =>
    have hbelow : ¬ s.regs .rcx < s.regs .rdx := by
      rw [hrcx, hrdx]
      exact BitVec.lt_irrefl _
    refine ⟨_, Goes.lineJump [.label .memcpyLoop, .cmp .rcx .rdx, .jae .memcpyDone] ⟨_, rfl⟩
      (by simp [flows, code, Item.exec, hbelow]; rfl) (find_pos _), ?_⟩
    simp [copy]
  | succ n ih =>
    have hbelow : s.regs .rcx < s.regs .rdx := by
      rw [hrcx, hrdx, BitVec.lt_def, BitVec.toNat_ofNat, BitVec.toNat_ofNat]
      omega
    obtain ⟨s₁, hgoes₁, hmem₁, hstack₁, hrcx₁, hregs₁⟩ : ∃ s₁,
        (code env).Goes (pos .memcpyLoop) s (pos .memcpyLoop) s₁ ∧
        (s₁.mem = fun b => if b = s.regs .rdi + BitVec.ofNat 64 i then
          s.mem (s.regs .rsi + BitVec.ofNat 64 i) else s.mem b) ∧ s₁.stack = s.stack ∧
        s₁.regs .rcx = BitVec.ofNat 64 (i + 1) ∧
        ∀ r, r ≠ .rax → r ≠ .rcx → s₁.regs r = s.regs r := by
      refine ⟨_, Goes.lineJump [.label .memcpyLoop, .cmp .rcx .rdx, .jae .memcpyDone,
        .loadAl .rsi .rcx, .storeAl .rdi .rcx, .inc .rcx, .jmp .memcpyLoop] ⟨_, rfl⟩
        (by simp [flows, code, Item.exec, hbelow]; rfl) (find_pos _), ?_⟩
      simp +contextual [State.setByte, State.set, hrcx, ofNat_succ]
    obtain ⟨s', hgoes, hmem, hstack, hregs⟩ := ih (i + 1) s₁ (by omega) hrcx₁
      (by rw [hregs₁ .rdx (by decide) (by decide), hrdx]; congr 1; omega)
    refine ⟨s', hgoes₁.trans hgoes, ?_, hstack.trans hstack₁, fun r hrax hrcx => ?_⟩
    · rw [hmem, hmem₁, hregs₁ .rdi (by decide) (by decide), hregs₁ .rsi (by decide) (by decide), copy]
    · rw [hregs r hrax hrcx, hregs₁ r hrax hrcx]

/-- What is outside the place that is copied to is kept. -/
theorem copy_outside {dst src a : Word} {i n : Nat} {mem : Word → UInt8}
    (h : ∀ j, i ≤ j → j < i + n → a ≠ dst + BitVec.ofNat 64 j) : copy dst src i n mem a = mem a := by
  induction n generalizing i mem with
  | zero => rfl
  | succ n ih =>
    rw [copy, ih fun j hle hlt => h j (by omega) (by omega)]
    simp [h i (Nat.le_refl _) (by omega)]

/-- The bytes are copied where no byte is overwritten before it is read. -/
theorem copy_inside {dst src : Word} {i n : Nat} {mem : Word → UInt8} (hlt : i + n < 2 ^ 64)
    (hsafe : ∀ j k, i ≤ j → j < k → k < i + n → src + BitVec.ofNat 64 k ≠ dst + BitVec.ofNat 64 j)
    {j : Nat} (hle : i ≤ j) (hj : j < i + n) :
    copy dst src i n mem (dst + BitVec.ofNat 64 j) = mem (src + BitVec.ofNat 64 j) := by
  induction n generalizing i mem with
  | zero => omega
  | succ n ih =>
    rw [copy]
    by_cases hij : i = j
    · subst hij
      rw [copy_outside]
      · simp
      · intro k hik hk heq
        have := ofNat_inj_of_lt (by omega) (by omega) ((BitVec.add_right_inj _).mp heq)
        omega
    · rw [ih (by omega) (fun a b ha hb hc => hsafe a b (by omega) hb (by omega)) (by omega) (by omega)]
      simp [hsafe i j (Nat.le_refl _) (by omega) (by omega)]

/-- A call of the copy loop, to the label behind it. -/
theorem goes_memcpy {s : State} {n : Nat} (back : Label) (hn : n < 2 ^ 64)
    (hrdx : s.regs .rdx = BitVec.ofNat 64 n)
    (hback : returnPoints.find? (fun l => env.place l == env.place back) = some back) :
    ∃ s', (code env).Goes (pos .memcpy) (s.push (env.place back)) (pos back) s' ∧
      s'.mem = copy (s.regs .rdi) (s.regs .rsi) 0 n s.mem ∧
      (∀ a, a ≠ s.regs .rsp - 8#64 → s'.stack a = s.stack a) ∧
      ∀ r, r ≠ .rax → r ≠ .rcx → s'.regs r = s.regs r := by
  obtain ⟨s₁, hgoes₁, hmem₁, hstack₁, hrcx₁, hregs₁⟩ : ∃ s₁,
      (code env).Goes (pos .memcpy) (s.push (env.place back)) (pos .memcpyLoop) s₁ ∧
      s₁.mem = s.mem ∧ s₁.stack = (s.push (env.place back)).stack ∧
      s₁.regs .rcx = BitVec.ofNat 64 0 ∧
      ∀ r, r ≠ .rcx → s₁.regs r = (s.push (env.place back)).regs r := by
    refine ⟨_, Goes.line [.label .memcpy, .clear .rcx] ⟨_, rfl⟩ rfl rfl, ?_⟩
    simp +contextual
  obtain ⟨s₂, hgoes₂, hmem₂, hstack₂, hregs₂⟩ := goes_memcpyLoop n 0 s₁ (by omega) hrcx₁
    (by rw [hregs₁ .rdx (by decide), Nat.zero_add]; simpa using hrdx)
  have hrsp : s₂.regs .rsp = s.regs .rsp - 8 := by
    rw [hregs₂ .rsp (by decide) (by decide), hregs₁ .rsp (by decide)]
    simp
  have htop : s₂.stack (s₂.regs .rsp) = env.place back := by
    rw [hstack₂, hstack₁, hrsp]
    simp
  have hret : (code env).Goes (pos .memcpyDone) s₂ (pos back)
      (s₂.set .rsp (s₂.regs .rsp + 8)) :=
    Goes.lineJump [.label .memcpyDone, .ret] ⟨_, rfl⟩
      (by simp [flows, code, Item.exec, htop, hback]) (find_pos _)
  refine ⟨_, (hgoes₁.trans hgoes₂).trans hret, ?_, fun a ha => ?_, fun r hrax hrcx => ?_⟩
  · rw [State.set_mem, hmem₂, hmem₁, hregs₁ .rdi (by decide), hregs₁ .rsi (by decide)]
    rfl
  · rw [State.set_stack, hstack₂, hstack₁]
    simp [ha]
  · by_cases hr : r = .rsp
    · subst hr
      simp [hrsp, BitVec.sub_add_cancel]
    · simp [hr, hregs₂ r hrax hrcx, hregs₁ r hrcx]

/-! ## §3 The length of a string -/

/-- The bytes of a text from an address on, and a NUL behind them. -/
structure HoldsText (mem : Word → UInt8) (p : Word) (text : Bytes) : Prop where
  bytes : ∀ i (h : i < text.length), mem (p + BitVec.ofNat 64 i) = text[i]
  nul : mem (p + BitVec.ofNat 64 text.length) = 0

/-- A string without NUL as it is passed; a null pointer is the empty one. -/
structure StringAt (mem : Word → UInt8) (p : Word) (text : Bytes) : Prop where
  null : p = 0#64 → text = []
  held : p ≠ 0#64 → HoldsText mem p text
  noNul : ∀ c ∈ text, c ≠ 0

section Strlen

variable {ptr len : Reg} {isNull loop done next : Label} {i : Nat}

theorem goes_strlenLoop
    (hitems : strlenItems ptr len isNull loop done next <+: (code env).items.drop i)
    (hloop : pos loop = i + 3) (hptr : ptr ≠ .rcx) {text : Bytes} (hnoNul : ∀ c ∈ text, c ≠ 0)
    (n k : Nat) (s : State) (hk : k + n = text.length) (htext : HoldsText s.mem (s.regs ptr) text)
    (hrcx : s.regs .rcx = BitVec.ofNat 64 k) :
    ∃ s', (code env).Goes (pos loop) s (pos done) s' ∧ s'.regs .rcx = BitVec.ofNat 64 text.length ∧
      s'.mem = s.mem ∧ s'.stack = s.stack ∧ ∀ r, r ≠ .rcx → s'.regs r = s.regs r := by
  induction n generalizing k s with
  | zero =>
    have hnul : s.mem (s.regs ptr + s.regs .rcx) = 0 := by
      rw [hrcx, show k = text.length by omega]
      exact htext.nul
    refine ⟨_, Goes.lineJump [.label loop, .cmpByte ptr .rcx, .jz done] ?_
      (by simp [flows, code, Item.exec, hnul]; rfl) (find_pos _), ?_⟩
    · rw [hloop]
      exact isPrefix_drop hitems ⟨_, rfl⟩
    · simp [hrcx, show k = text.length by omega]
  | succ n ih =>
    have hbyte : s.mem (s.regs ptr + s.regs .rcx) ≠ 0 := by
      rw [hrcx, htext.bytes k (by omega)]
      exact hnoNul _ (List.getElem_mem _)
    obtain ⟨s₁, hgoes₁, hmem₁, hstack₁, hrcx₁, hregs₁⟩ : ∃ s₁,
        (code env).Goes (pos loop) s (pos loop) s₁ ∧ s₁.mem = s.mem ∧ s₁.stack = s.stack ∧
        s₁.regs .rcx = BitVec.ofNat 64 (k + 1) ∧ ∀ r, r ≠ .rcx → s₁.regs r = s.regs r := by
      refine ⟨_, Goes.lineJump
        [.label loop, .cmpByte ptr .rcx, .jz done, .inc .rcx, .jmp loop] ?_
        (by simp [flows, code, Item.exec, hbyte]; rfl) (find_pos _), ?_⟩
      · rw [hloop]
        exact isPrefix_drop hitems ⟨_, rfl⟩
      · simp +contextual [State.set, hrcx, ofNat_succ]
    obtain ⟨s', hgoes, hlen, hmem, hstack, hregs⟩ := ih (k + 1) s₁ (by omega)
      (by rw [hmem₁, hregs₁ ptr hptr]; exact htext) hrcx₁
    exact ⟨s', hgoes₁.trans hgoes, hlen, hmem.trans hmem₁, hstack.trans hstack₁,
      fun r hr => (hregs r hr).trans (hregs₁ r hr)⟩

theorem goes_strlen
    (hitems : strlenItems ptr len isNull loop done next <+: (code env).items.drop i)
    (hloop : pos loop = i + 3) (hdone : pos done = i + 8) (hnull : pos isNull = i + 11)
    (hnext : pos next = i + 13) (hptr : ptr ≠ .rcx) {s : State} {text : Bytes}
    (htext : StringAt s.mem (s.regs ptr) text) :
    ∃ s', (code env).Goes i s (pos next) s' ∧ s'.regs len = BitVec.ofNat 64 text.length ∧
      s'.mem = s.mem ∧ s'.stack = s.stack ∧ ∀ r, r ≠ .rcx → r ≠ len → s'.regs r = s.regs r := by
  by_cases hzero : s.regs ptr = 0#64
  · obtain rfl := htext.null hzero
    have hjump : (code env).Goes i s (pos isNull) { s with zero := true, below := false } :=
      Goes.lineJump [.test ptr ptr, .jz isNull] (List.IsPrefix.trans ⟨_, rfl⟩ hitems)
        (by simp [flows, code, Item.exec, hzero]) (find_pos _)
    have hclear : (code env).Goes (pos isNull) { s with zero := true, below := false } (pos next)
        (State.set { s with zero := true, below := false } len 0) := by
      refine Goes.line [.label isNull, .clear len] ?_ rfl (by rw [hnull, hnext]; rfl)
      rw [hnull]
      exact isPrefix_drop hitems ⟨_, rfl⟩
    refine ⟨_, hjump.trans hclear, ?_⟩
    simp +contextual
  · have hfall : (code env).Goes i s (pos loop)
        (State.set { s with zero := false, below := false } .rcx 0) := by
      refine Goes.line [.test ptr ptr, .jz isNull, .clear .rcx] ?_ ?_ (by rw [hloop]; rfl)
      · exact List.IsPrefix.trans ⟨_, rfl⟩ hitems
      · have hbeq : (s.regs ptr == 0#64) = false := by simpa using hzero
        simp [flows, code, Item.exec, hbeq]
    obtain ⟨s₂, hgoes₂, hrcx₂, hmem₂, hstack₂, hregs₂⟩ := goes_strlenLoop hitems hloop hptr htext.noNul
      text.length 0 (State.set { s with zero := false, below := false } .rcx 0) (by omega)
      (by simpa [hptr] using htext.held hzero) rfl
    have hjump : (code env).Goes (pos done) s₂ (pos next) (s₂.set len (s₂.regs .rcx)) := by
      refine Goes.lineJump [.label done, .mov len .rcx, .jmp next] ?_ rfl (find_pos _)
      rw [hdone]
      exact isPrefix_drop hitems ⟨_, rfl⟩
    refine ⟨_, (hfall.trans hgoes₂).trans hjump, ?_, ?_, ?_, fun r hrcx hlen => ?_⟩
    · simp [hrcx₂]
    · simp [hmem₂]
    · simp [hstack₂]
    · simp [hlen, hregs₂ r hrcx, hrcx]

end Strlen

/-! ## §4 The frame -/

/-- What is assumed of `__aether_alloc` for a request of `size` bytes: it
returns a block of that size away from what is in use, and keeps the saved
registers, the stack above it and the memory in use. -/
structure Allocates (alloc : State → State) (live : Word → Prop) (size : Nat) : Prop where
  regs : ∀ s r, r = .rbp ∨ r = .rsp ∨ r = .r12 ∨ r = .r13 ∨ r = .r14 ∨ r = .r15 →
    (alloc s).regs r = s.regs r
  stack : ∀ s a, (a - s.regs .rsp).toNat < 2 ^ 63 → (alloc s).stack a = s.stack a
  mem : ∀ s a, live a → (alloc s).mem a = s.mem a
  fresh : ∀ s, s.regs .rdi = BitVec.ofNat 64 size →
    ∀ i < size, ¬ live ((alloc s).regs .rax + BitVec.ofNat 64 i)

/-- The addresses of the labels behind the calls are different, and the call
comes from elsewhere. -/
structure Placed (env : Env) (back : Word) : Prop where
  apart : ∀ l ∈ returnPoints, ∀ l' ∈ returnPoints, env.place l = env.place l' → l = l'
  outside : ∀ l ∈ returnPoints, env.place l ≠ back

/-- The `k`-th word below the return address. -/
def slot (p : Word) (k : Nat) : Word := p - BitVec.ofNat 64 (8 * k)

@[simp] theorem slot_sub (p : Word) (k : Nat) : slot p k - 8#64 = slot p (k + 1) := by
  simp only [slot]
  bv_omega

@[simp] theorem slot_add (p : Word) (k : Nat) : slot p (k + 1) + 8#64 = slot p k := by
  simp only [slot]
  bv_omega

theorem slot_inj (p : Word) {j k : Nat} (hj : j < 100) (hk : k < 100) :
    slot p j = slot p k ↔ j = k := by
  constructor
  · intro h
    simp only [slot] at h
    bv_omega
  · intro h
    rw [h]

theorem slot_above (p : Word) {j k : Nat} (hj : j ≤ k) (hk : k < 100) :
    (slot p j - slot p k).toNat < 2 ^ 63 := by
  have h : slot p j - slot p k = BitVec.ofNat 64 (8 * (k - j)) := by
    simp only [slot]
    bv_omega
  rw [h, BitVec.toNat_ofNat]
  omega

/-- The frame of a routine with the saved registers in it. -/
structure Framed (p : Word) (s₀ s : State) : Prop where
  rbp : s.regs .rbp = slot p 1
  back : s.stack (slot p 0) = s₀.stack (slot p 0)
  savedRbp : s.stack (slot p 1) = s₀.regs .rbp
  savedR12 : s.stack (slot p 2) = s₀.regs .r12
  savedR13 : s.stack (slot p 3) = s₀.regs .r13
  savedR14 : s.stack (slot p 4) = s₀.regs .r14

/-- The frame lies at or above what is changed of the stack. -/
theorem Framed.of_stack {p : Word} {s₀ s s' : State} (h : Framed p s₀ s)
    (hrbp : s'.regs .rbp = s.regs .rbp) (hstack : ∀ k ≤ 4, s'.stack (slot p k) = s.stack (slot p k)) :
    Framed p s₀ s' where
  rbp := hrbp.trans h.rbp
  back := (hstack 0 (by omega)).trans h.back
  savedRbp := (hstack 1 (by omega)).trans h.savedRbp
  savedR12 := (hstack 2 (by omega)).trans h.savedR12
  savedR13 := (hstack 3 (by omega)).trans h.savedR13
  savedR14 := (hstack 4 (by omega)).trans h.savedR14

/-- A call writes the word below the frame. -/
theorem Framed.of_call {p : Word} {s₀ s s' : State} (h : Framed p s₀ s)
    (hrbp : s'.regs .rbp = s.regs .rbp) (hstack : ∀ a, a ≠ slot p 5 → s'.stack a = s.stack a) :
    Framed p s₀ s' := by
  refine h.of_stack hrbp fun k hk => hstack _ ?_
  rw [ne_eq, slot_inj p (by omega) (by omega)]
  omega

/-- The allocator leaves the words of the frame alone. -/
theorem Allocates.keeps_slots {live : Word → Prop} {size : Nat} {p : Word} {s : State} {n : Nat}
    (halloc : Allocates env.alloc live size) (hrsp : s.regs .rsp = slot p n) (hn : n < 100) :
    ∀ k ≤ n, (env.alloc s).stack (slot p k) = s.stack (slot p k) := by
  intro k hk
  apply halloc.stack
  rw [hrsp]
  exact slot_above p hk hn

/-- The registers that the caller finds as they were. -/
def Restored (s r : State) : Prop :=
  r.regs .rsp = s.regs .rsp + 8 ∧
    ∀ reg, reg = .rbp ∨ reg = .r12 ∨ reg = .r13 ∨ reg = .r14 ∨ reg = .r15 → r.regs reg = s.regs reg

theorem find_back {back : Word} (h : Placed env back) {l : Label} (hl : l ∈ returnPoints) :
    returnPoints.find? (fun l' => env.place l' == env.place l) = some l := by
  obtain ⟨l', hl'⟩ : ∃ l', returnPoints.find? (fun l' => env.place l' == env.place l) = some l' :=
    Option.isSome_iff_exists.mp (List.find?_isSome.mpr ⟨l, hl, by simp⟩)
  rw [hl', h.apart l' (List.mem_of_find?_eq_some hl') l hl (by simpa using List.find?_some hl')]

theorem find_outside {back : Word} (h : Placed env back) :
    returnPoints.find? (fun l => env.place l == back) = none :=
  List.find?_eq_none.mpr fun l hl => by simpa using h.outside l hl

/-! ## §5 The digits -/

theorem low_digit {d : Nat} (h : d < 10) : low (BitVec.ofNat 64 d) + 48 = digit d := by
  have hall : ∀ d < 10, low (BitVec.ofNat 64 d) + 48 = digit d := by decide
  exact hall d h

variable (env) in
/-- One turn of the loop, up to its jump. -/
theorem goes_digit {s : State} {v : Nat} (hv : v < 2 ^ 64) (hr12 : s.regs .r12 = BitVec.ofNat 64 v) :
    ∃ s', (code env).Goes (pos .itoaLoop) s (pos .itoaLoop + 10) s' ∧
      s'.regs .r12 = BitVec.ofNat 64 (v / 10) ∧ s'.regs .r14 = s.regs .r14 - 1#64 ∧
      (s'.mem = fun b => if b = s.regs .r14 then digit (v % 10) else s.mem b) ∧
      s'.stack = s.stack ∧ s'.zero = decide (v / 10 = 0) ∧
      ∀ r, r ≠ .rax → r ≠ .rcx → r ≠ .rdx → r ≠ .r12 → r ≠ .r14 → s'.regs r = s.regs r := by
  obtain ⟨s₁, hgoes₁, hrax₁, hrdx₁, hmem₁, hstack₁, hregs₁⟩ : ∃ s₁,
      (code env).Goes (pos .itoaLoop) s (pos .itoaLoop + 5) s₁ ∧
      s₁.regs .rax = BitVec.ofNat 64 (v / 10) ∧ s₁.regs .rdx = BitVec.ofNat 64 (v % 10) ∧
      s₁.mem = s.mem ∧ s₁.stack = s.stack ∧
      ∀ r, r ≠ .rax → r ≠ .rcx → r ≠ .rdx → s₁.regs r = s.regs r := by
    refine ⟨_, Goes.line [.label .itoaLoop, .mov .rax .r12, .clear .rdx, .movImm .rcx 10,
      .div .rcx] ⟨_, rfl⟩ rfl rfl, ?_⟩
    have hmod : v % 18446744073709551616 = v := Nat.mod_eq_of_lt hv
    simp +contextual [hr12, hmod]
  have hquot : (BitVec.ofNat 64 (v / 10) == 0#64) = decide (v / 10 = 0) := by
    have hlt : v / 10 < 2 ^ 64 := by omega
    rw [Bool.eq_iff_iff, beq_iff_eq, decide_eq_true_eq]
    exact ⟨fun h => ofNat_inj_of_lt hlt (by omega) h, fun h => by rw [h]⟩
  have hdigit := low_digit (Nat.mod_lt v (by omega : 10 > 0))
  obtain ⟨s₂, hgoes₂, hr12₂, hr14₂, hmem₂, hstack₂, hzero₂, hregs₂⟩ : ∃ s₂,
      (code env).Goes (pos .itoaLoop + 5) s₁ (pos .itoaLoop + 10) s₂ ∧
      s₂.regs .r12 = s₁.regs .rax ∧ s₂.regs .r14 = s₁.regs .r14 - 1#64 ∧
      s₂.mem = (s₁.setByte (s₁.regs .r14) (digit (v % 10))).mem ∧ s₂.stack = s₁.stack ∧
      (s₂.zero = (s₁.regs .rax == 0#64)) ∧
      ∀ r, r ≠ .rdx → r ≠ .r12 → r ≠ .r14 → s₂.regs r = s₁.regs r := by
    refine ⟨_, Goes.line [.addDl 48, .storeDl .r14, .dec .r14, .mov .r12 .rax,
      .test .rax .rax] ⟨_, rfl⟩ rfl rfl, ?_⟩
    simp +contextual [hrdx₁, hdigit]
    rfl
  refine ⟨s₂, hgoes₁.trans hgoes₂, hr12₂.trans hrax₁, ?_, ?_, hstack₂.trans hstack₁, ?_, ?_⟩
  · rw [hr14₂, hregs₁ .r14 (by decide) (by decide) (by decide)]
  · rw [hmem₂, hregs₁ .r14 (by decide) (by decide) (by decide), ← hmem₁]
    rfl
  · rw [hzero₂, hrax₁, hquot]
  · intro r hrax hrcx hrdx hr12 hr14
    rw [hregs₂ r hrdx hr12 hr14, hregs₁ r hrax hrcx hrdx]

variable (env) in
/-- The loop writes the numeral from the back, from place `m + length - 1` of
the block down to place `m`. -/
theorem goes_itoaLoop (q : Word) (v m k : Nat) (s : State) (hv : v < 2 ^ 64) (hk : k < 2 ^ 63)
    (hlen : k + 1 = m + (decimal v).length) (hr12 : s.regs .r12 = BitVec.ofNat 64 v)
    (hr14 : s.regs .r14 = q + BitVec.ofNat 64 k) :
    ∃ s', (code env).Goes (pos .itoaLoop) s (pos .itoaLoop + 11) s' ∧
      s'.regs .r14 + 1#64 = q + BitVec.ofNat 64 m ∧
      (∀ j (h : j < (decimal v).length), s'.mem (q + BitVec.ofNat 64 (m + j)) = (decimal v)[j]) ∧
      (∀ a, (∀ j, m ≤ j → j ≤ k → a ≠ q + BitVec.ofNat 64 j) → s'.mem a = s.mem a) ∧
      s'.stack = s.stack ∧
      ∀ r, r ≠ .rax → r ≠ .rcx → r ≠ .rdx → r ≠ .r12 → r ≠ .r14 → s'.regs r = s.regs r := by
  induction v using Nat.strongRecOn generalizing k s with
  | ind v ih =>
    obtain ⟨s₁, hgoes₁, hr12₁, hr14₁, hmem₁, hstack₁, hzero₁, hregs₁⟩ := goes_digit env hv hr12
    by_cases hlast : v < 10
    · rw [decimal_of_lt hlast, List.length_singleton] at hlen
      obtain rfl : k = m := by omega
      have hfall : (code env).Goes (pos .itoaLoop + 10) s₁ (pos .itoaLoop + 11) s₁ := by
        refine Goes.line [.jnz .itoaLoop] ⟨_, rfl⟩ ?_ rfl
        simp [flows, code, Item.exec, hzero₁, Nat.div_eq_of_lt hlast]
      refine ⟨s₁, hgoes₁.trans hfall, ?_, fun j hj => ?_, fun a ha => ?_, hstack₁, hregs₁⟩
      · rw [hr14₁, hr14, BitVec.sub_add_cancel]
      · have hj0 : j = 0 := by
          rw [decimal_of_lt hlast, List.length_singleton] at hj
          omega
        subst hj0
        simp [hmem₁, hr14, decimal_of_lt hlast, Nat.mod_eq_of_lt hlast]
      · simp [hmem₁, hr14, ha k (Nat.le_refl _) (Nat.le_refl _)]
    · have hdecimal := decimal_of_le (Nat.le_of_not_lt hlast)
      have hlength : (decimal v).length = (decimal (v / 10)).length + 1 := by
        rw [hdecimal, List.length_append, List.length_singleton]
      have hpos : 0 < (decimal (v / 10)).length := List.length_pos_of_ne_nil (decimal_ne_nil _)
      have hquot : v / 10 ≠ 0 := by omega
      have hback : (code env).Goes (pos .itoaLoop + 10) s₁ (pos .itoaLoop) s₁ := by
        refine Goes.lineJump [.jnz .itoaLoop] ⟨_, rfl⟩ ?_ (find_pos _)
        simp [flows, code, Item.exec, hzero₁, hquot]
      obtain ⟨s₂, hgoes₂, hr14₂, hbytes₂, hmem₂, hstack₂, hregs₂⟩ := ih (v / 10) (by omega) (k - 1) s₁
        (by omega) (by omega) (by omega) hr12₁ (by rw [hr14₁, hr14]; bv_omega)
      refine ⟨s₂, (hgoes₁.trans hback).trans hgoes₂, hr14₂, fun j hj => ?_, fun a ha => ?_,
        hstack₂.trans hstack₁, fun r hrax hrcx hrdx hr12 hr14 => ?_⟩
      · by_cases hlt : j < (decimal (v / 10)).length
        · rw [hbytes₂ j hlt]
          simp [hdecimal, hlt]
        · have hjk : m + j = k := by omega
          rw [hmem₂, hmem₁, hjk]
          · simp [hr14, hdecimal, show j = (decimal (v / 10)).length by omega]
          · intro i hi hik heq
            have := ofNat_inj_of_lt (by omega) (by omega) ((BitVec.add_right_inj _).mp heq)
            omega
      · rw [hmem₂ a fun j hm hj => ha j hm (by omega), hmem₁]
        simp [hr14, ha k (by omega) (Nat.le_refl _)]
      · rw [hregs₂ r hrax hrcx hrdx hr12 hr14, hregs₁ r hrax hrcx hrdx hr12 hr14]

/-! ## §6 A call of `__aether_itoa` -/

/-- The block that `__aether_alloc` returned for the request in `s₁` holds the
text, and nothing outside of it was written. -/
structure Wrote (env : Env) (s s₁ r : State) (size : Nat) (text : Bytes) : Prop where
  request : s₁.regs .rdi = BitVec.ofNat 64 size
  unchanged : s₁.mem = s.mem
  block : r.regs .rax = (env.alloc s₁).regs .rax
  holds : HoldsText r.mem (r.regs .rax) text
  outside : ∀ a, (∀ i < size, a ≠ r.regs .rax + BitVec.ofNat 64 i) → r.mem a = (env.alloc s₁).mem a

section Itoa

variable {live : Word → Prop} {p : Word} {s₀ s : State}

/-- Up to the test for zero. -/
theorem goes_itoaEnter (halloc : Allocates env.alloc live 21) (hrsp : s₀.regs .rsp = slot p 0) :
    ∃ s₁ s₂, (code env).Goes (pos .itoa) s₀ (pos .itoa + 10) s₂ ∧
      s₁.regs .rdi = BitVec.ofNat 64 21 ∧ s₁.mem = s₀.mem ∧
      s₂.regs .r13 = (env.alloc s₁).regs .rax ∧ s₂.mem = (env.alloc s₁).mem ∧
      s₂.regs .r12 = s₀.regs .rdi ∧ s₂.regs .r15 = s₀.regs .r15 ∧ s₂.regs .rsp = slot p 4 ∧
      Framed p s₀ s₂ := by
  obtain ⟨s₁, hgoes, hrdi, hmem, hr12, hr15, hrsp₁, hframe⟩ : ∃ s₁,
      (code env).Goes (pos .itoa) s₀ (pos .itoa + 8) s₁ ∧ s₁.regs .rdi = BitVec.ofNat 64 21 ∧
      s₁.mem = s₀.mem ∧ s₁.regs .r12 = s₀.regs .rdi ∧ s₁.regs .r15 = s₀.regs .r15 ∧
      s₁.regs .rsp = slot p 4 ∧ Framed p s₀ s₁ := by
    refine ⟨_, Goes.line [.label .itoa, .push .rbp, .mov .rbp .rsp, .push .r12, .push .r13,
      .push .r14, .mov .r12 .rdi, .movImm .rdi 21] ⟨_, rfl⟩ rfl rfl, by simp, by simp, by simp,
      by simp, by simp [hrsp], ?_⟩
    constructor <;> simp [hrsp, slot_inj]
  have hkeep := halloc.keeps_slots hrsp₁ (by omega)
  refine ⟨s₁, (env.alloc s₁).set .r13 ((env.alloc s₁).regs .rax), hgoes.trans
    (Goes.line [.callAlloc, .mov .r13 .rax] ⟨_, rfl⟩ rfl rfl), hrdi, hmem, by simp, by simp,
    ?_, ?_, ?_, ?_⟩
  · simp [halloc.regs s₁ .r12, hr12]
  · simp [halloc.regs s₁ .r15, hr15]
  · simp [halloc.regs s₁ .rsp, hrsp₁]
  · exact hframe.of_stack (by simp [halloc.regs s₁ .rbp]) (by simpa using hkeep)

/-- The end of the routine, which is there twice. -/
theorem ends_itoaLeave {k : Nat} (hitems : itoaLeave <+: (code env).items.drop k)
    (hplaced : Placed env (s₀.stack (slot p 0))) (hrsp₀ : s₀.regs .rsp = slot p 0)
    (hrsp : s.regs .rsp = slot p 4) (hr15 : s.regs .r15 = s₀.regs .r15) (hframe : Framed p s₀ s) :
    ∃ r, (code env).Ends k s (some (s₀.stack (slot p 0))) r ∧ Restored s₀ r ∧
      r.regs .rax = s.regs .r13 ∧ r.mem = s.mem := by
  have hout := find_outside hplaced
  obtain ⟨r, hflows, hrax, hmem, hrestored⟩ : ∃ r,
      flows (code env).exec itoaLeave s = .leave (s₀.stack (slot p 0)) r ∧
      r.regs .rax = s.regs .r13 ∧ r.mem = s.mem ∧ Restored s₀ r := by
    refine ⟨_, by
      simp [flows, itoaLeave, code, Item.exec, hrsp, hframe.rbp, hframe.back, hout]
      rfl, by simp, by simp, by simp [hrsp₀], ?_⟩
    rintro reg (rfl | rfl | rfl | rfl | rfl)
    · simp [hframe.savedRbp]
    · simp [hframe.savedR12]
    · simp [hframe.savedR13]
    · simp [hframe.savedR14]
    · simp [hr15]
  exact ⟨r, Ends.lineLeave hitems hflows, hrestored, hrax, hmem⟩

/-- The digits are moved to the start of the block. -/
theorem ends_itoaShift {q : Word} {m : Nat} {text : Bytes}
    (hplaced : Placed env (s₀.stack (slot p 0))) (hrsp₀ : s₀.regs .rsp = slot p 0)
    (hrsp : s.regs .rsp = slot p 4) (hr15 : s.regs .r15 = s₀.regs .r15) (hframe : Framed p s₀ s)
    (hr13 : s.regs .r13 = q) (hr14 : s.regs .r14 + 1#64 = q + BitVec.ofNat 64 m)
    (hlen : m + text.length = 20)
    (hbytes : ∀ j (h : j < text.length), s.mem (q + BitVec.ofNat 64 (m + j)) = text[j]) :
    ∃ r, (code env).Ends (pos .itoaLoop + 11) s (some (s₀.stack (slot p 0))) r ∧ Restored s₀ r ∧
      r.regs .rax = q ∧ HoldsText r.mem q text ∧
      ∀ a, (∀ i < 21, a ≠ q + BitVec.ofNat 64 i) → r.mem a = s.mem a := by
  obtain ⟨s₁, hgoes₁, hrdi₁, hrsi₁, hrdx₁, hmem₁, hstack₁, hregs₁⟩ : ∃ s₁,
      (code env).Goes (pos .itoaLoop + 11) s (pos .itoaLoop + 16) s₁ ∧ s₁.regs .rdi = q ∧
      s₁.regs .rsi = q + BitVec.ofNat 64 m ∧ s₁.regs .rdx = BitVec.ofNat 64 text.length ∧
      s₁.mem = s.mem ∧ s₁.stack = s.stack ∧
      ∀ r, r ≠ .r14 → r ≠ .rdi → r ≠ .rsi → r ≠ .rdx → s₁.regs r = s.regs r := by
    refine ⟨_, Goes.line [.inc .r14, .mov .rdi .r13, .mov .rsi .r14, .leaDisp .rdx .r13 20,
      .sub .rdx .r14] ⟨_, rfl⟩ rfl rfl, ?_⟩
    refine ⟨by simp [hr13], by simp [hr14], ?_, rfl, rfl, ?_⟩
    · have hdiff : q + 20#64 - (q + BitVec.ofNat 64 m) = BitVec.ofNat 64 text.length := by
        bv_omega
      simpa [hr13, hr14] using hdiff
    · simp +contextual
  obtain ⟨s₂, hgoes₂, hmem₂, hstack₂, hregs₂⟩ := goes_memcpy .itoaCopied (by omega) hrdx₁
    (find_back hplaced (by decide))
  have hcall : (code env).Goes (pos .itoaLoop + 16) s₁ (pos .memcpy)
      (s₁.push (env.place .itoaCopied)) :=
    Goes.lineJump [.call .memcpy .itoaCopied] ⟨_, rfl⟩ rfl (find_pos _)
  have hregs : ∀ r, r ≠ .rax → r ≠ .rcx → r ≠ .r14 → r ≠ .rdi → r ≠ .rsi → r ≠ .rdx →
      s₂.regs r = s.regs r := fun r hrax hrcx hr14 hrdi hrsi hrdx =>
    (hregs₂ r hrax hrcx).trans (hregs₁ r hr14 hrdi hrsi hrdx)
  have hr13₂ : s₂.regs .r13 = q := by simp [hregs, hr13]
  have hrdx₂ : s₂.regs .rdx = BitVec.ofNat 64 text.length := by simp [hregs₂, hrdx₁]
  have hrsp₁ : s₁.regs .rsp = slot p 4 := by simp [hregs₁, hrsp]
  have hframe₂ : Framed p s₀ s₂ := by
    refine hframe.of_call (by simp [hregs]) fun a ha => ?_
    rw [hstack₂ a (by rwa [hrsp₁, slot_sub]), hstack₁]
  have hnul : (code env).Goes (pos .itoaCopied) s₂ (pos .itoaCopied + 2)
      (s₂.setByte (q + BitVec.ofNat 64 text.length) 0) := by
    refine Goes.line [.label .itoaCopied, .movByteAt .r13 .rdx 0] ⟨_, rfl⟩ ?_ rfl
    simp [flows, code, Item.exec, hr13₂, hrdx₂]
  obtain ⟨r, hends, hrestored, hrax, hmem⟩ := ends_itoaLeave (k := pos .itoaCopied + 2)
    (s := s₂.setByte (q + BitVec.ofNat 64 text.length) 0) ⟨_, rfl⟩ hplaced hrsp₀
    (by simp [hregs, hrsp]) (by simp [hregs, hr15])
    (hframe₂.of_stack rfl fun _ _ => rfl)
  refine ⟨r, (((hgoes₁.trans hcall).trans hgoes₂).trans hnul) _ _ hends, hrestored,
    hrax.trans hr13₂, ⟨fun j hj => ?_, ?_⟩, fun a ha => ?_⟩
  · have hne : q + BitVec.ofNat 64 j ≠ q + BitVec.ofNat 64 text.length :=
      add_ofNat_ne q (by omega) (by omega) (by omega)
    rw [hmem, State.setByte_mem, if_neg hne, hmem₂, hrdi₁, hrsi₁, hmem₁, copy_inside (by omega) _
      (Nat.zero_le j) (by omega), ← hbytes j hj, BitVec.ofNat_add, BitVec.add_assoc]
    intro i k _ hik hk heq
    have hsum : BitVec.ofNat 64 (m + k) = BitVec.ofNat 64 i := by
      rw [BitVec.ofNat_add]
      rw [BitVec.add_assoc] at heq
      exact (BitVec.add_right_inj _).mp heq
    have := ofNat_inj_of_lt (by omega) (by omega) hsum
    omega
  · rw [hmem]
    simp
  · rw [hmem, State.setByte_mem, if_neg (ha _ (by omega)), hmem₂, hrdi₁, hmem₁,
      copy_outside fun j _ hj => ha j (by omega)]

/-- Zero has a branch of its own. -/
theorem ends_itoaZero (hplaced : Placed env (s₀.stack (slot p 0))) (hrsp₀ : s₀.regs .rsp = slot p 0)
    (hrsp : s.regs .rsp = slot p 4) (hr15 : s.regs .r15 = s₀.regs .r15) (hframe : Framed p s₀ s)
    (hr12 : s.regs .r12 = 0#64) :
    ∃ r, (code env).Ends (pos .itoa + 10) s (some (s₀.stack (slot p 0))) r ∧ Restored s₀ r ∧
      r.regs .rax = s.regs .r13 ∧ HoldsText r.mem (s.regs .r13) (decimal 0) ∧
      ∀ a, (∀ i < 21, a ≠ s.regs .r13 + BitVec.ofNat 64 i) → r.mem a = s.mem a := by
  obtain ⟨s₁, hgoes₁, hmem₁, hstack₁, hregs₁⟩ : ∃ s₁,
      (code env).Goes (pos .itoa + 10) s (pos .itoa + 14) s₁ ∧
      s₁.mem = ((s.setByte (s.regs .r13 + 0#64) 48).setByte (s.regs .r13 + 1#64) 0).mem ∧
      s₁.stack = s.stack ∧ s₁.regs = s.regs := by
    refine ⟨_, Goes.line [.test .r12 .r12, .jnz .itoaConvert, .movByte .r13 0 48,
      .movByte .r13 1 0] ⟨_, rfl⟩ (by simp [flows, code, Item.exec, hr12]; rfl) rfl, ?_⟩
    refine ⟨?_, rfl, rfl⟩
    funext b
    simp
  obtain ⟨r, hends, hrestored, hrax, hmem⟩ := ends_itoaLeave (k := pos .itoa + 14)
    (s := s₁) ⟨_, rfl⟩ hplaced hrsp₀ (by rw [hregs₁, hrsp]) (by rw [hregs₁, hr15])
    (hframe.of_stack (by rw [hregs₁]) fun k _ => by rw [hstack₁])
  refine ⟨r, hgoes₁ _ _ hends, hrestored, by rw [hrax, hregs₁], ⟨fun j hj => ?_, ?_⟩, fun a ha => ?_⟩
  · have hj0 : j = 0 := by
      rw [decimal_of_lt (by omega), List.length_singleton] at hj
      omega
    subst hj0
    simp [hmem, hmem₁, decimal_of_lt, digit]
  · rw [hmem, hmem₁, decimal_of_lt (by omega)]
    simp
  · have hfirst := ha 0 (by omega)
    have hsecond := ha 1 (by omega)
    rw [hmem, hmem₁, State.setByte_mem, if_neg hsecond, State.setByte_mem, if_neg hfirst]

/-- The other numbers. -/
theorem ends_itoaConvert {v : Nat} (hplaced : Placed env (s₀.stack (slot p 0)))
    (hrsp₀ : s₀.regs .rsp = slot p 0) (hrsp : s.regs .rsp = slot p 4)
    (hr15 : s.regs .r15 = s₀.regs .r15) (hframe : Framed p s₀ s) (hv : v < 2 ^ 64)
    (hr12 : s.regs .r12 = BitVec.ofNat 64 v) (hne : s.regs .r12 ≠ 0#64) :
    ∃ r, (code env).Ends (pos .itoa + 10) s (some (s₀.stack (slot p 0))) r ∧ Restored s₀ r ∧
      r.regs .rax = s.regs .r13 ∧ HoldsText r.mem (s.regs .r13) (decimal v) ∧
      ∀ a, (∀ i < 21, a ≠ s.regs .r13 + BitVec.ofNat 64 i) → r.mem a = s.mem a := by
  have hjump : (code env).Goes (pos .itoa + 10) s (pos .itoaConvert)
      { s with zero := false, below := false } := by
    refine Goes.lineJump [.test .r12 .r12, .jnz .itoaConvert] ⟨_, rfl⟩ ?_ (find_pos _)
    have hbeq : (s.regs .r12 == 0#64) = false := by simpa using hne
    simp [flows, code, Item.exec, hbeq]
  obtain ⟨s₁, hgoes₁, hr14₁, hmem₁, hstack₁, hregs₁⟩ : ∃ s₁,
      (code env).Goes (pos .itoaConvert) { s with zero := false, below := false } (pos .itoaLoop) s₁ ∧
      s₁.regs .r14 = s.regs .r13 + BitVec.ofNat 64 19 ∧
      (∀ a, a ≠ s.regs .r13 + BitVec.ofNat 64 19 → s₁.mem a = s.mem a) ∧ s₁.stack = s.stack ∧
      ∀ r, r ≠ .r14 → s₁.regs r = s.regs r := by
    refine ⟨_, Goes.line [.label .itoaConvert, .leaDisp .r14 .r13 19, .movByte .r14 0 0]
      ⟨_, rfl⟩ rfl rfl, ?_⟩
    simp +contextual
  have hlen : (decimal v).length ≤ 20 := length_decimal_le (by omega)
  obtain ⟨s₂, hgoes₂, hr14₂, hbytes₂, hmem₂, hstack₂, hregs₂⟩ := goes_itoaLoop env
    (s.regs .r13) v (20 - (decimal v).length) 19 s₁ hv (by omega) (by omega)
    (by rw [hregs₁ .r12 (by decide), hr12]) hr14₁
  obtain ⟨r, hends, hrestored, hrax, htext, hout⟩ := ends_itoaShift (s := s₂) hplaced hrsp₀
    (by simp [hregs₂, hregs₁, hrsp]) (by simp [hregs₂, hregs₁, hr15])
    (hframe.of_stack (by simp [hregs₂, hregs₁]) fun k _ => by rw [hstack₂, hstack₁])
    (by simp [hregs₂, hregs₁]) hr14₂ (by omega) hbytes₂
  refine ⟨r, ((hjump.trans hgoes₁).trans hgoes₂) _ _ hends, hrestored, hrax, htext, fun a ha => ?_⟩
  rw [hout a ha, hmem₂ a fun j _ hj => ha j (by omega), hmem₁ a (ha 19 (by omega))]

theorem slot_zero (p : Word) : slot p 0 = p := by simp [slot]

/-- A call of `__aether_itoa` gives the numeral of its argument. -/
theorem itoa_returns (halloc : Allocates env.alloc live 21)
    (hplaced : Placed env (s.stack (s.regs .rsp))) :
    ∃ s₁ r, (code env).Ends (pos .itoa) s (some (s.stack (s.regs .rsp))) r ∧ Restored s r ∧
      Wrote env s s₁ r 21 (decimal (s.regs .rdi).toNat) := by
  have hrsp : s.regs .rsp = slot (s.regs .rsp) 0 := (slot_zero _).symm
  rw [hrsp] at hplaced ⊢
  obtain ⟨s₁, s₂, hgoes, hrdi₁, hmem₁, hr13₂, hmem₂, hr12₂, hr15₂, hrsp₂, hframe⟩ :=
    goes_itoaEnter halloc hrsp
  obtain ⟨r, hends, hrestored, hrax, htext, hout⟩ : ∃ r,
      (code env).Ends (pos .itoa + 10) s₂ (some (s.stack (slot (s.regs .rsp) 0))) r ∧ Restored s r ∧
      r.regs .rax = s₂.regs .r13 ∧ HoldsText r.mem (s₂.regs .r13) (decimal (s.regs .rdi).toNat) ∧
      ∀ a, (∀ i < 21, a ≠ s₂.regs .r13 + BitVec.ofNat 64 i) → r.mem a = s₂.mem a := by
    by_cases hzero : s.regs .rdi = 0#64
    · rw [hzero]
      exact ends_itoaZero hplaced hrsp hrsp₂ hr15₂ hframe (hr12₂.trans hzero)
    · exact ends_itoaConvert hplaced hrsp hrsp₂ hr15₂ hframe (s.regs .rdi).isLt
        (by rw [hr12₂]; simp) (by rwa [hr12₂])
  refine ⟨s₁, r, hgoes _ _ hends, hrestored, hrdi₁, hmem₁, hrax.trans hr13₂, by rwa [hrax], ?_⟩
  intro a ha
  rw [hout a (by rwa [← hrax]), hmem₂]

end Itoa

/-! ## §7 A call of `__aether_concat` -/

/-- The `k`-th word above the return address. -/
def above (p : Word) (k : Nat) : Word := p + BitVec.ofNat 64 (8 * k)

theorem slot_one_add (p : Word) : slot p 1 + 24#64 = above p 2 ∧ slot p 1 + 16#64 = above p 1 := by
  simp only [slot, above]
  constructor <;> bv_omega

theorem above_ne_slot (p : Word) {j k : Nat} (hj : 0 < j) (hj' : j < 100) (hk : k < 100) :
    above p j ≠ slot p k := by
  simp only [slot, above]
  bv_omega

section Concat

variable {live : Word → Prop} {p : Word} {s₀ s : State}

/-- The frame, with the register and the argument that are read later. -/
structure ConcatFramed (p : Word) (s₀ s : State) : Prop extends Framed p s₀ s where
  savedR15 : s.stack (slot p 5) = s₀.regs .r15
  left : s.stack (above p 2) = s₀.stack (above p 2)

theorem ConcatFramed.of_stack {s' : State} (h : ConcatFramed p s₀ s)
    (hrbp : s'.regs .rbp = s.regs .rbp) (hstack : ∀ k ≤ 5, s'.stack (slot p k) = s.stack (slot p k))
    (hleft : s'.stack (above p 2) = s.stack (above p 2)) : ConcatFramed p s₀ s' where
  toFramed := h.toFramed.of_stack hrbp fun k hk => hstack k (by omega)
  savedR15 := (hstack 5 (by omega)).trans h.savedR15
  left := hleft.trans h.left

theorem ConcatFramed.of_call {s' : State} (h : ConcatFramed p s₀ s)
    (hrbp : s'.regs .rbp = s.regs .rbp) (hstack : ∀ a, a ≠ slot p 6 → s'.stack a = s.stack a) :
    ConcatFramed p s₀ s' := by
  refine h.of_stack hrbp (fun k hk => hstack _ ?_) (hstack _ ?_)
  · rw [ne_eq, slot_inj p (by omega) (by omega)]
    omega
  · exact above_ne_slot p (by omega) (by omega) (by omega)

variable (env) in
theorem goes_concatEnter (hrsp : s₀.regs .rsp = slot p 0) :
    ∃ s₁, (code env).Goes (pos .concat) s₀ (pos .concat + 9) s₁ ∧
      s₁.regs .r12 = s₀.stack (above p 2) ∧ s₁.regs .r13 = s₀.stack (above p 1) ∧
      s₁.mem = s₀.mem ∧ s₁.regs .rsp = slot p 5 ∧ ConcatFramed p s₀ s₁ := by
  have hne : ∀ {j k}, 0 < j → j < 100 → k < 100 → (above p j = slot p k) = False :=
    fun hj hj' hk => eq_false (above_ne_slot p hj hj' hk)
  refine ⟨_, Goes.line concatEnter ⟨_, rfl⟩ rfl rfl, ?_, ?_, ?_, ?_, ?_⟩
  · simp [hrsp, slot_one_add, hne]
  · simp [hrsp, slot_one_add, hne]
  · simp
  · simp [hrsp]
  · refine ⟨?_, ?_, ?_⟩
    · constructor <;> simp [hrsp, slot_inj]
    · simp [hrsp]
    · simp [hrsp, hne]

/-- The test for an empty string and the call of the copy loop. -/
theorem goes_copy {i n : Nat} {skip back : Label} (hn : n < 2 ^ 64)
    (hitems : [.test .rdx .rdx, .jz skip, .call .memcpy back, .label back] <+: (code env).items.drop i)
    (hback : pos back = i + 3) (hskip : pos skip = pos back + 1)
    (hfind : returnPoints.find? (fun l => env.place l == env.place back) = some back)
    (hrdx : s.regs .rdx = BitVec.ofNat 64 n) :
    ∃ s', (code env).Goes i s (pos skip) s' ∧
      s'.mem = copy (s.regs .rdi) (s.regs .rsi) 0 n s.mem ∧
      (∀ a, a ≠ s.regs .rsp - 8#64 → s'.stack a = s.stack a) ∧
      ∀ r, r ≠ .rax → r ≠ .rcx → s'.regs r = s.regs r := by
  by_cases hzero : n = 0
  · subst hzero
    refine ⟨{ s with zero := true, below := false }, Goes.lineJump [.test .rdx .rdx, .jz skip]
      (List.IsPrefix.trans ⟨_, rfl⟩ hitems) ?_ (find_pos _), rfl, fun _ _ => rfl, fun _ _ _ => rfl⟩
    simp [flows, code, Item.exec, hrdx]
  · have hbeq : (BitVec.ofNat 64 n == 0#64) = false := by
      rw [beq_eq_false_iff_ne]
      exact fun heq => hzero (ofNat_inj_of_lt hn (by omega) heq)
    have hcall : (code env).Goes i s (pos .memcpy)
        (State.push { s with zero := false, below := false } (env.place back)) := by
      refine Goes.lineJump [.test .rdx .rdx, .jz skip, .call .memcpy back]
        (List.IsPrefix.trans ⟨_, rfl⟩ hitems) ?_ (find_pos _)
      simp [flows, code, Item.exec, hrdx, hbeq]
    obtain ⟨s', hgoes, hmem, hstack, hregs⟩ := goes_memcpy
      (s := { s with zero := false, below := false }) back hn hrdx hfind
    have hlast : (code env).Goes (pos back) s' (pos skip) s' := by
      refine Goes.line [.label back] ?_ rfl hskip.symm
      rw [hback]
      exact isPrefix_drop hitems ⟨_, rfl⟩
    exact ⟨s', (hcall.trans hgoes).trans hlast, hmem, hstack, hregs⟩

/-- The end of the routine. -/
theorem ends_concatLeave (hplaced : Placed env (s₀.stack (slot p 0))) (hrsp₀ : s₀.regs .rsp = slot p 0)
    (hrsp : s.regs .rsp = slot p 5) (hframe : ConcatFramed p s₀ s) :
    ∃ r, (code env).Ends (pos .skipRight) s (some (s₀.stack (slot p 0))) r ∧ Restored s₀ r ∧
      r.regs .rax = s.regs .r12 ∧ r.mem = (s.setByte (s.regs .rdi + s.regs .r15) 0).mem := by
  have hout := find_outside hplaced
  obtain ⟨r, hflows, hrax, hmem, hrestored⟩ : ∃ r,
      flows (code env).exec (.label .skipRight :: concatLeave) s =
        .leave (s₀.stack (slot p 0)) r ∧
      r.regs .rax = s.regs .r12 ∧ r.mem = (s.setByte (s.regs .rdi + s.regs .r15) 0).mem ∧
      Restored s₀ r := by
    refine ⟨_, by
      simp [flows, concatLeave, code, Item.exec, hrsp, hframe.rbp, hframe.back, hout]
      rfl, by simp, by simp, by simp [hrsp₀], ?_⟩
    rintro reg (rfl | rfl | rfl | rfl | rfl)
    · simp [hframe.savedRbp]
    · simp [hframe.savedR12]
    · simp [hframe.savedR13]
    · simp [hframe.savedR14]
    · simp [hframe.savedR15]
  have hitems : .label .skipRight :: concatLeave <+: (code env).items.drop (pos .skipRight) := ⟨_, rfl⟩
  exact ⟨r, Ends.lineLeave hitems hflows, hrestored, hrax, hmem⟩

/-- The bytes of a text without the NUL. -/
def HoldsBytes (mem : Word → UInt8) (p : Word) (text : Bytes) : Prop :=
  ∀ i (h : i < text.length), mem (p + BitVec.ofNat 64 i) = text[i]

/-- A text is copied to a place that has no byte of it. -/
theorem copy_holds {mem : Word → UInt8} {src dst : Word} {text : Bytes} (hlt : text.length < 2 ^ 64)
    (hheld : HoldsBytes mem src text)
    (hapart : ∀ j < text.length, ∀ k < text.length, src + BitVec.ofNat 64 k ≠ dst + BitVec.ofNat 64 j) :
    HoldsBytes (copy dst src 0 text.length mem) dst text := by
  intro i hi
  rw [copy_inside (by omega) (fun j k _ hjk hk => hapart j (by omega) k (by omega)) (Nat.zero_le i)
    (by omega)]
  exact hheld i hi

theorem StringAt.holdsBytes {mem : Word → UInt8} {q : Word} {text : Bytes} (h : StringAt mem q text) :
    HoldsBytes mem q text := by
  by_cases hnull : q = 0#64
  · obtain rfl := h.null hnull
    exact fun i hi => absurd hi (by simp)
  · exact (h.held hnull).bytes

/-- Bytes in use are still there after the allocation. -/
theorem HoldsBytes.alloc {size : Nat} {q : Word} {text : Bytes} (h : HoldsBytes s.mem q text)
    (halloc : Allocates env.alloc live size) (hlive : ∀ i < text.length, live (q + BitVec.ofNat 64 i)) :
    HoldsBytes (env.alloc s).mem q text := fun i hi =>
  (halloc.mem s _ (hlive i hi)).trans (h i hi)

/-- The two lengths, the block and the first copy. -/
theorem goes_concatLeft {left right : Bytes} (hrsp₀ : s₀.regs .rsp = slot p 0)
    (hplaced : Placed env (s₀.stack (slot p 0)))
    (hleft : StringAt s₀.mem (s₀.stack (above p 2)) left)
    (hright : StringAt s₀.mem (s₀.stack (above p 1)) right)
    (hfits : left.length + right.length + 1 < 2 ^ 64)
    (halloc : Allocates env.alloc live (left.length + right.length + 1)) :
    ∃ s₁ s₂, (code env).Goes (pos .concat) s₀ (pos .skipLeft) s₂ ∧
      s₁.regs .rdi = BitVec.ofNat 64 (left.length + right.length + 1) ∧ s₁.mem = s₀.mem ∧
      s₂.regs .r12 = (env.alloc s₁).regs .rax ∧ s₂.regs .rdi = (env.alloc s₁).regs .rax ∧
      s₂.regs .r13 = s₀.stack (above p 1) ∧ s₂.regs .r14 = BitVec.ofNat 64 left.length ∧
      s₂.regs .r15 = BitVec.ofNat 64 right.length ∧ s₂.regs .rsp = slot p 5 ∧
      s₂.mem = copy ((env.alloc s₁).regs .rax) (s₀.stack (above p 2)) 0 left.length
        (env.alloc s₁).mem ∧
      ConcatFramed p s₀ s₂ := by
  obtain ⟨s₁, hgoes₁, hr12₁, hr13₁, hmem₁, hrsp₁, hframe₁⟩ := goes_concatEnter env hrsp₀
  -- the lengths
  have hitems₁ : strlenItems .r12 .r14 .leftNull .strlenLeft .leftStrlenDone .rightStart <+:
      (code env).items.drop (pos .concat + 9) := ⟨_, rfl⟩
  obtain ⟨s₂, hgoes₂, hr14₂, hmem₂, hstack₂, hregs₂⟩ := goes_strlen hitems₁ rfl rfl rfl rfl
    (by decide) (by rw [hmem₁, hr12₁]; exact hleft)
  have hlabel : (code env).Goes (pos .rightStart) s₂ (pos .rightStart + 1) s₂ :=
    Goes.line [.label .rightStart] ⟨_, rfl⟩ rfl rfl
  have hitems₂ : strlenItems .r13 .r15 .rightNull .strlenRight .rightStrlenDone .bothDone <+:
      (code env).items.drop (pos .rightStart + 1) := ⟨_, rfl⟩
  have hright₂ : StringAt s₂.mem (s₂.regs .r13) right := by
    rw [hmem₂, hmem₁, hregs₂ .r13 (by decide) (by decide), hr13₁]
    exact hright
  obtain ⟨s₃, hgoes₃, hr15₃, hmem₃, hstack₃, hregs₃⟩ := goes_strlen hitems₂ rfl rfl rfl rfl
    (by decide) hright₂
  have hkept₃ : ∀ r, r ≠ .rcx → r ≠ .r14 → r ≠ .r15 → s₃.regs r = s₁.regs r :=
    fun r hrcx hr14 hr15 => (hregs₃ r hrcx hr15).trans (hregs₂ r hrcx hr14)
  have hr14₃ : s₃.regs .r14 = BitVec.ofNat 64 left.length := by simp [hregs₃, hr14₂]
  have hframe₃ : ConcatFramed p s₀ s₃ :=
    hframe₁.of_stack (by simp [hkept₃]) (fun k _ => by rw [hstack₃, hstack₂])
      (by rw [hstack₃, hstack₂])
  -- the block
  obtain ⟨s₄, hgoes₄, hrdi₄, hmem₄, hstack₄, hregs₄⟩ : ∃ s₄,
      (code env).Goes (pos .bothDone) s₃ (pos .bothDone + 2) s₄ ∧
      s₄.regs .rdi = BitVec.ofNat 64 (left.length + right.length + 1) ∧ s₄.mem = s₃.mem ∧
      s₄.stack = s₃.stack ∧ ∀ r, r ≠ .rdi → s₄.regs r = s₃.regs r := by
    refine ⟨_, Goes.line [.label .bothDone, .lea .rdi .r14 .r15 1] ⟨_, rfl⟩ rfl rfl, ?_⟩
    simp +contextual [hr14₃, hr15₃, BitVec.ofNat_add]
  have hrsp₄ : s₄.regs .rsp = slot p 5 := by simp [hregs₄, hkept₃, hrsp₁]
  have hframe₄ : ConcatFramed p s₀ s₄ :=
    hframe₃.of_stack (by simp [hregs₄]) (fun k _ => by rw [hstack₄]) (by rw [hstack₄])
  have hslots := halloc.keeps_slots hrsp₄ (by omega)
  have habove : (env.alloc s₄).stack (above p 2) = s₄.stack (above p 2) := by
    apply halloc.stack
    rw [hrsp₄]
    simp only [above, slot]
    have hdiff : p + BitVec.ofNat 64 (8 * 2) - (p - BitVec.ofNat 64 (8 * 5)) = 56#64 := by bv_omega
    rw [hdiff]
    decide
  have hframe₅ : ConcatFramed p s₀ (env.alloc s₄) :=
    hframe₄.of_stack (halloc.regs s₄ .rbp (by simp)) hslots habove
  obtain ⟨s₅, hgoes₅, hr12₅, hrsi₅, hrdi₅, hrdx₅, hmem₅, hstack₅, hregs₅⟩ : ∃ s₅,
      (code env).Goes (pos .bothDone + 2) s₄ (pos .bothDone + 7) s₅ ∧
      s₅.regs .r12 = (env.alloc s₄).regs .rax ∧ s₅.regs .rsi = s₀.stack (above p 2) ∧
      s₅.regs .rdi = (env.alloc s₄).regs .rax ∧ s₅.regs .rdx = (env.alloc s₄).regs .r14 ∧
      s₅.mem = (env.alloc s₄).mem ∧ s₅.stack = (env.alloc s₄).stack ∧
      ∀ r, r ≠ .r12 → r ≠ .rsi → r ≠ .rdi → r ≠ .rdx → s₅.regs r = (env.alloc s₄).regs r := by
    refine ⟨_, Goes.line [.callAlloc, .mov .r12 .rax, .loadArg .rsi 24, .mov .rdi .r12,
      .mov .rdx .r14] ⟨_, rfl⟩ rfl rfl, ?_⟩
    simp +contextual [hframe₅.rbp, slot_one_add, hframe₅.left]
  -- the copy
  have hr14₅ : (env.alloc s₄).regs .r14 = BitVec.ofNat 64 left.length := by
    rw [halloc.regs s₄ .r14 (by simp), hregs₄ .r14 (by decide), hr14₃]
  have hitems₆ : [.test .rdx .rdx, .jz .skipLeft, .call .memcpy .leftCopied, .label .leftCopied] <+:
      (code env).items.drop (pos .bothDone + 7) := ⟨_, rfl⟩
  obtain ⟨s₆, hgoes₆, hmem₆, hstack₆, hregs₆⟩ := goes_copy (s := s₅) (by omega) hitems₆ rfl rfl
    (find_back hplaced (by decide)) (hrdx₅.trans hr14₅)
  have hrsp₅ : s₅.regs .rsp = slot p 5 := by simp [hregs₅, halloc.regs s₄ .rsp, hrsp₄]
  refine ⟨s₄, s₆, (((((hgoes₁.trans hgoes₂).trans hlabel).trans hgoes₃).trans hgoes₄).trans
    hgoes₅).trans hgoes₆, hrdi₄, ?_, ?_, ?_, ?_, ?_, ?_, ?_, ?_, ?_⟩
  · rw [hmem₄, hmem₃, hmem₂, hmem₁]
  · simp [hregs₆, hr12₅]
  · simp [hregs₆, hrdi₅]
  · simp [hregs₆, hregs₅, halloc.regs s₄ .r13, hregs₄, hkept₃, hr13₁]
  · simp [hregs₆, hregs₅, hr14₅]
  · simp [hregs₆, hregs₅, halloc.regs s₄ .r15, hregs₄, hr15₃]
  · simp [hregs₆, hrsp₅]
  · rw [hmem₆, hrdi₅, hrsi₅, hmem₅]
  · refine hframe₅.of_call (by simp [hregs₆, hregs₅]) fun a ha => ?_
    rw [hstack₆ a (by rwa [hrsp₅, slot_sub]), hstack₅]

/-- The second copy and the end. -/
theorem ends_concatRight {q : Word} {n : Nat} {right : Bytes} (hrsp₀ : s₀.regs .rsp = slot p 0)
    (hplaced : Placed env (s₀.stack (slot p 0))) (hn : right.length < 2 ^ 64)
    (hr12 : s.regs .r12 = q) (hrdi : s.regs .rdi = q) (hr14 : s.regs .r14 = BitVec.ofNat 64 n)
    (hr15 : s.regs .r15 = BitVec.ofNat 64 right.length) (hrsp : s.regs .rsp = slot p 5)
    (hframe : ConcatFramed p s₀ s) :
    ∃ r, (code env).Ends (pos .skipLeft) s (some (s₀.stack (slot p 0))) r ∧ Restored s₀ r ∧
      r.regs .rax = q ∧ ∀ a, r.mem a =
        if a = q + BitVec.ofNat 64 (n + right.length) then 0
        else copy (q + BitVec.ofNat 64 n) (s.regs .r13) 0 right.length s.mem a := by
  obtain ⟨s₁, hgoes₁, hrdi₁, hrsi₁, hrdx₁, hmem₁, hstack₁, hregs₁⟩ : ∃ s₁,
      (code env).Goes (pos .skipLeft) s (pos .skipLeft + 4) s₁ ∧
      s₁.regs .rdi = q + BitVec.ofNat 64 n ∧ s₁.regs .rsi = s.regs .r13 ∧
      s₁.regs .rdx = BitVec.ofNat 64 right.length ∧ s₁.mem = s.mem ∧ s₁.stack = s.stack ∧
      ∀ r, r ≠ .rdi → r ≠ .rsi → r ≠ .rdx → s₁.regs r = s.regs r := by
    refine ⟨_, Goes.line [.label .skipLeft, .add .rdi .r14, .mov .rsi .r13, .mov .rdx .r15] ⟨_, rfl⟩
      rfl rfl, ?_⟩
    simp +contextual [hrdi, hr14, hr15]
  have hitems : [.test .rdx .rdx, .jz .skipRight, .call .memcpy .rightCopied, .label .rightCopied] <+:
      (code env).items.drop (pos .skipLeft + 4) := ⟨_, rfl⟩
  obtain ⟨s₂, hgoes₂, hmem₂, hstack₂, hregs₂⟩ := goes_copy hn hitems rfl rfl
    (find_back hplaced (by decide)) hrdx₁
  have hrsp₁ : s₁.regs .rsp = slot p 5 := by simp [hregs₁, hrsp]
  have hframe₂ : ConcatFramed p s₀ s₂ := by
    refine hframe.of_call (by simp [hregs₂, hregs₁]) fun a ha => ?_
    rw [hstack₂ a (by rwa [hrsp₁, slot_sub]), hstack₁]
  obtain ⟨r, hends, hrestored, hrax, hmem⟩ := ends_concatLeave hplaced hrsp₀
    (by simp [hregs₂, hregs₁, hrsp]) hframe₂
  refine ⟨r, (hgoes₁.trans hgoes₂) _ _ hends, hrestored, by simp [hrax, hregs₂, hregs₁, hr12],
    fun a => ?_⟩
  have hplace : s₂.regs .rdi + s₂.regs .r15 = q + BitVec.ofNat 64 (n + right.length) := by
    simp [hregs₂, hregs₁, hrdi₁, hr15, BitVec.ofNat_add, BitVec.add_assoc]
  rw [hmem, State.setByte_mem, hplace, hmem₂, hrdi₁, hrsi₁, hmem₁]

/-- A call of `__aether_concat` gives the bytes of the two strings. -/
theorem concat_returns {left right : Bytes}
    (hleft : StringAt s.mem (s.stack (s.regs .rsp + 16)) left)
    (hright : StringAt s.mem (s.stack (s.regs .rsp + 8)) right)
    (hliveLeft : ∀ i < left.length, live (s.stack (s.regs .rsp + 16) + BitVec.ofNat 64 i))
    (hliveRight : ∀ i < right.length, live (s.stack (s.regs .rsp + 8) + BitVec.ofNat 64 i))
    (hfits : left.length + right.length + 1 < 2 ^ 64)
    (halloc : Allocates env.alloc live (left.length + right.length + 1))
    (hplaced : Placed env (s.stack (s.regs .rsp))) :
    ∃ s₁ r, (code env).Ends (pos .concat) s (some (s.stack (s.regs .rsp))) r ∧ Restored s r ∧
      Wrote env s s₁ r (left.length + right.length + 1) (left ++ right) := by
  have hrsp : s.regs .rsp = slot (s.regs .rsp) 0 := (slot_zero _).symm
  have habove₂ : s.regs .rsp + 16 = above (s.regs .rsp) 2 := rfl
  have habove₁ : s.regs .rsp + 8 = above (s.regs .rsp) 1 := rfl
  rw [habove₂] at hleft hliveLeft
  rw [habove₁] at hright hliveRight
  rw [hrsp] at hplaced
  obtain ⟨s₁, s₂, hgoes, hrdi₁, hmem₁, hr12₂, hrdi₂, hr13₂, hr14₂, hr15₂, hrsp₂, hmem₂, hframe₂⟩ :=
    goes_concatLeft hrsp hplaced hleft hright hfits halloc
  obtain ⟨r, hends, hrestored, hrax, hmem⟩ := ends_concatRight hrsp hplaced (by omega)
    hr12₂ hrdi₂ hr14₂ hr15₂ hrsp₂ hframe₂
  rw [hr13₂] at hmem
  generalize hq : (env.alloc s₁).regs .rax = q at *
  have hfresh : ∀ i < left.length + right.length + 1, ¬ live (q + BitVec.ofNat 64 i) := by
    rw [← hq]
    exact halloc.fresh s₁ hrdi₁
  -- the first string in the block
  have hleftAlloc : HoldsBytes (env.alloc s₁).mem (s.stack (above (s.regs .rsp) 2)) left :=
    HoldsBytes.alloc (by rw [hmem₁]; exact hleft.holdsBytes) halloc hliveLeft
  have hleftCopied : HoldsBytes s₂.mem q left := by
    rw [hmem₂]
    refine copy_holds (by omega) hleftAlloc fun j hj k hk heq => hfresh j (by omega) ?_
    rw [← heq]
    exact hliveLeft k hk
  -- the second one behind it
  have hrightKept : HoldsBytes s₂.mem (s.stack (above (s.regs .rsp) 1)) right := by
    intro i hi
    rw [hmem₂, copy_outside]
    · exact HoldsBytes.alloc (by rw [hmem₁]; exact hright.holdsBytes) halloc hliveRight i hi
    · intro j _ hj heq
      refine hfresh j (by omega) ?_
      rw [← heq]
      exact hliveRight i hi
  have hplace : ∀ j, q + BitVec.ofNat 64 left.length + BitVec.ofNat 64 j =
      q + BitVec.ofNat 64 (left.length + j) := fun j => by
    rw [BitVec.ofNat_add, BitVec.add_assoc]
  have hrightCopied : HoldsBytes (copy (q + BitVec.ofNat 64 left.length)
      (s.stack (above (s.regs .rsp) 1)) 0 right.length s₂.mem)
      (q + BitVec.ofNat 64 left.length) right := by
    refine copy_holds (by omega) hrightKept fun j hj k hk heq =>
      hfresh (left.length + j) (by omega) ?_
    rw [← hplace, ← heq]
    exact hliveRight k hk
  refine ⟨s₁, r, ?_, hrestored, hrdi₁, hmem₁, hrax.trans hq.symm, ⟨fun i hi => ?_, ?_⟩,
    fun a ha => ?_⟩
  · rw [hrsp]
    exact hgoes _ _ hends
  · rw [List.length_append] at hi
    rw [hrax, hmem, if_neg (add_ofNat_ne q (by omega) (by omega) (by omega))]
    by_cases hlt : i < left.length
    · rw [copy_outside, hleftCopied i hlt, List.getElem_append_left hlt]
      intro j _ hj
      rw [hplace]
      exact add_ofNat_ne q (by omega) (by omega) (by omega)
    · have hbyte := hrightCopied (i - left.length) (by omega)
      rw [hplace, show left.length + (i - left.length) = i by omega] at hbyte
      rw [hbyte, List.getElem_append_right (by omega)]
  · rw [hrax, hmem, List.length_append, if_pos rfl]
  · rw [hrax] at ha
    rw [hmem, if_neg (ha _ (by omega)), copy_outside, hmem₂, copy_outside]
    · exact fun j _ hj => ha j (by omega)
    · intro j _ hj
      rw [hplace]
      exact ha _ (by omega)

end Concat

end Code

/-! ## §8 The C runtime -/

theorem digit_eq (d : Nat) : 48 + UInt8.ofNat d = digit d := by
  rw [digit, UInt8.ofNat_add]
  rfl

theorem fillTemp_eq {v : Nat} (hv : v ≠ 0) (temp : Bytes)
    (h : temp.length + (decimal v).length ≤ bufSize) :
    fillTemp v temp = some (temp ++ (decimal v).reverse) := by
  induction v using Nat.strongRecOn generalizing temp with
  | ind v ih =>
    have hpos : 0 < (decimal v).length := List.length_pos_of_ne_nil (decimal_ne_nil v)
    rw [fillTemp, if_neg hv, if_pos (by omega), digit_eq]
    by_cases hlast : v < 10
    · rw [Nat.div_eq_of_lt hlast, fillTemp, if_pos rfl, decimal_of_lt hlast, Nat.mod_eq_of_lt hlast]
      rfl
    · have hdecimal := decimal_of_le (Nat.le_of_not_lt hlast)
      rw [hdecimal, List.length_append, List.length_singleton] at h
      rw [ih (v / 10) (by omega) (by omega) _ (by rw [List.length_append, List.length_singleton]; omega),
        hdecimal, List.reverse_append, List.append_assoc]
      rfl

theorem drainTemp_eq (cs buf : Bytes) (h : buf.length + cs.length ≤ bufSize) :
    drainTemp cs buf = some (buf ++ cs) := by
  induction cs generalizing buf with
  | nil => simp [drainTemp]
  | cons c cs ih =>
    rw [List.length_cons] at h
    rw [drainTemp, if_pos (by omega), ih _ (by rw [List.length_append, List.length_singleton]; omega),
      List.append_assoc]
    rfl

/-- No digit is written behind an array, and the text is the numeral. -/
theorem cItoa_eq (value : UInt64) :
    cItoa value = some { len := UInt64.ofNat (decimal value.toNat).length,
                         data := decimal value.toNat ++ [0] } := by
  by_cases hzero : value = 0
  · subst hzero
    simp [cItoa, decimal_of_lt, digit]
  · have hne : value.toNat ≠ 0 := fun h => hzero (UInt64.toNat_inj.mp h)
    have hlt := value.toNat_lt
    have hlen : (decimal value.toNat).length ≤ 20 := length_decimal_le (by omega)
    have hfill := fillTemp_eq hne [] (by simp only [List.length_nil, bufSize]; omega)
    have hdrain := drainTemp_eq (decimal value.toNat) [] (by
      simp only [List.length_nil, bufSize]
      omega)
    simp only [List.nil_append] at hfill hdrain
    simp [cItoa, hzero, hfill, hdrain]

theorem cConcat_eq {left right : Bytes} (hfits : left.length + right.length + 1 < 2 ^ 64)
    (more more' : Bytes) :
    cConcat ⟨UInt64.ofNat left.length, left ++ more⟩ ⟨UInt64.ofNat right.length, right ++ more'⟩ =
      ⟨UInt64.ofNat (left ++ right).length, left ++ right ++ [0]⟩ := by
  have hleft : (UInt64.ofNat left.length).toNat = left.length :=
    UInt64.toNat_ofNat_of_lt' (by simp only [UInt64.size]; omega)
  have hright : (UInt64.ofNat right.length).toNat = right.length :=
    UInt64.toNat_ofNat_of_lt' (by simp only [UInt64.size]; omega)
  simp [cConcat, hleft, hright, UInt64.ofNat_add]

/-! ## §9 The two runtimes -/

/-- The routines of the NASM generator return, put the saved registers back
and leave in their block, and there alone, the text that the C functions
give: the numeral of a number, the bytes of two strings. -/
theorem string_runtimes_agree (env : Env) :
    (∀ (s : State) (live : Word → Prop), Allocates env.alloc live 21 →
      Placed env (s.stack (s.regs .rsp)) →
      ∃ s₁ r, (code env).Ends (pos .itoa) s (some (s.stack (s.regs .rsp))) r ∧ Restored s r ∧
        Wrote env s s₁ r 21 (decimal (s.regs .rdi).toNat) ∧
        cItoa ⟨s.regs .rdi⟩ = some { len := UInt64.ofNat (decimal (s.regs .rdi).toNat).length,
                                     data := decimal (s.regs .rdi).toNat ++ [0] }) ∧
    (∀ (s : State) (live : Word → Prop) (left right more more' : Bytes),
      StringAt s.mem (s.stack (s.regs .rsp + 16)) left →
      StringAt s.mem (s.stack (s.regs .rsp + 8)) right →
      (∀ i < left.length, live (s.stack (s.regs .rsp + 16) + BitVec.ofNat 64 i)) →
      (∀ i < right.length, live (s.stack (s.regs .rsp + 8) + BitVec.ofNat 64 i)) →
      left.length + right.length + 1 < 2 ^ 64 →
      Allocates env.alloc live (left.length + right.length + 1) →
      Placed env (s.stack (s.regs .rsp)) →
      ∃ s₁ r, (code env).Ends (pos .concat) s (some (s.stack (s.regs .rsp))) r ∧ Restored s r ∧
        Wrote env s s₁ r (left.length + right.length + 1) (left ++ right) ∧
        cConcat ⟨UInt64.ofNat left.length, left ++ more⟩ ⟨UInt64.ofNat right.length, right ++ more'⟩ =
          ⟨UInt64.ofNat (left ++ right).length, left ++ right ++ [0]⟩) := by
  constructor
  · intro s live halloc hplaced
    obtain ⟨s₁, r, hends, hrestored, hwrote⟩ := itoa_returns halloc hplaced
    exact ⟨s₁, r, hends, hrestored, hwrote, cItoa_eq ⟨s.regs .rdi⟩⟩
  · intro s live left right more more' hleft hright hliveLeft hliveRight hfits halloc hplaced
    obtain ⟨s₁, r, hends, hrestored, hwrote⟩ :=
      concat_returns hleft hright hliveLeft hliveRight hfits halloc hplaced
    exact ⟨s₁, r, hends, hrestored, hwrote, cConcat_eq hfits more more'⟩

/-- Every block is at 1000. -/
def fixedEnv : Env where
  place l := BitVec.ofNat 64 (7000 + l.ctorIdx)
  alloc s := s.set .rax 1000

/-- A call for 42, and for `a` at 100 and `b` at 200. -/
def callState : State where
  regs r := if r = .rsp then 5000 else if r = .rdi then 42 else 0
  mem a := if a = 100 then 97 else if a = 200 then 98 else 0
  stack a := if a = 5016 then 100 else if a = 5008 then 200 else 1
  zero := false
  below := false

def twoBytes (a : Word) : Prop := a = 100 ∨ a = 200

theorem fixedEnv_allocates {size : Nat} (h : size ≤ 21) : Allocates fixedEnv.alloc twoBytes size where
  regs s r hr := by
    rcases hr with rfl | rfl | rfl | rfl | rfl | rfl <;> rfl
  stack _ _ _ := rfl
  mem _ _ _ := rfl
  fresh s _ i hi := by
    simp only [twoBytes, fixedEnv, State.set_regs, if_true]
    bv_omega

theorem fixedEnv_placed : Placed fixedEnv 1 where
  apart := by decide
  outside := by decide

theorem letterAt {p : Word} {c : UInt8} (hp : p ≠ 0#64) (hc : c ≠ 0) (hmem : callState.mem p = c)
    (hnul : callState.mem (p + 1#64) = 0) : StringAt callState.mem p [c] where
  null h := absurd h hp
  held _ := by
    refine ⟨fun i hi => ?_, hnul⟩
    obtain rfl : i = 0 := by simpa using hi
    simpa using hmem
  noNul d hd := by
    obtain rfl : d = c := by simpa using hd
    exact hc

theorem string_runtimes_agree_fixed :
    (∃ s₁ r, (code fixedEnv).Ends (pos .itoa) callState (some 1) r ∧ Restored callState r ∧
      Wrote fixedEnv callState s₁ r 21 (decimal 42)) ∧
    ∃ s₁ r, (code fixedEnv).Ends (pos .concat) callState (some 1) r ∧ Restored callState r ∧
      Wrote fixedEnv callState s₁ r 3 [97, 98] := by
  obtain ⟨hitoa, hconcat⟩ := string_runtimes_agree fixedEnv
  obtain ⟨s₁, r, hends, hrestored, hwrote, -⟩ :=
    hitoa callState twoBytes (fixedEnv_allocates (by omega)) fixedEnv_placed
  obtain ⟨s₂, r₂, hends₂, hrestored₂, hwrote₂, -⟩ :=
    hconcat callState twoBytes [97] [98] [] [] (letterAt (by decide) (by decide) rfl rfl)
      (letterAt (by decide) (by decide) rfl rfl)
      (fun i hi => by
        obtain rfl : i = 0 := by simpa using hi
        exact .inl rfl)
      (fun i hi => by
        obtain rfl : i = 0 := by simpa using hi
        exact .inr rfl)
      (by decide) (fixedEnv_allocates (by decide)) fixedEnv_placed
  exact ⟨⟨s₁, r, hends, hrestored, hwrote⟩, ⟨s₂, r₂, hends₂, hrestored₂, hwrote₂⟩⟩

end Aether.Codegen.StringRuntime
