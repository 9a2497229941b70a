/-
Aether.Codegen.AllocTheorems — which blocks the emitted allocator returns.

On the hosted targets every call makes a mapping of its own, and the
arguments of the system call overwrite the size that the test for room
reads. So each block starts eight bytes into a fresh mapping and is sound as
long as it fits there (`Ends.hosted`). On the binary target the system call
stands behind the set-up of the buffer too, with the address of the buffer
for its number, and what it answers becomes the block (`Ends.binary`).
-/
import Aether.Codegen.Alloc
import Mathlib.Data.Fintype.Card

namespace Aether.Codegen.Alloc

open Aether.Lib Aether.Asm Listing

/-! ## §1 The pieces of the code -/

section Pieces

variable {env : Env} {s s₀ : State}

/-- The call has its frame, with the return address above it. -/
structure Entered (s₀ s : State) : Prop where
  calls : s.calls = s₀.calls
  cells : s.cells = s₀.cells
  rdi : s.regs .rdi = (s₀.regs .rdi + 15) &&& ~~~15
  rsp : s.regs .rsp = s₀.regs .rsp - 8
  rbp : s.regs .rbp = s₀.regs .rsp - 8
  back : s.stack (s₀.regs .rsp) = s₀.stack (s₀.regs .rsp)

theorem flows_enter (h : s.cells .regionCur = 0) :
    ∃ s', flows (fun item s => item.exec env s) enter s = .goto .heap s' ∧ Entered s s' := by
  have hne : s.regs .rsp ≠ s.regs .rsp - 8#64 := by bv_omega
  refine ⟨_, by simp [flows, enter, Item.exec, State.set, h]; rfl, ?_⟩
  constructor <;> simp [hne]

/-- From the heap to the test for room, with the call for `mmap`. -/
def mmapStretch (flags number : Word) : List Item :=
  [.label .heap, .push .rdi, .label .init] ++ mmapArgs flags number ++
    [.syscall, .store .heapStart .rax] ++ takeBlock ++ attempt

/-- What a returned block is at, with the frame still there. -/
structure Found (s₀ s : State) (block : Word) : Prop where
  calls : s.calls = s₀.calls + 1
  cur : s.cells .heapCur = block
  region : s.cells .regionCur = s₀.cells .regionCur
  rbp : s.regs .rbp = s₀.regs .rsp - 8
  back : s.stack (s₀.regs .rsp) = s₀.stack (s₀.regs .rsp)

/-- There is room for the zero bytes that are left of the size. -/
theorem flows_mmapStretch (h : Entered s₀ s) (flags number : Word)
    (hroom : (env.answer s₀.calls).toNat + 65536 < 2 ^ 64) :
    ∃ s', flows (fun item s => item.exec env s) (mmapStretch flags number) s = .goto .ok s' ∧
      Found s₀ s' (env.answer s₀.calls + 8) := by
  have hle : env.answer s₀.calls + 8#64 ≤ env.answer s₀.calls + 65536#64 := by bv_omega
  have hne : s₀.regs .rsp ≠ s₀.regs .rsp - 8#64 - 8#64 := by bv_omega
  refine ⟨_, by simp [flows, mmapStretch, mmapArgs, takeBlock, attempt, Item.exec, State.set,
    State.setCell, h.calls, hle]; rfl, ?_⟩
  constructor <;> simp [h.cells, h.rbp, h.rsp, h.back, hne]

/-- From the heap to the test for room, where no block was set up. -/
def bufferStretch : List Item :=
  [.label .heap, .push .rdi, .label .init] ++ beforeCall .binary ++
    [.syscall, .store .heapStart .rax] ++ takeBlock ++ attempt

/-- What the system call answers takes the place of the buffer. -/
theorem flows_bufferStretch (h : Entered s₀ s) (hstart : s₀.cells .heapStart = 0)
    (hend : env.answer s₀.calls + 65536 = -1) :
    ∃ s', flows (fun item s => item.exec env s) bufferStretch s = .goto .ok s' ∧
      Found s₀ s' (env.answer s₀.calls + 8) := by
  have hle : ∀ v : Word, v ≤ env.answer s₀.calls + 65536#64 := by
    intro v
    bv_omega
  have hne : s₀.regs .rsp ≠ s₀.regs .rsp - 8#64 - 8#64 := by bv_omega
  refine ⟨_, by simp [flows, bufferStretch, beforeCall, takeBlock, attempt, Item.exec, State.set,
    State.setCell, h.calls, h.cells, hstart, hle]; rfl, ?_⟩
  constructor <;> simp [h.rbp, h.rsp, h.back, hne]

theorem flows_finish {block : Word} (h : Found s₀ s block) :
    ∃ s', flows (fun item s => item.exec env s) finish s = .leave (s₀.stack (s₀.regs .rsp)) s' ∧
      s'.calls = s₀.calls + 1 ∧ s'.cells .regionCur = s₀.cells .regionCur ∧ s'.regs .rax = block := by
  refine ⟨_, by simp [flows, finish, Item.exec, State.set, State.setCell, h.rbp, h.back,
    BitVec.sub_add_cancel]; rfl, ?_⟩
  simp [h.calls, h.cur, h.region]

end Pieces

/-! ## §2 One call -/

section Call

variable {env : Env} {s : State}

/-- A call whose three stretches run one after the other. -/
theorem ends_of_stretches {target : AllocTarget} (stretch between : List Item) {block : Word}
    (hitems : aetherAlloc target = enter ++ fromRegion ++ stretch ++ between ++ finish)
    (hheap : (code target env).find .heap = some (enter ++ fromRegion).length)
    (hok : (code target env).find .ok = some (enter ++ fromRegion ++ stretch ++ between).length)
    (hregion : s.cells .regionCur = 0)
    (hstretch : ∀ s₁, Entered s s₁ →
      ∃ s₂, flows (fun item s => item.exec env s) stretch s₁ = .goto .ok s₂ ∧ Found s s₂ block) :
    ∃ s', (code target env).Ends 0 s (some (s.stack (s.regs .rsp))) s' ∧
      s'.calls = s.calls + 1 ∧ s'.cells .regionCur = s.cells .regionCur ∧ s'.regs .rax = block := by
  obtain ⟨s₁, henter, hentered⟩ := flows_enter hregion
  obtain ⟨s₂, hflows, hfound⟩ := hstretch s₁ hentered
  obtain ⟨s₃, hfinish, hcalls, hkeep, hrax⟩ := flows_finish hfound
  have hlast : (code target env).Ends (enter ++ fromRegion ++ stretch ++ between).length s₂
      (some (s.stack (s.regs .rsp))) s₃ :=
    .stretch_leave (hitems.trans (List.append_nil _).symm) hfinish
  have hmiddle : (code target env).Ends (enter ++ fromRegion).length s₁
      (some (s.stack (s.regs .rsp))) s₃ :=
    .stretch_goto (hitems.trans (List.append_assoc _ _ _)) hflows hok hlast
  have hparts : aetherAlloc target =
      [] ++ enter ++ (fromRegion ++ (stretch ++ (between ++ finish))) := by
    rw [hitems]
    simp only [List.append_assoc, List.nil_append]
  have hfirst : (code target env).Ends ([] : List Item).length s
      (some (s.stack (s.regs .rsp))) s₃ :=
    .stretch_goto hparts henter hheap hmiddle
  exact ⟨s₃, hfirst, hcalls, hkeep, hrax⟩

/-- On a hosted target a block is eight bytes into the next mapping. -/
theorem ends_hosted {target : AllocTarget} (hhosted : target ≠ .binary)
    (hregion : s.cells .regionCur = 0) (hroom : (env.answer s.calls).toNat + 65536 < 2 ^ 64) :
    ∃ s', (code target env).Ends 0 s (some (s.stack (s.regs .rsp))) s' ∧
      s'.calls = s.calls + 1 ∧ s'.cells .regionCur = s.cells .regionCur ∧
      s'.regs .rax = env.answer s.calls + 8 := by
  cases target with
  | macho64 =>
    exact ends_of_stretches (mmapStretch 0x1002 0x20000C5)
      (refill .macho64 ++ [.syscall] ++ takeBlock) rfl rfl rfl hregion
      fun s₁ h => flows_mmapStretch h _ _ hroom
  | elf64Host =>
    exact ends_of_stretches (mmapStretch 0x22 9)
      (refill .elf64Host ++ [.syscall] ++ takeBlock) rfl rfl rfl hregion
      fun s₁ h => flows_mmapStretch h _ _ hroom
  | lib =>
    exact ends_of_stretches (mmapStretch 0x22 9)
      (refill .lib ++ [.syscall] ++ takeBlock) rfl rfl rfl hregion
      fun s₁ h => flows_mmapStretch h _ _ hroom
  | binary => exact absurd rfl hhosted

/-- On the binary target the first block is where the system call says. -/
theorem ends_binary (hregion : s.cells .regionCur = 0) (hstart : s.cells .heapStart = 0)
    (hend : env.answer s.calls + 65536 = -1) :
    ∃ s', (code .binary env).Ends 0 s (some (s.stack (s.regs .rsp))) s' ∧
      s'.calls = s.calls + 1 ∧ s'.cells .regionCur = s.cells .regionCur ∧
      s'.regs .rax = env.answer s.calls + 8 :=
  ends_of_stretches bufferStretch (refill .binary ++ [.syscall] ++ takeBlock) rfl rfl rfl hregion
    fun _ h => flows_bufferStretch h hstart hend

end Call

/-! ## §3 Sequences of calls -/

section Sequences

variable {env : Env} {target : AllocTarget}

def mapping (env : Env) (i : Nat) : Region := ⟨(env.answer i).toNat, 65536⟩

/-- The kernel gives mappings of 64 KiB, each apart from those before. -/
def Fresh (target : AllocTarget) (env : Env) (calls : Nat) : Prop :=
  target ≠ .binary → ∀ i < calls, (env.answer i).toNat + 65536 < 2 ^ 64 ∧
    ∀ j < i, (mapping env j).Apart (mapping env i)

/-- One block for each mapping. -/
def hostedBlocks (env : Env) : Nat → List Word → List (Word × Word)
  | _, [] => []
  | k, n :: ns => (n, env.answer k + 8) :: hostedBlocks env (k + 1) ns

theorem hostedBlocks_sizes (k : Nat) (sizes : List Word) :
    (hostedBlocks env k sizes).map (·.1) = sizes := by
  induction sizes generalizing k with
  | nil => rfl
  | cons n ns ih => simp [hostedBlocks, ih]

theorem calls_hosted (hhosted : target ≠ .binary) {h last : Heap} {blocks : List (Word × Word)}
    (hcalls : Calls target env h blocks last)
    (hroom : ∀ i, h.calls ≤ i → i < h.calls + blocks.length →
      (env.answer i).toNat + 65536 < 2 ^ 64) :
    blocks = hostedBlocks env h.calls (blocks.map (·.1)) ∧ last.calls = h.calls + blocks.length := by
  induction hcalls with
  | nil h => exact ⟨rfl, rfl⟩
  | @call s s' back blocks last region run rest ih =>
    obtain ⟨s'', hends, hcount, _, hrax⟩ := ends_hosted hhosted region
      (hroom s.calls (Nat.le_refl _) (by simp [State.heap]))
    obtain ⟨_, rfl⟩ := run.unique hends
    have hcount' : s'.heap.calls = s.heap.calls + 1 := hcount
    obtain ⟨hblocks, hlast⟩ := ih fun i hle hlt =>
      hroom i (by omega) (by rw [List.length_cons]; omega)
    constructor
    · rw [List.map_cons, hostedBlocks, ← hcount', ← hblocks, hrax]
      rfl
    · rw [hlast, hcount', List.length_cons]
      omega

/-- A state that a call can start from. -/
def startState (h : Heap) (size : Word) : State where
  regs := fun r => if r = .rdi then size else 0
  cells := h.cells
  stack := fun _ => 0
  zero := false
  below := false
  calls := h.calls

theorem exists_calls_hosted (hhosted : target ≠ .binary) (sizes : List Word) {h : Heap}
    (hregion : h.cells .regionCur = 0)
    (hroom : ∀ i, h.calls ≤ i → i < h.calls + sizes.length →
      (env.answer i).toNat + 65536 < 2 ^ 64) :
    ∃ last, Calls target env h (hostedBlocks env h.calls sizes) last := by
  induction sizes generalizing h with
  | nil => exact ⟨h, .nil h⟩
  | cons n ns ih =>
    obtain ⟨s', hends, hcount, hkeep, hrax⟩ := ends_hosted (s := startState h n) hhosted hregion
      (hroom h.calls (Nat.le_refl _) (by simp))
    have hcount' : s'.heap.calls = h.calls + 1 := hcount
    obtain ⟨last, hrest⟩ := ih (h := s'.heap) (hkeep.trans hregion) fun i hle hlt =>
      hroom i (by omega) (by rw [List.length_cons]; omega)
    refine ⟨last, ?_⟩
    have hcall := Calls.call hregion hends
      (hcount' ▸ hrest : Calls target env s'.heap (hostedBlocks env (h.calls + 1) ns) last)
    rw [hrax] at hcall
    exact hcall

end Sequences

/-! ## §4 Blocks -/

/-- With these sizes asked for in turn every block that is returned has its
size inside what was obtained and is apart from those before it. -/
def Sound (target : AllocTarget) (sizes : List Word) : Prop :=
  ∀ env blocks last, Calls target env .initial blocks last → blocks.map (·.1) <+: sizes →
    Fresh target env blocks.length →
      (∀ b ∈ blocks, ∃ m ∈ obtained target env last.calls, (blockRegion b).Inside m) ∧
        (blocks.map blockRegion).Pairwise Region.Apart

/-- The sizes for which they are. There are no more mappings apart from each
other than the bound says. -/
def Fits : AllocTarget → List Word → Prop
  | .binary, sizes => sizes = []
  | _, sizes => ∀ n ∈ sizes.take 281474976710655, n.toNat ≤ 65528

section Blocks

variable {env : Env} {target : AllocTarget}

theorem toNat_block {i : Nat} (hroom : (env.answer i).toNat + 65536 < 2 ^ 64) :
    (env.answer i + 8).toNat = (env.answer i).toNat + 8 := by
  bv_omega

theorem inside_mapping {i : Nat} {n : Word} (hroom : (env.answer i).toNat + 65536 < 2 ^ 64)
    (hn : n.toNat ≤ 65528) : (blockRegion (n, env.answer i + 8)).Inside (mapping env i) := by
  have hstart := toNat_block hroom
  simp only [Region.Inside, Region.stop, blockRegion, mapping]
  omega

theorem mem_hostedBlocks {k : Nat} {sizes : List Word} {b : Word × Word}
    (hb : b ∈ hostedBlocks env k sizes) :
    ∃ i, k ≤ i ∧ i < k + sizes.length ∧ b.1 ∈ sizes ∧ b = (b.1, env.answer i + 8) := by
  induction sizes generalizing k with
  | nil => simp [hostedBlocks] at hb
  | cons n ns ih =>
    cases List.mem_cons.mp hb with
    | inl h =>
      subst h
      exact ⟨k, Nat.le_refl _, by simp, by simp, rfl⟩
    | inr h =>
      obtain ⟨i, hle, hlt, hmem, hblock⟩ := ih h
      exact ⟨i, by omega, by rw [List.length_cons]; omega, List.mem_cons_of_mem _ hmem, hblock⟩

theorem hostedBlocks_apart {k : Nat} {sizes : List Word} (hsizes : ∀ n ∈ sizes, n.toNat ≤ 65528)
    (hroom : ∀ i < k + sizes.length, (env.answer i).toNat + 65536 < 2 ^ 64)
    (hapart : ∀ i < k + sizes.length, ∀ j < i, (mapping env j).Apart (mapping env i)) :
    ((hostedBlocks env k sizes).map blockRegion).Pairwise Region.Apart := by
  induction sizes generalizing k with
  | nil => exact .nil
  | cons n ns ih =>
    rw [List.length_cons] at hroom hapart
    refine .cons (fun r hr => ?_) (ih (fun m hm => hsizes m (by simp [hm]))
      (fun i hi => hroom i (by omega)) fun i hi => hapart i (by omega))
    obtain ⟨b, hb, rfl⟩ := List.mem_map.mp hr
    obtain ⟨i, hle, hlt, hmem, hblock⟩ := mem_hostedBlocks hb
    rw [hblock]
    exact (hapart i (by omega) k (by omega)).inside
      (inside_mapping (hroom k (by omega)) (hsizes n (by simp)))
      (inside_mapping (hroom i (by omega)) (hsizes _ (by simp [hmem])))

/-- Mappings apart from each other start in different blocks of 64 KiB. -/
theorem length_le_of_fresh {n : Nat} (hhosted : target ≠ .binary) (hfresh : Fresh target env n) :
    n ≤ 281474976710655 := by
  have hlt : ∀ i : Fin n, (env.answer i).toNat / 65536 < 281474976710655 := by
    intro i
    have hroom := (hfresh hhosted i i.isLt).1
    omega
  have hapart : ∀ i j : Fin n, j < i → (env.answer j).toNat / 65536 ≠ (env.answer i).toNat / 65536 := by
    intro i j hji
    have h := (hfresh hhosted i i.isLt).2 j hji
    simp only [Region.Apart, Region.stop, mapping] at h
    omega
  have hinj : Function.Injective fun i : Fin n =>
      (⟨(env.answer i).toNat / 65536, hlt i⟩ : Fin 281474976710655) := by
    intro i j hij
    have heq : (env.answer i).toNat / 65536 = (env.answer j).toNat / 65536 := congrArg Fin.val hij
    by_contra hne
    cases Fin.lt_or_lt_of_ne hne with
    | inl h => exact hapart j i h heq
    | inr h => exact hapart i j h heq.symm
  simpa using Fintype.card_le_of_injective _ hinj

theorem sound_hosted {sizes : List Word} (hhosted : target ≠ .binary)
    (hsizes : ∀ n ∈ sizes.take 281474976710655, n.toNat ≤ 65528) : Sound target sizes := by
  intro env blocks last hcalls hpre hfresh
  have hroom : ∀ i < blocks.length, (env.answer i).toNat + 65536 < 2 ^ 64 :=
    fun i hi => (hfresh hhosted i hi).1
  obtain ⟨hblocks, hlast⟩ := calls_hosted hhosted hcalls fun i _ hi => hroom i (by
    rwa [Heap.initial, Nat.zero_add] at hi)
  have hlength : (blocks.map (·.1)).length = blocks.length := List.length_map _
  have hsmall : ∀ n ∈ blocks.map (·.1), n.toNat ≤ 65528 := by
    intro n hn
    refine hsizes n ?_
    rw [List.prefix_iff_eq_take] at hpre
    rw [hpre, hlength] at hn
    exact List.take_subset_take_left sizes (length_le_of_fresh hhosted hfresh) hn
  have hobtained : obtained target env last.calls = (List.range blocks.length).map (mapping env) := by
    have hcount : last.calls = blocks.length := by
      rw [hlast, Heap.initial, Nat.zero_add]
    cases target with
    | binary => exact absurd rfl hhosted
    | macho64 | elf64Host | lib => rw [hcount]; rfl
  rw [hobtained]
  constructor
  · intro b hb
    rw [hblocks] at hb
    obtain ⟨i, _, hlt, hmem, hblock⟩ := mem_hostedBlocks hb
    rw [Heap.initial, Nat.zero_add, hlength] at hlt
    refine ⟨mapping env i, List.mem_map_of_mem (List.mem_range.mpr hlt), ?_⟩
    rw [hblock]
    exact inside_mapping (hroom i hlt) (hsmall _ hmem)
  · rw [hblocks]
    refine hostedBlocks_apart hsmall (fun i hi => hroom i ?_) fun i hi => (hfresh hhosted i ?_).2
    all_goals rwa [Heap.initial, Nat.zero_add, hlength] at hi

theorem sound_of_fits {sizes : List Word} (h : Fits target sizes) : Sound target sizes := by
  cases target with
  | macho64 | elf64Host | lib => exact sound_hosted (by simp) h
  | binary =>
    intro env blocks last _ hpre _
    rw [show sizes = [] from h, List.prefix_nil, List.map_eq_nil_iff] at hpre
    subst hpre
    simp

/-- A kernel whose mappings follow each other. -/
def evenEnv : Env := ⟨fun i => BitVec.ofNat 64 (65536 * i), fun _ => 0, 0⟩

theorem fits_hosted {sizes : List Word} (hhosted : target ≠ .binary) (h : Sound target sizes) :
    ∀ n ∈ sizes.take 281474976710655, n.toNat ≤ 65528 := by
  intro n hn
  obtain ⟨k, hk, rfl⟩ := List.mem_iff_getElem.mp hn
  rw [List.length_take, Nat.lt_min] at hk
  rw [List.getElem_take]
  have hanswer : ∀ i < k + 1, (evenEnv.answer i).toNat = 65536 * i := by
    intro i hi
    show (BitVec.ofNat 64 (65536 * i)).toNat = _
    rw [BitVec.toNat_ofNat, Nat.mod_eq_of_lt (by omega)]
  have hroom : ∀ i < k + 1, (evenEnv.answer i).toNat + 65536 < 2 ^ 64 := by
    intro i hi
    rw [hanswer i hi]
    omega
  have hlength : (sizes.take (k + 1)).length = k + 1 := by
    rw [List.length_take]
    omega
  obtain ⟨last, hcalls⟩ : ∃ last, Calls target evenEnv .initial
      (hostedBlocks evenEnv 0 (sizes.take (k + 1))) last := by
    refine exists_calls_hosted hhosted (sizes.take (k + 1)) rfl fun i _ hi => hroom i ?_
    rwa [hlength, Heap.initial, Nat.zero_add] at hi
  have hblocks : (hostedBlocks evenEnv 0 (sizes.take (k + 1))).map (·.1) = sizes.take (k + 1) :=
    hostedBlocks_sizes 0 _
  have hcount : (hostedBlocks evenEnv 0 (sizes.take (k + 1))).length = k + 1 := by
    rw [← List.length_map (f := (·.1)), hblocks, hlength]
  have hfresh : Fresh target evenEnv (hostedBlocks evenEnv 0 (sizes.take (k + 1))).length := by
    rw [hcount]
    intro _ i hi
    refine ⟨hroom i hi, fun j hj => .inl ?_⟩
    simp only [Region.stop, mapping, hanswer i hi, hanswer j (by omega)]
    omega
  obtain ⟨hinside, -⟩ := h evenEnv _ last hcalls (by rw [hblocks]; exact List.take_prefix _ _) hfresh
  -- the block for the size in question
  have hmem : sizes[k] ∈ (hostedBlocks evenEnv 0 (sizes.take (k + 1))).map (·.1) := by
    rw [hblocks]
    exact List.mem_take_iff_getElem.mpr ⟨k, by omega, rfl⟩
  obtain ⟨b, hb, hsize⟩ := List.mem_map.mp hmem
  obtain ⟨i, _, hi, _, hblock⟩ := mem_hostedBlocks hb
  rw [hlength] at hi
  obtain ⟨m, hm, hin⟩ := hinside b hb
  obtain ⟨j, hj, rfl⟩ : ∃ j < k + 1, m = mapping evenEnv j := by
    have hlast : last.calls = k + 1 := by
      have hused := (calls_hosted hhosted hcalls fun i _ hi => hroom i (by
        rwa [hcount, Heap.initial, Nat.zero_add] at hi)).2
      rw [hused, hcount, Heap.initial, Nat.zero_add]
    have hmappings : m ∈ (List.range (k + 1)).map (mapping evenEnv) := by
      cases target with
      | binary => exact absurd rfl hhosted
      | macho64 | elf64Host | lib =>
        rw [obtained, hlast] at hm
        exact hm
    obtain ⟨j, hj, rfl⟩ := List.mem_map.mp hmappings
    exact ⟨j, List.mem_range.mp hj, rfl⟩
  rw [hblock, hsize] at hin
  have hstart := toNat_block (hroom i (by omega))
  simp only [Region.Inside, Region.stop, blockRegion, mapping, hstart, hanswer i (by omega),
    hanswer j hj] at hin
  omega

/-- A kernel that answers every call with an address near the end. -/
def strayEnv : Env := ⟨fun _ => -65537, fun _ => 0, 0x2000000⟩

theorem fits_binary {sizes : List Word} (h : Sound .binary sizes) : sizes = [] := by
  cases sizes with
  | nil => rfl
  | cons n ns =>
    have hend : (-65537 : Word) + 65536 = -1 := by decide
    have hblock : ((-65537 : Word) + 8).toNat = 18446744073709486087 := by decide
    have hbuf : (0x2000000 : Word).toNat = 33554432 := by decide
    obtain ⟨s', hends, -, -, hrax⟩ := @ends_binary strayEnv (startState .initial n)
      rfl rfl hend
    have hcalls : Calls .binary strayEnv .initial [(n, s'.regs .rax)] s'.heap :=
      .call (s := startState .initial n) rfl hends (.nil _)
    obtain ⟨hinside, -⟩ := h strayEnv _ _ hcalls ⟨ns, rfl⟩ fun hne => absurd rfl hne
    obtain ⟨m, hm, hin⟩ := hinside _ List.mem_cons_self
    rw [List.mem_singleton.mp hm] at hin
    have hstop := hin.2
    simp only [Region.stop, blockRegion, hrax, strayEnv, hblock, hbuf] at hstop
    omega

theorem sound_iff_fits {sizes : List Word} : Sound target sizes ↔ Fits target sizes := by
  refine ⟨fun h => ?_, sound_of_fits⟩
  cases target with
  | macho64 | elf64Host | lib => exact fits_hosted (by simp) h
  | binary => exact fits_binary h

end Blocks

/-- The blocks that the allocator returns for a sequence of sizes are sound
exactly if each size fits a mapping with its eight bytes of head; on the
binary target, only if nothing is allocated. -/
theorem alloc_sound_iff (target : AllocTarget) (sizes : List Word) :
    Sound target sizes ↔ Fits target sizes :=
  sound_iff_fits

/-- A block of 70000 bytes does not fit its mapping, and the first block of
the binary target is not in the buffer. -/
theorem large_block_unsound : ¬ Sound .elf64Host [70000] ∧ ¬ Sound .binary [8] := by
  constructor
  · intro h
    have hfits := sound_iff_fits.mp h 70000 (by decide)
    exact absurd hfits (by decide)
  · intro h
    exact List.cons_ne_nil _ _ (sound_iff_fits.mp h)

end Aether.Codegen.Alloc
