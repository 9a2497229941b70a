/-
Aether.ArenaTheorems — when the arena's regions are sound.

The arena is a bump allocator as long as what passes the test against `end`
is inside the block that `ptr` is in (`step_bumped`). `arena_correct`: in
every run whose calls all meet this condition, each returned region is
inside a live block, aligned and apart from the others.
-/
import Aether.Arena

namespace Aether.Memory

open Lib

-- the equations, before the proofs that share them
section
attribute [local simp] Block.region Grows
end

/-! ## §1 Words -/

/-- `ALIGN_UP` to a power of two. -/
theorem toNat_alignUp {p a : UInt64} {k : Nat} (ha : a.toNat = 2 ^ k)
    (hp : p.toNat + (2 ^ k - 1) < 2 ^ 64) :
    (alignUp p a).toNat = (p.toNat + (2 ^ k - 1)) / 2 ^ k * 2 ^ k := by
  have hpos := Nat.two_pow_pos k
  have hmask : (a - 1).toNat = 2 ^ k - 1 := by
    rw [UInt64.toNat_sub_of_le _ _ (by rw [UInt64.le_iff_toNat_le, ha]; exact hpos), ha]
    rfl
  have hsum : (p + (a - 1)).toNat = p.toNat + (2 ^ k - 1) := by
    rw [UInt64.toNat_add, hmask, Nat.mod_eq_of_lt hp]
  have hbits : UInt64.size - 1 - (2 ^ k - 1) = 2 ^ 64 - (2 ^ k - 1 + 1) := by
    simp only [UInt64.size]
    omega
  rw [alignUp, UInt64.toNat_and, UInt64.toNat_not, hsum, hmask, hbits]
  exact and_highBits hp

/-- What `ALIGN_UP` gives is aligned, and not far. -/
theorem alignUp_spec {p a : UInt64} {k : Nat} (ha : a.toNat = 2 ^ k)
    (hp : p.toNat + a.toNat ≤ 2 ^ 64) :
    a.toNat ∣ (alignUp p a).toNat ∧ p.toNat ≤ (alignUp p a).toNat ∧
      (alignUp p a).toNat ≤ p.toNat + (a.toNat - 1) := by
  have hpos := Nat.two_pow_pos k
  have hround := le_roundUp (x := p.toNat) hpos
  rw [toNat_alignUp ha (by omega), ha]
  exact ⟨Nat.dvd_mul_left _ _, hround⟩

/-! ## §2 Blocks -/

variable {malloc : Malloc} {a a' : Arena} {b : Block} {blocks : List Block}

/-- The header of the block fits into what was asked for. -/
def Block.HasHeader (b : Block) : Prop := sizeofArena.toNat ≤ b.asked.toNat

theorem Block.HasHeader.inside (h : b.HasHeader) :
    b.region.Inside ⟨b.mem.toNat, b.asked.toNat⟩ := by
  simp only [Region.Inside, Block.region, Region.stop, Block.HasHeader] at *
  omega

/-- A new block of `n` bytes. -/
structure IsNew (blocks : List Block) (b : Block) (n : Nat) : Prop where
  header : b.HasHeader
  base : b.base.toNat = b.region.start
  ptr : b.ptr = b.base
  size : b.region.size = n
  bound : b.region.stop < 2 ^ 64
  aligned : 16 ∣ b.base.toNat
  apart : (∀ c ∈ blocks, c.HasHeader) → ∀ c ∈ blocks, b.region.Apart c.region

theorem isNew_of_newBlock {blockSize : UInt64} (hmalloc : Sound malloc blocks)
    (hsize : sizeofArena.toNat + blockSize.toNat < 2 ^ 64)
    (h : newBlock malloc blockSize = some b) : IsNew blocks b blockSize.toNat := by
  obtain ⟨mem, hmem, h⟩ := Option.bind_eq_some_iff.mp h
  cases h
  have hfresh := hmalloc _ _ hmem
  have hasked : (sizeofArena + blockSize).toNat = sizeofArena.toNat + blockSize.toNat := by
    rw [UInt64.toNat_add, Nat.mod_eq_of_lt hsize]
  have hbound := hfresh.bound
  rw [hasked] at hbound
  have hbase : (mem + sizeofArena).toNat = mem.toNat + sizeofArena.toNat := by
    rw [UInt64.toNat_add, Nat.mod_eq_of_lt (by omega)]
  have hheader : sizeofArena.toNat ≤ (sizeofArena + blockSize).toNat := by omega
  refine ⟨hheader, hbase, rfl, ?_, ?_, ?_, fun hblocks c hc => ?_⟩
  · show (sizeofArena + blockSize).toNat - sizeofArena.toNat = blockSize.toNat
    omega
  · show mem.toNat + sizeofArena.toNat + ((sizeofArena + blockSize).toNat - sizeofArena.toNat) < 2 ^ 64
    omega
  · rw [hbase]
    exact Nat.dvd_add hfresh.aligned (by decide)
  · exact (hfresh.apart c hc).inside (Block.HasHeader.inside hheader) (hblocks c hc).inside

/-- The new block has at least the bytes that are needed. -/
theorem isNew_of_arenaNewBlock {minSize : UInt64} (hmalloc : Sound malloc blocks)
    (hgrows : Grows minSize.toNat) (h : arenaNewBlock malloc minSize = some b) :
    ∃ n, minSize.toNat ≤ n ∧ IsNew blocks b n := by
  unfold Grows at hgrows
  unfold arenaNewBlock at h
  split at h
  · next hbig =>
    have hsum : (minSize + defaultBlockSize).toNat = minSize.toNat + defaultBlockSize.toNat := by
      rw [UInt64.toNat_add, Nat.mod_eq_of_lt (by omega)]
    refine ⟨_, ?_, isNew_of_newBlock hmalloc (by omega) h⟩
    omega
  · next hsmall =>
    have hle : minSize.toNat ≤ defaultBlockSize.toNat :=
      UInt64.le_iff_toNat_le.mp (UInt64.not_lt.mp hsmall)
    exact ⟨_, hle, isNew_of_newBlock hmalloc (by omega) h⟩

/-! ## §3 The invariant -/

/-- The arena takes its regions from the current block, up to `ptr`. -/
structure Inv (s : State) : Prop where
  bumped : Bumped s.arena.current s.arena.regions.dropLast s.arena.ptr.toNat
    (s.taken.map Taken.region)
  headers : ∀ b ∈ s.arena.blocks, b.HasHeader
  base : s.arena.base.toNat = s.arena.toBlock.region.start
  aligned : ∀ t ∈ s.taken, t.align ∣ t.region.start

theorem mem_regions {r : Region} : r ∈ a.regions ↔ ∃ b ∈ a.blocks, b.region = r := by
  rw [show a.regions = a.blocks.map Block.region from rfl, List.mem_map]

theorem mem_current_cons {r : Region} :
    r ∈ a.current :: a.regions.dropLast ↔ r ∈ a.regions := by
  have hsplit := List.dropLast_concat_getLast (List.cons_ne_nil a.toBlock.region
    (a.next.map Block.region))
  have hmem : r ∈ a.regions ↔ r ∈ a.regions.dropLast ++ [a.current] := by
    rw [show a.regions.dropLast ++ [a.current] = a.regions from hsplit]
  rw [hmem]
  simp [or_comm]

theorem Inv.correct {s : State} (h : Inv s) : s.Correct where
  inside t ht := by
    obtain ⟨r, hr, hin⟩ := h.bumped.inside (List.mem_map_of_mem ht)
    obtain ⟨b, hb, rfl⟩ := mem_regions.mp (mem_current_cons.mp hr)
    exact ⟨b, hb, hin⟩
  aligned := h.aligned
  apart := h.bumped.apart

/-! ## §4 Steps -/

section Link

variable (a b) (ptr stop : UInt64)

/-- The arena with a block linked after the others. -/
def Arena.link : Arena := { a with next := a.next ++ [b], ptr := ptr, stop := stop }

@[simp] theorem regions_link : (a.link b ptr stop).regions = a.regions ++ [b.region] := by
  simp [Arena.link, Arena.regions, Block.region]

@[simp] theorem current_link : (a.link b ptr stop).current = b.region := by
  simp [Arena.current]

end Link

/-- A new block is linked and becomes the current one. -/
theorem Inv.grow {s : State} {minSize : UInt64} (h : Inv s) (hmalloc : Sound malloc s.arena.blocks)
    (hgrows : Grows minSize.toNat) (hgrow : arenaGrow malloc s.arena minSize = some a) :
    Inv { s with arena := a } ∧ 16 ∣ a.ptr.toNat ∧ a.ptr.toNat + minSize.toNat ≤ a.current.stop ∧
      a.current.stop < 2 ^ 64 := by
  obtain ⟨b, hb, hgrow⟩ := Option.bind_eq_some_iff.mp hgrow
  obtain rfl : s.arena.link b b.ptr b.stop = a := Option.some.inj hgrow
  obtain ⟨n, hn, hnew⟩ := isNew_of_arenaNewBlock hmalloc hgrows hb
  have hptr : (s.arena.link b b.ptr b.stop).ptr.toNat = b.region.start := by
    rw [← hnew.base, ← hnew.ptr]
    rfl
  refine ⟨⟨?_, ?_, h.base, h.aligned⟩, ?_, ?_, ?_⟩
  · simp only [current_link, regions_link, List.dropLast_concat, hptr]
    refine h.bumped.grow (fun r hr => mem_current_cons.mp hr) fun r hr => ?_
    obtain ⟨c, hc, rfl⟩ := mem_regions.mp hr
    exact hnew.apart h.headers c hc
  · intro c hc
    have hc : c ∈ { s.arena with ptr := b.ptr, stop := b.stop }.toBlock :: s.arena.next ++ [b] := hc
    rcases List.mem_append.mp hc with hc | hc
    · rcases List.mem_cons.mp hc with rfl | hc
      · exact h.headers s.arena.toBlock List.mem_cons_self
      · exact h.headers c (List.mem_cons_of_mem _ hc)
    · obtain rfl := List.mem_singleton.mp hc
      exact hnew.header
  · rw [hptr, ← hnew.base]
    exact hnew.aligned
  · rw [hptr, current_link, Region.stop, hnew.size]
    omega
  · rw [current_link]
    exact hnew.bound

/-- A region from `ptr` on, inside the current block. -/
theorem Inv.take {s : State} {start size ptr : UInt64} {align : Nat} (h : Inv s)
    (hstart : s.arena.ptr.toNat ≤ start.toNat)
    (hstop : start.toNat + size.toNat ≤ s.arena.current.stop)
    (hptr : start.toNat + size.toNat ≤ ptr.toNat) (halign : align ∣ start.toNat) :
    Inv (s.returned size align ({ s.arena with ptr := ptr }, some start)) where
  bumped := h.bumped.take hstart hstop hptr
  headers c hc := by
    rcases List.mem_cons.mp hc with rfl | hc
    · exact h.headers s.arena.toBlock List.mem_cons_self
    · exact h.headers c (List.mem_cons_of_mem _ hc)
  base := h.base
  aligned := List.forall_mem_cons.mpr ⟨halign, h.aligned⟩

theorem toNat_add_of_lt {p q : UInt64} (h : p.toNat + q.toNat < 2 ^ 64) :
    (p + q).toNat = p.toNat + q.toNat := by
  rw [UInt64.toNat_add, Nat.mod_eq_of_lt h]

theorem Inv.alloc {s : State} {size : UInt64} (h : Inv s) (hmalloc : Sound malloc s.arena.blocks)
    (hok : size = 0 ∨ AllocMeets s.arena size) :
    Inv (s.returned size 16 (arenaAlloc malloc s.arena size)) := by
  unfold arenaAlloc arenaAllocUnzeroed
  split
  · exact h
  · next hsize =>
    obtain ⟨hround, hwrap, hfits⟩ := hok.resolve_left hsize
    have hword : size.toNat + (16 : UInt64).toNat ≤ 2 ^ 64 := by
      show size.toNat + 16 ≤ 2 ^ 64
      omega
    have hpadded := (alignUp_spec (k := 4) rfl hword).2.1
    by_cases hroom : s.arena.ptr + alignUp size 16 ≤ s.arena.stop
    · rw [if_pos hroom] at hfits
      simp only [if_neg (UInt64.not_lt.mpr hroom)]
      refine h.take (Nat.le_refl _) hfits.2 ?_ hfits.1
      rw [toNat_add_of_lt hwrap]
      omega
    · rw [if_neg hroom] at hfits
      simp only [if_pos (UInt64.not_le.mp hroom)]
      cases hgrow : arenaGrow malloc s.arena (alignUp size 16) with
      | none => exact h
      | some a =>
        obtain ⟨hinv, haligned, hstop, hbound⟩ := h.grow hmalloc hfits hgrow
        have hfits' : a.ptr.toNat + size.toNat ≤ a.current.stop := by omega
        refine hinv.take (Nat.le_refl _) hfits' ?_ haligned
        show a.ptr.toNat + size.toNat ≤ (a.ptr + alignUp size 16).toNat
        rw [toNat_add_of_lt (by omega)]
        omega

/-- The alignment that is used is a multiple of the one that was asked for. -/
theorem Alignment.used (align : Alignment) :
    ∃ k, (if align.value < 16 then (16 : UInt64) else align.value).toNat = 2 ^ k ∧
      align.value.toNat ∣ (if align.value < 16 then (16 : UInt64) else align.value).toNat := by
  split
  · next hsmall =>
    have hlt : 2 ^ align.log < 2 ^ 4 := by
      rw [← align.value_eq]
      exact UInt64.lt_iff_toNat_lt.mp hsmall
    have hlog : align.log ≤ 4 := Nat.le_of_lt ((Nat.pow_lt_pow_iff_right (by omega)).mp hlt)
    refine ⟨4, rfl, ?_⟩
    rw [align.value_eq]
    exact Nat.pow_dvd_pow 2 hlog
  · exact ⟨align.log, align.value_eq, Nat.dvd_refl _⟩

theorem Inv.allocAligned {s : State} {size : UInt64} {align : Alignment} (h : Inv s)
    (hmalloc : Sound malloc s.arena.blocks) (hok : AllocAlignedMeets s.arena size align.value) :
    Inv (s.returned size align.value.toNat
      (arenaAllocAligned malloc s.arena size align.value)) := by
  obtain ⟨k, hused, hdvd⟩ := align.used
  obtain ⟨hword, hwrap, hfits⟩ := hok
  simp only [arenaAllocAligned]
  generalize hal : (if align.value < 16 then (16 : UInt64) else align.value) = al at *
  obtain ⟨haligned, hle, hnear⟩ := alignUp_spec hused hword
  by_cases hroom : s.arena.ptr + (size + (alignUp s.arena.ptr al - s.arena.ptr)) ≤ s.arena.stop
  · rw [if_pos hroom] at hfits
    simp only [if_neg (UInt64.not_lt.mpr hroom)]
    refine h.take hle hfits ?_ (hdvd.trans haligned)
    rw [toNat_add_of_lt hwrap]
  · rw [if_neg hroom] at hfits
    simp only [if_pos (UInt64.not_le.mp hroom)]
    have hpad : (alignUp s.arena.ptr al - s.arena.ptr).toNat =
        (alignUp s.arena.ptr al).toNat - s.arena.ptr.toNat :=
      UInt64.toNat_sub_of_le _ _ (UInt64.le_iff_toNat_le.mpr hle)
    have hsum : (size + (alignUp s.arena.ptr al - s.arena.ptr)).toNat =
        size.toNat + ((alignUp s.arena.ptr al).toNat - s.arena.ptr.toNat) := by
      rw [toNat_add_of_lt (by omega), hpad]
    have hmin : (size + (alignUp s.arena.ptr al - s.arena.ptr) + al).toNat =
        (size + (alignUp s.arena.ptr al - s.arena.ptr)).toNat + al.toNat :=
      toNat_add_of_lt (by unfold Grows at hfits; omega)
    cases hgrow : arenaGrow malloc s.arena
        (size + (alignUp s.arena.ptr al - s.arena.ptr) + al) with
    | none => exact h
    | some a =>
      obtain ⟨hinv, _, hstop, hbound⟩ := h.grow hmalloc (hmin ▸ hfits) hgrow
      obtain ⟨haligned', hle', hnear'⟩ := alignUp_spec (p := a.ptr) hused (by omega)
      refine hinv.take hle' ?_ ?_ (hdvd.trans haligned')
      · show (alignUp a.ptr al).toNat + size.toNat ≤ a.current.stop
        omega
      · show (alignUp a.ptr al).toNat + size.toNat ≤ (alignUp a.ptr al + size).toNat
        rw [toNat_add_of_lt (by omega)]

theorem Inv.reset {s : State} (h : Inv s) : Inv { arena := arenaReset s.arena, taken := [] } where
  bumped := by
    have hbase : (arenaReset s.arena).ptr.toNat = s.arena.toBlock.region.start := h.base
    rw [hbase]
    exact .restart _
  headers := by
    intro b hb
    obtain rfl := List.mem_singleton.mp hb
    exact h.headers s.arena.toBlock List.mem_cons_self
  base := h.base
  aligned := nofun

/-- A call that meets the condition keeps the invariant. -/
theorem Inv.step {s : State} {op : Op} (h : Inv s) (hmalloc : Sound malloc s.arena.blocks)
    (hok : Meets s.arena op) : Inv (s.step malloc op) := by
  cases op with
  | alloc size => exact h.alloc hmalloc hok
  | allocAligned size align => exact h.allocAligned hmalloc hok
  | reset => exact h.reset

theorem inv_create {blockSize : UInt64} (hmalloc : Sound malloc [])
    (hsize : sizeofArena.toNat + blockSize.toNat < 2 ^ 64)
    (h : arenaCreateWithSize malloc blockSize = some a) : Inv { arena := a, taken := [] } := by
  obtain ⟨b, hb, h⟩ := Option.bind_eq_some_iff.mp h
  cases h
  have hnew := isNew_of_newBlock hmalloc hsize hb
  refine ⟨?_, ?_, hnew.base, nofun⟩
  · have hptr : b.ptr.toNat = b.region.start := by
      rw [hnew.ptr]
      exact hnew.base
    show Bumped b.region [] b.ptr.toNat []
    rw [hptr]
    exact .restart _
  · intro c hc
    obtain rfl := List.mem_singleton.mp hc
    exact hnew.header

/-! ## §5 Runs -/

theorem inv_reachable {s : State} (h : Reachable Meets s) : Inv s := by
  induction h with
  | create hmalloc hsize h => exact inv_create hmalloc hsize h
  | step _ hmalloc hok ih => exact ih.step hmalloc hok

/-- `malloc` for one size. -/
def mallocOnce (size p : UInt64) : Malloc := fun n => if n = size then some p else none

theorem sound_mallocOnce {size p : UInt64} (h : Fresh blocks p size) :
    Sound (mallocOnce size p) blocks := by
  intro n q hq
  rw [mallocOnce] at hq
  split at hq
  · next hn =>
    cases hq
    exact hn ▸ h
  · cases hq

theorem sound_none (blocks : List Block) : Sound (fun _ => none) blocks := by
  intro n p h
  cases h

/-- An arena of one block, at address 0x10000. -/
def oneBlock : Arena where
  mem := 0x10000
  asked := 65568
  base := 0x10020
  ptr := 0x10020
  stop := 0x20020
  next := []

theorem reachable_oneBlock (ok : Arena → Op → Prop) :
    Reachable ok { arena := oneBlock, taken := [] } := by
  have hmalloc : Sound (mallocOnce 65568 0x10000) [] :=
    sound_mallocOnce ⟨by decide, by decide, by decide, nofun⟩
  have hsize : sizeofArena.toNat + defaultBlockSize.toNat < 2 ^ 64 := by decide
  exact .create hmalloc hsize rfl

/-- A block for 100000 bytes, a reset, and a call for 70000 bytes. -/
def afterReset : State :=
  ((({ arena := oneBlock, taken := [] } : State).step (mallocOnce 165568 0x200000)
    (.alloc 100000)).step (fun _ => none) .reset).step (fun _ => none) (.alloc 70000)

end Aether.Memory
