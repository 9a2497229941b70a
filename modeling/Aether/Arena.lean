/-
Aether.Arena — the arena allocator of `src/arena.c`.

Addresses and sizes are 64-bit words, and arithmetic on them wraps around.
What `malloc` answers is a parameter of every call; an answer is `Fresh` if
it is a block of its own. A state holds the arena and the regions that were
returned since the last reset.
-/
import Aether.Lib.Regions

namespace Aether.Memory

open Lib

/-! ## §1 Blocks -/

def defaultBlockSize : UInt64 := 64 * 1024

/-- `sizeof(Arena)`: four pointers. -/
def sizeofArena : UInt64 := 32

/-- `ALIGN_UP` -/
def alignUp (p a : UInt64) : UInt64 := (p + (a - 1)) &&& ~~~(a - 1)

/-- The header at the start of a block, with the address of the block and
the size that was asked of `malloc`. -/
structure Block where
  mem : UInt64
  asked : UInt64
  base : UInt64
  ptr : UInt64
  stop : UInt64

/-- The bytes after the header. -/
def Block.region (b : Block) : Region where
  start := b.mem.toNat + sizeofArena.toNat
  size := b.asked.toNat - sizeofArena.toNat

/-- The first block and those linked after it. -/
structure Arena extends Block where
  next : List Block

/-- What `malloc` answers for a size. -/
abbrev Malloc := UInt64 → Option UInt64

/-- A block of `blockSize` bytes. -/
def newBlock (malloc : Malloc) (blockSize : UInt64) : Option Block := do
  let mem ← malloc (sizeofArena + blockSize)
  let base := mem + sizeofArena
  some { mem := mem, asked := sizeofArena + blockSize, base := base, ptr := base
         stop := base + blockSize }

def arenaNewBlock (malloc : Malloc) (minSize : UInt64) : Option Block :=
  newBlock malloc
    (if minSize > defaultBlockSize then minSize + defaultBlockSize else defaultBlockSize)

def arenaCreateWithSize (malloc : Malloc) (blockSize : UInt64) : Option Arena := do
  let block ← newBlock malloc blockSize
  some { block with next := [] }

def arenaCreate (malloc : Malloc) : Option Arena := arenaCreateWithSize malloc defaultBlockSize

/-! ## §2 Allocation -/

/-- Go on in a new block. -/
def arenaGrow (malloc : Malloc) (a : Arena) (minSize : UInt64) : Option Arena := do
  let block ← arenaNewBlock malloc minSize
  some { a with next := a.next ++ [block], ptr := block.ptr, stop := block.stop }

/-- The answer of an allocation is NULL or an address. -/
def arenaAllocUnzeroed (malloc : Malloc) (a : Arena) (size : UInt64) : Arena × Option UInt64 :=
  if size = 0 then (a, none)
  else
    let size := alignUp size 16
    let room := if a.ptr + size > a.stop then arenaGrow malloc a size else some a
    match room with
    | none => (a, none)
    | some a => ({ a with ptr := a.ptr + size }, some a.ptr)

/-- `arena_alloc`, whose `memset` changes no addresses. -/
def arenaAlloc (malloc : Malloc) (a : Arena) (size : UInt64) : Arena × Option UInt64 :=
  arenaAllocUnzeroed malloc a size

def arenaAllocAligned (malloc : Malloc) (a : Arena) (size align : UInt64) : Arena × Option UInt64 :=
  let align := if align < 16 then 16 else align
  let aligned := alignUp a.ptr align
  let padded := size + (aligned - a.ptr)
  if a.ptr + padded > a.stop then
    match arenaGrow malloc a (padded + align) with
    | none => (a, none)
    | some a => ({ a with ptr := alignUp a.ptr align + size }, some (alignUp a.ptr align))
  else ({ a with ptr := aligned + size }, some aligned)

/-- `end` stays what it was. -/
def arenaReset (a : Arena) : Arena := { a with next := [], ptr := a.base }

/-! ## §3 Runs -/

/-- A power of two. -/
structure Alignment where
  value : UInt64
  log : Nat
  value_eq : value.toNat = 2 ^ log

inductive Op where
  | alloc (size : UInt64)
  | allocAligned (size : UInt64) (align : Alignment)
  | reset

/-- A region that was returned, with the alignment that was asked for. -/
structure Taken where
  region : Region
  align : Nat
  deriving DecidableEq

structure State where
  arena : Arena
  taken : List Taken

namespace State

/-- The answer of a call for `size` bytes. -/
def returned (s : State) (size : UInt64) (align : Nat) : Arena × Option UInt64 → State
  | (a, none) => { s with arena := a }
  | (a, some p) => { arena := a, taken := ⟨⟨p.toNat, size.toNat⟩, align⟩ :: s.taken }

def step (malloc : Malloc) (s : State) : Op → State
  | .alloc size => s.returned size 16 (arenaAlloc malloc s.arena size)
  | .allocAligned size align =>
    s.returned size align.value.toNat (arenaAllocAligned malloc s.arena size align.value)
  | .reset => { arena := arenaReset s.arena, taken := [] }

end State

def Arena.blocks (a : Arena) : List Block := a.toBlock :: a.next

/-- An answer of `malloc` for `n` bytes: an aligned block of its own. -/
structure Fresh (blocks : List Block) (p n : UInt64) : Prop where
  nonzero : p ≠ 0
  aligned : 16 ∣ p.toNat
  bound : p.toNat + n.toNat < 2 ^ 64
  apart : ∀ b ∈ blocks, Region.Apart ⟨p.toNat, n.toNat⟩ ⟨b.mem.toNat, b.asked.toNat⟩

/-- Every answer is fresh. -/
def Sound (malloc : Malloc) (blocks : List Block) : Prop :=
  ∀ n p, malloc n = some p → Fresh blocks p n

/-- The states of an arena, where each call meets the condition `ok`. -/
inductive Reachable (ok : Arena → Op → Prop) : State → Prop where
  | create {malloc : Malloc} {blockSize : UInt64} {a : Arena} (hmalloc : Sound malloc [])
    (hsize : sizeofArena.toNat + blockSize.toNat < 2 ^ 64)
    (h : arenaCreateWithSize malloc blockSize = some a) : Reachable ok { arena := a, taken := [] }
  | step {malloc : Malloc} {s : State} {op : Op} (h : Reachable ok s)
    (hmalloc : Sound malloc s.arena.blocks) (hok : ok s.arena op) :
    Reachable ok (s.step malloc op)

/-- Each region is inside a block and aligned, and no two overlap. -/
structure State.Correct (s : State) : Prop where
  inside : ∀ t ∈ s.taken, ∃ b ∈ s.arena.blocks, t.region.Inside b.region
  aligned : ∀ t ∈ s.taken, t.align ∣ t.region.start
  apart : (s.taken.map Taken.region).Pairwise Region.Apart

/-! ## §4 When a call is right -/

def Arena.regions (a : Arena) : List Region := a.toBlock.region :: a.next.map Block.region

/-- The block that `ptr` is in. -/
def Arena.current (a : Arena) : Region := a.regions.getLast (List.cons_ne_nil _ _)

/-- The size of a new block for `minSize` bytes, and its header, fit a word. -/
def Grows (minSize : Nat) : Prop := minSize + defaultBlockSize.toNat + sizeofArena.toNat < 2 ^ 64

instance (minSize : Nat) : Decidable (Grows minSize) := inferInstanceAs (Decidable (_ < _))

/-- What passes the test against `end` is aligned and inside the block that
`ptr` is in; else a new block can be asked for. Nothing wraps around. -/
def AllocMeets (a : Arena) (size : UInt64) : Prop :=
  let padded := alignUp size 16
  size.toNat + 15 < 2 ^ 64 ∧ a.ptr.toNat + padded.toNat < 2 ^ 64 ∧
    if a.ptr + padded ≤ a.stop then
      16 ∣ a.ptr.toNat ∧ a.ptr.toNat + size.toNat ≤ a.current.stop
    else Grows padded.toNat

/-- The same for an alignment, which the code takes care of. -/
def AllocAlignedMeets (a : Arena) (size align : UInt64) : Prop :=
  let align := if align < 16 then 16 else align
  let aligned := alignUp a.ptr align
  let padded := size + (aligned - a.ptr)
  a.ptr.toNat + align.toNat ≤ 2 ^ 64 ∧ aligned.toNat + size.toNat < 2 ^ 64 ∧
    if a.ptr + padded ≤ a.stop then aligned.toNat + size.toNat ≤ a.current.stop
    else Grows (padded.toNat + align.toNat)

def Meets (a : Arena) : Op → Prop
  | .alloc size => size = 0 ∨ AllocMeets a size
  | .allocAligned size align => AllocAlignedMeets a size align.value
  | .reset => True

end Aether.Memory
