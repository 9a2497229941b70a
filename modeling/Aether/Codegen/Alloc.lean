/-
Aether.Codegen.Alloc — the allocator that the NASM generator emits.

`__aether_alloc` bumps a pointer through a block of 64 KiB: a mapping of
`mmap` on the hosted targets, a buffer of the program on the binary target.
The code is kept as it is emitted, instruction by instruction, and run over
the registers, the variables in `.bss` and the words of the stack.

What the system call answers is a parameter, as is what it leaves in `rcx`,
where it keeps the return address.
-/
import Aether.Asm.Machine
import Aether.Lib.Listing
import Aether.Lib.Regions

namespace Aether.Codegen.Alloc

open Aether.Lib Aether.Asm

/-! ## §1 Instructions -/

inductive Reg where
  | rax | rcx | rdx | rsi | rdi | rbp | rsp | r8 | r9 | r10
  deriving DecidableEq, Repr

/-- The variables `__aether_heap_start` and so on. -/
inductive Cell where
  | heapStart | heapCur | heapEnd | regionCur | regionEnd
  deriving DecidableEq, Repr

inductive Label where
  | alloc | regionOk | heap | init | attempt | ok | oom
  deriving DecidableEq, Repr

inductive Item where
  | label (l : Label)
  | mov (dst src : Reg)
  | movImm (dst : Reg) (value : Word)
  | load (dst : Reg) (cell : Cell)
  | store (cell : Cell) (src : Reg)
  | addImm (dst : Reg) (value : Word)
  | andImm (dst : Reg) (value : Word)
  | xor (dst src : Reg)
  | addCell (cell : Cell) (src : Reg)
  /-- `lea dst, [base + index]` -/
  | lea (dst base index : Reg)
  /-- `lea dst, [base + disp]` -/
  | leaDisp (dst base : Reg) (disp : Word)
  /-- `lea dst, [rel __aether_heap_buf]` -/
  | leaBuf (dst : Reg)
  | test (a b : Reg)
  | cmpCell (a : Reg) (cell : Cell)
  | jz (l : Label)
  | jnz (l : Label)
  | jbe (l : Label)
  | jmp (l : Label)
  | push (src : Reg)
  | pop (dst : Reg)
  | ret
  | syscall
  | cli
  | hlt
  deriving DecidableEq, Repr

/-! ## §2 Execution -/

structure State where
  regs : Reg → Word
  cells : Cell → Word
  stack : Word → Word
  zero : Bool
  below : Bool
  /-- The system calls that the allocator has made. -/
  calls : Nat

def State.set (s : State) (r : Reg) (v : Word) : State :=
  { s with regs := fun r' => if r' = r then v else s.regs r' }

def State.setCell (s : State) (c : Cell) (v : Word) : State :=
  { s with cells := fun c' => if c' = c then v else s.cells c' }

/-- What the allocator finds around it: the answers of the system calls in
turn, what they leave in `rcx`, and where the buffer is. -/
structure Env where
  answer : Nat → Word
  left : Nat → Word
  heapBuf : Word

/-- Of the flags, those that a jump of this code reads. -/
def Item.exec (env : Env) (s : State) : Item → Flow Label Word State
  | .label _ => .next s
  | .mov dst src => .next (s.set dst (s.regs src))
  | .movImm dst v => .next (s.set dst v)
  | .load dst c => .next (s.set dst (s.cells c))
  | .store c src => .next (s.setCell c (s.regs src))
  | .addImm dst v => .next (s.set dst (s.regs dst + v))
  | .andImm dst v => .next (s.set dst (s.regs dst &&& v))
  | .xor dst src => .next (s.set dst (s.regs dst ^^^ s.regs src))
  | .addCell c src => .next (s.setCell c (s.cells c + s.regs src))
  | .lea dst base index => .next (s.set dst (s.regs base + s.regs index))
  | .leaDisp dst base disp => .next (s.set dst (s.regs base + disp))
  | .leaBuf dst => .next (s.set dst env.heapBuf)
  | .test a b =>
    .next { s with zero := s.regs a &&& s.regs b == 0, below := s.regs a &&& s.regs b == 0 }
  | .cmpCell a c =>
    .next { s with zero := s.regs a == s.cells c, below := decide (s.regs a ≤ s.cells c) }
  | .jz l => if s.zero then .goto l s else .next s
  | .jnz l => if s.zero then .next s else .goto l s
  | .jbe l => if s.below then .goto l s else .next s
  | .jmp l => .goto l s
  | .push src =>
    let s' := s.set .rsp (s.regs .rsp - 8)
    .next { s' with stack := fun a => if a = s.regs .rsp - 8 then s.regs src else s.stack a }
  | .pop dst => .next ((s.set .rsp (s.regs .rsp + 8)).set dst (s.stack (s.regs .rsp)))
  | .ret => .leave (s.stack (s.regs .rsp)) (s.set .rsp (s.regs .rsp + 8))
  | .syscall =>
    .next { ((s.set .rax (env.answer s.calls)).set .rcx (env.left s.calls)) with
      calls := s.calls + 1 }
  | .cli => .next s
  | .hlt => .next s

def Item.labelOf : Item → Option Label
  | .label l => some l
  | _ => none

/-! ## §3 Emission -/

/-- The targets that have the allocator. -/
inductive AllocTarget where
  | macho64 | elf64Host | binary | lib
  deriving DecidableEq, Repr

/-- The arguments of `mmap`, with the flags and the number of the call. -/
def mmapArgs (flags number : Word) : List Item :=
  [.movImm .rdi 0, .movImm .rsi 65536, .movImm .rdx 3, .movImm .r10 flags, .movImm .r8 (-1),
    .xor .r9 .r9, .movImm .rax number]

def enter : List Item :=
  [.label .alloc, .push .rbp, .mov .rbp .rsp, .addImm .rdi 15, .andImm .rdi (~~~15),
    .load .rax .regionCur, .test .rax .rax, .jz .heap]

def fromRegion : List Item :=
  [.lea .rcx .rax .rdi, .cmpCell .rcx .regionEnd, .jbe .regionOk, .jmp .heap, .label .regionOk,
    .store .regionCur .rcx, .mov .rsp .rbp, .pop .rbp, .ret]

/-- Ahead of the first system call. -/
def beforeCall : AllocTarget → List Item
  | .binary =>
    [.load .rax .heapStart, .test .rax .rax, .jnz .attempt, .leaBuf .rax, .store .heapStart .rax,
      .leaDisp .rcx .rax 8, .store .heapCur .rcx, .leaDisp .rcx .rax 65536, .store .heapEnd .rcx]
  | .macho64 => mmapArgs 0x1002 0x20000C5
  | .elf64Host | .lib => mmapArgs 0x22 9

/-- The block that the call in `rax` gave. -/
def takeBlock : List Item :=
  [.leaDisp .rcx .rax 8, .store .heapCur .rcx, .leaDisp .rcx .rax 65536, .store .heapEnd .rcx]

def attempt : List Item :=
  [.label .attempt, .load .rax .heapCur, .lea .rcx .rax .rdi, .cmpCell .rcx .heapEnd, .jbe .ok]

/-- Where the block is full. -/
def refill : AllocTarget → List Item
  | .binary => [.cli, .label .oom, .hlt, .jmp .oom]
  | .macho64 => mmapArgs 0x1002 0x20000C5
  | .elf64Host | .lib => mmapArgs 0x22 9

def finish : List Item :=
  [.label .ok, .load .rax .heapCur, .addCell .heapCur .rdi, .mov .rsp .rbp, .pop .rbp, .ret]

def aetherAlloc (target : AllocTarget) : List Item :=
  enter ++ fromRegion ++ [.label .heap, .push .rdi, .label .init] ++ beforeCall target ++
    [.syscall, .store .heapStart .rax] ++ takeBlock ++ attempt ++ refill target ++
    [.syscall] ++ takeBlock ++ finish

def code (target : AllocTarget) (env : Env) : Listing Item Label Word State where
  items := aetherAlloc target
  labelOf := Item.labelOf
  exec := fun item s => item.exec env s

/-! ## §4 Calls -/

/-- What one call leaves for the next. -/
structure Heap where
  cells : Cell → Word
  calls : Nat

def State.heap (s : State) : Heap := ⟨s.cells, s.calls⟩

/-- The variables before the first call. -/
def Heap.initial : Heap := ⟨fun _ => 0, 0⟩

/-- Calls with no region active that return, one after the other, with the
size each is for and the pointer it returns. What the program does between
them leaves the variables of the allocator alone. -/
inductive Calls (target : AllocTarget) (env : Env) : Heap → List (Word × Word) → Heap → Prop where
  | nil (h : Heap) : Calls target env h [] h
  | call {s s' : State} {back : Word} {blocks : List (Word × Word)} {last : Heap}
      (region : s.cells .regionCur = 0) (run : (code target env).Ends 0 s (some back) s')
      (rest : Calls target env s'.heap blocks last) :
      Calls target env s.heap ((s.regs .rdi, s'.regs .rax) :: blocks) last

/-- What the allocator has obtained after so many system calls. -/
def obtained (target : AllocTarget) (env : Env) (calls : Nat) : List Region :=
  match target with
  | .binary => [⟨env.heapBuf.toNat, 256⟩]
  | .macho64 | .elf64Host | .lib => (List.range calls).map fun i => ⟨(env.answer i).toNat, 65536⟩

def blockRegion (block : Word × Word) : Region := ⟨block.2.toNat, block.1.toNat⟩

end Aether.Codegen.Alloc
