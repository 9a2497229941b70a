/-
Aether.Codegen.StringRuntime — the string routines that the NASM generator
emits, and those of the C runtime.

`__aether_concat`, its copy loop and `__aether_itoa` are kept as they are
emitted, instruction by instruction, and run over the registers, the bytes of
memory and the words of the stack, which is no part of the blocks. What
`__aether_alloc` does is a parameter. A `call` of the copy loop has a label
behind it, for the `ret` that comes back; the addresses of the labels are a
parameter too.
-/
import Aether.Asm.Machine
import Aether.Lib.Listing
import Aether.Lib.Numerals

namespace Aether.Codegen.StringRuntime

open Aether.Lib Aether.Asm

/-! ## §1 Instructions -/

inductive Reg where
  | rax | rcx | rdx | rsi | rdi | rbp | rsp | r12 | r13 | r14 | r15
  deriving DecidableEq, Repr

inductive Label where
  | concat | strlenLeft | leftStrlenDone | leftNull | rightStart | strlenRight | rightStrlenDone
  | rightNull | bothDone | skipLeft | skipRight
  | memcpy | memcpyLoop | memcpyDone
  | itoa | itoaConvert | itoaLoop
  /-- Behind the calls of the copy loop. -/
  | leftCopied | rightCopied | itoaCopied
  deriving DecidableEq, Repr

inductive Item where
  | label (l : Label)
  | push (src : Reg)
  | pop (dst : Reg)
  | mov (dst src : Reg)
  | movImm (dst : Reg) (value : Word)
  /-- `mov dst, [rbp + disp]` -/
  | loadArg (dst : Reg) (disp : Word)
  /-- `xor dst, dst` -/
  | clear (dst : Reg)
  | inc (dst : Reg)
  | dec (dst : Reg)
  | add (dst src : Reg)
  | sub (dst src : Reg)
  /-- `div src` of `rdx:rax` -/
  | div (src : Reg)
  /-- `lea dst, [base + index + disp]` -/
  | lea (dst base index : Reg) (disp : Word)
  /-- `lea dst, [base + disp]` -/
  | leaDisp (dst base : Reg) (disp : Word)
  | test (a b : Reg)
  | cmp (a b : Reg)
  /-- `cmp byte [base + index], 0` -/
  | cmpByte (base index : Reg)
  /-- `mov byte [base + disp], value` -/
  | movByte (base : Reg) (disp : Word) (value : UInt8)
  /-- `mov byte [base + index], value` -/
  | movByteAt (base index : Reg) (value : UInt8)
  /-- `mov al, [base + index]` -/
  | loadAl (base index : Reg)
  /-- `mov [base + index], al` -/
  | storeAl (base index : Reg)
  /-- `add dl, value` -/
  | addDl (value : UInt8)
  /-- `mov [base], dl` -/
  | storeDl (base : Reg)
  | jz (l : Label)
  | jnz (l : Label)
  | jae (l : Label)
  | jmp (l : Label)
  | call (l back : Label)
  | callAlloc
  | ret
  deriving DecidableEq, Repr

/-! ## §2 Execution -/

structure State where
  regs : Reg → Word
  mem : Word → UInt8
  stack : Word → Word
  zero : Bool
  below : Bool

def State.set (s : State) (r : Reg) (v : Word) : State :=
  { s with regs := fun r' => if r' = r then v else s.regs r' }

def State.setByte (s : State) (a : Word) (v : UInt8) : State :=
  { s with mem := fun b => if b = a then v else s.mem b }

def State.push (s : State) (v : Word) : State :=
  { s.set .rsp (s.regs .rsp - 8) with
    stack := fun a => if a = s.regs .rsp - 8 then v else s.stack a }

/-- The lowest byte of a register. -/
def low (w : Word) : UInt8 := UInt8.ofNat w.toNat

def setLow (w : Word) (b : UInt8) : Word := BitVec.ofNat 64 (w.toNat / 256 * 256 + b.toNat)

/-- The addresses of the labels, and what a call of `__aether_alloc` does. -/
structure Env where
  place : Label → Word
  alloc : State → State

def returnPoints : List Label := [.leftCopied, .rightCopied, .itoaCopied]

/-- Of the flags, those that a jump of this code reads. The divisor is 10 and
`rdx` is clear, so no division fails. -/
def Item.exec (env : Env) (s : State) : Item → Flow Label Word State
  | .label _ => .next s
  | .push src => .next (s.push (s.regs src))
  | .pop dst => .next ((s.set .rsp (s.regs .rsp + 8)).set dst (s.stack (s.regs .rsp)))
  | .mov dst src => .next (s.set dst (s.regs src))
  | .movImm dst v => .next (s.set dst v)
  | .loadArg dst disp => .next (s.set dst (s.stack (s.regs .rbp + disp)))
  | .clear dst => .next (s.set dst 0)
  | .inc dst => .next (s.set dst (s.regs dst + 1))
  | .dec dst => .next (s.set dst (s.regs dst - 1))
  | .add dst src => .next (s.set dst (s.regs dst + s.regs src))
  | .sub dst src => .next (s.set dst (s.regs dst - s.regs src))
  | .div src =>
    let n := (s.regs .rdx).toNat * 2 ^ 64 + (s.regs .rax).toNat
    let d := (s.regs src).toNat
    .next ((s.set .rax (BitVec.ofNat 64 (n / d))).set .rdx (BitVec.ofNat 64 (n % d)))
  | .lea dst base index disp => .next (s.set dst (s.regs base + s.regs index + disp))
  | .leaDisp dst base disp => .next (s.set dst (s.regs base + disp))
  | .test a b => .next { s with zero := s.regs a &&& s.regs b == 0, below := false }
  | .cmp a b =>
    .next { s with zero := s.regs a == s.regs b, below := decide (s.regs a < s.regs b) }
  | .cmpByte base index =>
    .next { s with zero := s.mem (s.regs base + s.regs index) == 0, below := false }
  | .movByte base disp v => .next (s.setByte (s.regs base + disp) v)
  | .movByteAt base index v => .next (s.setByte (s.regs base + s.regs index) v)
  | .loadAl base index =>
    .next (s.set .rax (setLow (s.regs .rax) (s.mem (s.regs base + s.regs index))))
  | .storeAl base index => .next (s.setByte (s.regs base + s.regs index) (low (s.regs .rax)))
  | .addDl v => .next (s.set .rdx (setLow (s.regs .rdx) (low (s.regs .rdx) + v)))
  | .storeDl base => .next (s.setByte (s.regs base) (low (s.regs .rdx)))
  | .jz l => if s.zero then .goto l s else .next s
  | .jnz l => if s.zero then .next s else .goto l s
  | .jae l => if s.below then .next s else .goto l s
  | .jmp l => .goto l s
  | .call l back => .goto l (s.push (env.place back))
  | .callAlloc => .next (env.alloc s)
  | .ret =>
    let s' := s.set .rsp (s.regs .rsp + 8)
    match returnPoints.find? fun l => env.place l == s.stack (s.regs .rsp) with
    | some back => .goto back s'
    | none => .leave (s.stack (s.regs .rsp)) s'

def Item.labelOf : Item → Option Label
  | .label l => some l
  | _ => none

/-! ## §3 Emission -/

/-- `strlen` of a pointer, or 0 for a null pointer. -/
def strlenItems (ptr len : Reg) (isNull loop done next : Label) : List Item :=
  [.test ptr ptr, .jz isNull, .clear .rcx, .label loop, .cmpByte ptr .rcx, .jz done, .inc .rcx,
    .jmp loop, .label done, .mov len .rcx, .jmp next, .label isNull, .clear len, .label next]

def concatEnter : List Item :=
  [.label .concat, .push .rbp, .mov .rbp .rsp, .push .r12, .push .r13, .push .r14, .push .r15,
    .loadArg .r12 24, .loadArg .r13 16]

def concatAlloc : List Item :=
  [.lea .rdi .r14 .r15 1, .callAlloc, .mov .r12 .rax]

def concatLeft : List Item :=
  [.loadArg .rsi 24, .mov .rdi .r12, .mov .rdx .r14, .test .rdx .rdx, .jz .skipLeft,
    .call .memcpy .leftCopied, .label .leftCopied, .label .skipLeft]

def concatRight : List Item :=
  [.add .rdi .r14, .mov .rsi .r13, .mov .rdx .r15, .test .rdx .rdx, .jz .skipRight,
    .call .memcpy .rightCopied, .label .rightCopied, .label .skipRight]

def concatLeave : List Item :=
  [.movByteAt .rdi .r15 0, .mov .rax .r12, .pop .r15, .pop .r14, .pop .r13, .pop .r12,
    .mov .rsp .rbp, .pop .rbp, .ret]

/-- `__aether_concat` -/
def concatItems : List Item :=
  concatEnter ++ strlenItems .r12 .r14 .leftNull .strlenLeft .leftStrlenDone .rightStart ++
    strlenItems .r13 .r15 .rightNull .strlenRight .rightStrlenDone .bothDone ++
    concatAlloc ++ concatLeft ++ concatRight ++ concatLeave

/-- `LA_concat_memcpy` -/
def memcpyItems : List Item :=
  [.label .memcpy, .clear .rcx, .label .memcpyLoop, .cmp .rcx .rdx, .jae .memcpyDone,
    .loadAl .rsi .rcx, .storeAl .rdi .rcx, .inc .rcx, .jmp .memcpyLoop, .label .memcpyDone, .ret]

def itoaEnter : List Item :=
  [.label .itoa, .push .rbp, .mov .rbp .rsp, .push .r12, .push .r13, .push .r14, .mov .r12 .rdi,
    .movImm .rdi 21, .callAlloc, .mov .r13 .rax, .test .r12 .r12, .jnz .itoaConvert]

def itoaLeave : List Item :=
  [.mov .rax .r13, .pop .r14, .pop .r13, .pop .r12, .mov .rsp .rbp, .pop .rbp, .ret]

def itoaZero : List Item := [.movByte .r13 0 48, .movByte .r13 1 0]

def itoaStart : List Item :=
  [.label .itoaConvert, .leaDisp .r14 .r13 19, .movByte .r14 0 0]

def itoaDigit : List Item :=
  [.label .itoaLoop, .mov .rax .r12, .clear .rdx, .movImm .rcx 10, .div .rcx, .addDl 48,
    .storeDl .r14, .dec .r14, .mov .r12 .rax, .test .rax .rax, .jnz .itoaLoop]

def itoaShift : List Item :=
  [.inc .r14, .mov .rdi .r13, .mov .rsi .r14, .leaDisp .rdx .r13 20, .sub .rdx .r14,
    .call .memcpy .itoaCopied]

def itoaEnd : List Item := [.label .itoaCopied, .movByteAt .r13 .rdx 0]

/-- `__aether_itoa` -/
def itoaItems : List Item :=
  itoaEnter ++ itoaZero ++ itoaLeave ++ itoaStart ++ itoaDigit ++ itoaShift ++ itoaEnd ++ itoaLeave

def code (env : Env) : Listing Item Label Word State where
  items := concatItems ++ memcpyItems ++ itoaItems
  labelOf := Item.labelOf
  exec := fun item s => item.exec env s

/-! ## §4 The C runtime -/

/-- `string`, with the bytes from its pointer on. -/
structure CString where
  len : UInt64
  data : Bytes
  deriving DecidableEq, Repr

/-- C's `__aether_concat` where `malloc` gives a block. -/
def cConcat (a b : CString) : CString where
  len := a.len + b.len
  data := a.data.take a.len.toNat ++ b.data.take b.len.toNat ++ [0]

/-- The size of `buf` and `temp`. -/
def bufSize : Nat := 21

/-- The digits go to `temp`, the last one first; `none` for a write behind
its end. -/
def fillTemp (value : Nat) (temp : Bytes) : Option Bytes :=
  if value = 0 then some temp
  else if temp.length < bufSize then fillTemp (value / 10) (temp ++ [48 + UInt8.ofNat (value % 10)])
  else none

/-- From the end of `temp` to `buf`. -/
def drainTemp : Bytes → Bytes → Option Bytes
  | [], buf => some buf
  | c :: cs, buf => if buf.length < bufSize then drainTemp cs (buf ++ [c]) else none

/-- C's `__aether_itoa` where `malloc` gives a block. -/
def cItoa (value : UInt64) : Option CString := do
  let buf ← if value = 0 then some [48] else do
    let temp ← fillTemp value.toNat []
    drainTemp temp.reverse []
  some { len := UInt64.ofNat buf.length, data := buf ++ [0] }

end Aether.Codegen.StringRuntime
