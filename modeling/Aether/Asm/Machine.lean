/-
Aether.Asm.Machine — what the three instruction sets have in common.

Byte memory with 64-bit little-endian words, the flags that a comparison
sets, and names that an assembler takes as labels.
-/
import Aether.Bytes

namespace Aether.Asm

abbrev Word := BitVec 64

/-! ## §1 Memory -/

abbrev Memory := Word → BitVec 8

/-- The eight bytes from an address, the first one lowest. -/
def load64 (mem : Memory) (a : Word) : Word :=
  mem (a + 7) ++ mem (a + 6) ++ mem (a + 5) ++ mem (a + 4) ++
    mem (a + 3) ++ mem (a + 2) ++ mem (a + 1) ++ mem a

def store64 (mem : Memory) (a : Word) (v : Word) : Memory := fun b =>
  if (b - a).toNat < 8 then v.extractLsb' (8 * (b - a).toNat) 8 else mem b

/-! ## §2 Flags -/

/-- Zero, negative and signed overflow. -/
structure Flags where
  z : Bool
  n : Bool
  v : Bool
  deriving DecidableEq

def addFlags (a b : Word) : Flags where
  z := a + b == 0
  n := (a + b).msb
  v := BitVec.saddOverflow a b

def subFlags (a b : Word) : Flags where
  z := a - b == 0
  n := (a - b).msb
  v := BitVec.ssubOverflow a b

def logicFlags (r : Word) : Flags where
  z := r == 0
  n := r.msb
  v := false

/-- The signed comparisons that the conditional jumps of the tables make. -/
inductive Cond where
  | eq | ne | gt | ge | lt | le
  deriving DecidableEq, Repr

def Cond.holds (flags : Flags) : Cond → Bool
  | .eq => flags.z
  | .ne => !flags.z
  | .gt => !flags.z && flags.n == flags.v
  | .ge => flags.n == flags.v
  | .lt => flags.n != flags.v
  | .le => flags.z || flags.n != flags.v

/-! ## §3 Label names -/

/-- Letters, `_` and `.`. -/
def startsLabel (c : UInt8) : Bool :=
  (65 ≤ c && c ≤ 90) || (97 ≤ c && c ≤ 122) || c == 95 || c == 46

def continuesLabel (c : UInt8) : Bool := startsLabel c || (48 ≤ c && c ≤ 57)

def isLabelName : Bytes → Bool
  | [] => false
  | c :: rest => startsLabel c && rest.all continuesLabel

structure LabelName where
  text : Bytes
  ok : isLabelName text = true
  deriving DecidableEq

end Aether.Asm
