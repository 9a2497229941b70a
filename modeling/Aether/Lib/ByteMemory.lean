/-
Aether.Lib.ByteMemory — bytes of memory, read and written in pieces.

A memory is a function from addresses to bytes. `read_write`, `read_copy` and
`read_congr` are the rules for a piece that is read back, for a piece of a
copy, and for a piece that stayed as it was (`SameOn`).
-/
import Aether.Lib.Regions

namespace Aether.Lib

abbrev ByteMemory := Nat → UInt8

namespace ByteMemory

/-! ## §1 Pieces -/

def read (m : ByteMemory) (a n : Nat) : List UInt8 := (List.range n).map fun i => m (a + i)

def write (m : ByteMemory) (a : Nat) (bytes : List UInt8) : ByteMemory := fun x =>
  if a ≤ x ∧ x < a + bytes.length then bytes.getD (x - a) 0 else m x

/-- `memcpy` of pieces that do not overlap. -/
def copy (m : ByteMemory) (dest src n : Nat) : ByteMemory := m.write dest (m.read src n)

variable {m m' : ByteMemory} {a b n : Nat} {bytes : List UInt8} {r s : Region}

@[simp] theorem length_read : (m.read a n).length = n := by simp [read]

theorem write_inside {i : Nat} (h : i < bytes.length) :
    m.write a bytes (a + i) = bytes.getD i 0 := by
  simp [write, h]

theorem write_outside {x : Nat} (h : x < a ∨ a + bytes.length ≤ x) : m.write a bytes x = m x := by
  have hnot : ¬(a ≤ x ∧ x < a + bytes.length) := by omega
  simp [write, hnot]

/-- Pieces that have the same bytes. -/
theorem read_congr (h : ∀ i, i < n → m (a + i) = m' (b + i)) : m.read a n = m'.read b n := by
  simp only [read]
  refine List.map_congr_left fun i hi => ?_
  exact h i (List.mem_range.mp hi)

theorem read_write : (m.write a bytes).read a bytes.length = bytes := by
  refine List.ext_getElem (by simp) fun i h _ => ?_
  rw [length_read] at h
  simp [read, write_inside h, List.getD_eq_getElem?_getD, h]

/-- A piece of a copy. -/
theorem read_copy {dest src i k : Nat} (h : i + k ≤ n) :
    (m.copy dest src n).read (dest + i) k = m.read (src + i) k := by
  refine read_congr fun j hj => ?_
  have hlt : i + j < (m.read src n).length := by
    rw [length_read]
    omega
  rw [copy, Nat.add_assoc, write_inside hlt, List.getD_eq_getElem?_getD,
    List.getElem?_eq_getElem hlt]
  simp [read, Nat.add_assoc]

/-! ## §2 What stays -/

/-- The bytes of a region stayed as they were. -/
def SameOn (r : Region) (m m' : ByteMemory) : Prop := ∀ x, r.start ≤ x → x < r.stop → m' x = m x

theorem SameOn.rfl : SameOn r m m := fun _ _ _ => Eq.refl _

theorem SameOn.trans {m'' : ByteMemory} (h : SameOn r m m') (h' : SameOn r m' m'') :
    SameOn r m m'' := fun x hlow hhigh => (h' x hlow hhigh).trans (h x hlow hhigh)

/-- A write outside the region. -/
theorem sameOn_write (h : r.Apart ⟨a, bytes.length⟩) : SameOn r m (m.write a bytes) := by
  intro x hlow hhigh
  refine write_outside ?_
  simp only [Region.Apart, Region.stop] at h hhigh
  omega

/-- A piece inside the region. -/
theorem SameOn.read (h : SameOn r m m') (hin : Region.Inside ⟨a, n⟩ r) :
    m'.read a n = m.read a n := by
  refine read_congr fun i hi => h _ ?_ ?_
  · exact Nat.le_trans hin.1 (Nat.le_add_right _ _)
  · have hstop := hin.2
    simp only [Region.stop] at hstop ⊢
    omega

end ByteMemory

end Aether.Lib
