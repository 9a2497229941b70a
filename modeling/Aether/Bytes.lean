/-
Aether.Bytes — the byte strings of the compiler and of its runtime.

`StringView` (`include/aether/str.h`) is a pointer and a length; here it
is the list of its bytes. `bytes` spells an ASCII text of the source as
such a list, so that `svEqCstr` and the string tables can be written with
the source's own words.
-/
import Mathlib.Algebra.Group.Nat.Defs
import Mathlib.Tactic.Common

namespace Aether

/-- A byte string: the contents of a `StringView` or of a C string. -/
abbrev Bytes := List UInt8

instance : LawfulBEq Bytes := inferInstance

/-- The bytes of an ASCII text. -/
def bytes (s : String) : Bytes := s.toList.map fun c => UInt8.ofNat c.toNat

/-- `sv_eq_cstr`: a view equals a C string when their bytes do. -/
def svEqCstr (sv : Bytes) (cstr : String) : Bool := sv == bytes cstr

/-- What holds of the 256 bytes holds of every byte. -/
theorem forall_uint8 {P : UInt8 → Prop} (h : ∀ n, n < 256 → P (UInt8.ofNat n)) (c : UInt8) :
    P c := by
  simpa using h c.toNat c.toNat_lt

end Aether
