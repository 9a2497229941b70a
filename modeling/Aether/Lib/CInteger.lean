/-
Aether.Lib.CInteger — the integers of C on an LP64 machine.

A value is a mathematical integer together with a type that it fits. The
types stand in the order of the usual arithmetic conversions, so two
operands meet in the later of their types (`join`). Arithmetic in an
unsigned type wraps around; in a signed type a result that does not fit is
no value at all.
-/
import Mathlib.Algebra.Order.Ring.Int
import Mathlib.Tactic.Common

namespace Aether.Lib.CInteger

/-! ## §1 Types and values -/

/-- The types of promoted expressions; `int128` is the extended signed type
that a decimal constant gets when it fits no other. -/
inductive CType where
  | int | uint | long | ulong | int128
  deriving DecidableEq, Repr

namespace CType

def rank : CType → Nat
  | .int => 0
  | .uint => 1
  | .long => 2
  | .ulong => 3
  | .int128 => 4

def isSigned : CType → Bool
  | .uint | .ulong => false
  | _ => true

def bits : CType → Nat
  | .int | .uint => 32
  | .long | .ulong => 64
  | .int128 => 128

def lower : CType → Int
  | .int => -2147483648
  | .uint => 0
  | .long => -9223372036854775808
  | .ulong => 0
  | .int128 => -170141183460469231731687303715884105728

def upper : CType → Int
  | .int => 2147483647
  | .uint => 4294967295
  | .long => 9223372036854775807
  | .ulong => 18446744073709551615
  | .int128 => 170141183460469231731687303715884105727

/-- The value is one of the type's. -/
def Fits (t : CType) (v : Int) : Prop := t.lower ≤ v ∧ v ≤ t.upper

instance (t : CType) (v : Int) : Decidable (t.Fits v) := inferInstanceAs (Decidable (_ ∧ _))

/-- The value of the type that `v` is reduced to. -/
def wrap (t : CType) (v : Int) : Int := t.lower + (v - t.lower) % (t.upper - t.lower + 1)

/-- The type in which two operands meet. -/
def join (s t : CType) : CType := if s.rank < t.rank then t else s

end CType

structure CValue where
  type : CType
  val : Int
  fits : type.Fits val

namespace CType

theorem lower_lt_upper (t : CType) : t.lower < t.upper := by
  cases t with
  | int => decide
  | uint => decide
  | long => decide
  | ulong => decide
  | int128 => decide

theorem fits_wrap (t : CType) (v : Int) : t.Fits (t.wrap v) := by
  have hlt := t.lower_lt_upper
  have hnonneg := Int.emod_nonneg (v - t.lower) (b := t.upper - t.lower + 1) (by omega)
  have hbound := Int.emod_lt_of_pos (v - t.lower) (b := t.upper - t.lower + 1) (by omega)
  unfold Fits wrap
  omega

theorem wrap_of_fits {t : CType} {v : Int} (h : t.Fits v) : t.wrap v = v := by
  obtain ⟨hlower, hupper⟩ := h
  rw [wrap, Int.emod_eq_of_lt (by omega) (by omega)]
  omega

theorem wrap_ulong (v : Int) : CType.ulong.wrap v = v % 18446744073709551616 := by
  simp [wrap, lower, upper]

end CType

/-- The value with another type. -/
def convert (t : CType) (v : Int) : CValue := ⟨t, t.wrap v, t.fits_wrap v⟩

/-- The result of a computation in the type `t`. -/
def compute (t : CType) (v : Int) : Option CValue :=
  if h : t.Fits v then some ⟨t, v, h⟩
  else if t.isSigned then none
  else some (convert t v)

theorem compute_of_fits {t : CType} {v : Int} (h : t.Fits v) :
    compute t v = some ⟨t, v, h⟩ := by
  rw [compute, dif_pos h]

theorem compute_eq_none {t : CType} {v : Int} (h : ¬ t.Fits v) (hs : t.isSigned = true) :
    compute t v = none := by
  rw [compute, dif_neg h, if_pos hs]

theorem compute_signed {t : CType} {v : Int} {w : CValue} (h : compute t v = some w)
    (ht : t.isSigned = true) : w.val = v ∧ w.type = t := by
  by_cases hfits : t.Fits v
  · rw [compute_of_fits hfits] at h
    obtain rfl := Option.some.inj h
    exact ⟨rfl, rfl⟩
  · rw [compute_eq_none hfits ht] at h
    cases h

/-! ## §2 Constants and operations -/

/-- The type of a decimal constant: the first of the list that it fits. -/
def constantType (n : Nat) : CType :=
  if CType.int.Fits n then .int else if CType.long.Fits n then .long else .int128

/-- A decimal constant. One that even the extended type does not hold has
no type. -/
def constant (n : Nat) : Option CValue := compute (constantType n) n

/-- A relation between two operands, in their common type. -/
def relation (rel : Int → Int → Bool) (a b : CValue) : Bool :=
  let t := a.type.join b.type
  rel (t.wrap a.val) (t.wrap b.val)

/-- An operation on two operands, in their common type. -/
def arithmetic (op : Int → Int → Int) (a b : CValue) : Option CValue :=
  let t := a.type.join b.type
  compute t (op (t.wrap a.val) (t.wrap b.val))

/-- Division and remainder have no value for the divisor zero. -/
def division (op : Int → Int → Int) (a b : CValue) : Option CValue :=
  let t := a.type.join b.type
  if t.wrap b.val = 0 then none else compute t (op (t.wrap a.val) (t.wrap b.val))

/-- A shift has the type of its left operand; a signed operand of a left
shift must not be negative. -/
def shiftLeft (a b : CValue) : Option CValue :=
  if b.val < 0 ∨ (a.type.bits : Int) ≤ b.val ∨ (a.type.isSigned = true ∧ a.val < 0) then none
  else compute a.type (a.val * 2 ^ b.val.toNat)

def shiftRight (a b : CValue) : Option CValue :=
  if b.val < 0 ∨ (a.type.bits : Int) ≤ b.val then none
  else compute a.type (a.val / 2 ^ b.val.toNat)

/-- The truth value of a condition. -/
def truth (b : Bool) : CValue := convert .int (if b then 1 else 0)

def isTrue (v : CValue) : Bool := v.val ≠ 0

@[simp] theorem isTrue_truth (b : Bool) : isTrue (truth b) = b := by
  cases b with
  | false => decide
  | true => decide

theorem constant_eq {n : Nat} (h : n ≤ 18446744073709551615) :
    ∃ v, constant n = some v ∧ v.val = n ∧ v.type = constantType n := by
  have hfits : (constantType n).Fits n := by
    unfold constantType
    split
    · assumption
    · split
      · assumption
      · simp only [CType.Fits, CType.lower, CType.upper]
        omega
  exact ⟨_, compute_of_fits hfits, rfl, rfl⟩

theorem constantType_signed (n : Nat) : (constantType n).isSigned = true := by
  unfold constantType
  split
  · rfl
  · split
    · rfl
    · rfl

namespace CType

theorem lower_nonpos (t : CType) : t.lower ≤ 0 := by
  cases t with
  | int => decide
  | uint => decide
  | long => decide
  | ulong => decide
  | int128 => decide

theorem upper_mono {s t : CType} (h : s.rank ≤ t.rank) : s.upper ≤ t.upper := by
  revert h
  cases s <;> cases t <;> decide

theorem lower_mono {s t : CType} (h : s.rank ≤ t.rank) (ht : t.isSigned = true) :
    t.lower ≤ s.lower := by
  revert h ht
  cases s <;> cases t <;> decide

theorem rank_le_join_left (s t : CType) : s.rank ≤ (s.join t).rank := by
  unfold join
  split <;> omega

theorem join_comm (s t : CType) : s.join t = t.join s := by
  cases s <;> cases t <;> rfl

theorem rank_le_join_right (s t : CType) : t.rank ≤ (s.join t).rank := by
  rw [join_comm]
  exact rank_le_join_left t s

theorem join_signed {s t : CType} (hs : s.isSigned = true) (ht : t.isSigned = true) :
    (s.join t).isSigned = true := by
  unfold join
  split
  · exact ht
  · exact hs

/-- A type keeps the values of the types before it that are not negative,
and a signed one all of them. -/
theorem Fits.mono {s t : CType} {v : Int} (h : s.Fits v) (hrank : s.rank ≤ t.rank)
    (hv : 0 ≤ v ∨ t.isSigned = true) : t.Fits v := by
  have hupper := upper_mono hrank
  obtain ⟨hlower, hle⟩ := h
  refine ⟨?_, by omega⟩
  obtain hv | hv := hv
  · have := t.lower_nonpos
    omega
  · have := lower_mono hrank hv
    omega

end CType

/-- Operands that are not negative, or meet in a signed type, are taken as
they are. -/
theorem wrap_join {a b : CValue}
    (h : (0 ≤ a.val ∧ 0 ≤ b.val) ∨ (a.type.join b.type).isSigned = true) :
    (a.type.join b.type).wrap a.val = a.val ∧ (a.type.join b.type).wrap b.val = b.val :=
  ⟨CType.wrap_of_fits (a.fits.mono (CType.rank_le_join_left a.type b.type) (h.imp_left (·.1))),
    CType.wrap_of_fits (b.fits.mono (CType.rank_le_join_right a.type b.type) (h.imp_left (·.2)))⟩

theorem relation_eq {rel : Int → Int → Bool} {a b : CValue}
    (h : (0 ≤ a.val ∧ 0 ≤ b.val) ∨ (a.type.join b.type).isSigned = true) :
    relation rel a b = rel a.val b.val := by
  rw [relation, (wrap_join h).1, (wrap_join h).2]

theorem arithmetic_eq {op : Int → Int → Int} {a b : CValue}
    (h : (0 ≤ a.val ∧ 0 ≤ b.val) ∨ (a.type.join b.type).isSigned = true) :
    arithmetic op a b = compute (a.type.join b.type) (op a.val b.val) := by
  rw [arithmetic, (wrap_join h).1, (wrap_join h).2]

end Aether.Lib.CInteger
