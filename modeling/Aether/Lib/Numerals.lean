/-
Aether.Lib.Numerals — numbers as C prints them.

`decimal` is `%u` on a number of any size, `signedDecimal` is `%d` on a
32-bit word, and `hexFixed` is a hexadecimal number of a fixed width. A
numeral determines its number, and a bounded number has a short numeral.
`append_separator_inj` reads a name with a numeral behind it apart.
-/
import Mathlib.Data.List.Basic
import Aether.Bytes

namespace Aether.Lib.Numerals

def digit (n : Nat) : UInt8 := UInt8.ofNat (48 + n)

/-- `%u`. -/
def decimal (n : Nat) : Bytes :=
  if n < 10 then [digit n] else decimal (n / 10) ++ [digit (n % 10)]

/-- `%d` of a 32-bit word. -/
def signedDecimal (w : UInt32) : Bytes :=
  if w.toNat < 2 ^ 31 then decimal w.toNat else 45 :: decimal (2 ^ 32 - w.toNat)

/-- The last `width` hexadecimal digits; `ten` is the digit for 10. -/
def hexFixed (ten : UInt8) : Nat → Nat → Bytes
  | 0, _ => []
  | width + 1, n =>
    hexFixed ten width (n / 16) ++
      [if n % 16 < 10 then digit (n % 16) else ten + UInt8.ofNat (n % 16 - 10)]

-- the equations, before the proofs that share them
section
attribute [local simp] digit decimal signedDecimal hexFixed
end

@[simp] theorem length_hexFixed (ten : UInt8) (width n : Nat) :
    (hexFixed ten width n).length = width := by
  induction width generalizing n with
  | zero => rfl
  | succ width ih => simp [hexFixed, ih]

theorem mem_hexFixed {ten c : UInt8} {width n : Nat} (h : c ∈ hexFixed ten width n) :
    ∃ d < 16, c = if d < 10 then digit d else ten + UInt8.ofNat (d - 10) := by
  induction width generalizing n with
  | zero => simp [hexFixed] at h
  | succ width ih =>
    rw [hexFixed, List.mem_append] at h
    cases h with
    | inl h => exact ih h
    | inr h => exact ⟨n % 16, by omega, by simpa using h⟩

theorem toNat_hexDigit {ten : UInt8} (hten : ten.toNat ≤ 249) {d : Nat} (hd : d < 16) :
    (if d < 10 then digit d else ten + UInt8.ofNat (d - 10)).toNat =
      if d < 10 then 48 + d else ten.toNat + (d - 10) := by
  split
  · simp only [digit, UInt8.toNat_ofNat']
    omega
  · simp only [UInt8.toNat_add, UInt8.toNat_ofNat']
    omega

/-- A word has one numeral of its width. -/
theorem hexFixed_injective {ten : UInt8} (hlow : 58 ≤ ten.toNat) (hhigh : ten.toNat ≤ 249)
    {width m n : Nat} (hm : m < 16 ^ width) (hn : n < 16 ^ width)
    (h : hexFixed ten width m = hexFixed ten width n) : m = n := by
  induction width generalizing m n with
  | zero => omega
  | succ width ih =>
    obtain ⟨hquot, hlast⟩ := List.append_inj' h rfl
    have hq := ih (by rw [Nat.pow_succ] at hm; omega) (by rw [Nat.pow_succ] at hn; omega) hquot
    have hdigit := congrArg UInt8.toNat (List.singleton_inj.mp hlast)
    rw [toNat_hexDigit hhigh (Nat.mod_lt _ (by omega)),
      toNat_hexDigit hhigh (Nat.mod_lt _ (by omega))] at hdigit
    split at hdigit <;> split at hdigit <;> omega

theorem decimal_of_lt {n : Nat} (h : n < 10) : decimal n = [digit n] := by
  rw [decimal, if_pos h]

theorem decimal_of_le {n : Nat} (h : 10 ≤ n) :
    decimal n = decimal (n / 10) ++ [digit (n % 10)] := by
  rw [decimal, if_neg (Nat.not_lt.mpr h)]

theorem decimal_ne_nil (n : Nat) : decimal n ≠ [] := by
  rw [decimal]
  split <;> simp

theorem digit_inj {m n : Nat} (hm : m < 10) (hn : n < 10) (h : digit m = digit n) : m = n := by
  have hnat := congrArg UInt8.toNat h
  simp only [digit, UInt8.toNat_ofNat'] at hnat
  omega

/-- Every character of a numeral is a digit. -/
theorem digit_of_mem_decimal {n : Nat} {c : UInt8} (h : c ∈ decimal n) : ∃ m < 10, c = digit m := by
  induction n using Nat.strongRecOn with
  | ind n ih =>
    by_cases hlt : n < 10
    · rw [decimal_of_lt hlt] at h
      exact ⟨n, hlt, by simpa using h⟩
    · rw [decimal_of_le (by omega), List.mem_append] at h
      cases h with
      | inl h => exact ih (n / 10) (by omega) h
      | inr h => exact ⟨n % 10, by omega, by simpa using h⟩

theorem decimal_injective {m n : Nat} (h : decimal m = decimal n) : m = n := by
  induction m using Nat.strongRecOn generalizing n with
  | ind m ih =>
    -- the last digits agree, and so do the numerals of the quotients
    by_cases hm : m < 10 <;> by_cases hn : n < 10
    · rw [decimal_of_lt hm, decimal_of_lt hn, List.singleton_inj] at h
      exact digit_inj hm hn h
    · have hn' : 10 ≤ n := by omega
      rw [decimal_of_lt hm, decimal_of_le hn'] at h
      exact absurd (List.append_eq_singleton_iff.mp h.symm) (by simp [decimal_ne_nil])
    · have hm' : 10 ≤ m := by omega
      rw [decimal_of_lt hn, decimal_of_le hm'] at h
      exact absurd (List.append_eq_singleton_iff.mp h) (by simp [decimal_ne_nil])
    · have hm' : 10 ≤ m := by omega
      have hn' : 10 ≤ n := by omega
      rw [decimal_of_le hm', decimal_of_le hn'] at h
      obtain ⟨hquot, hlast⟩ := List.append_inj' h rfl
      have hq := ih (m / 10) (by omega) hquot
      have hr := digit_inj (by omega) (by omega) (List.singleton_inj.mp hlast)
      omega

theorem length_decimal_le {n k : Nat} (h : n < 10 ^ (k + 1)) : (decimal n).length ≤ k + 1 := by
  induction k generalizing n with
  | zero => rw [decimal_of_lt (by simpa using h)]; simp
  | succ k ih =>
    by_cases hlt : n < 10
    · rw [decimal_of_lt hlt]; simp
    · have hq : n / 10 < 10 ^ (k + 1) := by
        rw [Nat.pow_succ] at h
        exact Nat.div_lt_of_lt_mul (by omega)
      rw [decimal_of_le (by omega), List.length_append]
      have := ih hq
      simpa using this

theorem signedDecimal_injective {v w : UInt32} (h : signedDecimal v = signedDecimal w) : v = w := by
  have hv := v.toNat_lt
  have hw := w.toNat_lt
  have hsign : ∀ m n : Nat, decimal m ≠ 45 :: decimal n := by
    intro m n heq
    obtain ⟨k, hk, hdigit⟩ := digit_of_mem_decimal (heq ▸ List.mem_cons_self : (45 : UInt8) ∈ decimal m)
    have hnat := congrArg UInt8.toNat hdigit
    simp [digit] at hnat
    omega
  apply UInt32.toNat_inj.mp
  unfold signedDecimal at h
  split at h <;> split at h
  · exact decimal_injective h
  · exact absurd h (hsign _ _)
  · exact absurd h.symm (hsign _ _)
  · have := decimal_injective (List.cons_inj_right 45 |>.mp h)
    omega

theorem length_signedDecimal_le (w : UInt32) : (signedDecimal w).length ≤ 11 := by
  have hw := w.toNat_lt
  unfold signedDecimal
  split
  · exact Nat.le_succ_of_le (length_decimal_le (by omega : w.toNat < 10 ^ (9 + 1)))
  · have := length_decimal_le (by omega : 2 ^ 32 - w.toNat < 10 ^ (9 + 1))
    simp only [List.length_cons]
    omega

/-- What follows the last separator, and what is before it. -/
theorem append_separator_inj {α : Type*} {x : α} {a b c d : List α} (hb : x ∉ b) (hd : x ∉ d)
    (h : a ++ x :: b = c ++ x :: d) : a = c ∧ b = d := by
  rcases List.append_eq_append_iff.mp h with ⟨more, hc, hsep⟩ | ⟨more, ha, hsep⟩
  · cases more with
    | nil => exact ⟨by simpa using hc.symm, (List.cons.inj hsep).2⟩
    | cons y more => exact absurd ((List.cons.inj hsep).2 ▸ by simp) hb
  · cases more with
    | nil => exact ⟨by simpa using ha, (List.cons.inj hsep).2.symm⟩
    | cons y more => exact absurd ((List.cons.inj hsep).2 ▸ by simp) hd

end Aether.Lib.Numerals
