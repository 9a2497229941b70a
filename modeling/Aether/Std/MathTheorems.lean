/-
Aether.Std.MathTheorems — what the loops and the recursion of `std/math.ae`
return.
-/
import Aether.Std.Math
import Mathlib.Data.Nat.Factorial.Basic
import Mathlib.Data.Nat.Fib.Basic
import Mathlib.Data.Nat.ModEq
import Mathlib.Data.Nat.Prime.Basic
import Mathlib.Tactic.Linarith
import Mathlib.Tactic.Ring

namespace Aether.Std

open Lib.Fuel Lib.WhileLoop

/-! ## §1 integerSquareRoot -/

/-- Newton's step does not go below the root. -/
theorem sqrt_le_step (n : Nat) {g : Nat} (hg : 0 < g) : n.sqrt ≤ (g + n / g) / 2 := by
  have hsq := Nat.sqrt_le n
  have hdiv : n < g * (n / g + 1) := Nat.lt_mul_div_succ n hg
  rw [Nat.le_div_iff_mul_le (by omega)]
  by_contra hlt
  have hlt : n / g + 1 + g ≤ n.sqrt * 2 := by omega
  obtain ⟨d, hd⟩ : ∃ d, n.sqrt * 2 = n / g + 1 + g + d := ⟨_, (Nat.add_sub_of_le hlt).symm⟩
  nlinarith [sq_nonneg ((n.sqrt : ℤ) - g), Nat.zero_le (g * d)]

/-- A guess whose step does not go down is the root. -/
theorem sqrt_of_step_le {n x : Nat} (hroot : n.sqrt ≤ x) (hx : x ≤ (x + n / x) / 2) : x = n.sqrt := by
  have hle : x ≤ n / x := by omega
  have hsq : x * x ≤ n := Nat.mul_le_of_le_div x x n hle
  exact Nat.le_antisymm (Nat.le_sqrt.mpr hsq) hroot

/-- A guess and its quotient do not overflow. -/
theorem add_div_le {n g : Nat} (hg : 0 < g) (hgn : g ≤ n) : g + n / g ≤ n + 1 := by
  have hq : 1 ≤ n / g := (Nat.one_le_div_iff hg).mpr hgn
  have hmul : g * (n / g) ≤ n := Nat.mul_div_le n g
  nlinarith

/-- The guess, and the next one, which is not below the root. -/
structure SqrtInvariant (value : UInt64) (s : SqrtState) : Prop where
  x_pos : 0 < s.x.toNat
  x_le : s.x.toNat ≤ value.toNat
  y_eq : s.y.toNat = (s.x.toNat + value.toNat / s.x.toNat) / 2
  root_le : value.toNat.sqrt ≤ s.x.toNat

theorem udiv_ok {a b : UInt64} (hb : b ≠ 0) : udiv a b = .ok (a / b) := if_neg hb

theorem umod_ok {a b : UInt64} (hb : b ≠ 0) : umod a b = .ok (a % b) := if_neg hb

theorem integerSquareRootTurn_again {value : UInt64} (hmax : value.toNat < 2 ^ 64 - 1)
    (htwo : 2 ≤ value.toNat) {s s' : SqrtState} (h : SqrtInvariant value s)
    (hturn : integerSquareRootTurn value s = .again s') :
    SqrtInvariant value s' ∧ s'.x.toNat < s.x.toNat := by
  have hroot : value.toNat.sqrt ≤ s.y.toNat := by
    rw [h.y_eq]
    exact sqrt_le_step _ h.x_pos
  have hpos : 0 < value.toNat.sqrt := Nat.sqrt_pos.mpr (by omega)
  have hy : s.y ≠ 0 := by
    intro hzero
    rw [hzero] at hroot
    exact absurd hroot (Nat.not_le.mpr hpos)
  unfold integerSquareRootTurn at hturn
  split at hturn
  · next hlt =>
    rw [udiv_ok hy] at hturn
    cases hturn
    have hlt : s.y.toNat < s.x.toNat := UInt64.lt_iff_toNat_lt.mp hlt
    have hypos : 0 < s.y.toNat := Nat.lt_of_lt_of_le hpos hroot
    have hyle : s.y.toNat ≤ value.toNat := Nat.le_trans (Nat.le_of_lt hlt) h.x_le
    have hsum := add_div_le hypos hyle
    refine ⟨⟨hypos, hyle, ?_, hroot⟩, hlt⟩
    rw [UInt64.toNat_div, UInt64.toNat_add, UInt64.toNat_div, Nat.mod_eq_of_lt (by omega)]
    rfl
  · cases hturn

theorem integerSquareRootTurn_done {value : UInt64} (htwo : 2 ≤ value.toNat) {s : SqrtState}
    {r : Except Fault UInt64} (h : SqrtInvariant value s)
    (hturn : integerSquareRootTurn value s = .done r) : ∃ root, r = .ok root ∧
      root.toNat = value.toNat.sqrt := by
  have hroot : value.toNat.sqrt ≤ s.y.toNat := by
    rw [h.y_eq]
    exact sqrt_le_step _ h.x_pos
  have hpos : 0 < value.toNat.sqrt := Nat.sqrt_pos.mpr (by omega)
  have hy : s.y ≠ 0 := by
    intro hzero
    rw [hzero] at hroot
    exact absurd hroot (Nat.not_le.mpr hpos)
  unfold integerSquareRootTurn at hturn
  split at hturn
  · rw [udiv_ok hy] at hturn
    cases hturn
  · next hge =>
    cases hturn
    have hge : s.x.toNat ≤ s.y.toNat := by
      rw [← UInt64.le_iff_toNat_le]
      exact UInt64.not_lt.mp hge
    rw [h.y_eq] at hge
    exact ⟨s.x, rfl, sqrt_of_step_le h.root_le hge⟩

/-- Below the largest value the loop returns the root. -/
theorem integerSquareRoot_returns {value : UInt64} (hmax : value.toNat < 2 ^ 64 - 1) :
    ∃ root, Returns (fun fuel => integerSquareRoot fuel value) (.ok root) ∧
      root.toNat = value.toNat.sqrt := by
  by_cases hsmall : value < 2
  · have hlt : value.toNat < 2 := UInt64.lt_iff_toNat_lt.mp hsmall
    refine ⟨value, ⟨0, if_pos hsmall⟩, ?_⟩
    obtain hzero | hone : value.toNat = 0 ∨ value.toNat = 1 := by omega
    · rw [hzero]; rfl
    · rw [hone]; rfl
  · have htwo : 2 ≤ value.toNat := by
      have hle := UInt64.le_iff_toNat_le.mp (UInt64.not_lt.mp hsmall)
      exact hle
    have hstart : SqrtInvariant value ⟨value, (value + 1) / 2⟩ := by
      refine ⟨Nat.lt_of_lt_of_le (by decide) htwo, Nat.le_refl _, ?_, Nat.sqrt_le_self _⟩
      rw [UInt64.toNat_div, UInt64.toNat_add, Nat.div_self (by omega), UInt64.toNat_one,
        Nat.mod_eq_of_lt (by omega)]
      rfl
    obtain ⟨r, ⟨fuel, hfuel⟩, root, rfl, hroot⟩ :=
      returns_of_measure (fun s : SqrtState => s.x.toNat)
        (fun s s' hs hturn => integerSquareRootTurn_again hmax htwo hs hturn)
        (fun s r hs hturn => integerSquareRootTurn_done htwo hs hturn) hstart
    exact ⟨root, ⟨fuel, (if_neg hsmall).trans hfuel⟩, hroot⟩

theorem stable_integerSquareRoot (value : UInt64) :
    Stable fun fuel => integerSquareRoot fuel value := by
  unfold integerSquareRoot
  split
  · exact stable_const _
  · exact stable_loop _

def IsFloorSqrt (value root : UInt64) : Prop :=
  root.toNat * root.toNat ≤ value.toNat ∧ value.toNat < (root.toNat + 1) * (root.toNat + 1)

/-- At the largest value the first guess wraps to zero, by which the loop divides. -/
theorem integerSquareRoot_max :
    Returns (fun fuel => integerSquareRoot fuel 0xFFFFFFFFFFFFFFFF) (.error .divideByZero) :=
  ⟨1, rfl⟩

/-- The loop returns the floor of the square root for all values but the largest. -/
theorem integerSquareRoot_iff (value : UInt64) :
    (∃ root, Returns (fun fuel => integerSquareRoot fuel value) (.ok root) ∧
      IsFloorSqrt value root) ↔ value ≠ 0xFFFFFFFFFFFFFFFF := by
  constructor
  · rintro ⟨root, hroot, -⟩ rfl
    have heq := Returns.unique (stable_integerSquareRoot _) hroot integerSquareRoot_max
    cases heq
  · intro hmax
    have hlt : value.toNat < 2 ^ 64 - 1 := by
      have hle := value.toNat_lt
      have hne : value.toNat ≠ 2 ^ 64 - 1 := fun heq => hmax (UInt64.toNat_inj.mp heq)
      omega
    obtain ⟨root, hreturns, hroot⟩ := integerSquareRoot_returns hlt
    refine ⟨root, hreturns, ?_⟩
    rw [IsFloorSqrt, hroot]
    exact ⟨Nat.sqrt_le _, Nat.lt_succ_sqrt _⟩

/-- The program ends in a division by zero. -/
theorem integerSquareRoot_wraps : ¬ ∃ root,
    Returns (fun fuel => integerSquareRoot fuel 0xFFFFFFFFFFFFFFFF) (.ok root) ∧
      IsFloorSqrt 0xFFFFFFFFFFFFFFFF root := by
  rintro ⟨root, hroot, -⟩
  have heq := Returns.unique (stable_integerSquareRoot _) hroot integerSquareRoot_max
  cases heq

/-! ## §2 power -/

theorem toNat_mul_modEq (x y : UInt64) : (x * y).toNat ≡ x.toNat * y.toNat [MOD 2 ^ 64] := by
  rw [UInt64.toNat_mul]
  exact Nat.mod_modEq _ _

theorem and_one_iff (e : UInt64) : e &&& 1 = 1 ↔ e.toNat % 2 = 1 := by
  rw [← UInt64.toNat_inj, UInt64.toNat_and, UInt64.toNat_one, Nat.and_one_is_mod]

theorem toNat_shiftRight_one (e : UInt64) : (e >>> 1).toNat = e.toNat / 2 := by
  rw [UInt64.toNat_shiftRight]
  exact Nat.shiftRight_one _

/-- What is still to be multiplied, times the result so far. -/
def PowerInvariant (base exponent : UInt64) (s : PowerState) : Prop :=
  s.result.toNat * s.b.toNat ^ s.e.toNat ≡ base.toNat ^ exponent.toNat [MOD 2 ^ 64]

theorem powerTurn_again {base exponent : UInt64} {s s' : PowerState}
    (h : PowerInvariant base exponent s) (hturn : powerTurn s = .again s') :
    PowerInvariant base exponent s' ∧ s'.e.toNat < s.e.toNat := by
  unfold powerTurn at hturn
  split at hturn
  · next hpos =>
    cases hturn
    have hpos : 0 < s.e.toNat := UInt64.lt_iff_toNat_lt.mp hpos
    refine ⟨?_, by rw [toNat_shiftRight_one]; omega⟩
    have hsquare := toNat_mul_modEq s.b s.b
    have hhalf := Nat.div_add_mod s.e.toNat 2
    refine Nat.ModEq.trans ?_ h
    show (if s.e &&& 1 = 1 then s.result * s.b else s.result).toNat *
      (s.b * s.b).toNat ^ (s.e >>> 1).toNat ≡ s.result.toNat * s.b.toNat ^ s.e.toNat [MOD 2 ^ 64]
    rw [toNat_shiftRight_one]
    split
    · next hodd =>
      have hodd := (and_one_iff s.e).mp hodd
      have hpow : s.result.toNat * s.b.toNat ^ s.e.toNat =
          s.result.toNat * s.b.toNat * (s.b.toNat * s.b.toNat) ^ (s.e.toNat / 2) := by
        conv_lhs => rw [← hhalf, hodd, pow_succ, pow_mul]
        ring
      rw [hpow]
      exact (toNat_mul_modEq _ _).mul (hsquare.pow _)
    · next heven =>
      have heven : s.e.toNat % 2 = 0 := by
        have := mt (and_one_iff s.e).mpr heven
        omega
      have hpow : s.result.toNat * s.b.toNat ^ s.e.toNat =
          s.result.toNat * (s.b.toNat * s.b.toNat) ^ (s.e.toNat / 2) := by
        conv_lhs => rw [← hhalf, heven, Nat.add_zero, pow_mul]
        ring
      rw [hpow]
      exact (Nat.ModEq.refl _).mul (hsquare.pow _)
  · cases hturn

theorem powerTurn_done {base exponent : UInt64} {s : PowerState} {r : UInt64}
    (h : PowerInvariant base exponent s) (hturn : powerTurn s = .done r) :
    r.toNat = base.toNat ^ exponent.toNat % 2 ^ 64 := by
  unfold powerTurn at hturn
  split at hturn
  · cases hturn
  · next hzero =>
    cases hturn
    have hzero : s.e.toNat = 0 := by
      have hle := UInt64.le_iff_toNat_le.mp (UInt64.not_lt.mp hzero)
      exact Nat.le_zero.mp hle
    rw [PowerInvariant, hzero, pow_zero, Nat.mul_one] at h
    rw [← Nat.mod_eq_of_lt s.result.toNat_lt]
    exact h

theorem power_returns (base exponent : UInt64) : ∃ p,
    Returns (fun fuel => power fuel base exponent) p ∧
      p.toNat = base.toNat ^ exponent.toNat % 2 ^ 64 := by
  by_cases hzero : exponent = 0
  · refine ⟨1, ⟨0, if_pos hzero⟩, ?_⟩
    rw [hzero]
    rfl
  · have hstart : PowerInvariant base exponent ⟨1, base, exponent⟩ := by
      show 1 * base.toNat ^ exponent.toNat ≡ _ [MOD _]
      rw [Nat.one_mul]
    obtain ⟨p, ⟨fuel, hfuel⟩, hp⟩ := returns_of_measure (fun s : PowerState => s.e.toNat)
      (fun s s' hs hturn => powerTurn_again hs hturn) (fun s r hs hturn => powerTurn_done hs hturn)
      hstart
    exact ⟨p, ⟨fuel, (if_neg hzero).trans hfuel⟩, hp⟩

/-! ## §3 greatestCommonDivisor, leastCommonMultiple -/

theorem greatestCommonDivisor_returns (a b : UInt64) : ∃ g,
    Returns (fun fuel => greatestCommonDivisor fuel a b) (.ok g) ∧
      g.toNat = Nat.gcd a.toNat b.toNat := by
  induction hb : b.toNat using Nat.strongRecOn generalizing a b with
  | _ n ih =>
    by_cases hzero : b = 0
    · refine ⟨a, ⟨1, if_pos hzero⟩, ?_⟩
      rw [← hb, hzero]
      exact (Nat.gcd_zero_right _).symm
    · have hpos : 0 < b.toNat := Nat.pos_of_ne_zero fun h => hzero (UInt64.toNat_inj.mp h)
      have hlt : (a % b).toNat < n := by
        rw [UInt64.toNat_mod, ← hb]
        exact Nat.mod_lt _ hpos
      obtain ⟨g, ⟨fuel, hfuel⟩, hg⟩ := ih (a % b).toNat hlt b (a % b) rfl
      refine ⟨g, ⟨fuel + 1, ?_⟩, ?_⟩
      · simpa [greatestCommonDivisor, hzero, umod_ok hzero] using hfuel
      · rw [hg, UInt64.toNat_mod, Nat.gcd_comm b.toNat, ← Nat.gcd_rec, hb, Nat.gcd_comm]

theorem leastCommonMultiple_returns (a b : UInt64) : ∃ l,
    Returns (fun fuel => leastCommonMultiple fuel a b) (.ok l) ∧
      l.toNat = Nat.lcm a.toNat b.toNat % 2 ^ 64 := by
  by_cases hzero : a = 0 ∨ b = 0
  · refine ⟨0, ⟨0, if_pos hzero⟩, ?_⟩
    obtain rfl | rfl := hzero
    · simp
    · simp
  · obtain ⟨g, ⟨fuel, hfuel⟩, hg⟩ := greatestCommonDivisor_returns a b
    have ha : a.toNat ≠ 0 := fun h => hzero (.inl (UInt64.toNat_inj.mp h))
    have hgpos : 0 < g.toNat := by
      rw [hg]
      exact Nat.gcd_pos_of_pos_left _ (Nat.pos_of_ne_zero ha)
    have hgne : g ≠ 0 := by
      rintro rfl
      exact absurd hgpos (by decide)
    refine ⟨a / g * b, ⟨fuel, ?_⟩, ?_⟩
    · simp only [leastCommonMultiple, if_neg hzero, hfuel, Option.map_some]
      show some ((udiv a g).bind fun quotient => .ok (quotient * b)) = _
      rw [udiv_ok hgne]
      rfl
    · rw [UInt64.toNat_mul, UInt64.toNat_div, hg, Nat.lcm_eq_mul_div, Nat.div_mul_right_comm (Nat.gcd_dvd_left _ _)]

/-- Powers, divisors and multiples are exact modulo 2^64, and nothing divides by zero. -/
theorem power_gcd_lcm_correct (a b : UInt64) :
    (∃ p, Returns (fun fuel => power fuel a b) p ∧ p.toNat = a.toNat ^ b.toNat % 2 ^ 64) ∧
      (∃ g, Returns (fun fuel => greatestCommonDivisor fuel a b) (.ok g) ∧
        g.toNat = Nat.gcd a.toNat b.toNat) ∧
      Returns (fun fuel => greatestCommonDivisor fuel a 0) (.ok a) ∧
      ∃ l, Returns (fun fuel => leastCommonMultiple fuel a b) (.ok l) ∧
        l.toNat = Nat.lcm a.toNat b.toNat % 2 ^ 64 ∧ (a = 0 ∨ b = 0 → l = 0) := by
  obtain ⟨l, hreturns, hl⟩ := leastCommonMultiple_returns a b
  refine ⟨power_returns a b, greatestCommonDivisor_returns a b, ⟨1, rfl⟩, l, hreturns, hl, ?_⟩
  intro hzero
  apply UInt64.toNat_inj.mp
  rw [hl]
  obtain rfl | rfl := hzero
  · simp
  · simp

/-! ## §4 isPrime -/

/-- The tests of the loop see the counter that was meant, and its exact square. -/
def IsPrimeTestsExact (value : UInt64) : Prop :=
  ∀ k i, Visits (isPrimeTurn value) 3 k i → i.toNat = 3 + 2 * k ∧ i.toNat * i.toNat < 2 ^ 64

structure IsPrimeMeets (value : UInt64) : Prop where
  returns : ∃ b, Returns (fun fuel => isPrime fuel value) (.ok b) ∧
    (b = true ↔ value.toNat.Prime)
  exact : 4 ≤ value → value % 2 ≠ 0 → IsPrimeTestsExact value

theorem mul_self_le_iff {i value : UInt64} (h : i.toNat * i.toNat < 2 ^ 64) :
    i * i ≤ value ↔ i.toNat * i.toNat ≤ value.toNat := by
  rw [UInt64.le_iff_toNat_le, UInt64.toNat_mul, Nat.mod_eq_of_lt h]

theorem toNat_add_two {i : UInt64} (h : i.toNat < 2 ^ 64 - 2) : (i + 2).toNat = i.toNat + 2 := by
  rw [UInt64.toNat_add]
  exact Nat.mod_eq_of_lt (by show i.toNat + 2 < 2 ^ 64; omega)

theorem mod_eq_zero_iff {a b : UInt64} : a % b = 0 ↔ b.toNat ∣ a.toNat := by
  rw [← UInt64.toNat_inj, UInt64.toNat_mod, Nat.dvd_iff_mod_eq_zero]
  rfl

/-- A turn whose test is exact. -/
theorem isPrimeTurn_eq {value i : UInt64} (hpos : 0 < i.toNat) (h : i.toNat * i.toNat < 2 ^ 64) :
    isPrimeTurn value i = if i.toNat * i.toNat ≤ value.toNat then
      if i.toNat ∣ value.toNat then .done (.ok false) else .again (i + 2)
    else .done (.ok true) := by
  have hne : i ≠ 0 := by
    rintro rfl
    cases hpos
  simp only [isPrimeTurn, umod_ok hne, mul_self_le_iff h, mod_eq_zero_iff]

/-- Where the counter stands while nothing has wrapped. -/
structure Counts (i : UInt64) : Prop where
  odd : i.toNat % 2 = 1
  three_le : 3 ≤ i.toNat
  lt : i.toNat < 2 ^ 32

theorem Counts.mul_lt {i : UInt64} (h : Counts i) : i.toNat * i.toNat < 2 ^ 64 := by
  have hmul : i.toNat * i.toNat < 2 ^ 32 * 2 ^ 32 := Nat.mul_lt_mul'' h.lt h.lt
  omega

/-- The loop finds the least factor of a number that is not prime. -/
theorem isPrime_composite {value : UInt64} (hfour : 4 ≤ value.toNat) (hodd : value.toNat % 2 = 1)
    (hprime : ¬ value.toNat.Prime) :
    Returns (fun fuel => loop (isPrimeTurn value) fuel 3) (.ok false) ∧
      IsPrimeTestsExact value := by
  set p := value.toNat.minFac with hp
  have hsq : p * p ≤ value.toNat := by
    have h := Nat.minFac_sq_le_self (by omega) hprime
    rwa [pow_two] at h
  have hdvd : p ∣ value.toNat := Nat.minFac_dvd _
  have hlt : p < 2 ^ 32 := by
    by_contra hge
    have hmul : 2 ^ 32 * 2 ^ 32 ≤ p * p := Nat.mul_le_mul (by omega) (by omega)
    have hmax := value.toNat_lt
    omega
  have hpodd : p % 2 = 1 := by
    obtain ⟨q, hq⟩ := hdvd
    by_contra heven
    obtain ⟨r, hr⟩ : ∃ r, p = 2 * r := ⟨p / 2, by omega⟩
    rw [hq, hr, Nat.mul_assoc] at hodd
    omega
  have hthree : 3 ≤ p := by
    have htwo := (Nat.minFac_prime (show value.toNat ≠ 1 by omega)).two_le
    omega
  -- the counter goes up to the factor
  have hturn : ∀ i, Counts i ∧ i.toNat ≤ p →
      isPrimeTurn value i = .done (.ok false) ∨
        isPrimeTurn value i = .again (i + 2) ∧ Counts (i + 2) ∧ (i + 2).toNat ≤ p ∧
          (i + 2).toNat = i.toNat + 2 := by
    intro i ⟨hi, hle⟩
    have hthree := hi.three_le
    have hilt := hi.lt
    have hiodd := hi.odd
    rw [isPrimeTurn_eq (by omega) hi.mul_lt,
      if_pos (Nat.le_trans (Nat.mul_le_mul hle hle) hsq)]
    by_cases hdiv : i.toNat ∣ value.toNat
    · exact .inl (if_pos hdiv)
    · have hne : i.toNat ≠ p := fun heq => hdiv (heq ▸ hdvd)
      have hadd := toNat_add_two (show i.toNat < 2 ^ 64 - 2 by omega)
      refine .inr ⟨if_neg hdiv, ⟨?_, ?_, ?_⟩, ?_, hadd⟩ <;> omega
  have hstart : Counts 3 ∧ (3 : UInt64).toNat ≤ p := ⟨⟨by decide, by decide, by decide⟩, hthree⟩
  constructor
  · have hreturns : ∃ r, Returns (fun fuel => loop (isPrimeTurn value) fuel 3) r ∧ r = .ok false :=
      returns_of_measure (I := fun i => Counts i ∧ i.toNat ≤ p)
      (fun i => p - i.toNat)
      (fun i i' hi hagain => by
        obtain hdone | ⟨hnext, hcounts, hle, hadd⟩ := hturn i hi
        · rw [hdone] at hagain
          cases hagain
        · rw [hnext] at hagain
          cases hagain
          exact ⟨⟨hcounts, hle⟩, by omega⟩)
      (fun i r hi hdone => by
        obtain hd | ⟨hnext, -⟩ := hturn i hi
        · rw [hd] at hdone
          cases hdone
          rfl
        · rw [hnext] at hdone
          cases hdone) hstart
    obtain ⟨r, hr, rfl⟩ := hreturns
    exact hr
  · intro k i hvisit
    obtain ⟨⟨hcounts, -⟩, hk⟩ := visits_invariant
      (I := fun k i => (Counts i ∧ i.toNat ≤ p) ∧ i.toNat = 3 + 2 * k) ⟨hstart, rfl⟩
      (fun k i i' ⟨hi, hk⟩ hagain => by
        obtain hdone | ⟨hnext, hcounts, hle, hadd⟩ := hturn i hi
        · rw [hdone] at hagain
          cases hagain
        · rw [hnext] at hagain
          cases hagain
          exact ⟨⟨hcounts, hle⟩, by omega⟩) hvisit
    exact ⟨hk, hcounts.mul_lt⟩

/-- A prime is divided by no counter whose square is not above it. -/
theorem isPrimeTurn_prime {value i : UInt64} (hprime : value.toNat.Prime) (hi : Counts i) :
    isPrimeTurn value i =
      if i.toNat * i.toNat ≤ value.toNat then .again (i + 2) else .done (.ok true) := by
  have hthree := hi.three_le
  rw [isPrimeTurn_eq (by omega) hi.mul_lt]
  split
  · next hle =>
    rw [if_neg]
    intro hdvd
    obtain hone | hself := (Nat.dvd_prime hprime).mp hdvd
    · omega
    · rw [← hself] at hle
      nlinarith
  · rfl

/-- The last counter whose square does not wrap. -/
def lastCounter : Nat := 2 ^ 32 - 1

/-- The square of the last counter stays above a smaller prime. -/
theorem isPrime_prime {value : UInt64} (hprime : value.toNat.Prime)
    (hsmall : value.toNat < lastCounter * lastCounter) :
    Returns (fun fuel => loop (isPrimeTurn value) fuel 3) (.ok true) ∧ IsPrimeTestsExact value := by
  have hnext : ∀ i i', Counts i → isPrimeTurn value i = .again i' →
      Counts i' ∧ i'.toNat = i.toNat + 2 := by
    intro i i' hi hagain
    rw [isPrimeTurn_prime hprime hi] at hagain
    split at hagain
    · next hle =>
      cases hagain
      have hthree := hi.three_le
      have hodd := hi.odd
      have hlt : i.toNat < lastCounter := Nat.mul_self_lt_mul_self_iff.mp (Nat.lt_of_le_of_lt hle hsmall)
      rw [lastCounter] at hlt
      have hadd := toNat_add_two (show i.toNat < 2 ^ 64 - 2 by omega)
      refine ⟨⟨?_, ?_, ?_⟩, hadd⟩ <;> omega
    · cases hagain
  have hstart : Counts 3 := ⟨by decide, by decide, by decide⟩
  constructor
  · have hreturns : ∃ r, Returns (fun fuel => loop (isPrimeTurn value) fuel 3) r ∧ r = .ok true :=
      returns_of_measure (I := Counts)
      (fun i => 2 ^ 32 - i.toNat)
      (fun i i' hi hagain => by
        obtain ⟨hi', hadd⟩ := hnext i i' hi hagain
        have hlt := hi.lt
        exact ⟨hi', by omega⟩)
      (fun i r hi hdone => by
        rw [isPrimeTurn_prime hprime hi] at hdone
        split at hdone
        · cases hdone
        · cases hdone
          rfl) hstart
    obtain ⟨r, hr, rfl⟩ := hreturns
    exact hr
  · intro k i hvisit
    obtain ⟨hi, hk⟩ := visits_invariant (I := fun k i => Counts i ∧ i.toNat = 3 + 2 * k)
      ⟨hstart, rfl⟩
      (fun k i i' ⟨hi, hk⟩ hagain => by
        obtain ⟨hi', hadd⟩ := hnext i i' hi hagain
        exact ⟨hi', by omega⟩) hvisit
    exact ⟨hk, hi.mul_lt⟩

/-- At a larger prime the loop comes to a counter whose square wraps. -/
theorem isPrime_wraps {value : UInt64} (hprime : value.toNat.Prime)
    (hlarge : lastCounter * lastCounter ≤ value.toNat) : ¬ IsPrimeTestsExact value := by
  have hvisits : ∀ k, k < 2 ^ 31 → Visits (isPrimeTurn value) 3 k (UInt64.ofNat (3 + 2 * k)) := by
    intro k
    induction k with
    | zero => exact fun _ => .start
    | succ k ih =>
      intro hk
      have hnat : (UInt64.ofNat (3 + 2 * k)).toNat = 3 + 2 * k :=
        UInt64.toNat_ofNat_of_lt' (by show 3 + 2 * k < 2 ^ 64; omega)
      have hi : Counts (UInt64.ofNat (3 + 2 * k)) := by
        refine ⟨?_, ?_, ?_⟩ <;> rw [hnat] <;> omega
      have hle : 3 + 2 * k ≤ lastCounter := by
        rw [lastCounter]
        omega
      have hadd := toNat_add_two (show (UInt64.ofNat (3 + 2 * k)).toNat < 2 ^ 64 - 2 by
        rw [hnat]; omega)
      have hsame : UInt64.ofNat (3 + 2 * (k + 1)) = UInt64.ofNat (3 + 2 * k) + 2 := by
        apply UInt64.toNat_inj.mp
        rw [hadd, hnat, UInt64.toNat_ofNat_of_lt' (by show 3 + 2 * (k + 1) < 2 ^ 64; omega)]
        omega
      rw [hsame]
      refine (ih (by omega)).next ?_
      rw [isPrimeTurn_prime hprime hi, if_pos]
      rw [hnat]
      exact Nat.le_trans (Nat.mul_le_mul hle hle) hlarge
  intro hexact
  obtain ⟨-, hlt⟩ := hexact (2 ^ 31 - 1) _ (hvisits _ (by omega))
  exact absurd hlt (by decide)

theorem not_two_dvd_iff {value : UInt64} : value % 2 = 0 ↔ value.toNat % 2 = 0 := by
  rw [← UInt64.toNat_inj, UInt64.toNat_mod]
  rfl

theorem stable_isPrime (value : UInt64) : Stable fun fuel => isPrime fuel value := by
  unfold isPrime
  split
  · exact stable_const _
  · split
    · exact stable_const _
    · split
      · exact stable_const _
      · exact stable_loop _

theorem isPrimeMeets_iff (value : UInt64) :
    IsPrimeMeets value ↔ ¬ (value.toNat.Prime ∧ lastCounter * lastCounter ≤ value.toNat) := by
  by_cases hloop : 4 ≤ value ∧ value % 2 ≠ 0
  · obtain ⟨hfour, heven⟩ := hloop
    have hfourNat : 4 ≤ value.toNat := UInt64.le_iff_toNat_le.mp hfour
    have hodd : value.toNat % 2 = 1 := by
      have h := mt not_two_dvd_iff.mpr heven
      omega
    have htwo : ¬ value < 2 := by
      rw [UInt64.lt_iff_toNat_lt]
      show ¬ value.toNat < 2
      omega
    have hbody : (fun fuel => isPrime fuel value) = fun fuel => loop (isPrimeTurn value) fuel 3 := by
      funext fuel
      rw [isPrime, if_neg htwo, if_neg (UInt64.not_lt.mpr hfour), if_neg heven]
    constructor
    · intro hmeets ⟨hprime, hlarge⟩
      exact isPrime_wraps hprime hlarge (hmeets.exact hfour heven)
    · intro hgood
      by_cases hprime : value.toNat.Prime
      · have hsmall : value.toNat < lastCounter * lastCounter := by
          by_contra hlarge
          exact hgood ⟨hprime, Nat.not_lt.mp hlarge⟩
        obtain ⟨hreturns, hexact⟩ := isPrime_prime hprime hsmall
        exact ⟨⟨true, by rwa [hbody], by simp [hprime]⟩, fun _ _ => hexact⟩
      · obtain ⟨hreturns, hexact⟩ := isPrime_composite hfourNat hodd hprime
        exact ⟨⟨false, by rwa [hbody], by simp [hprime]⟩, fun _ _ => hexact⟩
  · have hexact : 4 ≤ value → value % 2 ≠ 0 → IsPrimeTestsExact value := fun h h' =>
      absurd ⟨h, h'⟩ hloop
    have hgood : ¬ (value.toNat.Prime ∧ lastCounter * lastCounter ≤ value.toNat) := by
      rintro ⟨hprime, hlarge⟩
      have hfour : 4 ≤ value.toNat := Nat.le_trans (by decide) hlarge
      refine hloop ⟨UInt64.le_iff_toNat_le.mpr hfour, fun heven => ?_⟩
      obtain htwo | hodd := hprime.eq_two_or_odd
      · omega
      · have h := not_two_dvd_iff.mp heven
        omega
    refine iff_of_true ⟨?_, hexact⟩ hgood
    by_cases htwo : value < 2
    · have hlt : value.toNat < 2 := UInt64.lt_iff_toNat_lt.mp htwo
      refine ⟨false, ⟨0, if_pos htwo⟩, ?_⟩
      have hnot : ¬ value.toNat.Prime := fun hprime => absurd hprime.two_le (Nat.not_le.mpr hlt)
      simp [hnot]
    · have hge : 2 ≤ value.toNat := UInt64.le_iff_toNat_le.mp (UInt64.not_lt.mp htwo)
      by_cases hfour : value < 4
      · have hlt : value.toNat < 4 := UInt64.lt_iff_toNat_lt.mp hfour
        refine ⟨true, ⟨0, by simp [isPrime, htwo, hfour]⟩, ?_⟩
        obtain h | h : value.toNat = 2 ∨ value.toNat = 3 := by omega
        · simp [h, Nat.prime_two]
        · simp [h, Nat.prime_three]
      · have hge : 4 ≤ value.toNat := UInt64.le_iff_toNat_le.mp (UInt64.not_lt.mp hfour)
        have heven : value % 2 = 0 := by
          by_contra hodd
          exact hloop ⟨UInt64.not_lt.mp hfour, hodd⟩
        refine ⟨false, ⟨0, by simp [isPrime, htwo, hfour, heven]⟩, ?_⟩
        have hnot : ¬ value.toNat.Prime := fun hprime => by
          obtain htwo | hodd := hprime.eq_two_or_odd
          · omega
          · have h := not_two_dvd_iff.mp heven
            omega
        simp [hnot]

/-! ## §5 factorial, fibonacci -/

/-- The tests of the loop see the counter that was meant. -/
def CountTestsExact {α : Type} (value : UInt64) (body : UInt64 → α → α) (vars : α) : Prop :=
  ∀ k s, Visits (countTurn value body) ⟨vars, 2⟩ k s → s.i.toNat = 2 + k

section

variable {α : Type} {value : UInt64} {body : UInt64 → α → α} {vars : α}

/-- What holds of the variables when the counter comes to a number. -/
structure CountInvariant (value : UInt64) (P : Nat → α → Prop) (s : Counted α) : Prop where
  two_le : 2 ≤ s.i.toNat
  le : s.i.toNat ≤ value.toNat + 1
  holds : P s.i.toNat s.vars

theorem countTurn_again (hmax : value.toNat < 2 ^ 64 - 1) {P : Nat → α → Prop}
    (hstep : ∀ i vars, 2 ≤ i.toNat → P i.toNat vars → P (i.toNat + 1) (body i vars))
    {s s' : Counted α}
    (h : CountInvariant value P s) (hturn : countTurn value body s = .again s') :
    CountInvariant value P s' ∧ s'.i.toNat = s.i.toNat + 1 := by
  unfold countTurn at hturn
  split at hturn
  · next hle =>
    cases hturn
    have hle := UInt64.le_iff_toNat_le.mp hle
    have htwo := h.two_le
    have hadd : (s.i + 1).toNat = s.i.toNat + 1 := by
      rw [UInt64.toNat_add]
      exact Nat.mod_eq_of_lt (by show s.i.toNat + 1 < 2 ^ 64; omega)
    refine ⟨⟨?_, ?_, ?_⟩, hadd⟩
    · show 2 ≤ (s.i + 1).toNat
      omega
    · show (s.i + 1).toNat ≤ _
      omega
    · show P (s.i + 1).toNat _
      rw [hadd]
      exact hstep _ _ htwo h.holds
  · cases hturn

/-- Below the largest value the loop comes to its end. -/
theorem count_returns (hmax : value.toNat < 2 ^ 64 - 1) (htwo : 1 ≤ value.toNat)
    {P : Nat → α → Prop}
    (hstep : ∀ i vars, 2 ≤ i.toNat → P i.toNat vars → P (i.toNat + 1) (body i vars))
    (hstart : P 2 vars) : ∃ r,
      Returns (fun fuel => loop (countTurn value body) fuel ⟨vars, 2⟩) r ∧ P (value.toNat + 1) r := by
  have hinv : CountInvariant value P ⟨vars, 2⟩ := ⟨Nat.le_refl _, Nat.succ_le_succ htwo, hstart⟩
  refine returns_of_measure (fun s : Counted α => value.toNat + 1 - s.i.toNat)
    (fun s s' hs hturn => ?_) (fun s r hs hturn => ?_) hinv
  · obtain ⟨hs', hadd⟩ := countTurn_again hmax hstep hs hturn
    have hle := hs'.le
    exact ⟨hs', by omega⟩
  · unfold countTurn at hturn
    split at hturn
    · cases hturn
    · next hgt =>
      cases hturn
      have hgt := UInt64.lt_iff_toNat_lt.mp (UInt64.not_le.mp hgt)
      have hle := hs.le
      have heq : s.i.toNat = value.toNat + 1 := by omega
      rw [← heq]
      exact hs.holds

theorem count_testsExact (hmax : value.toNat < 2 ^ 64 - 1) (htwo : 1 ≤ value.toNat) :
    CountTestsExact value body vars := by
  intro k s hvisit
  have hinv : CountInvariant value (fun _ _ => True) ⟨vars, 2⟩ :=
    ⟨Nat.le_refl _, Nat.succ_le_succ htwo, trivial⟩
  refine (visits_invariant (I := fun k s => CountInvariant value (fun _ _ => True) s ∧
    s.i.toNat = 2 + k) ⟨hinv, rfl⟩ (fun k s s' ⟨hs, hk⟩ hturn => ?_) hvisit).2
  obtain ⟨hs', hadd⟩ := countTurn_again hmax (fun _ _ _ _ => trivial) hs hturn
  exact ⟨hs', by omega⟩

/-- At the largest value the test never fails. -/
theorem count_max (fuel : Nat) (s : Counted α) :
    loop (countTurn 0xFFFFFFFFFFFFFFFF body) fuel s = none := by
  refine loop_eq_none (I := fun _ => True) (fun s _ => ⟨_, if_pos ?_, trivial⟩) fuel s trivial
  rw [UInt64.le_iff_toNat_le]
  exact Nat.le_pred_of_lt s.i.toNat_lt

end

structure FactorialMeets (value : UInt64) : Prop where
  returns : ∃ r, Returns (fun fuel => factorial fuel value) r ∧
    r.toNat = value.toNat.factorial % 2 ^ 64
  exact : 1 < value → CountTestsExact value factorialBody 1

structure FibonacciMeets (value : UInt64) : Prop where
  returns : ∃ r, Returns (fun fuel => fibonacci fuel value) r ∧ r.toNat = Nat.fib value.toNat % 2 ^ 64
  exact : 1 < value → CountTestsExact value fibonacciBody (0, 1)

/-- The variable is the factorial of the last number multiplied in. -/
def FactorialAt (i : Nat) (result : UInt64) : Prop :=
  result.toNat ≡ (i - 1).factorial [MOD 2 ^ 64]

theorem factorialBody_at {i result : UInt64} (htwo : 2 ≤ i.toNat)
    (h : FactorialAt i.toNat result) : FactorialAt (i.toNat + 1) (factorialBody i result) := by
  obtain ⟨n, hn⟩ : ∃ n, i.toNat = n + 1 := ⟨i.toNat - 1, by omega⟩
  rw [FactorialAt, hn] at h
  rw [FactorialAt]
  refine (toNat_mul_modEq result i).trans ?_
  rw [hn, Nat.add_sub_cancel, Nat.factorial_succ, Nat.mul_comm (n + 1)]
  exact h.mul_right _

theorem factorialMeets {value : UInt64} (hmax : value.toNat < 2 ^ 64 - 1) : FactorialMeets value where
  exact hone := count_testsExact hmax (Nat.le_of_lt (UInt64.lt_iff_toNat_lt.mp hone))
  returns := by
    by_cases hsmall : value ≤ 1
    · refine ⟨1, ⟨0, if_pos hsmall⟩, ?_⟩
      have hle : value.toNat ≤ 1 := UInt64.le_iff_toNat_le.mp hsmall
      obtain h | h : value.toNat = 0 ∨ value.toNat = 1 := by omega
      · rw [h]; rfl
      · rw [h]; rfl
    · have hone : 1 < value.toNat := UInt64.lt_iff_toNat_lt.mp (UInt64.not_le.mp hsmall)
      have hreturns : ∃ r, Returns (fun fuel => loop (countTurn value factorialBody) fuel ⟨1, 2⟩) r ∧
          FactorialAt (value.toNat + 1) r :=
        count_returns hmax (Nat.le_of_lt hone) (fun _ _ htwo h => factorialBody_at htwo h) rfl
      obtain ⟨r, ⟨fuel, hfuel⟩, hr⟩ := hreturns
      refine ⟨r, ⟨fuel, (if_neg hsmall).trans hfuel⟩, ?_⟩
      rw [← Nat.mod_eq_of_lt r.toNat_lt]
      exact hr

/-- The two variables are the two last numbers of the sequence. -/
def FibonacciAt (i : Nat) (vars : UInt64 × UInt64) : Prop :=
  vars.1.toNat ≡ Nat.fib (i - 2) [MOD 2 ^ 64] ∧ vars.2.toNat ≡ Nat.fib (i - 1) [MOD 2 ^ 64]

theorem fibonacciBody_at {i : UInt64} {vars : UInt64 × UInt64} (htwo : 2 ≤ i.toNat)
    (h : FibonacciAt i.toNat vars) : FibonacciAt (i.toNat + 1) (fibonacciBody i vars) := by
  obtain ⟨n, hn⟩ : ∃ n, i.toNat = n + 2 := ⟨i.toNat - 2, by omega⟩
  rw [FibonacciAt, hn] at h
  obtain ⟨ha, hb⟩ := h
  rw [FibonacciAt, hn]
  refine ⟨hb, ?_⟩
  show (vars.1 + vars.2).toNat ≡ Nat.fib (n + 2) [MOD 2 ^ 64]
  rw [UInt64.toNat_add, Nat.fib_add_two]
  exact (Nat.mod_modEq _ _).trans (ha.add hb)

theorem fibonacciMeets {value : UInt64} (hmax : value.toNat < 2 ^ 64 - 1) : FibonacciMeets value where
  exact hone := count_testsExact hmax (Nat.le_of_lt (UInt64.lt_iff_toNat_lt.mp hone))
  returns := by
    by_cases hzero : value = 0
    · subst hzero
      exact ⟨0, ⟨0, rfl⟩, rfl⟩
    · by_cases hone : value = 1
      · subst hone
        exact ⟨1, ⟨0, rfl⟩, rfl⟩
      · have hzeroNat : value.toNat ≠ 0 := fun h => hzero (UInt64.toNat_inj.mp h)
        have hreturns : ∃ r,
            Returns (fun fuel => loop (countTurn value fibonacciBody) fuel ⟨(0, 1), 2⟩) r ∧
              FibonacciAt (value.toNat + 1) r :=
          count_returns hmax (Nat.one_le_iff_ne_zero.mpr hzeroNat)
            (fun _ _ htwo h => fibonacciBody_at htwo h) ⟨rfl, rfl⟩
        obtain ⟨r, ⟨fuel, hfuel⟩, hr⟩ := hreturns
        refine ⟨r.2, ⟨fuel, ?_⟩, ?_⟩
        · simp only [fibonacci, if_neg hzero, if_neg hone, hfuel, Option.map_some]
        · rw [← Nat.mod_eq_of_lt r.2.toNat_lt]
          exact hr.2

/-- The one value at which the counter never passes the argument. -/
theorem toNat_lt_max_iff {value : UInt64} :
    value.toNat < 2 ^ 64 - 1 ↔ value ≠ 0xFFFFFFFFFFFFFFFF := by
  rw [ne_eq, ← UInt64.toNat_inj]
  have hlt := value.toNat_lt
  show value.toNat < 2 ^ 64 - 1 ↔ ¬ value.toNat = 2 ^ 64 - 1
  omega

theorem factorialMeets_iff (value : UInt64) :
    FactorialMeets value ↔ value ≠ 0xFFFFFFFFFFFFFFFF := by
  constructor
  · intro hmeets heq
    subst heq
    obtain ⟨r, ⟨fuel, hfuel⟩, -⟩ := hmeets.returns
    have hnone : factorial fuel 0xFFFFFFFFFFFFFFFF = none := count_max fuel _
    simp [hnone] at hfuel
  · exact fun hne => factorialMeets (toNat_lt_max_iff.mpr hne)

theorem fibonacciMeets_iff (value : UInt64) :
    FibonacciMeets value ↔ value ≠ 0xFFFFFFFFFFFFFFFF := by
  constructor
  · intro hmeets heq
    subst heq
    obtain ⟨r, ⟨fuel, hfuel⟩, -⟩ := hmeets.returns
    have hnone : fibonacci fuel 0xFFFFFFFFFFFFFFFF = none := by
      show (loop _ fuel _).map Prod.snd = none
      rw [count_max]
      rfl
    simp [hnone] at hfuel
  · exact fun hne => fibonacciMeets (toNat_lt_max_iff.mpr hne)

/-- The loops end with exact tests but at the largest value and at the primes no counter's square
passes. -/
theorem counting_loops_iff (value : UInt64) :
    IsPrimeMeets value ∧ FactorialMeets value ∧ FibonacciMeets value ↔
      value ≠ 0xFFFFFFFFFFFFFFFF ∧
        ¬ (value.toNat.Prime ∧ lastCounter * lastCounter ≤ value.toNat) := by
  rw [isPrimeMeets_iff, factorialMeets_iff, fibonacciMeets_iff]
  tauto

/-- The factorial of the largest value never returns. -/
theorem factorial_endless :
    ¬ ∃ r, Returns (fun fuel => factorial fuel 0xFFFFFFFFFFFFFFFF) r := by
  rintro ⟨r, fuel, hfuel⟩
  have hnone : factorial fuel 0xFFFFFFFFFFFFFFFF = none := count_max fuel _
  simp [hnone] at hfuel

end Aether.Std
