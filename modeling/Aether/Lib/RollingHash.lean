/-
Aether.Lib.RollingHash — hashes of the form `h ↦ h * base + code x`.

`rolling` is the hash over the natural numbers, where it is the polynomial
of the message at `base`. A hash in machine words is its remainder
(`foldl_eq_mod`). `rolling_modEq_iff`: for messages of one length, what is
in front of them makes no difference to a collision.
-/
import Mathlib.Data.Nat.ModEq
import Mathlib.Tactic.Ring

namespace Aether.Lib.RollingHash

variable {α W : Type*} {base size : ℕ} {code : α → ℕ}

def rolling (base : ℕ) (code : α → ℕ) (seed : ℕ) (message : List α) : ℕ :=
  message.foldl (fun h x => h * base + code x) seed

theorem rolling_append (seed : ℕ) (xs ys : List α) :
    rolling base code seed (xs ++ ys) = rolling base code (rolling base code seed xs) ys :=
  List.foldl_append

/-- The seed is the leading coefficient. -/
theorem rolling_seed (seed : ℕ) (message : List α) :
    rolling base code seed message =
      seed * base ^ message.length + rolling base code 0 message := by
  induction message generalizing seed with
  | nil => simp [rolling]
  | cons x message ih =>
    have hseed := ih (seed * base + code x)
    have hzero := ih (0 * base + code x)
    simp only [rolling, List.foldl_cons, List.length_cons] at hseed hzero ⊢
    rw [hseed, hzero]
    ring

/-- A hash in words is the remainder of the one over the numbers. -/
theorem foldl_eq_mod {step : W → α → W} {val : W → ℕ}
    (hstep : ∀ h x, val (step h x) = (val h * base + code x) % size)
    {seed : W} (hseed : val seed < size) (message : List α) :
    val (message.foldl step seed) = rolling base code (val seed) message % size := by
  have hgo : ∀ (h : W) (n : ℕ), val h = n % size →
      val (message.foldl step h) = rolling base code n message % size := by
    induction message with
    | nil => exact fun _ _ h => h
    | cons x message ih =>
      intro h n hn
      refine ih (step h x) (n * base + code x) ?_
      rw [hstep, hn, Nat.add_mod, Nat.mod_mul_mod, ← Nat.add_mod]
  exact hgo seed (val seed) (Nat.mod_eq_of_lt hseed).symm

/-- Whether two messages of one length collide does not depend on what is in
front of them. -/
theorem rolling_modEq_iff (seed : ℕ) {xs ys : List α} (hlen : xs.length = ys.length) :
    rolling base code seed xs ≡ rolling base code seed ys [MOD size] ↔
      rolling base code 0 xs ≡ rolling base code 0 ys [MOD size] := by
  rw [rolling_seed seed xs, rolling_seed seed ys, hlen]
  exact ⟨Nat.ModEq.add_left_cancel' _, Nat.ModEq.add_left _⟩

end Aether.Lib.RollingHash
