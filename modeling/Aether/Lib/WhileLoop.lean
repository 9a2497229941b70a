/-
Aether.Lib.WhileLoop — loops with a test and a body.

`turn` evaluates the test and the body of a loop once: it gives the next
state, or what the loop ends with. `loop` runs the turns on fuel; `Visits`
are the states at which the test is evaluated. A loop ends when a measure
falls with every turn, and what an invariant says at the last test is what
is known of the result.
-/
import Aether.Lib.Fuel

namespace Aether.Lib.WhileLoop

open Aether.Lib.Fuel

variable {σ ρ : Type}

inductive Turn (σ ρ : Type) where
  | again (s : σ)
  | done (r : ρ)

section

variable (turn : σ → Turn σ ρ)

def loop : Nat → σ → Option ρ
  | 0, _ => none
  | fuel + 1, s =>
    match turn s with
    | .again s' => loop fuel s'
    | .done r => some r

/-- The test is evaluated in this state after so many turns. -/
inductive Visits (s₀ : σ) : Nat → σ → Prop where
  | start : Visits s₀ 0 s₀
  | next {k : Nat} {s s' : σ} (h : Visits s₀ k s) (hturn : turn s = .again s') :
    Visits s₀ (k + 1) s'

end

variable {turn : σ → Turn σ ρ} {s₀ : σ}

theorem stable_loop (s : σ) : Stable fun fuel => loop turn fuel s := by
  refine stable_of_succ fun n => ?_
  induction n generalizing s with
  | zero => exact .none
  | succ n ih =>
    refine ⟨fun {r} h => ?_⟩
    rw [loop] at h ⊢
    cases hturn : turn s with
    | again s' =>
      rw [hturn] at h
      exact (ih s').result h
    | done r' =>
      rw [hturn] at h
      exact h

/-- What every turn keeps holds at every test. -/
theorem visits_invariant {I : Nat → σ → Prop} (hstart : I 0 s₀)
    (hnext : ∀ k s s', I k s → turn s = .again s' → I (k + 1) s') {k : Nat} {s : σ}
    (h : Visits turn s₀ k s) : I k s := by
  induction h with
  | start => exact hstart
  | next _ hturn ih => exact hnext _ _ _ ih hturn

/-- A loop with an invariant and a measure ends. -/
theorem returns_of_measure {I : σ → Prop} (μ : σ → Nat) {Q : ρ → Prop}
    (hagain : ∀ s s', I s → turn s = .again s' → I s' ∧ μ s' < μ s)
    (hdone : ∀ s r, I s → turn s = .done r → Q r) {s : σ} (hs : I s) :
    ∃ r, Returns (fun fuel => loop turn fuel s) r ∧ Q r := by
  induction hμ : μ s using Nat.strongRecOn generalizing s with
  | _ n ih =>
    cases hturn : turn s with
    | again s' =>
      obtain ⟨hs', hlt⟩ := hagain s s' hs hturn
      obtain ⟨r, ⟨fuel, hfuel⟩, hQ⟩ := ih (μ s') (hμ ▸ hlt) hs' rfl
      refine ⟨r, ⟨fuel + 1, ?_⟩, hQ⟩
      simpa [loop, hturn] using hfuel
    | done r => exact ⟨r, ⟨1, by simp [loop, hturn]⟩, hdone s r hs hturn⟩

/-- A loop whose test never fails does not return. -/
theorem loop_eq_none {I : σ → Prop} (h : ∀ s, I s → ∃ s', turn s = .again s' ∧ I s') (fuel : Nat) :
    ∀ s, I s → loop turn fuel s = none := by
  induction fuel with
  | zero => exact fun _ _ => rfl
  | succ fuel ih =>
    intro s hs
    obtain ⟨s', hturn, hs'⟩ := h s hs
    rw [loop, hturn]
    exact ih s' hs'

end Aether.Lib.WhileLoop
