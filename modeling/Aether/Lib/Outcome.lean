/-
Aether.Lib.Outcome — computations that may fail.

`Ends x b P` says both when `x` succeeds, exactly when `b` holds, and what
is then true of its result. The rules follow the way computations are put
together.
-/
import Mathlib.Tactic.Common

namespace Aether.Lib.Outcome

variable {ε α β : Type}

/-- `x` succeeds exactly when `b` holds, with a result of which `P` holds. -/
def Ends (x : Except ε α) (b : Bool) (P : α → Prop) : Prop :=
  match x with
  | .ok a => b = true ∧ P a
  | .error _ => b = false

variable {x : Except ε α} {b : Bool} {P : α → Prop} {Q : β → Prop}

namespace Ends

theorem ok {a : α} (h : P a) : Ends (.ok a : Except ε α) true P := ⟨rfl, h⟩

theorem error (e : ε) : Ends (.error e : Except ε α) false P := rfl

theorem bind {g : α → Except ε β} {b' : Bool} (h : Ends x b P)
    (hg : ∀ a, P a → Ends (g a) b' Q) : Ends (x >>= g) (b && b') Q := by
  cases x with
  | ok a =>
    rw [h.1, Bool.true_and]
    exact hg a h.2
  | error e =>
    have hb : b = false := h
    rw [hb, Bool.false_and]
    exact error e

theorem map {g : α → β} (h : Ends x b P) (hg : ∀ a, P a → Q (g a)) :
    Ends (x >>= fun a => pure (g a)) b Q := by
  rw [← Bool.and_true b]
  exact h.bind fun a ha => ok (hg a ha)

theorem succeeds_iff (h : Ends x b P) : (∃ a, x = .ok a) ↔ b = true := by
  cases x with
  | ok a => simp [h.1]
  | error e =>
    have hb : b = false := h
    simp [hb]

theorem result {a : α} (h : Ends x b P) (hx : x = .ok a) : P a := by
  subst hx
  exact h.2

end Ends

end Aether.Lib.Outcome
