/-
Aether.Lib.BoundedWriter — pieces of text into a buffer of fixed size.

A piece that does not fit is dropped, and the ones after it may still fit.
Each piece may have been shortened before it is written. What is in the
buffer is the text asked for exactly if no piece was shortened and all of
them together fit (`writeAll_eq_iff`).
-/
import Mathlib.Data.List.Forall2

namespace Aether.Lib.BoundedWriter

variable {α : Type*} {cap : Nat} {out s f : List α} {ss fs : List (List α)}

/-- Room for one more element stays behind the text. -/
def write (cap : Nat) (out s : List α) : List α :=
  if out.length + s.length < cap then out ++ s else out

def writeAll (cap : Nat) (out : List α) (ss : List (List α)) : List α := ss.foldl (write cap) out

@[simp] theorem writeAll_nil : writeAll cap out [] = out := rfl

@[simp] theorem writeAll_cons : writeAll cap out (s :: ss) = writeAll cap (write cap out s) ss := rfl

theorem length_write_le : (write cap out s).length ≤ out.length + s.length := by
  rw [write]
  split <;> simp

theorem length_writeAll_le : (writeAll cap out ss).length ≤ out.length + ss.flatten.length := by
  induction ss generalizing out with
  | nil => simp
  | cons s ss ih =>
    have hwrite : (write cap out s).length ≤ out.length + s.length := length_write_le
    have hrest : (writeAll cap (write cap out s) ss).length ≤
        (write cap out s).length + ss.flatten.length := ih
    rw [writeAll_cons, List.flatten_cons, List.length_append]
    omega

theorem length_writeAll_lt (h : out.length < cap) : (writeAll cap out ss).length < cap := by
  induction ss generalizing out with
  | nil => exact h
  | cons s ss ih =>
    refine ih ?_
    rw [write]
    split
    · simpa
    · exact h

theorem writeAll_of_lt (h : out.length + ss.flatten.length < cap) :
    writeAll cap out ss = out ++ ss.flatten := by
  induction ss generalizing out with
  | nil => simp
  | cons s ss ih =>
    rw [List.flatten_cons, List.length_append] at h
    have hwrite : write cap out s = out ++ s := if_pos (by omega)
    rw [writeAll_cons, hwrite, ih (by rw [List.length_append]; omega), List.flatten_cons,
      List.append_assoc]

/-- What is passed on of a piece: all of it, or something shorter. -/
def Cut (s f : List α) : Prop := s = f ∨ s.length < f.length

theorem Cut.length_le (h : Cut s f) : s.length ≤ f.length := by
  cases h with
  | inl h => exact Nat.le_of_eq (congrArg List.length h)
  | inr h => exact Nat.le_of_lt h

/-- A piece is never longer for being cut off somewhere. -/
theorem Cut.take {p : List α} (n : Nat) (h : Cut p f) : Cut (p.take n) f := by
  by_cases hn : p.length ≤ n
  · rwa [List.take_of_length_le hn]
  · right
    have hle := h.length_le
    rw [List.length_take]
    omega

theorem length_flatten_le (h : List.Forall₂ Cut ss fs) : ss.flatten.length ≤ fs.flatten.length := by
  induction h with
  | nil => simp
  | cons hcut _ ih =>
    have hle := hcut.length_le
    rw [List.flatten_cons, List.flatten_cons, List.length_append, List.length_append]
    omega

theorem eq_of_length_flatten_le (h : List.Forall₂ Cut ss fs)
    (hle : fs.flatten.length ≤ ss.flatten.length) : ss = fs := by
  induction h with
  | nil => rfl
  | cons hcut hrest ih =>
    have hcutle := hcut.length_le
    have hrestle := length_flatten_le hrest
    rw [List.flatten_cons, List.flatten_cons, List.length_append, List.length_append] at hle
    rw [ih (by omega)]
    cases hcut with
    | inl heq => rw [heq]
    | inr hlt => omega

/-- The buffer has the text that was asked for exactly if no piece was cut
and the text fits. -/
theorem writeAll_eq_iff (hcap : 0 < cap) (h : List.Forall₂ Cut ss fs) :
    writeAll cap [] ss = fs.flatten ↔ ss = fs ∧ fs.flatten.length < cap := by
  constructor
  · intro htext
    have hlt : (writeAll cap [] ss).length < cap := length_writeAll_lt (by simpa using hcap)
    have hle : (writeAll cap [] ss).length ≤ [].length + ss.flatten.length := length_writeAll_le
    rw [htext] at hlt hle
    exact ⟨eq_of_length_flatten_le h (by simpa using hle), hlt⟩
  · intro ⟨heq, hlt⟩
    rw [heq, writeAll_of_lt (by simpa using hlt), List.nil_append]

end Aether.Lib.BoundedWriter
