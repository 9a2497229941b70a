/-
Aether.Lib.RingBuffer — bounded sequences, and the window of a circular
array that stores one.

* `Bounded α cap` is a sequence of at most `cap` elements with insertion
  and removal at both ends; an insertion into a full sequence changes
  nothing.
* `window cap data front n` reads `n` elements of a circular array from
  position `front` on. A write at one end of the window, with the window
  grown by one, is an insertion at that end; a window shrunk by one at an
  end lost that end's element.
-/
import Mathlib.Data.List.Basic
import Mathlib.Data.Nat.ModEq

namespace Aether.Lib.RingBuffer

/-! ## §1 Bounded sequences -/

/-- A sequence of at most `cap` elements. -/
structure Bounded (α : Type*) (cap : Nat) where
  items : List α
  bounded : items.length ≤ cap

namespace Bounded

variable {α : Type*} {cap : Nat}

theorem length_concat_le {items : List α} (value : α) (h : items.length < cap) :
    (items ++ [value]).length ≤ cap := by
  rw [List.length_append]
  exact h

@[ext] theorem ext {s t : Bounded α cap} (h : s.items = t.items) : s = t := by
  cases s; cases t; cases h; rfl

def empty (α : Type*) (cap : Nat) : Bounded α cap := ⟨[], Nat.zero_le cap⟩

def pushBack (s : Bounded α cap) (value : α) : Bounded α cap :=
  if h : s.items.length < cap then ⟨s.items ++ [value], length_concat_le value h⟩ else s

def pushFront (s : Bounded α cap) (value : α) : Bounded α cap :=
  if h : s.items.length < cap then ⟨value :: s.items, h⟩ else s

def popFront (s : Bounded α cap) : Bounded α cap × Option α :=
  (⟨s.items.tail, by have := s.bounded; simp; omega⟩, s.items.head?)

def popBack (s : Bounded α cap) : Bounded α cap × Option α :=
  (⟨s.items.dropLast, by have := s.bounded; simp; omega⟩, s.items.getLast?)

@[simp] theorem empty_items : (empty α cap).items = [] := rfl

theorem pushBack_items_of_lt {s : Bounded α cap} (value : α) (h : s.items.length < cap) :
    (s.pushBack value).items = s.items ++ [value] := by
  simp [pushBack, h]

theorem pushFront_items_of_lt {s : Bounded α cap} (value : α) (h : s.items.length < cap) :
    (s.pushFront value).items = value :: s.items := by
  simp [pushFront, h]

/-- A full sequence takes no further element, at either end. -/
theorem push_of_full {s : Bounded α cap} (value : α) (h : cap ≤ s.items.length) :
    s.pushBack value = s ∧ s.pushFront value = s := by
  simp [pushBack, pushFront, Nat.not_lt.mpr h]

/-- Nothing is removed from an empty sequence. -/
theorem pop_of_empty {s : Bounded α cap} (h : s.items = []) :
    s.popFront = (s, none) ∧ s.popBack = (s, none) := by
  constructor <;> refine Prod.ext (ext ?_) ?_ <;> simp [popFront, popBack, h]

end Bounded

/-! ## §2 The window of a circular array -/

section Window

variable {α : Type*} {cap : Nat} {data : List α}

/-- The `n` elements of the circular array `data` from position `front`
on; `d` stands for what is read outside the array. -/
def window (d : α) (cap : Nat) (data : List α) (front : Nat) : Nat → List α
  | 0 => []
  | n + 1 => data.getD front d :: window d cap data ((front + 1) % cap) n

@[simp] theorem length_window (d : α) (front n : Nat) :
    (window d cap data front n).length = n := by
  induction n generalizing front with
  | zero => rfl
  | succ n ih => simp [window, ih]

/-- The slot after the slot `n` places from `front`. -/
theorem next_slot (front n : Nat) : ((front + 1) % cap + n) % cap = (front + (n + 1)) % cap := by
  rw [Nat.mod_add_mod]
  congr 1
  omega

/-- Two slots of one window of at most `cap` places differ. -/
theorem slot_inj {front n m : Nat} (hn : n < cap) (hm : m < cap)
    (heq : (front + n) % cap = (front + m) % cap) : n = m := by
  have hmod : n ≡ m [MOD cap] := Nat.ModEq.add_left_cancel' front heq
  exact Nat.ModEq.eq_of_lt_of_lt hmod hn hm

/-- The window grows at its back by the element of the next slot. -/
theorem window_succ_back (d : α) {front : Nat} (hfront : front < cap) (n : Nat) :
    window d cap data front (n + 1)
      = window d cap data front n ++ [data.getD ((front + n) % cap) d] := by
  induction n generalizing front with
  | zero => simp [window, Nat.mod_eq_of_lt hfront]
  | succ n ih =>
    have hnext : (front + 1) % cap < cap := Nat.mod_lt _ (by omega)
    rw [window, ih hnext, next_slot]
    simp [window]

/-- A write outside the window does not change it. -/
theorem window_set_of_ne (d : α) {front n i : Nat} (value : α) (hfront : front < cap)
    (hne : ∀ m < n, (front + m) % cap ≠ i) :
    window d cap (data.set i value) front n = window d cap data front n := by
  induction n generalizing front with
  | zero => rfl
  | succ n ih =>
    have hhead : front ≠ i := by
      have := hne 0 (by omega)
      rwa [Nat.add_zero, Nat.mod_eq_of_lt hfront] at this
    have hnext : (front + 1) % cap < cap := Nat.mod_lt _ (by omega)
    have htail : ∀ m < n, ((front + 1) % cap + m) % cap ≠ i := fun m hm => by
      rw [next_slot]
      exact hne (m + 1) (by omega)
    have hread : (data.set i value).getD front d = data.getD front d := by
      simp [List.getD_eq_getElem?_getD, List.getElem?_set_ne (Ne.symm hhead)]
    rw [window, window, ih hnext htail, hread]

theorem getD_set_self (d : α) {i : Nat} (value : α) (hi : i < data.length) :
    (data.set i value).getD i d = value := by
  simp [List.getD_eq_getElem?_getD, hi]

/-- Writing at the slot behind the window and growing it by one inserts at
the back. -/
theorem window_pushBack (d : α) {front n : Nat} (value : α) (hlen : data.length = cap)
    (hfront : front < cap) (hn : n < cap) :
    window d cap (data.set ((front + n) % cap) value) front (n + 1)
      = window d cap data front n ++ [value] := by
  have hslot : (front + n) % cap < data.length := hlen ▸ Nat.mod_lt _ (by omega)
  have hkeep : ∀ m < n, (front + m) % cap ≠ (front + n) % cap := fun m hm heq =>
    absurd (slot_inj (by omega) hn heq) (by omega)
  rw [window_succ_back d hfront, window_set_of_ne d value hfront hkeep, getD_set_self d value hslot]

/-- Writing at the slot before the window and starting it there inserts at
the front. -/
theorem window_pushFront (d : α) {front before n : Nat} (value : α) (hlen : data.length = cap)
    (hbefore : before < cap) (hnext : (before + 1) % cap = front) (hn : n < cap) :
    window d cap (data.set before value) before (n + 1) = value :: window d cap data front n := by
  have hfront : front < cap := hnext ▸ Nat.mod_lt _ (by omega)
  have hkeep : ∀ m < n, (front + m) % cap ≠ before := fun m hm heq => by
    rw [← hnext, next_slot] at heq
    have hzero : (before + (m + 1)) % cap = (before + 0) % cap := by
      rw [heq, Nat.add_zero, Nat.mod_eq_of_lt hbefore]
    exact absurd (slot_inj (by omega) (by omega) hzero) (by omega)
  rw [window, hnext, window_set_of_ne d value hfront hkeep,
    getD_set_self d value (hlen ▸ hbefore)]

end Window

end Aether.Lib.RingBuffer
