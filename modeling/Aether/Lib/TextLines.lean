/-
Aether.Lib.TextLines — text in lines, and operands behind commas.

An assembler reads lines, so a text that is one line after the other has
one reading as lines (`unlines_inj`). Within a line the part up to the
first separator is fixed (`append_cons_inj`), which is how one operand
is told from the next. `intDecimal` is `%ld`.
-/
import Aether.Lib.Numerals

namespace Aether.Lib.TextLines

open Aether.Lib.Numerals

/-! ## §1 Lines -/

/-- Every line with its newline. -/
def unlines (lines : List Bytes) : Bytes := lines.flatMap (· ++ [10])

@[simp] theorem unlines_nil : unlines [] = [] := rfl

@[simp] theorem unlines_cons (l : Bytes) (ls : List Bytes) :
    unlines (l :: ls) = l ++ 10 :: unlines ls := by
  simp [unlines]

@[simp] theorem unlines_append (ls ms : List Bytes) :
    unlines (ls ++ ms) = unlines ls ++ unlines ms := by
  simp [unlines]

theorem unlines_flatMap {α : Type*} (f : α → List Bytes) (xs : List α) :
    unlines (xs.flatMap f) = xs.flatMap fun x => unlines (f x) := by
  induction xs with
  | nil => rfl
  | cons x xs ih => simp [ih]

/-- What stands before the first separator, and what is after it. -/
theorem append_cons_inj {α : Type*} {x : α} {a b c d : List α} (ha : x ∉ a) (hc : x ∉ c)
    (h : a ++ x :: b = c ++ x :: d) : a = c ∧ b = d := by
  have hrev := congrArg List.reverse h
  simp only [List.reverse_append, List.reverse_cons, List.append_assoc, List.cons_append,
    List.nil_append] at hrev
  obtain ⟨hbd, hac⟩ := append_separator_inj (by simpa using ha) (by simpa using hc) hrev
  exact ⟨List.reverse_injective hac, List.reverse_injective hbd⟩

/-- A text without a separator is not one with a separator in it. -/
theorem ne_append_cons {α : Type*} {x : α} {a b c : List α} (ha : x ∉ a) : a ≠ b ++ x :: c := by
  rintro rfl
  simp at ha

theorem unlines_inj {ls ms : List Bytes} (hls : ∀ l ∈ ls, (10 : UInt8) ∉ l)
    (hms : ∀ l ∈ ms, (10 : UInt8) ∉ l) (h : unlines ls = unlines ms) : ls = ms := by
  induction ls generalizing ms with
  | nil =>
    cases ms with
    | nil => rfl
    | cons m ms => simp at h
  | cons l ls ih =>
    cases ms with
    | nil => simp at h
    | cons m ms =>
      rw [unlines_cons, unlines_cons] at h
      obtain ⟨rfl, hrest⟩ := append_cons_inj (hls l (by simp)) (hms m (by simp)) h
      rw [ih (fun x hx => hls x (by simp [hx])) (fun x hx => hms x (by simp [hx])) hrest]

section Reading

variable {ι κ : Type*} {line : κ → Bytes} {lines : ι → List Bytes} {read : ι → Option (List κ)}
  {ok : κ → Prop}

/-- Lines written for each of the `xs` and read as items: they are the items
that each of the `xs` is read as, one after the other. -/
theorem read_of_lines (hread : ∀ x items, (∀ k ∈ items, ok k) → items.map line = lines x →
      read x = some items) {xs : List ι} {items : List κ} (hok : ∀ k ∈ items, ok k)
    (h : items.map line = xs.flatMap lines) :
    (∀ x ∈ xs, (read x).isSome) ∧ items = xs.flatMap fun x => (read x).getD [] := by
  induction xs generalizing items with
  | nil => simpa using h
  | cons x xs ih =>
    rw [List.flatMap_cons, List.map_eq_append_iff] at h
    obtain ⟨first, rest, hitems, hfirst, hrest⟩ := h
    subst hitems
    have hx := hread x first (fun k hk => hok k (by simp [hk])) hfirst
    obtain ⟨hsome, hall⟩ := ih (fun k hk => hok k (by simp [hk])) hrest
    constructor
    · intro y hy
      cases List.mem_cons.mp hy with
      | inl h => simp [h, hx]
      | inr h => exact hsome y h
    · rw [List.flatMap_cons, hx, Option.getD_some, ← hall]

theorem lines_of_read (hline : ∀ x items, read x = some items → items.map line = lines x)
    {xs : List ι} (hsome : ∀ x ∈ xs, (read x).isSome) :
    (xs.flatMap fun x => (read x).getD []).map line = xs.flatMap lines := by
  induction xs with
  | nil => rfl
  | cons x xs ih =>
    obtain ⟨first, hx⟩ := Option.isSome_iff_exists.mp (hsome x (by simp))
    rw [List.flatMap_cons, List.flatMap_cons, List.map_append, hx, Option.getD_some,
      hline x first hx, ih fun y hy => hsome y (by simp [hy])]

end Reading

/-! ## §2 Signed numerals -/

/-- `%ld`. -/
def intDecimal (i : Int) : Bytes := if i < 0 then 45 :: decimal i.natAbs else decimal i.natAbs

theorem digit_range {n : Nat} (h : n < 10) : 48 ≤ (digit n).toNat ∧ (digit n).toNat ≤ 57 := by
  simp only [digit, UInt8.toNat_ofNat']
  omega

/-- A signed numeral is made of digits and a minus sign. -/
theorem mem_intDecimal {i : Int} {c : UInt8} (h : c ∈ intDecimal i) :
    c = 45 ∨ (48 ≤ c.toNat ∧ c.toNat ≤ 57) := by
  have hdigits : ∀ n, c ∈ decimal n → 48 ≤ c.toNat ∧ c.toNat ≤ 57 := by
    intro n hc
    obtain ⟨m, hm, rfl⟩ := digit_of_mem_decimal hc
    exact digit_range hm
  unfold intDecimal at h
  split at h
  · cases List.mem_cons.mp h with
    | inl h => exact .inl h
    | inr h => exact .inr (hdigits _ h)
  · exact .inr (hdigits _ h)

theorem intDecimal_ne_nil (i : Int) : intDecimal i ≠ [] := by
  unfold intDecimal
  split <;> simp [decimal_ne_nil]

theorem intDecimal_injective {i j : Int} (h : intDecimal i = intDecimal j) : i = j := by
  have hsign : ∀ m n : Nat, decimal m ≠ 45 :: decimal n := by
    intro m n heq
    have hmem : (45 : UInt8) ∈ decimal m := heq ▸ List.mem_cons_self
    obtain ⟨k, hk, hdigit⟩ := digit_of_mem_decimal hmem
    have := digit_range hk
    rw [← hdigit] at this
    simp at this
  unfold intDecimal at h
  split at h <;> split at h
  · have := decimal_injective ((List.cons_inj_right 45).mp h)
    omega
  · exact absurd h.symm (hsign _ _)
  · exact absurd h (hsign _ _)
  · have := decimal_injective h
    omega

end Aether.Lib.TextLines
