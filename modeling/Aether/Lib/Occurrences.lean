/-
Aether.Lib.Occurrences — the occurrences of a delimiter in a text, from
left to right and without overlap.

`Scan d s marks` is the greedy walk over `s`: at a place where `d` stands
the whole of it is passed and marked `none`, any other element is passed
by itself and marked `some`. A text is split, counted or rewritten by
reading its marks, so the laws that tie the three together are facts about
one list:

* `Scan.rendered` — writing `d` for every `none` gives the text back.
* `Scan.pieces_clean` — `d` stands in none of the pieces.
* `length_pieces` — there is one piece more than there are occurrences.
* `intercalate_pieces` — joining the pieces with `r` writes `r` for every
  occurrence.
-/
import Mathlib.Data.List.Infix

namespace Aether.Lib.Occurrences

variable {α : Type*} {d s : List α} {marks : List (Option α)}

/-! ## §1 Marks -/

/-- The greedy walk over a text: `none` for an occurrence of `d`, `some`
for an element at which none starts. -/
inductive Scan (d : List α) : List α → List (Option α) → Prop where
  | nil : Scan d [] []
  | hit {rest : List α} {marks : List (Option α)} (tail : Scan d rest marks) :
      Scan d (d ++ rest) (none :: marks)
  | char {c : α} {rest : List α} {marks : List (Option α)} (miss : ¬ d <+: c :: rest)
      (tail : Scan d rest marks) : Scan d (c :: rest) (some c :: marks)

/-- The number of occurrences. -/
def hits : List (Option α) → Nat
  | [] => 0
  | none :: marks => hits marks + 1
  | some _ :: marks => hits marks

/-- The text with `r` for every occurrence. -/
def render (r : List α) : List (Option α) → List α
  | [] => []
  | none :: marks => r ++ render r marks
  | some c :: marks => c :: render r marks

/-- The pieces between the occurrences; `cur` is the piece that is being
read. -/
def pieces (cur : List α) : List (Option α) → List (List α)
  | [] => [cur]
  | none :: marks => cur :: pieces [] marks
  | some c :: marks => pieces (cur ++ [c]) marks

-- the equations, before the proofs that share them
section
attribute [local simp] hits render pieces
end

/-! ## §2 The walk exists -/

/-- Every text is walked over when the delimiter is not empty. -/
theorem exists_scan (hne : d ≠ []) : ∀ s : List α, ∃ marks, Scan d s marks
  | [] => ⟨[], .nil⟩
  | c :: rest => by
    by_cases hit : d <+: c :: rest
    · obtain ⟨rest', hrest⟩ := hit
      have hlen : rest'.length < (c :: rest).length := by
        have := List.length_pos_iff.mpr hne
        rw [← hrest, List.length_append]
        omega
      have hle : rest'.length ≤ rest.length := Nat.le_of_lt_succ hlen
      obtain ⟨marks, hscan⟩ := exists_scan hne rest'
      exact ⟨none :: marks, hrest ▸ .hit hscan⟩
    · obtain ⟨marks, hscan⟩ := exists_scan hne rest
      exact ⟨some c :: marks, .char hit hscan⟩
  termination_by s => s.length

/-- No delimiter fits into a shorter text. -/
theorem Scan.hits_of_short (h : Scan d s marks) (hshort : s.length < d.length) :
    hits marks = 0 := by
  induction h with
  | nil => rfl
  | hit _ _ => rw [List.length_append] at hshort; omega
  | char _ _ ih => exact ih (by simp at hshort; omega)

/-! ## §3 The laws -/

theorem Scan.rendered (h : Scan d s marks) : render d marks = s := by
  induction h with
  | nil => rfl
  | hit _ ih => rw [render, ih]
  | char _ _ ih => rw [render, ih]

theorem length_pieces (cur : List α) : (pieces cur marks).length = hits marks + 1 := by
  induction marks generalizing cur with
  | nil => rfl
  | cons m marks ih =>
    cases m with
    | none => simp [pieces, hits, ih]
    | some c => simp [pieces, hits, ih]

theorem pieces_ne_nil (cur : List α) : pieces cur marks ≠ [] := by
  rw [← List.length_pos_iff, length_pieces]
  omega

theorem intercalate_pieces (r cur : List α) :
    List.intercalate r (pieces cur marks) = cur ++ render r marks := by
  induction marks generalizing cur with
  | nil => simp [pieces, render, List.intercalate]
  | cons m marks ih =>
    cases m with
    | none => rw [pieces, List.intercalate_cons_of_ne_nil (pieces_ne_nil _), ih, render]; simp
    | some c => rw [pieces, ih, render]; simp

/-- `d` stands in none of the pieces, when it started nowhere in what was
read of the current one. -/
theorem Scan.pieces_clean (hne : d ≠ []) (h : Scan d s marks) {cur : List α}
    (hcur : ∀ k < cur.length, ¬ d <+: (cur ++ s).drop k) :
    ∀ p ∈ pieces cur marks, ¬ d <:+: p := by
  -- an occurrence inside a read piece would start at one of its places
  have hread : ∀ (p rest : List α), (∀ k < p.length, ¬ d <+: (p ++ rest).drop k) → ¬ d <:+: p := by
    rintro p rest hp ⟨before, after, rfl⟩
    have hpos := List.length_pos_iff.mpr hne
    refine hp before.length (by simp; omega) ⟨after ++ rest, ?_⟩
    simp
  induction h generalizing cur with
  | nil =>
    intro p hp
    obtain rfl : p = cur := by simpa [pieces] using hp
    exact hread p [] hcur
  | hit _ ih =>
    intro p hp
    rw [pieces, List.mem_cons] at hp
    obtain rfl | hp := hp
    · exact hread p _ hcur
    · exact ih (by simp) p hp
  | @char c rest marks miss _ ih =>
    refine ih fun k hk => ?_
    rw [List.append_assoc, List.singleton_append]
    obtain hlt | rfl : k < cur.length ∨ k = cur.length := by simp at hk; omega
    · exact hcur k hlt
    · simpa using miss

end Aether.Lib.Occurrences
