/-
Aether.Std.SearchTheorems — the six searches of `std/str.ae` agree.

`OccursAt` says where a needle occurs. Every loop compares at one place after
another, and `countMatch_iff` decides each comparison, so `searchLoop` finds
the least place and `lastIndexLoop` the greatest one.
-/
import Aether.Std.StrTheorems

namespace Aether.Std

open Lib.Occurrences

-- the equations, before the proofs that share them
section
attribute [local simp] searchLoop lastIndexLoop countMatchLoop indexOf lastIndexOf contains
  startsWith endsWith count stringLength toI64
end

/-! ## §1 Occurrences -/

def OccursAt (needle haystack : Bytes) (i : Nat) : Prop := needle <+: haystack.drop i

/-- The least place of the needle, `-1` when there is none. -/
def IsFirst (haystack needle : Bytes) (r : Int) : Prop :=
  (r = -1 ∧ ∀ i, ¬ OccursAt needle haystack i) ∨
    ∃ i : Nat, r = i ∧ OccursAt needle haystack i ∧ ∀ j, j < i → ¬ OccursAt needle haystack j

/-- The greatest place of the needle, `-1` when there is none. -/
def IsLast (haystack needle : Bytes) (r : Int) : Prop :=
  (r = -1 ∧ ∀ i, ¬ OccursAt needle haystack i) ∨
    ∃ i : Nat, r = i ∧ OccursAt needle haystack i ∧ ∀ j, i < j → ¬ OccursAt needle haystack j

section Searches

variable (beyond : Bytes → Nat → UInt8) {h n : Bytes}

theorem OccursAt.fits {i : Nat} (hne : n ≠ []) (hi : OccursAt n h i) :
    i + n.length ≤ h.length := by
  have hle := hi.length_le
  have hpos := List.length_pos_iff.mpr hne
  rw [List.length_drop] at hle
  omega

/-- The comparison at a place of the text. -/
theorem match_iff_occursAt (hn : 0 ∉ n) {i : Nat} (hi : i ≤ h.length) :
    countMatchLoop beyond h n i n.length 0 = true ↔ OccursAt n h i := by
  have hmatch : countMatchLoop beyond (h.take i ++ h.drop i) n (h.take i).length n.length 0 = true ↔
      n <+: h.drop i := countMatch_iff hn (h.take i) (h.drop i)
  rwa [List.take_append_drop, List.length_take, Nat.min_eq_left hi] at hmatch

/-! ## §2 The loops -/

/-- The loop upwards stops at the least place among those that are left. -/
theorem searchLoop_eq (hn : 0 ∉ n) : ∀ (turns i : Nat), i + turns ≤ h.length + 1 →
    (searchLoop beyond h n n.length turns i = none ∧
        ∀ j, i ≤ j → j < i + turns → ¬ OccursAt n h j) ∨
      ∃ k, searchLoop beyond h n n.length turns i = some k ∧ OccursAt n h k ∧
        ∀ j, i ≤ j → j < k → ¬ OccursAt n h j := by
  intro turns
  induction turns with
  | zero => intro i _; exact .inl ⟨rfl, fun j h1 h2 => by omega⟩
  | succ turns ih =>
    intro i hi
    have hmatch := match_iff_occursAt beyond hn (show i ≤ h.length by omega)
    by_cases hocc : OccursAt n h i
    · refine .inr ⟨i, ?_, hocc, fun j h1 h2 => by omega⟩
      rw [searchLoop, if_pos (hmatch.mpr hocc)]
    · have hloop : searchLoop beyond h n n.length (turns + 1) i =
          searchLoop beyond h n n.length turns (i + 1) := by
        rw [searchLoop, if_neg (mt hmatch.mp hocc)]
      have hnot : ∀ j, i ≤ j → ¬ i + 1 ≤ j → ¬ OccursAt n h j := by
        intro j h1 h2
        obtain rfl : j = i := by omega
        exact hocc
      rw [hloop]
      obtain ⟨hnone, hno⟩ | ⟨k, hk, hocck, hno⟩ := ih (i + 1) (by omega)
      · refine .inl ⟨hnone, fun j h1 h2 => ?_⟩
        by_cases hj : i + 1 ≤ j
        · exact hno j hj (by omega)
        · exact hnot j h1 hj
      · refine .inr ⟨k, hk, hocck, fun j h1 h2 => ?_⟩
        by_cases hj : i + 1 ≤ j
        · exact hno j hj h2
        · exact hnot j h1 hj

/-- The loop downwards stops at the greatest place up to where it starts. -/
theorem lastIndexLoop_eq (hn : 0 ∉ n) : ∀ i, i ≤ h.length →
    (lastIndexLoop beyond h n n.length i = none ∧ ∀ j, j ≤ i → ¬ OccursAt n h j) ∨
      ∃ k, lastIndexLoop beyond h n n.length i = some k ∧ OccursAt n h k ∧
        ∀ j, k < j → j ≤ i → ¬ OccursAt n h j := by
  intro i
  induction i with
  | zero =>
    intro hi
    have hmatch := match_iff_occursAt beyond hn hi
    by_cases hocc : OccursAt n h 0
    · exact .inr ⟨0, if_pos (hmatch.mpr hocc), hocc, fun j h1 h2 => by omega⟩
    · refine .inl ⟨if_neg (mt hmatch.mp hocc), fun j hj => ?_⟩
      obtain rfl : j = 0 := by omega
      exact hocc
  | succ i ih =>
    intro hi
    have hmatch := match_iff_occursAt beyond hn hi
    by_cases hocc : OccursAt n h (i + 1)
    · exact .inr ⟨i + 1, if_pos (hmatch.mpr hocc), hocc, fun j h1 h2 => by omega⟩
    · have hloop : lastIndexLoop beyond h n n.length (i + 1) =
          lastIndexLoop beyond h n n.length i := if_neg (mt hmatch.mp hocc)
      have hnot : ∀ j, j ≤ i + 1 → ¬ j ≤ i → ¬ OccursAt n h j := by
        intro j h1 h2
        obtain rfl : j = i + 1 := by omega
        exact hocc
      rw [hloop]
      obtain ⟨hnone, hno⟩ | ⟨k, hk, hocck, hno⟩ := ih (by omega)
      · refine .inl ⟨hnone, fun j hj => ?_⟩
        by_cases hle : j ≤ i
        · exact hno j hle
        · exact hnot j hj hle
      · refine .inr ⟨k, hk, hocck, fun j h1 h2 => ?_⟩
        by_cases hle : j ≤ i
        · exact hno j h1 hle
        · exact hnot j h2 hle

/-- The walk of `count` passes no occurrence exactly when there is none. -/
theorem hits_eq_zero_iff (hne : n ≠ []) {marks : List (Option UInt8)} (hscan : Scan n h marks) :
    hits marks = 0 ↔ ∀ i, ¬ OccursAt n h i := by
  induction hscan with
  | nil => simpa [hits, OccursAt] using hne
  | @hit rest marks tail ih =>
    exact iff_of_false (Nat.succ_ne_zero _) fun hno => hno 0 (List.prefix_append n rest)
  | @char c rest marks miss tail ih =>
    rw [hits, ih]
    constructor
    · intro hrest i
      cases i with
      | zero => exact miss
      | succ i => exact hrest i
    · exact fun hall i => hall (i + 1)

/-! ## §3 The functions -/

theorem indexOf_isFirst (hh : 0 ∉ h) (hn : 0 ∉ n) (hne : n ≠ []) (hlen : h.length < 2 ^ 63) :
    IsFirst h n (indexOf beyond h n) := by
  have hpos := List.length_pos_iff.mpr hne
  simp only [indexOf, stringLength_eq hh, stringLength_eq hn]
  split
  · next hshort => exact .inl ⟨rfl, fun i hi => by have hfits := hi.fits hne; omega⟩
  · obtain ⟨hnone, hno⟩ | ⟨k, hk, hocc, hno⟩ :=
      searchLoop_eq beyond (h := h) hn (h.length - n.length + 1) 0 (by omega)
    · refine .inl ⟨by rw [hnone]; rfl, fun i hi => hno i (Nat.zero_le i) ?_ hi⟩
      have hfits := hi.fits hne
      omega
    · have hfits := hocc.fits hne
      refine .inr ⟨k, ?_, hocc, fun j hj => hno j (Nat.zero_le j) hj⟩
      rw [hk, Option.elim_some, toI64, if_pos (by omega)]

theorem lastIndexOf_isLast (hh : 0 ∉ h) (hn : 0 ∉ n) (hne : n ≠ []) (hlen : h.length < 2 ^ 63) :
    IsLast h n (lastIndexOf beyond h n) := by
  have hpos := List.length_pos_iff.mpr hne
  simp only [lastIndexOf, stringLength_eq hh, stringLength_eq hn]
  split
  · next hshort => exact .inl ⟨rfl, fun i hi => by have hfits := hi.fits hne; omega⟩
  · obtain ⟨hnone, hno⟩ | ⟨k, hk, hocc, hno⟩ :=
      lastIndexLoop_eq beyond (h := h) hn (h.length - n.length) (by omega)
    · refine .inl ⟨by rw [hnone]; rfl, fun i hi => hno i ?_ hi⟩
      have hfits := hi.fits hne
      omega
    · have hfits := hocc.fits hne
      refine .inr ⟨k, ?_, hocc, fun j hj hoccj => hno j hj ?_ hoccj⟩
      · rw [hk, Option.elim_some, toI64, if_pos (by omega)]
      · have hfitsj := hoccj.fits hne
        omega

theorem contains_iff (hh : 0 ∉ h) (hn : 0 ∉ n) (hne : n ≠ []) :
    contains beyond h n = true ↔ ∃ i, OccursAt n h i := by
  have hpos := List.length_pos_iff.mpr hne
  simp only [contains, stringLength_eq hh, stringLength_eq hn, if_neg (Nat.ne_of_gt hpos)]
  split
  · next hshort =>
    simp only [Bool.false_eq_true, false_iff, not_exists]
    intro i hi
    have hfits := hi.fits hne
    omega
  · obtain ⟨hnone, hno⟩ | ⟨k, hk, hocc, -⟩ :=
      searchLoop_eq beyond (h := h) hn (h.length - n.length + 1) 0 (by omega)
    · simp only [hnone, Option.isSome_none, Bool.false_eq_true, false_iff, not_exists]
      intro i hi
      have hfits := hi.fits hne
      exact hno i (Nat.zero_le i) (by omega) hi
    · simp only [hk, Option.isSome_some, true_iff]
      exact ⟨k, hocc⟩

theorem startsWith_iff (hn : 0 ∉ n) : startsWith beyond h n = true ↔ OccursAt n h 0 := by
  rw [startsWith, stringLength_eq hn]
  exact match_iff_occursAt beyond hn (Nat.zero_le _)

theorem endsWith_iff (hh : 0 ∉ h) (hn : 0 ∉ n) :
    endsWith beyond h n = true ↔ n.length ≤ h.length ∧ OccursAt n h (h.length - n.length) := by
  simp only [endsWith, stringLength_eq hh, stringLength_eq hn]
  split
  · next hlong => simp [Nat.not_le.mpr hlong]
  · next hfits =>
    rw [match_iff_occursAt beyond hn (by omega)]
    simp [Nat.not_lt.mp hfits]

theorem count_eq_zero_iff (hh : 0 ∉ h) (hn : 0 ∉ n) (hne : n ≠ []) :
    ∃ c, count beyond h n = some c ∧ (c = 0 ↔ ∀ i, ¬ OccursAt n h i) := by
  have hpos := List.length_pos_iff.mpr hne
  simp only [count, stringLength_eq hh, stringLength_eq hn]
  split
  · refine ⟨0, rfl, iff_of_true rfl fun i hi => ?_⟩
    have hfits := hi.fits hne
    omega
  · next hlong =>
    obtain ⟨marks, hscan⟩ := exists_scan hne h
    have hfits : n.length ≤ h.length := by omega
    have hloop := countLoop_eq beyond hne hn hscan [] rfl hfits 0 (Nat.lt_succ_self _)
    refine ⟨hits marks, ?_, hits_eq_zero_iff hne hscan⟩
    simpa using hloop

end Searches

end Aether.Std
