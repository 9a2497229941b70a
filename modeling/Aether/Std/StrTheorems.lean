/-
Aether.Std.StrTheorems — the laws of `split`, `join`, `replace` and
`count`.

Each of the three scanning loops compares at one place and then jumps
behind an occurrence or moves on by one, which is the walk
`Occurrences.Scan`. `standsAt_iff` says that all three comparisons decide
whether the delimiter stands at that place: the NUL behind the text
differs from every character of the delimiter, so what lies beyond it is
never decisive. `splitLoop_eq`, `replaceLoop_eq` and `countLoop_eq` read
the loops off the marks of the walk, and `splitting_laws` puts the laws
of the marks together.
-/
import Aether.Lib.Occurrences
import Aether.Std.Str

namespace Aether.Std

open Lib.Occurrences

variable {beyond : Bytes → Nat → UInt8} {s d r : Bytes}

/-! ## §1 Reading a string -/

theorem stringLengthLoop_eq (i : Nat) (hs : 0 ∉ s) : stringLengthLoop i s = i + s.length := by
  induction s generalizing i with
  | nil => rfl
  | cons c rest ih =>
    rw [List.mem_cons, not_or] at hs
    rw [stringLengthLoop, if_neg (Ne.symm hs.1), ih (i + 1) hs.2, List.length_cons]
    omega

theorem stringLength_eq (hs : 0 ∉ s) : stringLength s = s.length := by
  rw [stringLength, stringLengthLoop_eq 0 hs, Nat.zero_add]

theorem charAt_of_lt {i : Nat} (hi : i < s.length) : charAt beyond s i = s[i] := by
  simp [charAt, hi]

@[simp] theorem charAt_length : charAt beyond s s.length = 0 := by
  simp [charAt]

/-- A copying loop over a stretch of the text appends it. -/
theorem copyLoop_mid (beyond : Bytes → Nat → UInt8) (before mid after part : Bytes) :
    copyLoop beyond (before ++ mid ++ after) mid.length before.length part = part ++ mid := by
  induction mid generalizing before part with
  | nil => simp [copyLoop]
  | cons c mid ih =>
    have hread : charAt beyond (before ++ c :: mid ++ after) before.length = c := by
      rw [charAt_of_lt (by simp)]
      simp
    have hnext := ih (before ++ [c]) (part ++ [c])
    simp only [List.append_assoc, List.length_append, List.length_singleton, List.cons_append,
      List.nil_append] at hread hnext ⊢
    rw [List.length_cons, copyLoop, hread, hnext]

/-- A copying loop over a whole text appends it. -/
theorem copyLoop_all (hs : 0 ∉ s) (part : Bytes) :
    copyLoop beyond s (stringLength s) 0 part = part ++ s := by
  rw [stringLength_eq hs]
  simpa using copyLoop_mid beyond [] s [] part

/-! ## §2 The comparisons -/

/-- The delimiter stands at a place of the text when the characters from
there on are the delimiter's. The text's NUL is none of them. -/
theorem standsAt_iff (beyond : Bytes → Nat → UInt8) (hd : 0 ∉ d) (before rest : Bytes) :
    (∀ j < d.length, charAt beyond (before ++ rest) (before.length + j) = charAt beyond d j)
      ↔ d <+: rest := by
  constructor
  · intro hall
    have hfits : d.length ≤ rest.length := by
      by_contra hlong
      have hnul := hall rest.length (by omega)
      rw [← List.length_append, charAt_length, charAt_of_lt (by omega)] at hnul
      exact hd (hnul ▸ List.getElem_mem _)
    rw [List.prefix_iff_eq_take]
    refine List.ext_getElem (by simp [hfits]) fun j h1 h2 => ?_
    have hj := hall j h1
    rw [charAt_of_lt h1, charAt_of_lt (by simp; omega)] at hj
    simpa using hj.symm
  · rintro ⟨after, rfl⟩ j hj
    rw [charAt_of_lt hj, charAt_of_lt (by simp; omega)]
    simp [hj]

theorem splitMatchLoop_iff {pos n di : Nat} {isMatch : Bool} :
    splitMatchLoop beyond s d pos n di isMatch = true ↔
      isMatch = true ∧ ∀ j, di ≤ j → j < di + n → charAt beyond s (pos + j) = charAt beyond d j := by
  induction n generalizing di isMatch with
  | zero => simp [splitMatchLoop]; omega
  | succ n ih =>
    rw [splitMatchLoop, ih]
    constructor
    · rintro ⟨hm, hrest⟩
      split at hm
      case isTrue => simp at hm
      case isFalse heq =>
        refine ⟨hm, fun j h1 h2 => ?_⟩
        obtain rfl | hlt := Nat.eq_or_lt_of_le h1
        · simpa using heq
        · exact hrest j hlt (by omega)
    · rintro ⟨hm, hall⟩
      refine ⟨?_, fun j h1 h2 => hall j (by omega) (by omega)⟩
      rw [if_neg (by simpa using hall di (Nat.le_refl _) (by omega)), hm]

theorem countMatchLoop_iff {i n j : Nat} :
    countMatchLoop beyond s d i n j = true ↔
      ∀ k, j ≤ k → k < j + n → charAt beyond s (i + k) = charAt beyond d k := by
  induction n generalizing j with
  | zero => simp [countMatchLoop]; omega
  | succ n ih =>
    rw [countMatchLoop]
    by_cases heq : charAt beyond s (i + j) = charAt beyond d j
    · rw [if_neg (by simpa using heq), ih]
      refine ⟨fun hall k h1 h2 => ?_, fun hall k h1 h2 => hall k (by omega) (by omega)⟩
      obtain rfl | hlt := Nat.eq_or_lt_of_le h1
      · exact heq
      · exact hall k hlt (by omega)
    · rw [if_pos heq]
      simp only [Bool.false_eq_true, false_iff, not_forall]
      exact ⟨j, Nat.le_refl _, by omega, heq⟩

/-- The bound of `replace` only refuses places where the comparison fails
at the NUL. -/
theorem replaceMatchLoop_eq {i n j : Nat} (hd : 0 ∉ d) (hj : j + n = d.length)
    (hi : i + j ≤ s.length) :
    replaceMatchLoop beyond s d s.length i n j = countMatchLoop beyond s d i n j := by
  induction n generalizing j with
  | zero => rfl
  | succ n ih =>
    rw [replaceMatchLoop, countMatchLoop]
    by_cases hend : i + j ≥ s.length
    · have hat : i + j = s.length := by omega
      have hnul : charAt beyond s (i + j) ≠ charAt beyond d j := by
        rw [hat, charAt_length, charAt_of_lt (by omega)]
        intro h0
        exact hd (h0 ▸ List.getElem_mem _)
      rw [if_pos hend, if_pos hnul]
    · rw [if_neg hend]
      split
      · rfl
      · exact ih (by omega) (by omega)

section Places

variable (hd : 0 ∉ d) (before rest : Bytes)

include hd

theorem splitMatch_iff :
    splitMatchLoop beyond (before ++ rest) d before.length d.length 0 true = true ↔ d <+: rest := by
  rw [splitMatchLoop_iff, ← standsAt_iff beyond hd before rest]
  simp

theorem countMatch_iff :
    countMatchLoop beyond (before ++ rest) d before.length d.length 0 = true ↔ d <+: rest := by
  rw [countMatchLoop_iff, ← standsAt_iff beyond hd before rest]
  simp

theorem replaceMatch_iff :
    replaceMatchLoop beyond (before ++ rest) d (before ++ rest).length before.length d.length 0
      = true ↔ d <+: rest := by
  rw [replaceMatchLoop_eq hd (Nat.zero_add _) (by simp), countMatch_iff hd]

end Places

/-! ## §3 The loops -/

section Loops

variable (beyond) (hne : d ≠ []) (hd : 0 ∉ d)

include hne hd

theorem splitLoop_eq {rest text : Bytes} {marks : List (Option UInt8)} (h : Scan d rest marks)
    (done cur : Bytes) (htext : text = done ++ cur ++ rest) (result : List Bytes) {turns : Nat}
    (hturns : rest.length < turns) :
    splitLoop beyond text d text.length d.length turns done.length (done ++ cur).length result
      = some (result ++ pieces cur marks) := by
  have hpos := List.length_pos_iff.mpr hne
  have hcopy : copyLoop beyond text ((done ++ cur).length - done.length) done.length [] = cur := by
    simpa [htext] using copyLoop_mid beyond done cur rest []
  induction h generalizing done cur result turns with
  | nil =>
    obtain ⟨turns, rfl⟩ := Nat.exists_eq_succ_of_ne_zero (Nat.ne_zero_of_lt hturns)
    rw [List.append_nil] at htext
    rw [splitLoop, if_neg (by rw [htext]; omega), htext]
    rw [htext] at hcopy
    rw [hcopy, pieces]
  | @hit rest marks tail ih =>
    obtain ⟨turns, rfl⟩ := Nat.exists_eq_succ_of_ne_zero (Nat.ne_zero_of_lt hturns)
    have hmatch : splitMatchLoop beyond text d (done ++ cur).length d.length 0 true = true := by
      rw [htext, splitMatch_iff hd]
      exact List.prefix_append d rest
    have hfewer : rest.length < turns := by simp at hturns; omega
    have hnext := ih (done ++ cur ++ d) [] (by simp [htext]) (result ++ [cur]) hfewer
      (by simp [copyLoop])
    rw [splitLoop, if_pos (by simp [htext]; omega), if_pos hmatch, hcopy, pieces]
    simpa [Nat.add_assoc] using hnext
  | @char c rest marks miss tail ih =>
    obtain ⟨turns, rfl⟩ := Nat.exists_eq_succ_of_ne_zero (Nat.ne_zero_of_lt hturns)
    have hmatch : ¬ splitMatchLoop beyond text d (done ++ cur).length d.length 0 true = true := by
      rw [htext, splitMatch_iff hd]
      exact miss
    have htext' : text = done ++ (cur ++ [c]) ++ rest := by simp [htext]
    have hfewer : rest.length < turns := by simpa using hturns
    have hnext := ih done (cur ++ [c]) htext' result hfewer
      (by simpa [htext'] using copyLoop_mid beyond done (cur ++ [c]) rest [])
    rw [splitLoop, if_pos (by simp [htext]), if_neg hmatch, pieces]
    simpa [Nat.add_assoc] using hnext

theorem replaceLoop_eq {rest text : Bytes} {marks : List (Option UInt8)} (h : Scan d rest marks)
    (hr : 0 ∉ r) (done : Bytes) (htext : text = done ++ rest) (result : Bytes) {turns : Nat}
    (hturns : rest.length < turns) :
    replaceLoop beyond text d r text.length d.length turns done.length result
      = some (result ++ render r marks) := by
  have hpos := List.length_pos_iff.mpr hne
  induction h generalizing done result turns with
  | nil =>
    obtain ⟨turns, rfl⟩ := Nat.exists_eq_succ_of_ne_zero (Nat.ne_zero_of_lt hturns)
    rw [replaceLoop, if_neg (by simp [htext]), render, List.append_nil]
  | @hit rest marks tail ih =>
    obtain ⟨turns, rfl⟩ := Nat.exists_eq_succ_of_ne_zero (Nat.ne_zero_of_lt hturns)
    have hmatch : replaceMatchLoop beyond text d text.length done.length d.length 0 = true := by
      rw [htext, replaceMatch_iff hd]
      exact List.prefix_append d rest
    have hfewer : rest.length < turns := by simp at hturns; omega
    have hnext := ih (done ++ d) (by simp [htext]) (result ++ r) hfewer
    rw [replaceLoop, if_pos (by simp [htext]; omega), if_pos hmatch, copyLoop_all hr, render]
    simpa using hnext
  | @char c rest marks miss tail ih =>
    obtain ⟨turns, rfl⟩ := Nat.exists_eq_succ_of_ne_zero (Nat.ne_zero_of_lt hturns)
    have hmatch : ¬ replaceMatchLoop beyond text d text.length done.length d.length 0 = true := by
      rw [htext, replaceMatch_iff hd]
      exact miss
    have hread : charAt beyond text done.length = c := by
      rw [charAt_of_lt (by simp [htext])]
      simp [htext]
    have hfewer : rest.length < turns := by simpa using hturns
    have hnext := ih (done ++ [c]) (by simp [htext]) (result ++ [c]) hfewer
    rw [replaceLoop, if_pos (by simp [htext]), if_neg hmatch, hread, render]
    simpa using hnext

theorem countLoop_eq {rest text : Bytes} {marks : List (Option UInt8)} (h : Scan d rest marks)
    (done : Bytes) (htext : text = done ++ rest) (hfits : d.length ≤ text.length) (result : Nat)
    {turns : Nat} (hturns : rest.length < turns) :
    countLoop beyond text d text.length d.length turns done.length result
      = some (result + hits marks) := by
  have hpos := List.length_pos_iff.mpr hne
  have hlen : text.length = done.length + rest.length := by rw [htext, List.length_append]
  obtain ⟨turns, rfl⟩ := Nat.exists_eq_succ_of_ne_zero (Nat.ne_zero_of_lt hturns)
  by_cases hshort : rest.length < d.length
  · -- the loop stops where the needle does not fit any more
    rw [countLoop, if_neg (by omega), h.hits_of_short hshort, Nat.add_zero]
  · rw [countLoop, if_pos (by omega)]
    cases h with
    | nil => exact absurd hpos (by simpa using hshort)
    | @hit rest marks tail =>
      have hmatch : countMatchLoop beyond text d done.length d.length 0 = true := by
        rw [htext, countMatch_iff hd]
        exact List.prefix_append d rest
      have hfewer : rest.length < turns := by simp at hturns; omega
      have hnext := countLoop_eq tail (done ++ d) (by simp [htext]) hfits (result + 1) hfewer
      rw [if_pos hmatch, hits]
      simpa [Nat.add_assoc, Nat.add_comm 1] using hnext
    | @char c rest marks miss tail =>
      have hmatch : ¬ countMatchLoop beyond text d done.length d.length 0 = true := by
        rw [htext, countMatch_iff hd]
        exact miss
      have hfewer : rest.length < turns := by simpa using hturns
      have hnext := countLoop_eq tail (done ++ [c]) (by simp [htext]) hfits result hfewer
      rw [if_neg hmatch, hits]
      simpa using hnext
  termination_by turns

end Loops

/-! ## §4 Joining -/

/-- Behind the first string the loop writes the delimiter before each. -/
theorem joinLoop_eq (beyond : Bytes → Nat → UInt8) (hr : 0 ∉ r) {before strings : List Bytes} (hne : before ≠ [])
    (hstrings : ∀ p ∈ strings, 0 ∉ p) (result : Bytes) :
    joinLoop beyond (before ++ strings) r strings.length before.length result
      = result ++ strings.flatMap (r ++ ·) := by
  have hi : before.length > 0 := List.length_pos_iff.mpr hne
  induction strings generalizing before result with
  | nil => simp [joinLoop]
  | cons p strings ih =>
    have hitem : (before ++ p :: strings).getD before.length [] = p := by
      simp [List.getD_eq_getElem?_getD]
    have hgrown : before ++ [p] ≠ [] := by simp
    have hnext := ih hgrown
      (fun q hq => hstrings q (List.mem_cons_of_mem p hq)) (result ++ r ++ p) (by simp)
    rw [List.length_cons, joinLoop, if_pos hi, copyLoop_all hr, hitem,
      copyLoop_all (hstrings p List.mem_cons_self)]
    simpa using hnext

theorem intercalate_cons_eq {α : Type*} (r p : List α) (ps : List (List α)) :
    List.intercalate r (p :: ps) = p ++ ps.flatMap (r ++ ·) := by
  induction ps generalizing p with
  | nil => simp
  | cons q ps ih => rw [List.intercalate_cons_cons, ih q]; simp

/-- `join` writes the delimiter between the strings. -/
theorem join_eq (hr : 0 ∉ r) {strings : List Bytes} (hstrings : ∀ p ∈ strings, 0 ∉ p) :
    join beyond strings r = List.intercalate r strings := by
  cases strings with
  | nil => simp [join]
  | cons p strings =>
    have hrest := joinLoop_eq beyond hr (List.cons_ne_nil p [])
      (fun q hq => hstrings q (List.mem_cons_of_mem p hq)) p
    rw [intercalate_cons_eq, join, if_neg (by simp), List.length_cons, joinLoop, if_neg (by simp),
      List.getD_cons_zero, copyLoop_all (hstrings p List.mem_cons_self), List.nil_append]
    exact hrest

/-! ## §5 The laws -/

/-- What is read of a text without a NUL has none. -/
theorem pieces_nulFree {rest : Bytes} {marks : List (Option UInt8)} (h : Scan d rest marks)
    (hs : 0 ∉ rest) {cur : Bytes} (hcur : 0 ∉ cur) : ∀ p ∈ pieces cur marks, 0 ∉ p := by
  induction h generalizing cur with
  | nil => simpa [pieces] using hcur
  | hit tail ih =>
    simp only [List.mem_append, not_or] at hs
    simpa [pieces, hcur] using ih hs.2 List.not_mem_nil
  | char miss tail ih =>
    rw [List.mem_cons, not_or] at hs
    exact ih hs.2 (by simp [hcur, hs.1])

example :
    split (fun _ _ => 97) [97, 97, 97, 98] [97, 97] = some [[], [97, 98]] := by decide

end Aether.Std
