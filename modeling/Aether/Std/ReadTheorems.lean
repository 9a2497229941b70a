/-
Aether.Std.ReadTheorems — the functions of `std/str.ae` and the NULs of
their strings.

A comparison that stops at the first difference stops at the NUL at the
latest, and the other loops count up to a length. What is left are `split`,
which compares a delimiter to its end wherever it is, and `substring`, which
takes the places it is given.
-/
import Aether.Std.StrReads
import Mathlib.Data.List.Basic

namespace Aether.Std.Reads

/-! ## §1 Runs that stay inside -/

section Rules

variable {α β : Type} {P : α → Prop} {Q : β → Prop}

/-- The run reads nothing behind a NUL, and where it ends its result is as said. -/
def Checked.Stays (Q : α → Prop) : Checked α → Prop
  | .done a => Q a
  | .beyond => False
  | .endless => True

theorem Checked.Stays.bind {m : Checked α} {f : α → Checked β} (h : m.Stays P)
    (hf : ∀ a, P a → (f a).Stays Q) : (m >>= f).Stays Q := by
  cases m with
  | done a => exact hf a h
  | beyond => exact h
  | endless => exact trivial

theorem stays_pure {a : α} (h : P a) : (pure a : Checked α).Stays P := h

theorem Checked.Stays.ne_beyond {m : Checked α} (h : m.Stays P) : m ≠ .beyond := by
  intro heq
  rw [heq] at h
  exact h

end Rules

/-- The text in front of the NUL. -/
def content (s : Bytes) : Bytes := s.take (stringLength s)

theorem stringLengthLoop_spec (s : Bytes) : ∀ i, ∃ n, stringLengthLoop i s = i + n ∧ n ≤ s.length ∧
    s.getD n 0 = 0 ∧ ∀ k < n, s.getD k 0 ≠ 0 := by
  induction s with
  | nil => exact fun i => ⟨0, rfl, Nat.le_refl _, rfl, fun k hk => absurd hk (Nat.not_lt_zero k)⟩
  | cons c rest ih =>
    intro i
    rw [stringLengthLoop]
    by_cases hc : c = 0
    · exact ⟨0, by simp [hc], Nat.zero_le _, by simp [hc], fun k hk => absurd hk (Nat.not_lt_zero k)⟩
    · obtain ⟨n, hn, hle, hzero, hbefore⟩ := ih (i + 1)
      refine ⟨n + 1, by rw [if_neg hc, hn]; omega, Nat.succ_le_succ hle, by simpa using hzero, ?_⟩
      intro k hk
      cases k with
      | zero => simpa using hc
      | succ k => simpa using hbefore k (by omega)

section Strings

variable {s d : Bytes} {fuel : Nat}

theorem stringLength_spec (s : Bytes) : stringLength s ≤ s.length ∧ s.getD (stringLength s) 0 = 0 ∧
    ∀ k < stringLength s, s.getD k 0 ≠ 0 := by
  obtain ⟨n, hn, hle, hzero, hbefore⟩ := stringLengthLoop_spec s 0
  have heq : stringLength s = n := by rw [stringLength, hn, Nat.zero_add]
  rw [heq]
  exact ⟨hle, hzero, hbefore⟩

theorem length_content (s : Bytes) : (content s).length = stringLength s := by
  rw [content, List.length_take_of_le (stringLength_spec s).1]

theorem readAt_inside {i : Nat} (h : i ≤ stringLength s) : readAt s i = .done (s.getD i 0) := if_pos h

theorem readAt_beyond {i : Nat} (h : stringLength s < i) : readAt s i = .beyond :=
  if_neg (Nat.not_le.mpr h)

theorem readAt_stays {i : Nat} (h : i ≤ stringLength s) :
    (readAt s i).Stays (fun c => c = s.getD i 0) := by
  rw [readAt_inside h]
  rfl

/-- A byte that is no NUL stands in front of it. -/
theorem lt_of_ne_zero {i : Nat} (hle : i ≤ stringLength s) (h : s.getD i 0 ≠ 0) :
    i < stringLength s := by
  refine Nat.lt_of_le_of_ne hle ?_
  rintro rfl
  exact h (stringLength_spec s).2.1

theorem lengthLoop_stays (fuel : Nat) : ∀ {i : Nat}, i ≤ stringLength s →
    (lengthLoop s fuel i).Stays (fun n => n = stringLength s) := by
  induction fuel with
  | zero => exact fun _ => trivial
  | succ fuel ih =>
    intro i hi
    refine (readAt_stays hi).bind ?_
    rintro c rfl
    split
    · next hc =>
      have hnot : ¬ i < stringLength s := fun hlt => (stringLength_spec s).2.2 i hlt hc
      exact stays_pure (by omega)
    · next hc => exact ih (lt_of_ne_zero hi hc)

theorem lengthOf_stays (fuel : Nat) (s : Bytes) :
    (lengthOf fuel s).Stays (fun n => n = stringLength s) := lengthLoop_stays fuel (Nat.zero_le _)

/-- Most functions first take the lengths of two strings. -/
theorem lengths_stay {α : Type} {Q : α → Prop} (fuel : Nat) {f : Nat → Nat → Checked α}
    (h : (f (stringLength s) (stringLength d)).Stays Q) :
    (lengthOf fuel s >>= fun n => lengthOf fuel d >>= fun m => f n m).Stays Q := by
  refine (lengthOf_stays fuel s).bind ?_
  rintro n rfl
  refine (lengthOf_stays fuel d).bind ?_
  rintro m rfl
  exact h

theorem lengthLoop_done (fuel : Nat) : ∀ {i : Nat}, i ≤ stringLength s → stringLength s < i + fuel →
    lengthLoop s fuel i = .done (stringLength s) := by
  induction fuel with
  | zero => intro i hi hfuel; omega
  | succ fuel ih =>
    intro i hi hfuel
    rw [lengthLoop, readAt_inside hi]
    show (if s.getD i 0 = 0 then Checked.done i else lengthLoop s fuel (i + 1)) = _
    split
    · next hc =>
      have hnot : ¬ i < stringLength s := fun hlt => (stringLength_spec s).2.2 i hlt hc
      rw [show i = stringLength s by omega]
    · next hc => exact ih (lt_of_ne_zero hi hc) (by omega)

theorem lengthOf_done (h : stringLength s < fuel) : lengthOf fuel s = .done (stringLength s) :=
  lengthLoop_done fuel (Nat.zero_le _) (by omega)

theorem copyLoop_stays (n : Nat) : ∀ {i : Nat} {result : Bytes},
    n = 0 ∨ i + n ≤ stringLength s + 1 → (copyLoop s n i result).Stays (fun _ => True) := by
  induction n with
  | zero => exact fun _ => trivial
  | succ n ih =>
    intro i result h
    refine (readAt_stays (by omega)).bind ?_
    intro c _
    exact ih (by omega)

theorem copyLoop_beyond (n : Nat) : ∀ {i : Nat} {result : Bytes}, 0 < n →
    stringLength s + 1 < i + n → copyLoop s n i result = .beyond := by
  induction n with
  | zero => intro i result h; omega
  | succ n ih =>
    intro i result _ h
    rw [copyLoop]
    by_cases hi : i ≤ stringLength s
    · rw [readAt_inside hi]
      exact ih (by omega) (by omega)
    · rw [readAt_beyond (by omega)]
      rfl

/-- A comparison that stops at the first difference stops at the NUL at the latest. -/
theorem matchLoop_stays {i : Nat} (n : Nat) : ∀ {j : Nat}, j + n ≤ stringLength d →
    i + j ≤ stringLength s → (matchLoop s d i n j).Stays (fun _ => True) := by
  induction n with
  | zero => exact fun _ _ => trivial
  | succ n ih =>
    intro j hj hi
    refine (readAt_stays hi).bind ?_
    rintro c rfl
    refine (readAt_stays (by omega)).bind ?_
    rintro c rfl
    split
    · trivial
    · next hsame =>
      have hne : s.getD (i + j) 0 ≠ 0 := by
        rw [not_not.mp hsame]
        exact (stringLength_spec d).2.2 j (by omega)
      exact ih (by omega) (by have := lt_of_ne_zero hi hne; omega)

end Strings

/-! ## §2 The functions that always stay inside -/

section Functions

variable {inputString delimiter haystack needle : Bytes} (fuel : Nat)

theorem trimStartLoop_stays (n : Nat) : ∀ {start : Nat}, start + n = stringLength inputString →
    (trimStartLoop inputString n start).Stays
      (fun start => start ≤ stringLength inputString) := by
  induction n with
  | zero => exact fun h => stays_pure (by omega)
  | succ n ih =>
    intro start h
    refine (readAt_stays (by omega)).bind ?_
    intro c _
    split
    · exact stays_pure (by omega)
    · exact ih (by omega)

theorem trimEndLoop_stays {start : Nat} (n : Nat) : start + n ≤ stringLength inputString →
    (trimEndLoop inputString start n).Stays (fun stop => stop ≤ stringLength inputString) := by
  induction n with
  | zero => exact fun h => stays_pure (by omega)
  | succ n ih =>
    intro h
    refine (readAt_stays (by omega)).bind ?_
    intro c _
    split
    · exact stays_pure (by omega)
    · exact ih (by omega)

theorem trim_stays : (trim fuel inputString).Stays (fun _ => True) := by
  refine (lengthOf_stays fuel inputString).bind ?_
  rintro len rfl
  refine (trimStartLoop_stays _ (by omega)).bind ?_
  intro start hstart
  split
  · trivial
  · refine (trimEndLoop_stays _ (by omega)).bind ?_
    intro stop hstop
    exact copyLoop_stays _ (by omega)

theorem startsWith_stays : (startsWith fuel inputString delimiter).Stays (fun _ => True) := by
  refine (lengthOf_stays fuel delimiter).bind ?_
  rintro prefixLen rfl
  exact matchLoop_stays _ (by omega) (Nat.zero_le _)

theorem endsWith_stays : (endsWith fuel inputString delimiter).Stays (fun _ => True) := by
  refine lengths_stay fuel ?_
  split
  · trivial
  · exact matchLoop_stays _ (by omega) (by omega)

theorem searchLoop_stays (turns : Nat) : ∀ {i : Nat},
    turns = 0 ∨ i + turns ≤ stringLength haystack + 1 →
    (searchLoop haystack needle (stringLength needle) turns i).Stays (fun _ => True) := by
  induction turns with
  | zero => exact fun _ => trivial
  | succ turns ih =>
    intro i h
    refine (matchLoop_stays _ (by omega) (by omega)).bind ?_
    intro isMatch _
    split
    · trivial
    · exact ih (by omega)

theorem contains_stays : (contains fuel haystack needle).Stays (fun _ => True) := by
  refine lengths_stay fuel ?_
  split
  · trivial
  · split
    · trivial
    · exact (searchLoop_stays _ (by omega)).bind fun _ _ => trivial

theorem indexOf_stays : (indexOf fuel haystack needle).Stays (fun _ => True) := by
  refine lengths_stay fuel ?_
  split
  · trivial
  · exact (searchLoop_stays _ (by omega)).bind fun _ _ => trivial

theorem lastIndexLoop_stays (i : Nat) : i ≤ stringLength haystack →
    (lastIndexLoop haystack needle (stringLength needle) i).Stays (fun _ => True) := by
  induction i with
  | zero => exact fun _ => (matchLoop_stays _ (by omega) (by omega)).bind fun _ _ => trivial
  | succ i ih =>
    intro h
    refine (matchLoop_stays _ (by omega) (by omega)).bind ?_
    intro isMatch _
    split
    · trivial
    · exact ih (by omega)

theorem lastIndexOf_stays : (lastIndexOf fuel haystack needle).Stays (fun _ => True) := by
  refine lengths_stay fuel ?_
  split
  · trivial
  · exact lastIndexLoop_stays _ (by omega)

theorem countLoop_stays (fuel : Nat) : ∀ {i result : Nat},
    (countLoop haystack needle (stringLength haystack) (stringLength needle) fuel i result).Stays
      (fun _ => True) := by
  induction fuel with
  | zero => exact trivial
  | succ fuel ih =>
    intro i result
    rw [countLoop]
    split
    · refine (matchLoop_stays _ (by omega) (by omega)).bind ?_
      intro isMatch _
      split
      · exact ih
      · exact ih
    · trivial

theorem count_stays : (count fuel haystack needle).Stays (fun _ => True) := by
  refine lengths_stay fuel ?_
  split
  · trivial
  · exact countLoop_stays fuel

theorem replaceMatchLoop_stays {i : Nat} (n : Nat) : ∀ {j : Nat}, j + n ≤ stringLength needle →
    (replaceMatchLoop haystack needle (stringLength haystack) i n j).Stays (fun _ => True) := by
  induction n with
  | zero => exact fun _ => trivial
  | succ n ih =>
    intro j h
    rw [replaceMatchLoop]
    split
    · trivial
    · refine (readAt_stays (by omega)).bind ?_
      intro c _
      refine (readAt_stays (by omega)).bind ?_
      intro d _
      split
      · trivial
      · exact ih (by omega)

theorem replaceLoop_stays {replaceWith : Bytes} (turns : Nat) : ∀ {i : Nat} {result : Bytes},
    (replaceLoop fuel haystack needle replaceWith (stringLength haystack) (stringLength needle) turns i
      result).Stays (fun _ => True) := by
  induction turns with
  | zero => exact trivial
  | succ turns ih =>
    intro i result
    rw [replaceLoop]
    split
    · refine (replaceMatchLoop_stays _ (by omega)).bind ?_
      intro isMatch _
      split
      · refine (lengthOf_stays fuel replaceWith).bind ?_
        rintro replaceLen rfl
        refine (copyLoop_stays _ (by omega)).bind ?_
        intro result _
        exact ih
      · refine (readAt_stays (by omega)).bind ?_
        intro c _
        exact ih
    · trivial

theorem replace_stays {replaceWith : Bytes} :
    (replace fuel haystack needle replaceWith).Stays (fun _ => True) := by
  refine lengths_stay fuel ?_
  split
  · trivial
  · exact replaceLoop_stays fuel fuel

theorem joinDelimiter_stays {i : Nat} {result : Bytes} :
    (joinDelimiter fuel delimiter i result).Stays (fun _ => True) := by
  rw [joinDelimiter]
  split
  · refine (lengthOf_stays fuel delimiter).bind ?_
    rintro delimLen rfl
    exact copyLoop_stays _ (by omega)
  · trivial

theorem joinLoop_stays (strings : List Bytes) : ∀ {i : Nat} {result : Bytes},
    (joinLoop fuel delimiter i strings result).Stays (fun _ => True) := by
  induction strings with
  | nil => exact trivial
  | cons item strings ih =>
    intro i result
    refine (joinDelimiter_stays fuel).bind ?_
    intro result _
    refine (lengthOf_stays fuel item).bind ?_
    rintro itemLen rfl
    refine (copyLoop_stays _ (by omega)).bind ?_
    intro result _
    exact ih

theorem padLeft_stays {totalLength : UInt64} {padCharacter : UInt8} :
    (padLeft fuel inputString totalLength padCharacter).Stays (fun _ => True) := by
  refine (lengthOf_stays fuel inputString).bind ?_
  intro len _
  split
  · trivial
  · trivial

theorem padRight_stays {totalLength : UInt64} {padCharacter : UInt8} :
    (padRight fuel inputString totalLength padCharacter).Stays (fun _ => True) := by
  refine (lengthOf_stays fuel inputString).bind ?_
  intro len _
  split
  · trivial
  · trivial

theorem substring_beyond_iff {startIndex endIndex : UInt64} :
    substring inputString startIndex endIndex ≠ .beyond ↔
      endIndex ≤ startIndex ∨ endIndex.toNat ≤ stringLength inputString + 1 := by
  rw [substring, UInt64.le_iff_toNat_le]
  constructor
  · intro hne
    by_contra hnot
    exact hne (copyLoop_beyond _ (by omega) (by omega))
  · intro h
    exact (copyLoop_stays _ (by omega)).ne_beyond

end Functions

/-! ## §3 split -/

/-- The text is made of pieces that end in the delimiter, each at the first place it stands. -/
inductive EndsInDelimiter (delimiter : Bytes) : Bytes → Prop
  | empty : EndsInDelimiter delimiter []
  | piece (p rest : Bytes)
      (hfirst : ∀ before after, p ++ delimiter = before ++ delimiter ++ after → after = [])
      (h : EndsInDelimiter delimiter rest) : EndsInDelimiter delimiter (p ++ delimiter ++ rest)

/-- The scan of `split` over the rest of the text compares nothing behind the NUL. -/
inductive ScanInside (delimiter : Bytes) : Bytes → Prop
  | nil : ScanInside delimiter []
  | hit (rest : Bytes) (h : ScanInside delimiter rest) : ScanInside delimiter (delimiter ++ rest)
  | miss (c : UInt8) (rest : Bytes) (hnot : ¬ delimiter <+: c :: rest)
      (hle : delimiter.length ≤ rest.length + 2) (h : ScanInside delimiter rest) :
      ScanInside delimiter (c :: rest)

section Scan

variable {d : Bytes}

theorem scanInside_of_short (hpos : 0 < d.length) (hd : d.length ≤ 2) (n : Nat) :
    ∀ {text : Bytes}, text.length ≤ n → ScanInside d text := by
  induction n with
  | zero =>
    intro text h
    rw [List.length_eq_zero_iff.mp (Nat.le_zero.mp h)]
    exact .nil
  | succ n ih =>
    intro text h
    cases text with
    | nil => exact .nil
    | cons c rest =>
      by_cases hhit : d <+: c :: rest
      · obtain ⟨rest', heq⟩ := hhit
        rw [← heq] at h ⊢
        rw [List.length_append] at h
        exact .hit rest' (ih (by omega))
      · rw [List.length_cons] at h
        exact .miss c rest hhit (by omega) (ih (by omega))

theorem endsInDelimiter_of_scan (hd : 3 ≤ d.length) {text : Bytes} (h : ScanInside d text) :
    EndsInDelimiter d text := by
  induction h with
  | nil => exact .empty
  | hit rest _ ih =>
    refine .piece [] rest ?_ ih
    intro before after heq
    have hlength := congrArg List.length heq
    simp only [List.length_append, List.length_nil] at hlength
    exact List.eq_nil_of_length_eq_zero (by omega)
  | miss c rest hnot hle _ ih =>
    cases ih with
    | empty => exact absurd hle (by simp; omega)
    | piece p rest' hfirst hrest =>
      refine .piece (c :: p) rest' ?_ hrest
      intro before after heq
      cases before with
      | nil =>
        refine absurd ?_ hnot
        refine ⟨after ++ rest', ?_⟩
        rw [← List.append_assoc, ← List.nil_append d, ← heq]
        simp
      | cons b before =>
        exact hfirst before after (List.cons.inj heq).2

theorem scanInside_of_ends {text : Bytes} (h : EndsInDelimiter d text) : ScanInside d text := by
  induction h with
  | empty => exact .nil
  | piece p rest hfirst _ ih =>
    induction p with
    | nil => exact .hit rest ih
    | cons c p ihp =>
      refine .miss c (p ++ d ++ rest) ?_ (by simp; omega) (ihp ?_)
      · intro hhit
        have hpre : d <+: c :: p ++ d :=
          List.prefix_of_prefix_length_le hhit (List.prefix_append (c :: p ++ d) rest)
            (by simp; omega)
        obtain ⟨after, heq⟩ := hpre
        have hnil := hfirst [] after (by simpa using heq.symm)
        rw [hnil, List.append_nil] at heq
        have hlength := congrArg List.length heq
        simp only [List.length_append, List.length_cons] at hlength
        omega
      · intro before after heq
        exact hfirst (c :: before) after (by simp [heq])

end Scan

section Split

variable {s d : Bytes}

theorem content_drop {i : Nat} (h : i < stringLength s) :
    (content s).drop i = s.getD i 0 :: (content s).drop (i + 1) := by
  have hi : i < (content s).length := by rw [length_content]; exact h
  rw [List.drop_eq_getElem_cons hi]
  congr 1
  have hlength := (stringLength_spec s).1
  simp [content, List.getD, List.getElem?_eq_getElem (show i < s.length by omega)]

theorem content_drop_end : (content s).drop (stringLength s) = [] := by
  rw [← length_content, List.drop_length]

theorem splitMatchLoop_done {pos : Nat} (n : Nat) : ∀ {di : Nat} {isMatch : Bool},
    di + n = stringLength d → pos + di + n ≤ stringLength s + 1 →
    splitMatchLoop s d pos n di isMatch =
      .done (isMatch && decide ((content d).drop di <+: (content s).drop (pos + di))) := by
  induction n with
  | zero =>
    intro di isMatch hdi _
    rw [show di = stringLength d by omega, content_drop_end]
    simp [splitMatchLoop, pure]
  | succ n ih =>
    intro di isMatch hdi hpos
    have hne : d.getD di 0 ≠ 0 := (stringLength_spec d).2.2 di (by omega)
    rw [splitMatchLoop, readAt_inside (by omega), readAt_inside (by omega)]
    show splitMatchLoop s d pos n (di + 1) _ = _
    rw [ih (by omega) (by omega), content_drop (show di < stringLength d by omega)]
    by_cases hlt : pos + di < stringLength s
    · rw [content_drop hlt, Nat.add_assoc pos di 1]
      by_cases hsame : s.getD (pos + di) 0 = d.getD di 0
      · simp only [hsame, ne_eq, not_true_eq_false, if_false, List.cons_prefix_cons, true_and]
      · have hnot : ¬ (d.getD di 0 :: (content d).drop (di + 1) <+:
            s.getD (pos + di) 0 :: (content s).drop (pos + (di + 1))) :=
          fun h => hsame (List.cons_prefix_cons.mp h).1.symm
        rw [if_pos hsame, decide_eq_false hnot, Bool.and_false, Bool.false_and]
    · have hend : pos + di = stringLength s := by omega
      have hnul : s.getD (pos + di) 0 = 0 := by rw [hend]; exact (stringLength_spec s).2.1
      have hnot : ¬ (d.getD di 0 :: (content d).drop (di + 1) <+: []) :=
        fun h => List.cons_ne_nil _ _ (List.prefix_nil.mp h)
      rw [if_pos (show s.getD (pos + di) 0 ≠ d.getD di 0 by rw [hnul]; exact hne.symm), hend,
        content_drop_end, decide_eq_false hnot, Bool.and_false, Bool.false_and]

theorem splitMatchLoop_beyond {pos : Nat} (n : Nat) : ∀ {di : Nat} {isMatch : Bool}, 0 < n →
    di + n = stringLength d → stringLength s + 1 < pos + di + n →
    splitMatchLoop s d pos n di isMatch = .beyond := by
  induction n with
  | zero => intro di isMatch h; omega
  | succ n ih =>
    intro di isMatch _ hdi hpos
    rw [splitMatchLoop]
    by_cases hle : pos + di ≤ stringLength s
    · rw [readAt_inside hle, readAt_inside (by omega)]
      exact ih (by omega) (by omega) (by omega)
    · rw [readAt_beyond (by omega)]
      rfl

theorem copyLoop_done (n : Nat) : ∀ {i : Nat} {result : Bytes}, i + n ≤ stringLength s + 1 →
    ∃ copied, copyLoop s n i result = .done copied := by
  induction n with
  | zero => exact fun _ => ⟨_, rfl⟩
  | succ n ih =>
    intro i result h
    rw [copyLoop, readAt_inside (by omega)]
    exact ih (by omega)

theorem splitCharsLoop_stays (n : Nat) : ∀ {i : Nat} {result : List Bytes},
    i + n ≤ stringLength s → (splitCharsLoop s n i result).Stays (fun _ => True) := by
  induction n with
  | zero => exact fun _ => trivial
  | succ n ih =>
    intro i result h
    refine (readAt_stays (by omega)).bind ?_
    intro c _
    exact ih (by omega)

/-- What the scan meets at a place in front of the NUL. -/
theorem scanInside_step {d text : Bytes} (h : ScanInside d text) (hne : text ≠ []) :
    d.length ≤ text.length + 1 ∧ (d <+: text → d ≠ [] → ScanInside d (text.drop d.length)) ∧
      (¬ d <+: text → ScanInside d text.tail) := by
  cases h with
  | nil => exact absurd rfl hne
  | hit rest h =>
    refine ⟨by simp; omega, fun _ _ => ?_, fun hnot => absurd (List.prefix_append d rest) hnot⟩
    rw [List.drop_left]
    exact h
  | miss c rest hnot hle h =>
    exact ⟨hle, fun hhit => absurd hhit hnot, fun _ => h⟩

variable (s d)

/-- One turn of the loop that reads nothing behind the NUL. -/
theorem splitLoop_turn (fuel : Nat) {start pos : Nat} (result : List Bytes)
    (hlt : pos < stringLength s) (hstart : start ≤ pos)
    (hle : pos + stringLength d ≤ stringLength s + 1) :
    ∃ part, splitLoop s d (stringLength s) (stringLength d) (fuel + 1) start pos result =
      if content d <+: (content s).drop pos then
        splitLoop s d (stringLength s) (stringLength d) fuel (pos + stringLength d)
          (pos + stringLength d) (result ++ [part])
      else splitLoop s d (stringLength s) (stringLength d) fuel start (pos + 1) result := by
  obtain ⟨part, hpart⟩ : ∃ part, copyLoop s (pos - start) start [] = .done part :=
    copyLoop_done _ (by omega)
  refine ⟨part, ?_⟩
  have hmatch : splitMatchLoop s d pos (stringLength d) 0 true =
      .done (true && decide ((content d).drop 0 <+: (content s).drop (pos + 0))) :=
    splitMatchLoop_done _ (by omega) (by omega)
  rw [splitLoop, if_pos hlt, hmatch, Bool.true_and, List.drop_zero, Nat.add_zero]
  by_cases hhit : content d <+: (content s).drop pos
  · rw [if_pos hhit, decide_eq_true hhit]
    show (copyLoop s (pos - start) start [] >>= fun part => splitLoop s d (stringLength s)
      (stringLength d) fuel (pos + stringLength d) (pos + stringLength d) (result ++ [part])) = _
    rw [hpart]
    rfl
  · rw [if_neg hhit, decide_eq_false hhit]
    rfl

theorem splitLoop_stays (hd : 0 < stringLength d) (fuel : Nat) :
    ∀ {start pos : Nat} {result : List Bytes}, start ≤ pos →
    ScanInside (content d) ((content s).drop pos) →
    (splitLoop s d (stringLength s) (stringLength d) fuel start pos result).Stays
      (fun _ => True) := by
  have hne : content d ≠ [] := List.ne_nil_of_length_pos (by rw [length_content]; exact hd)
  induction fuel with
  | zero => exact fun _ _ => trivial
  | succ fuel ih =>
    intro start pos result hstart hscan
    by_cases hlt : pos < stringLength s
    · have hcons := content_drop hlt
      obtain ⟨hle, hhit, hmiss⟩ := scanInside_step hscan (by rw [hcons]; exact List.cons_ne_nil _ _)
      rw [length_content, List.length_drop, length_content] at hle
      obtain ⟨part, hturn⟩ := splitLoop_turn s d fuel result hlt hstart
        (by omega)
      rw [hturn]
      split
      · next h =>
        have hrest := hhit h hne
        rw [List.drop_drop, length_content] at hrest
        exact ih (Nat.le_refl _) hrest
      · next h =>
        have hrest := hmiss h
        rw [List.tail_drop] at hrest
        exact ih (Nat.le_succ_of_le hstart) hrest
    · rw [splitLoop, if_neg hlt]
      exact (copyLoop_stays _ (by omega)).bind fun _ _ => trivial

theorem splitLoop_beyond (hd : 0 < stringLength d) (fuel : Nat) :
    ∀ {start pos : Nat} {result : List Bytes}, start ≤ pos → stringLength s < pos + fuel →
    ¬ ScanInside (content d) ((content s).drop pos) →
    splitLoop s d (stringLength s) (stringLength d) fuel start pos result = .beyond := by
  induction fuel with
  | zero =>
    intro start pos result _ hfuel hscan
    refine absurd ?_ hscan
    rw [List.drop_of_length_le (by rw [length_content]; omega)]
    exact .nil
  | succ fuel ih =>
    intro start pos result hstart hfuel hscan
    by_cases hlt : pos < stringLength s
    · by_cases hle : pos + stringLength d ≤ stringLength s + 1
      · obtain ⟨part, hturn⟩ := splitLoop_turn s d fuel result hlt hstart hle
        rw [hturn]
        split
        · next hhit =>
          refine ih (Nat.le_refl _) (by omega) (fun hrest => hscan ?_)
          obtain ⟨rest, heq⟩ := hhit
          rw [← List.drop_drop, ← heq, ← length_content d, List.drop_left] at hrest
          rw [← heq]
          exact .hit rest hrest
        · next hmiss =>
          refine ih (Nat.le_succ_of_le hstart) (by omega) (fun hrest => hscan ?_)
          have hcons := content_drop hlt
          rw [hcons] at hmiss ⊢
          refine .miss _ _ hmiss ?_ hrest
          rw [length_content, List.length_drop, length_content]
          omega
      · rw [splitLoop, if_pos hlt, splitMatchLoop_beyond _ hd (by omega) (by omega)]
        rfl
    · refine absurd ?_ hscan
      rw [List.drop_of_length_le (by rw [length_content]; omega)]
      exact .nil

theorem split_inside_iff : (∀ fuel, split fuel s d ≠ .beyond) ↔
    stringLength d ≤ 2 ∨ EndsInDelimiter (content d) (content s) := by
  have hlength := length_content d
  by_cases hzero : stringLength d = 0
  · refine iff_of_true (fun fuel => ?_) (.inl (by omega))
    refine Checked.Stays.ne_beyond (P := fun _ => True) ?_
    refine lengths_stay fuel ?_
    rw [if_pos hzero]
    exact splitCharsLoop_stays _ (by omega)
  · have hscan : (∀ fuel, split fuel s d ≠ .beyond) ↔ ScanInside (content d) (content s) := by
      constructor
      · intro hinside
        by_contra hnot
        refine hinside (stringLength s + stringLength d + 1) ?_
        have hs : lengthOf (stringLength s + stringLength d + 1) s = .done (stringLength s) :=
          lengthOf_done (by omega)
        have hd : lengthOf (stringLength s + stringLength d + 1) d = .done (stringLength d) :=
          lengthOf_done (by omega)
        rw [split, hs]
        show (lengthOf _ d >>= fun delimLen => _) = _
        rw [hd]
        show (if stringLength d = 0 then _ else _) = _
        rw [if_neg hzero]
        exact splitLoop_beyond s d (by omega) _ (Nat.le_refl 0) (by omega) hnot
      · intro hscan fuel
        refine Checked.Stays.ne_beyond (P := fun _ => True) ?_
        refine lengths_stay fuel ?_
        rw [if_neg hzero]
        exact splitLoop_stays s d (by omega) fuel (Nat.le_refl 0) hscan
    rw [hscan]
    by_cases hshort : stringLength d ≤ 2
    · exact iff_of_true (scanInside_of_short (by omega) (by omega) _ (Nat.le_refl _)) (.inl hshort)
    · constructor
      · exact fun h => .inr (endsInDelimiter_of_scan (by omega) h)
      · exact fun h => scanInside_of_ends (h.resolve_left hshort)

end Split

/-! ## §4 All functions -/

def NeverBeyond {α : Type} (run : Nat → Checked α) : Prop := ∀ fuel, run fuel ≠ .beyond

/-- No function reads behind the NUL of a string it is given. -/
structure StayInside (inputString other replaceWith : Bytes) (strings : List Bytes)
    (startIndex endIndex totalLength : UInt64) (padCharacter : UInt8) : Prop where
  split : NeverBeyond fun fuel => split fuel inputString other
  substring : substring inputString startIndex endIndex ≠ .beyond
  startsWith : NeverBeyond fun fuel => startsWith fuel inputString other
  endsWith : NeverBeyond fun fuel => endsWith fuel inputString other
  contains : NeverBeyond fun fuel => contains fuel inputString other
  replace : NeverBeyond fun fuel => replace fuel inputString other replaceWith
  count : NeverBeyond fun fuel => count fuel inputString other
  indexOf : NeverBeyond fun fuel => indexOf fuel inputString other
  lastIndexOf : NeverBeyond fun fuel => lastIndexOf fuel inputString other
  trim : NeverBeyond fun fuel => trim fuel inputString
  join : NeverBeyond fun fuel => join fuel strings other
  padLeft : NeverBeyond fun fuel => padLeft fuel inputString totalLength padCharacter
  padRight : NeverBeyond fun fuel => padRight fuel inputString totalLength padCharacter

end Aether.Std.Reads
