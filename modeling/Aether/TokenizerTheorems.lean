/-
Aether.TokenizerTheorems — the tokenizer only moves forward.

`Within n` says that a tokenizer's pointers have at most `n` bytes before
the end of the text. Every scanning function keeps it (`nextFuel_bounded`),
so the text of a string token is no longer than the source it came from
(`tokensOf_bounded`).
-/
import Mathlib.Data.List.TakeWhile
import Aether.Tokenizer

namespace Aether

/-! ## §1 Character classes -/

/-- A character of a class is none that is not in it. -/
theorem ne_of_class {p : UInt8 → Bool} {c k : UInt8} (h : p c = true) (hk : p k = false) : c ≠ k := by
  rintro rfl
  exact absurd (h.symm.trans hk) (by decide)

theorem isDigit_iff (c : UInt8) : isDigit c = true ↔ 48 ≤ c.toNat ∧ c.toNat ≤ 57 := by
  rw [isDigit, Bool.and_eq_true, decide_eq_true_eq, decide_eq_true_eq, UInt8.le_iff_toNat_le,
    UInt8.le_iff_toNat_le]
  rfl

theorem isAlpha_iff (c : UInt8) : isAlpha c = true ↔
    (97 ≤ c.toNat ∧ c.toNat ≤ 122) ∨ (65 ≤ c.toNat ∧ c.toNat ≤ 90) := by
  rw [isAlpha, Bool.or_eq_true, Bool.and_eq_true, Bool.and_eq_true, decide_eq_true_eq,
    decide_eq_true_eq, decide_eq_true_eq, decide_eq_true_eq, UInt8.le_iff_toNat_le,
    UInt8.le_iff_toNat_le, UInt8.le_iff_toNat_le, UInt8.le_iff_toNat_le]
  rfl

/-- The classes of characters are apart. -/
theorem identStart_facts (c : UInt8) (h : isIdentStart c = true) :
    c ≠ ch '\n' ∧ c ≠ ch '\\' ∧ c ≠ ch '/' ∧ c ≠ ch '#' :=
  ⟨ne_of_class h rfl, ne_of_class h rfl, ne_of_class h rfl, ne_of_class h rfl⟩

theorem identContinue_facts (c : UInt8) (h : isIdentContinue c = true) :
    (!isOpDelimiter c) = true := by
  have hne : ∀ k, isIdentContinue k = false → (c == k) = false := fun k hk =>
    beq_eq_false_iff_ne.mpr (ne_of_class h hk)
  rw [isOpDelimiter, hne _ rfl, hne _ rfl, hne _ rfl, hne _ rfl, hne _ rfl, hne _ rfl, hne _ rfl,
    hne _ rfl, hne _ rfl, hne _ rfl, hne _ rfl, hne _ rfl, hne _ rfl]
  rfl

theorem digit_facts (c : UInt8) (h : isDigit c = true) :
    isIdentStart c = false ∧ c ≠ ch '\n' ∧ c ≠ ch '\\' ∧ c ≠ ch '/' ∧ c ≠ ch '#' ∧ c ≠ ch 'o' ∧
      c ≠ ch 'x' ∧ c ≠ ch 'X' ∧ c ≠ ch 'b' ∧ c ≠ ch 'B' ∧ c ≠ ch 'O' ∧
      isDigitOrUnderscore c = true := by
  have halpha : isAlpha c = false := by
    have hrange := (isDigit_iff c).mp h
    rw [← Bool.not_eq_true, isAlpha_iff]
    omega
  have hunder : (c == ch '_') = false := beq_eq_false_iff_ne.mpr (ne_of_class h rfl)
  exact ⟨by rw [isIdentStart, halpha, hunder]; rfl, ne_of_class h rfl, ne_of_class h rfl,
    ne_of_class h rfl, ne_of_class h rfl, ne_of_class h rfl, ne_of_class h rfl, ne_of_class h rfl,
    ne_of_class h rfl, ne_of_class h rfl, ne_of_class h rfl, by rw [isDigitOrUnderscore, h]; rfl⟩

/-! ## §2 Loops shorten the text -/

theorem length_dropWhile_le {α : Type} (f : α → Bool) (cs : List α) :
    (cs.dropWhile f).length ≤ cs.length :=
  (List.dropWhile_suffix f).length_le

theorem skipWhitespaceInline_le (cs : Bytes) :
    ∀ col, (skipWhitespaceInline col cs).2.length ≤ cs.length := by
  induction cs with
  | nil => intro col; simp [skipWhitespaceInline]
  | cons c cs ih =>
    intro col
    rw [skipWhitespaceInline]
    split_ifs
    · exact Nat.le_succ_of_le (ih _)
    · exact Nat.le_succ_of_le (ih _)
    · exact Nat.le_refl _

theorem skipLine_le (line : Nat) (cs : Bytes) :
    ∀ col, (skipLine line col cs).2.2.length ≤ cs.length := by
  induction cs with
  | nil => intro col; simp [skipLine]
  | cons c cs ih =>
    intro col
    rw [skipLine]
    split_ifs
    · simp
    · exact Nat.le_succ_of_le (ih _)

theorem skipBlockComment_le (depth line col : Nat) (cs : Bytes) :
    (skipBlockComment depth line col cs).2.2.2.length ≤ cs.length := by
  fun_induction skipBlockComment depth line col cs with
  | case1 => exact Nat.le_refl _
  | case2 => exact Nat.le_refl _
  | case3 => simp
  | case4 => simp
  | case5 => simp only [List.length_cons]; omega
  | case6 => simp only [List.length_cons]; omega
  | case7 => simp only [List.length_cons] at *; omega
  | case8 => simp only [List.length_cons] at *; omega

theorem scanStringLoop_le (line col : Nat) (cs : Bytes) :
    (scanStringLoop line col cs).2.2.length ≤ cs.length := by
  fun_induction scanStringLoop line col cs with
  | case1 => exact Nat.le_refl _
  | case2 => simp
  | case3 => simp
  | case4 => simp only [List.length_cons]; omega
  | case5 => simp only [List.length_cons]; omega

theorem skipFraction_le (cs : Bytes) : (skipFraction cs).2.length ≤ cs.length := by
  fun_cases skipFraction cs with
  | case1 c d cs =>
    have := length_dropWhile_le isDigitOrUnderscore (d :: cs)
    simp only [List.length_cons] at *
    omega
  | case2 => exact Nat.le_refl _
  | case3 => exact Nat.le_refl _

theorem skipExponent_le (cs : Bytes) : (skipExponent cs).2.length ≤ cs.length := by
  fun_cases skipExponent cs with
  | case1 c _ s cs' =>
    have := length_dropWhile_le isDigitOrUnderscore cs'
    simp only [List.length_cons]
    omega
  | case2 c _ s cs' =>
    have := length_dropWhile_le isDigitOrUnderscore (s :: cs')
    simp only [List.length_cons] at *
    omega
  | case3 => simp
  | case4 => exact Nat.le_refl _
  | case5 => exact Nat.le_refl _

/-! ## §3 Scanning keeps the bound -/

/-- At most `n` bytes from the tokenizer's pointers to the end. -/
structure Tokenizer.Within (n : Nat) (t : Tokenizer) : Prop where
  start_le : t.start.length ≤ n
  pos_le : t.pos.length ≤ n

/-- A scanned token and the state after it: a string token is at most `n`
bytes long. -/
structure Bounded (n : Nat) (r : Token × Tokenizer) : Prop where
  text_le : r.1.type = .stringLiteral → r.1.text.length ≤ n
  within : r.2.Within n

variable {n : Nat} {t : Tokenizer}

theorem textBetween_le (start pos : Bytes) : (textBetween start pos).length ≤ start.length := by
  rw [textBetween, List.length_take]
  exact Nat.min_le_right _ _

theorem textBetween_append (w rest : Bytes) : textBetween (w ++ rest) rest = w := by
  simp [textBetween]

theorem Tokenizer.Within.emit (h : t.Within n) (type : TokenType) : Bounded n (t.emit type) :=
  ⟨fun _ => Nat.le_trans (textBetween_le t.start t.pos) h.start_le, h⟩

theorem Tokenizer.Within.bump (h : t.Within n) (k : Nat) : (t.bump k).Within n := by
  refine ⟨h.start_le, ?_⟩
  have := h.pos_le
  simp only [Tokenizer.bump, List.length_drop]
  omega

theorem Tokenizer.Within.moveTo (h : t.Within n) {pos : Bytes} (hpos : pos.length ≤ n) :
    ({ t with pos := pos } : Tokenizer).Within n := ⟨h.start_le, hpos⟩

theorem scanIdentOrKeyword_bounded (h : t.Within n) : Bounded n (scanIdentOrKeyword t) :=
  (h.moveTo (Nat.le_trans (length_dropWhile_le _ _) h.pos_le)).emit _

theorem scanPrefixed_bounded (h : t.Within n) (accept : UInt8 → Bool) (value : Bytes → UInt64) :
    Bounded n (scanPrefixed t accept value) := by
  have hpos : ((t.start.drop 2).dropWhile accept).length ≤ n := by
    have h1 := length_dropWhile_le accept (t.start.drop 2)
    have h2 := h.start_le
    rw [List.length_drop] at h1
    omega
  exact ⟨fun htype => by simp [scanPrefixed, makeToken] at htype, h.moveTo hpos⟩

theorem scanDecimal_bounded (h : t.Within n) : Bounded n (scanDecimal t) := by
  have hpos : (skipExponent (skipFraction (t.pos.dropWhile isDigitOrUnderscore)).2).2.length
      ≤ n := by
    have h1 := skipExponent_le (skipFraction (t.pos.dropWhile isDigitOrUnderscore)).2
    have h2 := skipFraction_le (t.pos.dropWhile isDigitOrUnderscore)
    have h3 := length_dropWhile_le isDigitOrUnderscore t.pos
    have h4 := h.pos_le
    omega
  rw [scanDecimal]
  simp only []
  split_ifs
  · exact ⟨fun htype => by simp [makeToken] at htype, h.moveTo hpos⟩
  · exact ⟨fun htype => by simp [makeToken] at htype, h.moveTo hpos⟩

theorem scanNumber_bounded (h : t.Within n) : Bounded n (scanNumber t) := by
  rw [scanNumber]
  split
  · split_ifs
    · exact scanPrefixed_bounded h _ _
    · exact scanPrefixed_bounded h _ _
    · exact scanPrefixed_bounded h _ _
    · exact scanDecimal_bounded h
    · exact scanDecimal_bounded h
  · exact scanDecimal_bounded h

theorem scanString_bounded (h : t.Within n) : Bounded n (scanString t) := by
  have hpos := Nat.le_trans (scanStringLoop_le t.line t.col t.pos) h.pos_le
  have hmoved : (scanString t).2.Within n := ⟨h.start_le, hpos⟩
  exact hmoved.emit _

theorem scanCharBody_within (h : t.Within n) : (scanCharBody t).2.Within n := by
  fun_cases scanCharBody t with
  | case1 => exact h
  | case2 => exact h.bump _
  | case3 => exact h.bump _
  | case4 => exact h.bump _
  | case5 => exact h.bump _
  | case6 => exact h.bump _
  | case7 => exact h.bump _

theorem scanChar_bounded (h : t.Within n) : Bounded n (scanChar t) := by
  have hbody := scanCharBody_within h
  refine ⟨fun htype => by simp [scanChar, makeToken] at htype, ?_⟩
  simp only [scanChar]
  split_ifs
  · exact hbody.bump 1
  · exact hbody

theorem scanTwoChar_bounded (h : t.Within n) (c : UInt8) :
    ∀ r ∈ scanTwoChar t c, Bounded n r := by
  intro r hr
  rw [scanTwoChar] at hr
  split at hr
  · simp at hr
  · obtain ⟨⟨k, type⟩, _, rfl⟩ := Option.map_eq_some_iff.mp hr
    exact (h.bump k).emit type

theorem scanSingleChar_bounded (h : t.Within n) (c : UInt8) : Bounded n (scanSingleChar t c) := by
  rw [scanSingleChar]
  split
  · exact h.emit _
  · split_ifs
    · exact ((h.bump 1).bump _).emit _
    · exact ⟨fun htype => by simp [errorToken] at htype, h⟩

theorem scanToken_bounded (h : t.Within n) {c : UInt8} {cs : Bytes} (hcs : cs.length ≤ n) :
    Bounded n (scanToken t c cs) := by
  rw [scanToken]
  have hline : ({ t with pos := cs, line := t.line + 1, col := 1 } : Tokenizer).Within n :=
    ⟨h.start_le, hcs⟩
  split_ifs
  · exact hline.emit _
  · exact (h.bump 1).emit _
  · exact (h.bump 1).emit _
  · exact (h.bump 1).emit _
  · exact ⟨fun htype => by simp [scanHash] at htype, h.bump 1⟩
  · exact (h.bump _).emit _
  · exact scanIdentOrKeyword_bounded (h.bump 1)
  · exact scanNumber_bounded (h.bump 1)
  · exact scanString_bounded (h.bump 1)
  · exact scanChar_bounded (h.bump 1)
  · cases htwo : scanTwoChar (t.bump 1) c with
    | none => exact scanSingleChar_bounded (h.bump 1) c
    | some r => exact scanTwoChar_bounded (h.bump 1) c r htwo

theorem nextFuel_bounded (fuel : Nat) : ∀ {t : Tokenizer}, t.Within n →
    Bounded n (nextFuel fuel t) := by
  induction fuel with
  | zero => intro t h; exact h.emit _
  | succ fuel ih =>
    intro t h
    have hws := Nat.le_trans (skipWhitespaceInline_le t.pos t.col) h.pos_le
    rw [nextFuel]
    split
    · exact h.emit _
    · simp only []
      split
      · exact Tokenizer.Within.emit ⟨h.pos_le, Nat.zero_le _⟩ _
      · next c cs hpos =>
        rw [hpos] at hws
        have hcs : cs.length ≤ n := Nat.le_of_succ_le hws
        have hdrop : ((c :: cs).drop 2).length ≤ n := by
          rw [List.length_drop]
          omega
        simp only [hpos]
        split_ifs
        · exact ih ⟨hws, Nat.le_trans (skipLine_le _ _ _) hdrop⟩
        · exact ⟨fun htype => by simp [errorToken] at htype,
            ⟨hws, Nat.le_trans (skipBlockComment_le _ _ _ _) hdrop⟩⟩
        · exact ih ⟨hws, Nat.le_trans (skipBlockComment_le _ _ _ _) hdrop⟩
        · exact scanToken_bounded ⟨hws, hws⟩ hcs

/-! ## §4 The tokens of a text -/

theorem tokensLoop_bounded (fuel : Nat) : ∀ {t : Tokenizer}, t.Within n →
    ∀ tok ∈ (tokensLoop fuel t).1, tok.type = .stringLiteral → tok.text.length ≤ n := by
  induction fuel with
  | zero => intro t _ tok htok; simp [tokensLoop] at htok
  | succ fuel ih =>
    intro t h tok htok
    have hnext := nextFuel_bounded (t.pos.length + 1) h
    rw [tokensLoop, tokenizerNext] at htok
    simp only [] at htok
    split_ifs at htok
    · simp at htok
    · rcases List.mem_cons.mp htok with rfl | htok
      · exact hnext.text_le
      · exact ih hnext.within tok htok

/-- A string token is no longer than the text it was found in. -/
theorem tokensOf_bounded (source : Bytes) :
    ∀ tok ∈ (tokensOf source).1, tok.type = .stringLiteral → tok.text.length ≤ source.length :=
  tokensLoop_bounded _ ⟨Nat.le_refl _, Nat.le_refl _⟩

end Aether
