/-
Aether.Lexing.NumberTheorems — the values of integer literals.

Decimal and hexadecimal literals go through thirty characters of a buffer and
`strtoull`, binary and octal ones are accumulated digit by digit. Below 2^64
the value is that of the number unless its digits do not fit the buffer; from
2^64 on the four bases differ (`literal_value_iff`).
-/
import Mathlib.Data.List.Induction
import Mathlib.Data.Nat.ModEq
import Mathlib.Tactic.Ring
import Aether.Lexing.Lookahead
import Aether.Lib.Numerals

namespace Aether.Lexing

open Aether.Lib Aether.Lib.Scanner

/-! ## §1 Spellings of numbers -/

inductive Base where
  | decimal | hexadecimal | octal | binary
  deriving DecidableEq, Repr

namespace Base

def radix : Base → Nat
  | .decimal => 10
  | .hexadecimal => 16
  | .octal => 8
  | .binary => 2

def isDigit : Base → UInt8 → Bool
  | .decimal, c => Aether.isDigit c
  | .hexadecimal, c => isHexChar c
  | .octal, c => ch '0' ≤ c && c ≤ ch '7'
  | .binary, c => c == ch '0' || c == ch '1'

/-- The letters behind the zero of a literal with a base. -/
def letters : Base → List UInt8
  | .decimal => []
  | .hexadecimal => [ch 'x', ch 'X']
  | .octal => [ch 'o', ch 'O']
  | .binary => [ch 'b', ch 'B']

end Base

/-- A number as the specification lets one write it: digits of the base, any
number of them, with underscores behind the first one. -/
structure NumberSpelling where
  base : Base
  letter : UInt8
  first : UInt8
  others : Bytes
  letterOk : base ≠ .decimal → letter ∈ base.letters
  firstOk : base.isDigit first = true
  othersOk : ∀ c ∈ others, base.isDigit c = true ∨ c = ch '_'

namespace NumberSpelling

def digits (s : NumberSpelling) : Bytes := s.first :: s.others

/-- The digits without underscores. -/
def plainDigits (s : NumberSpelling) : Bytes := s.digits.filter (· != ch '_')

/-- The number that is spelled. -/
def value (s : NumberSpelling) : Nat := digitsValue s.base.radix s.plainDigits

def text (s : NumberSpelling) : Bytes :=
  if s.base = .decimal then s.digits else ch '0' :: s.letter :: s.digits

/-- The literal ends before `rest`: neither a letter, a digit nor an
underscore goes on with it, and no fraction. -/
structure EndsBefore (s : NumberSpelling) (rest : Bytes) : Prop where
  stops : Stops isIdentContinue rest
  noFraction : s.base = .decimal → startsFraction rest = false

/-- What `scan_number` computes from the digits. -/
def tokenValue (s : NumberSpelling) : UInt64 :=
  match s.base with
  | .decimal => strtoull (cleanDigits s.digits) 10
  | .hexadecimal => strtoull (cleanDigits s.digits) 16
  | .octal => shiftDigits 3 s.digits
  | .binary => shiftDigits 1 s.digits

end NumberSpelling

/-! ## §2 The value of digits -/

theorem digitsValue_append (base : Nat) (ds es : Bytes) :
    digitsValue base (ds ++ es) = digitsValue base ds * base ^ es.length + digitsValue base es := by
  induction es using List.reverseRecOn with
  | nil => simp [digitsValue]
  | append_singleton es c ih =>
    have hstep : ∀ ds : Bytes, digitsValue base (ds ++ [c]) =
        base * digitsValue base ds + digitValue c := fun ds => by simp [digitsValue]
    rw [← List.append_assoc, hstep, hstep, ih, List.length_append, List.length_singleton]
    ring

theorem digitsValue_lt {base : Nat} {ds : Bytes} (h : ∀ c ∈ ds, digitValue c < base) :
    digitsValue base ds < base ^ ds.length := by
  induction ds using List.reverseRecOn with
  | nil => simp [digitsValue]
  | append_singleton ds c ih =>
    have hds := ih fun d hd => h d (List.mem_append_left _ hd)
    have hc := h c (by simp)
    rw [digitsValue_append, List.length_append, List.length_singleton, Nat.pow_succ base ds.length,
      Nat.pow_one]
    have hlast : digitsValue base [c] = digitValue c := by simp [digitsValue]
    rw [hlast]
    calc digitsValue base ds * base + digitValue c < digitsValue base ds * base + base := by omega
      _ = (digitsValue base ds + 1) * base := by ring
      _ ≤ base ^ ds.length * base := Nat.mul_le_mul_right base hds

/-- The first digits are the number without its last ones. -/
theorem digitsValue_take {base : Nat} {ds : Bytes} (h : ∀ c ∈ ds, digitValue c < base) (k : Nat) :
    digitsValue base (ds.take k) = digitsValue base ds / base ^ (ds.length - k) := by
  have hlast := digitsValue_lt fun c hc => h c (List.mem_of_mem_drop (l := ds) (i := k) hc)
  have hsplit := digitsValue_append base (ds.take k) (ds.drop k)
  rw [List.take_append_drop, List.length_drop] at hsplit
  rw [List.length_drop] at hlast
  rw [hsplit, Nat.mul_comm, Nat.mul_add_div (Nat.pos_of_ne_zero fun h0 => by simp [h0] at hlast),
    Nat.div_eq_of_lt hlast, Nat.add_zero]

theorem toNat_strtoull (ds : Bytes) (base : Nat) :
    (strtoull ds base).toNat = min (digitsValue base ds) (2 ^ 64 - 1) := by
  rw [strtoull, UInt64.toNat_ofNat']
  exact Nat.mod_eq_of_lt (by omega)

/-- One step of the accumulating loop, modulo the size of the word. -/
theorem toNat_shift_or {k d n : Nat} {v e : UInt64} (hk : k < 64) (hd : d < 2 ^ k)
    (hv : v.toNat = n % 2 ^ 64) (he : e.toNat = d) :
    ((v <<< UInt64.ofNat k) ||| e).toNat = (2 ^ k * n + d) % 2 ^ 64 := by
  have hpow : 2 ^ 64 = 2 ^ (64 - k) * 2 ^ k := by
    rw [← Nat.pow_add]
    congr 1
    omega
  have hshift : (v <<< UInt64.ofNat k).toNat = (n % 2 ^ (64 - k)) <<< k := by
    have hk' : (UInt64.ofNat k).toNat % 64 = k := by
      rw [UInt64.toNat_ofNat', Nat.mod_eq_of_lt (by omega : k < 2 ^ 64), Nat.mod_eq_of_lt hk]
    rw [UInt64.toNat_shiftLeft, hk', hv, Nat.shiftLeft_eq, Nat.shiftLeft_eq, hpow,
      Nat.mul_mod_mul_right, Nat.mod_mul_right_mod]
  have hlt : (n % 2 ^ (64 - k)) * 2 ^ k + d < 2 ^ 64 := by
    have hmod : n % 2 ^ (64 - k) < 2 ^ (64 - k) := Nat.mod_lt _ (Nat.two_pow_pos _)
    calc (n % 2 ^ (64 - k)) * 2 ^ k + d < (n % 2 ^ (64 - k)) * 2 ^ k + 2 ^ k := by omega
      _ = (n % 2 ^ (64 - k) + 1) * 2 ^ k := by ring
      _ ≤ 2 ^ (64 - k) * 2 ^ k := Nat.mul_le_mul_right _ hmod
      _ = 2 ^ 64 := hpow.symm
  rw [UInt64.toNat_or, hshift, he, ← Nat.shiftLeft_add_eq_or_of_lt hd, Nat.shiftLeft_eq,
    ← Nat.mod_eq_of_lt hlt]
  refine Nat.ModEq.add_right d ?_
  rw [hpow, Nat.mul_comm (2 ^ k) n]
  exact (Nat.mod_modEq n _).mul_right' _

/-- The loop of the binary and octal literals: the number modulo the size of
the word, whatever underscores stand between the digits. -/
theorem toNat_shiftDigits {k : Nat} (hk : k < 64) {ds : Bytes}
    (h : ∀ c ∈ ds, c = ch '_' ∨ (c ≠ ch '_' ∧ digitValue c < 2 ^ k ∧ digitValue c = (c - ch '0').toNat)) :
    (shiftDigits (UInt64.ofNat k) ds).toNat =
      digitsValue (2 ^ k) (ds.filter (· != ch '_')) % 2 ^ 64 := by
  rw [shiftDigits, digitsValue]
  have hrun : ∀ (v : UInt64) (n : Nat), v.toNat = n % 2 ^ 64 →
      (ds.foldl (fun val c => if c = ch '_' then val
        else (val <<< UInt64.ofNat k) ||| (c - ch '0').toUInt64) v).toNat =
      ((ds.filter (· != ch '_')).foldl (fun n c => 2 ^ k * n + digitValue c) n) % 2 ^ 64 := by
    induction ds with
    | nil => intro v n hv; exact hv
    | cons c ds ih =>
      intro v n hv
      obtain ⟨hc, hds⟩ := List.forall_mem_cons.mp h
      rcases hc with hc | ⟨hne, hlt, hdigit⟩
      · rw [List.foldl_cons, if_pos hc, List.filter_cons_of_neg (by simp [hc])]
        exact ih hds v n hv
      · rw [List.foldl_cons, if_neg hne, List.filter_cons_of_pos (by simp [hne]), List.foldl_cons]
        exact ih hds _ _ (toNat_shift_or hk hlt hv (by rw [UInt8.toNat_toUInt64, hdigit]))
  exact hrun 0 0 rfl

/-! ## §3 What the tokenizer reads -/

theorem isHexChar_iff (c : UInt8) : isHexChar c = true ↔ (48 ≤ c.toNat ∧ c.toNat ≤ 57) ∨
    (97 ≤ c.toNat ∧ c.toNat ≤ 102) ∨ (65 ≤ c.toNat ∧ c.toNat ≤ 70) := by
  rw [isHexChar, Bool.or_eq_true, Bool.or_eq_true, isDigit_iff, Bool.and_eq_true, Bool.and_eq_true,
    decide_eq_true_eq, decide_eq_true_eq, decide_eq_true_eq, decide_eq_true_eq,
    UInt8.le_iff_toNat_le, UInt8.le_iff_toNat_le, UInt8.le_iff_toNat_le, UInt8.le_iff_toNat_le,
    or_assoc]
  rfl

theorem digitValue_decimal {c : UInt8} (h : Aether.isDigit c = true) :
    digitValue c = c.toNat - 48 := by
  have hrange := (isDigit_iff c).mp h
  rw [digitValue, if_pos h]
  exact UInt8.toNat_sub_of_le _ _ (UInt8.le_iff_toNat_le.mpr hrange.1)

theorem digitValue_hex {c : UInt8} (h : isHexChar c = true) : digitValue c < 16 := by
  by_cases hdigit : Aether.isDigit c = true
  · have hrange := (isDigit_iff c).mp hdigit
    rw [digitValue_decimal hdigit]
    omega
  · have hrange := (isHexChar_iff c).mp h
    have hnot := mt (isDigit_iff c).mpr hdigit
    rw [digitValue, if_neg hdigit]
    split_ifs with hlower
    · rw [UInt8.toNat_sub_of_le _ _ hlower]
      show c.toNat - 97 + 10 < 16
      omega
    · have hupper : ¬ 97 ≤ c.toNat := fun hle => hlower (UInt8.le_iff_toNat_le.mpr hle)
      have hle : ch 'A' ≤ c := by
        rw [UInt8.le_iff_toNat_le]
        show 65 ≤ c.toNat
        omega
      rw [UInt8.toNat_sub_of_le _ _ hle]
      show c.toNat - 65 + 10 < 16
      omega

theorem Base.digitValue_lt (b : Base) (c : UInt8) (h : b.isDigit c = true) :
    digitValue c < b.radix := by
  cases b with
  | decimal =>
    have hrange := (isDigit_iff c).mp h
    rw [digitValue_decimal h]
    show c.toNat - 48 < 10
    omega
  | hexadecimal => exact digitValue_hex h
  | octal =>
    simp only [isDigit, Bool.and_eq_true, decide_eq_true_eq, UInt8.le_iff_toNat_le] at h
    have hrange : 48 ≤ c.toNat ∧ c.toNat ≤ 55 := h
    rw [digitValue_decimal ((isDigit_iff c).mpr ⟨hrange.1, by omega⟩)]
    show c.toNat - 48 < 8
    omega
  | binary =>
    simp only [isDigit, Bool.or_eq_true, beq_iff_eq] at h
    rcases h with rfl | rfl <;> decide

/-- The digits of the small bases are decimal ones. -/
theorem Base.digitValue_eq (b : Base) (hb : b = .octal ∨ b = .binary) {c : UInt8}
    (h : b.isDigit c = true) : digitValue c = (c - ch '0').toNat := by
  have hdecimal : Aether.isDigit c = true := by
    rcases hb with rfl | rfl
    · simp only [isDigit, Bool.and_eq_true, decide_eq_true_eq] at h
      simp only [Aether.isDigit, Bool.and_eq_true, decide_eq_true_eq]
      exact ⟨h.1, UInt8.le_trans h.2 (by decide)⟩
    · simp only [isDigit, Bool.or_eq_true, beq_iff_eq] at h
      rcases h with rfl | rfl <;> decide
  rw [digitValue, if_pos hdecimal]

theorem Base.ne_underscore (b : Base) {c : UInt8} (h : b.isDigit c = true) : c ≠ ch '_' := by
  rintro rfl
  revert h
  cases b <;> decide

namespace NumberSpelling

variable (s : NumberSpelling)

theorem digits_cases {c : UInt8} (h : c ∈ s.digits) : s.base.isDigit c = true ∨ c = ch '_' := by
  rcases List.mem_cons.mp h with rfl | h
  · exact .inl s.firstOk
  · exact s.othersOk c h

theorem plainDigits_isDigit {c : UInt8} (h : c ∈ s.plainDigits) : s.base.isDigit c = true := by
  obtain ⟨hmem, hne⟩ := List.mem_filter.mp h
  exact (s.digits_cases hmem).resolve_right (by simpa using hne)

theorem digitValue_lt {c : UInt8} (h : c ∈ s.plainDigits) : digitValue c < s.base.radix :=
  s.base.digitValue_lt c (s.plainDigits_isDigit h)

/-- What the source does, by the number that is spelled. -/
theorem toNat_tokenValue : s.tokenValue.toNat =
    if s.base = .octal ∨ s.base = .binary then s.value % 2 ^ 64
    else min (s.value / s.base.radix ^ (s.plainDigits.length - 30)) (2 ^ 64 - 1) := by
  have hbuffer : ∀ radix, s.base.radix = radix → (strtoull (cleanDigits s.digits) radix).toNat =
      min (s.value / s.base.radix ^ (s.plainDigits.length - 30)) (2 ^ 64 - 1) := by
    rintro radix rfl
    rw [toNat_strtoull, value, ← digitsValue_take fun c hc => s.digitValue_lt hc]
    rfl
  have hshift : ∀ k : Nat, k < 64 → s.base = .octal ∨ s.base = .binary → s.base.radix = 2 ^ k →
      (shiftDigits (UInt64.ofNat k) s.digits).toNat = s.value % 2 ^ 64 := by
    intro k hk hbase hradix
    rw [value, hradix]
    refine toNat_shiftDigits hk fun c hc => ?_
    refine (s.digits_cases hc).symm.imp id fun hdigit => ?_
    exact ⟨s.base.ne_underscore hdigit, hradix ▸ s.base.digitValue_lt c hdigit,
      s.base.digitValue_eq hbase hdigit⟩
  rw [tokenValue]
  split
  · next hbase =>
    rw [if_neg (by simp [hbase])]
    exact hbuffer 10 (by rw [hbase]; rfl)
  · next hbase =>
    rw [if_neg (by simp [hbase])]
    exact hbuffer 16 (by rw [hbase]; rfl)
  · next hbase =>
    rw [if_pos (.inl hbase)]
    exact hshift 3 (by omega) (.inl hbase) (by rw [hbase]; rfl)
  · next hbase =>
    rw [if_pos (.inr hbase)]
    exact hshift 1 (by omega) (.inr hbase) (by rw [hbase]; rfl)

/-! ## §4 What the tokenizer reads -/

/-- At a digit there is a number. -/
theorem tokenizerNext_digit {c : UInt8} (h : Aether.isDigit c = true) (start cs : Bytes)
    (line col : Nat) : tokenizerNext ⟨start, c :: cs, line, col⟩ =
      scanNumber ⟨c :: cs, cs, line, col + 1⟩ := by
  obtain ⟨hident, hnl, hback, hslash, hhash, ho, -⟩ := digit_facts c h
  have hne : ∀ k : UInt8, Aether.isDigit k = false → c ≠ k := by
    rintro k hk rfl
    exact absurd (h.symm.trans hk) (by decide)
  have hskip : skipWhitespaceInline col (c :: cs) = (col, c :: cs) := by
    rw [skipWhitespaceInline, if_neg (hne _ (by decide)), if_neg (hne _ (by decide))]
  rw [tokenizerNext, nextFuel]
  simp only [hskip, hslash, false_and, if_false]
  rw [scanToken, if_neg hnl, if_neg hback, if_neg hslash, if_neg hhash, if_neg fun hop => ho hop.1,
    if_neg (by simp [hident]), if_pos h]
  rfl

/-- The characters of the digits and those behind them are told apart. -/
theorem takeWhile_digits {accept : UInt8 → Bool} {rest : Bytes}
    (hdigit : ∀ c, s.base.isDigit c = true → accept c = true) (hunder : accept (ch '_') = true)
    (hrest : Stops accept rest) :
    (s.digits ++ rest).takeWhile accept = s.digits ∧ (s.digits ++ rest).dropWhile accept = rest := by
  have hall : ∀ c ∈ s.digits, accept c = true := fun c hc => by
    rcases s.digits_cases hc with h | h
    · exact hdigit c h
    · rw [h, hunder]
  have hdrop : (s.digits ++ rest).dropWhile accept = rest :=
    dropWhile_append_eq_iff.mpr ⟨List.all_eq_true.mpr hall, hrest⟩
  have htake := List.takeWhile_append_dropWhile (p := accept) (l := s.digits ++ rest)
  rw [hdrop] at htake
  exact ⟨List.append_cancel_right htake, hdrop⟩

/-- The token is a literal with the text and the value of the spelling. -/
structure ReadAs (tok : Token) : Prop where
  type : tok.type = .intLiteral
  text : tok.text = s.text
  intValue : tok.intValue = s.tokenValue

variable {rest : Bytes}

theorem readAs_prefixed (hbase : s.base ≠ .decimal) {accept : UInt8 → Bool} {value : Bytes → UInt64}
    (hdigit : ∀ c, s.base.isDigit c = true → accept c = true) (hunder : accept (ch '_') = true)
    (hrest : Stops accept rest) (hvalue : value s.digits = s.tokenValue) (pos : Bytes)
    (line col : Nat) :
    s.ReadAs (scanPrefixed ⟨s.text ++ rest, pos, line, col⟩ accept value).1 := by
  obtain ⟨htake, hdrop⟩ := s.takeWhile_digits hdigit hunder hrest
  have htext : s.text = ch '0' :: s.letter :: s.digits := if_neg hbase
  have hdigits : (s.text ++ rest).drop 2 = s.digits ++ rest := by rw [htext]; rfl
  refine ⟨rfl, ?_, ?_⟩
  · simp only [scanPrefixed, makeToken, hdigits, hdrop]
    exact textBetween_append s.text rest
  · simp only [scanPrefixed, hdigits, htake, hvalue]

theorem scanNumber_decimal {t : Tokenizer}
    (h : ∀ d ∈ t.start.tail.head?, d ∉ [ch 'x', ch 'X', ch 'b', ch 'B', ch 'o', ch 'O']) :
    scanNumber t = scanDecimal t := by
  rw [scanNumber]
  split
  · next c next cs hstart =>
    have hnext := h next (by rw [hstart]; rfl)
    simp only [List.mem_cons, not_or, List.not_mem_nil, not_false_eq_true, and_true] at hnext
    obtain ⟨hx, hX, hb, hB, ho, hO⟩ := hnext
    simp [hx, hX, hb, hB, ho, hO]
  · rfl

theorem readAs_decimal (hbase : s.base = .decimal) (hend : s.EndsBefore rest) (line col : Nat) :
    s.ReadAs (scanDecimal ⟨s.text ++ rest, s.others ++ rest, line, col⟩).1 := by
  have htext : s.text = s.digits := if_pos hbase
  have hstops : ∀ {p : UInt8 → Bool}, (∀ c, isIdentContinue c = false → p c = false) →
      Stops p rest := fun hp c hc => hp c (hend.stops c hc)
  have hdigits : (s.others ++ rest).dropWhile isDigitOrUnderscore = rest := by
    refine dropWhile_append_eq_iff.mpr ⟨List.all_eq_true.mpr fun c hc => ?_, hstops fun c hc => ?_⟩
    · rcases s.othersOk c hc with h | h
      · rw [hbase] at h
        simp [isDigitOrUnderscore, show Aether.isDigit c = true from h]
      · simp [isDigitOrUnderscore, h]
    · simp only [isIdentContinue, Bool.or_eq_false_iff] at hc
      simp [isDigitOrUnderscore, hc.1.2, hc.2]
  have hfraction : skipFraction rest = (false, rest) := by
    rw [skipFraction_eq, if_neg (by simp [hend.noFraction hbase])]
  have hexponent : skipExponent rest = (false, rest) := by
    cases rest with
    | nil => rfl
    | cons d ds =>
      have hletter : ¬ (d = ch 'e' ∨ d = ch 'E') := by
        have hd := hend.stops d rfl
        rintro (rfl | rfl) <;> exact absurd hd (by decide)
      rw [skipExponent.eq_def]
      exact if_neg hletter
  have hclean : textBetween (s.text ++ rest) rest = s.text := textBetween_append s.text rest
  have hvalue : s.tokenValue = strtoull (cleanDigits s.digits) 10 := by rw [tokenValue, hbase]
  refine ⟨?_, ?_, ?_⟩
  · simp [scanDecimal, hdigits, hfraction, hexponent, makeToken]
  · simp [scanDecimal, hdigits, hfraction, hexponent, makeToken, hclean]
  · simp [scanDecimal, hdigits, hfraction, hexponent, hclean, hvalue]
    rw [htext]

theorem letters_facts : ∀ k ∈ [ch 'x', ch 'X', ch 'b', ch 'B', ch 'o', ch 'O'],
    isIdentContinue k = true ∧ Aether.isDigit k = false ∧ k ≠ ch '_' := by
  intro k hk
  simp only [List.mem_cons, List.not_mem_nil, or_false] at hk
  rcases hk with rfl | rfl | rfl | rfl | rfl | rfl <;> decide

theorem identContinue_of_accept (c : UInt8) (h : isIdentContinue c = false) :
    isHexOrUnderscore c = false ∧ isOctOrUnderscore c = false ∧ isBinOrUnderscore c = false := by
  simp only [isIdentContinue, Bool.or_eq_false_iff] at h
  obtain ⟨⟨halpha, hdigit⟩, hunder⟩ := h
  have hnot := mt (isAlpha_iff c).mpr (by simp [halpha])
  have hnot' := mt (isDigit_iff c).mpr (by simp [hdigit])
  have hhex : isHexChar c = false := by
    rw [← Bool.not_eq_true, isHexChar_iff]
    omega
  have hne : ∀ k, isHexChar k = true → c ≠ k := by
    rintro k hk rfl
    exact absurd (hhex.symm.trans hk) (by decide)
  refine ⟨by rw [isHexOrUnderscore, hhex, hunder]; rfl, ?_, ?_⟩
  · have hoctal : ¬ (ch '0' ≤ c ∧ c ≤ ch '7') := by
      rw [UInt8.le_iff_toNat_le, UInt8.le_iff_toNat_le]
      show ¬ (48 ≤ c.toNat ∧ c.toNat ≤ 55)
      omega
    rw [isOctOrUnderscore, hunder, Bool.or_false, ← Bool.not_eq_true, Bool.and_eq_true,
      decide_eq_true_eq, decide_eq_true_eq]
    exact hoctal
  · rw [isBinOrUnderscore, beq_eq_false_iff_ne.mpr (hne _ rfl), beq_eq_false_iff_ne.mpr (hne _ rfl),
      hunder]
    rfl

/-- A spelled number is read as a literal of its own. -/
theorem readAs (hend : s.EndsBefore rest) (start : Bytes) (line col : Nat) :
    s.ReadAs (tokenizerNext ⟨start, s.text ++ rest, line, col⟩).1 := by
  by_cases hbase : s.base = .decimal
  · have htext : s.text ++ rest = s.first :: (s.others ++ rest) := by
      rw [text, if_pos hbase]
      rfl
    have hfirst : Aether.isDigit s.first = true := by
      have h := s.firstOk
      rwa [hbase] at h
    have hread := s.readAs_decimal hbase hend line (col + 1)
    rw [htext] at hread ⊢
    rw [tokenizerNext_digit hfirst, scanNumber_decimal]
    · exact hread
    · intro d hd hletter
      obtain ⟨hident, hdigit, hunder⟩ := letters_facts d hletter
      have hnext : d ∈ (s.others ++ rest).head? := hd
      cases hothers : s.others with
      | nil =>
        rw [hothers] at hnext
        exact absurd (hident.symm.trans (hend.stops d hnext)) (by decide)
      | cons o others =>
        rw [hothers] at hnext
        obtain rfl : o = d := Option.some.inj hnext
        rcases s.othersOk o (by rw [hothers]; exact List.mem_cons_self) with h | h
        · rw [hbase] at h
          exact absurd (hdigit.symm.trans h) (by decide)
        · exact hunder h
  · have hletter := s.letterOk hbase
    have hstops : ∀ {p : UInt8 → Bool}, (∀ c, isIdentContinue c = false → p c = false) →
        Stops p rest := fun hp c hc => hp c (hend.stops c hc)
    have htext : s.text ++ rest = ch '0' :: s.letter :: (s.digits ++ rest) := by
      rw [text, if_neg hbase]
      rfl
    have hread : ∀ {accept : UInt8 → Bool} {value : Bytes → UInt64},
        (∀ c, s.base.isDigit c = true → accept c = true) → accept (ch '_') = true →
        (∀ c, isIdentContinue c = false → accept c = false) → value s.digits = s.tokenValue →
        s.ReadAs (scanPrefixed ⟨s.text ++ rest, s.letter :: (s.digits ++ rest), line, col + 1⟩ accept
          value).1 :=
      fun hdigit hunder hrest hvalue =>
        s.readAs_prefixed hbase hdigit hunder (hstops hrest) hvalue _ _ _
    rw [htext] at hread ⊢
    rw [tokenizerNext_digit (by decide), scanNumber]
    dsimp only
    rw [if_pos rfl]
    cases hb : s.base with
    | decimal => exact absurd hb hbase
    | hexadecimal =>
      rw [hb] at hletter hread
      rw [if_pos (by simpa [Base.letters] using hletter)]
      exact hread (fun c h => by simp [isHexOrUnderscore, show isHexChar c = true from h]) (by decide)
        (fun c hc => (identContinue_of_accept c hc).1) (by rw [tokenValue, hb])
    | octal =>
      rw [hb] at hletter hread
      have hother : ¬ (s.letter = ch 'x' ∨ s.letter = ch 'X') ∧ ¬ (s.letter = ch 'b' ∨ s.letter = ch 'B') ∧
          (s.letter = ch 'o' ∨ s.letter = ch 'O') := by
        have hcases : s.letter = ch 'o' ∨ s.letter = ch 'O' := by simpa [Base.letters] using hletter
        rcases hcases with h | h <;> rw [h] <;> decide
      rw [if_neg hother.1, if_neg hother.2.1, if_pos hother.2.2]
      exact hread (fun c h => by rw [isOctOrUnderscore, Bool.or_eq_true]; exact .inl h) (by decide)
        (fun c hc => (identContinue_of_accept c hc).2.1) (by rw [tokenValue, hb])
    | binary =>
      rw [hb] at hletter hread
      have hother : ¬ (s.letter = ch 'x' ∨ s.letter = ch 'X') ∧
          (s.letter = ch 'b' ∨ s.letter = ch 'B') := by
        have hcases : s.letter = ch 'b' ∨ s.letter = ch 'B' := by simpa [Base.letters] using hletter
        rcases hcases with h | h <;> rw [h] <;> decide
      rw [if_neg hother.1, if_pos hother.2]
      exact hread (fun c h => by rw [isBinOrUnderscore, Bool.or_eq_true]; exact .inl h) (by decide)
        (fun c hc => (identContinue_of_accept c hc).2.2) (by rw [tokenValue, hb])

end NumberSpelling

/-! ## §5 Decimal spellings of any number -/

/-- The decimal spelling of a number behind some zeros. -/
def zerosAndDecimal (zeros n : Nat) : Bytes := List.replicate zeros (ch '0') ++ Numerals.decimal n

theorem zerosAndDecimal_ne_nil (zeros n : Nat) : zerosAndDecimal zeros n ≠ [] := by
  simp [zerosAndDecimal, Numerals.decimal_ne_nil]

theorem digit_facts_of_lt : ∀ m < 10, digitValue (Numerals.digit m) = m ∧
    Aether.isDigit (Numerals.digit m) = true := by decide

theorem isDigit_of_mem {zeros n : Nat} {c : UInt8} (h : c ∈ zerosAndDecimal zeros n) :
    Aether.isDigit c = true := by
  rcases List.mem_append.mp h with h | h
  · rw [List.eq_of_mem_replicate h]
    decide
  · obtain ⟨m, hm, rfl⟩ := Numerals.digit_of_mem_decimal h
    exact (digit_facts_of_lt m hm).2

def decimalSpelling (zeros n : Nat) : NumberSpelling where
  base := .decimal
  letter := ch 'x'
  first := (zerosAndDecimal zeros n).head (zerosAndDecimal_ne_nil zeros n)
  others := (zerosAndDecimal zeros n).tail
  letterOk h := absurd rfl h
  firstOk := isDigit_of_mem (List.head_mem _)
  othersOk _ h := .inl (isDigit_of_mem (List.mem_of_mem_tail h))

theorem plainDigits_decimalSpelling (zeros n : Nat) :
    (decimalSpelling zeros n).plainDigits = zerosAndDecimal zeros n := by
  rw [NumberSpelling.plainDigits, NumberSpelling.digits, decimalSpelling, List.cons_head_tail,
    List.filter_eq_self]
  intro c hc
  have hne := Base.ne_underscore .decimal (isDigit_of_mem hc)
  simpa using hne

theorem digitsValue_decimal (n : Nat) : digitsValue 10 (Numerals.decimal n) = n := by
  induction n using Nat.strongRecOn with
  | ind n ih =>
    have hdigit : ∀ m < 10, digitsValue 10 [Numerals.digit m] = m := fun m hm => by
      simp [digitsValue, (digit_facts_of_lt m hm).1]
    by_cases hlt : n < 10
    · rw [Numerals.decimal_of_lt hlt, hdigit n hlt]
    · rw [Numerals.decimal_of_le (by omega), digitsValue_append, ih (n / 10) (by omega),
        hdigit _ (by omega), List.length_singleton]
      omega

theorem value_decimalSpelling (zeros n : Nat) : (decimalSpelling zeros n).value = n := by
  have hzeros : digitsValue 10 (List.replicate zeros (ch '0')) = 0 := by
    induction zeros with
    | zero => rfl
    | succ zeros ih =>
      rw [List.replicate_succ', digitsValue_append, ih]
      decide
  rw [NumberSpelling.value, plainDigits_decimalSpelling, zerosAndDecimal]
  show digitsValue 10 _ = n
  rw [digitsValue_append, hzeros, digitsValue_decimal, Nat.zero_mul, Nat.zero_add]

theorem lt_pow_length_decimal (n : Nat) : n < 10 ^ (Numerals.decimal n).length := by
  have hdigits : ∀ c ∈ Numerals.decimal n, digitValue c < 10 := by
    intro c hc
    obtain ⟨m, hm, rfl⟩ := Numerals.digit_of_mem_decimal hc
    rwa [(digit_facts_of_lt m hm).1]
  have h := digitsValue_lt hdigits
  rwa [digitsValue_decimal] at h

/-- Zeros that fill the buffer leave nothing of the number. -/
theorem tokenValue_padded (n : Nat) : (decimalSpelling 31 n).tokenValue.toNat = 0 := by
  have hlt := lt_pow_length_decimal n
  have hpow : 10 ^ (Numerals.decimal n).length ≤ 10 ^ (31 + (Numerals.decimal n).length - 30) :=
    Nat.pow_le_pow_right (by omega) (by omega)
  rw [NumberSpelling.toNat_tokenValue, if_neg (by simp [decimalSpelling]), value_decimalSpelling,
    plainDigits_decimalSpelling, zerosAndDecimal, List.length_append, List.length_replicate]
  show min (n / 10 ^ _) _ = 0
  rw [Nat.div_eq_of_lt (hlt.trans_le hpow), Nat.zero_min]

/-- A number that is too large saturates in decimal. -/
theorem tokenValue_large {n : Nat} (h : 2 ^ 64 ≤ n) :
    (decimalSpelling 0 n).tokenValue.toNat = 2 ^ 64 - 1 := by
  rw [NumberSpelling.toNat_tokenValue, if_neg (by simp [decimalSpelling]), value_decimalSpelling,
    plainDigits_decimalSpelling]
  show min (n / 10 ^ ((Numerals.decimal n).length - 30)) _ = _
  generalize hlength : (Numerals.decimal n).length = length
  refine Nat.min_eq_right (Nat.le_of_lt ?_)
  rcases Nat.lt_or_ge 30 length with hlong | hshort
  · have hlow : 10 ^ (length - 1) ≤ n := by
      by_contra hlt
      have hle := Numerals.length_decimal_le (n := n) (k := length - 2)
        (by rw [show length - 2 + 1 = length - 1 by omega]; omega)
      omega
    have hfit : 10 ^ 29 * 10 ^ (length - 30) ≤ n := by
      rw [← Nat.pow_add, show 29 + (length - 30) = length - 1 by omega]
      exact hlow
    calc 2 ^ 64 - 1 < 10 ^ 29 := by decide
      _ ≤ n / 10 ^ (length - 30) := (Nat.le_div_iff_mul_le (Nat.pow_pos (by omega))).mpr hfit
  · rw [show length - 30 = 0 by omega, Nat.pow_zero, Nat.div_one]
    omega

/-! ## §6 Literals with their mathematical value -/

/-- Below 2^64 the token has the number as its value, and from there on all
spellings of a number have the same value. -/
structure LiteralLaw (s : NumberSpelling) : Prop where
  exact : s.value < 2 ^ 64 → ∀ rest start line col, s.EndsBefore rest →
    (tokenizerNext ⟨start, s.text ++ rest, line, col⟩).1.type = .intLiteral ∧
      (tokenizerNext ⟨start, s.text ++ rest, line, col⟩).1.text = s.text ∧
      (tokenizerNext ⟨start, s.text ++ rest, line, col⟩).1.intValue.toNat = s.value
  uniform : 2 ^ 64 ≤ s.value → ∀ s' : NumberSpelling, s'.value = s.value →
    ∀ rest rest' start line col, s.EndsBefore rest → s'.EndsBefore rest' →
      (tokenizerNext ⟨start, s.text ++ rest, line, col⟩).1.intValue =
        (tokenizerNext ⟨start, s'.text ++ rest', line, col⟩).1.intValue

theorem NumberSpelling.endsBefore_nil (s : NumberSpelling) : s.EndsBefore [] :=
  ⟨stops_nil _, fun _ => rfl⟩

/-- Exactly the numbers below 2^64 have their values: in binary and octal in
every spelling, in decimal and hexadecimal in those of at most thirty digits,
and zero in every one. -/
theorem literal_value_iff (s : NumberSpelling) : LiteralLaw s ↔
    s.value < 2 ^ 64 ∧
      (s.base = .octal ∨ s.base = .binary ∨ s.plainDigits.length ≤ 30 ∨ s.value = 0) := by
  constructor
  · intro h
    have hsmall : s.value < 2 ^ 64 := by
      by_contra hlarge
      have hlarge' : 2 ^ 64 ≤ s.value := by omega
      have hequal : ∀ zeros, s.tokenValue = (decimalSpelling zeros s.value).tokenValue := by
        intro zeros
        have heq := h.uniform hlarge' (decimalSpelling zeros s.value) (value_decimalSpelling _ _)
          [] [] [] 1 1 s.endsBefore_nil (NumberSpelling.endsBefore_nil _)
        rwa [(s.readAs s.endsBefore_nil _ _ _).intValue,
          (NumberSpelling.readAs _ (NumberSpelling.endsBefore_nil _) _ _ _).intValue] at heq
      have hpadded := tokenValue_padded s.value
      have hplain := tokenValue_large hlarge'
      rw [← hequal] at hpadded hplain
      omega
    refine ⟨hsmall, ?_⟩
    have hexact := (h.exact hsmall [] [] 1 1 s.endsBefore_nil).2.2
    rw [(s.readAs s.endsBefore_nil _ _ _).intValue, s.toNat_tokenValue] at hexact
    by_contra hnot
    simp only [not_or, Nat.not_le] at hnot
    obtain ⟨hoctal, hbinary, hlong, hpositive⟩ := hnot
    rw [if_neg (by simp [hoctal, hbinary])] at hexact
    have hradix : 1 < s.base.radix ^ (s.plainDigits.length - 30) := by
      refine Nat.one_lt_pow (by omega) ?_
      cases s.base <;> decide
    have hless := Nat.div_lt_self (Nat.pos_of_ne_zero hpositive) hradix
    omega
  · rintro ⟨hsmall, hspelling⟩
    refine ⟨fun _ rest start line col hend => ?_, fun hlarge => by omega⟩
    have hread := s.readAs hend start line col
    refine ⟨hread.type, hread.text, ?_⟩
    rw [hread.intValue, s.toNat_tokenValue]
    split_ifs with hbase
    · exact Nat.mod_eq_of_lt hsmall
    · rcases hspelling with hoctal | hbinary | hshort | hzero
      · exact absurd (.inl hoctal) hbase
      · exact absurd (.inr hbinary) hbase
      · rw [show s.plainDigits.length - 30 = 0 by omega, Nat.pow_zero, Nat.div_one]
        omega
      · rw [hzero, Nat.zero_div, Nat.zero_min]

/-- Thirty-one zeros before a one. -/
theorem not_always_exact : ¬ ∀ s, LiteralLaw s := by
  intro h
  have hexact := ((h (decimalSpelling 31 1)).exact (by rw [value_decimalSpelling]; norm_num) [] [] 1 1
    (NumberSpelling.endsBefore_nil _)).2.2
  rw [(NumberSpelling.readAs _ (NumberSpelling.endsBefore_nil _) _ _ _).intValue, tokenValue_padded,
    value_decimalSpelling] at hexact
  omega

end Aether.Lexing
