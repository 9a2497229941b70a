/-
Aether.Lexing.LocationTheorems — the line and the column of the tokenizer.

`placeAfter` counts a text the way the column is meant: a newline starts a
line, a tab is four wide and every other byte one. The scanners count
otherwise. Words and numbers move the column by their first byte only,
comments and strings count a tab as one, and character literals and bytes
over 127 move on by bytes they do not look at. `plainNext` tells the texts
where none of this shows.
-/
import Aether.Lexing.LexerSlots
import Aether.Lexing.Places
import Aether.Lexing.PointerTheorems
import Mathlib.Data.List.Infix

namespace Aether.Lexing

open Aether.Lib.Scanner
open Aether.LexerSlots (scanned scanned_succ)

/-! ## §1 The place behind a text -/

/-- A tab counts four, every other byte one. -/
def byteWidth (c : UInt8) : Nat := if c = ch '\t' then 4 else 1

def width (text : Bytes) : Nat := text.foldl (fun n c => n + byteWidth c) 0

/-- The text behind the last newline. -/
def lastLine (text : Bytes) : Bytes := (text.reverse.takeWhile (· != ch '\n')).reverse

/-- The text of the source in front of `pos`. -/
def consumed (source : Bytes) (t : Tokenizer) : Bytes := textBetween source t.pos

structure Accurate (source : Bytes) (t : Tokenizer) : Prop where
  line : t.line = 1 + (consumed source t).count (ch '\n')
  col : t.col = 1 + width (lastLine (consumed source t))

/-- The line and the column one byte further. -/
def stepPlace (place : Nat × Nat) (c : UInt8) : Nat × Nat :=
  if c = ch '\n' then (place.1 + 1, 1) else (place.1, place.2 + byteWidth c)

def placeAfter (place : Nat × Nat) (text : Bytes) : Nat × Nat := text.foldl stepPlace place

/-- The same with tabs as wide as other bytes, which is how comments and strings count. -/
def countedAfter (place : Nat × Nat) (text : Bytes) : Nat × Nat :=
  text.foldl (fun place c => stringCol place.1 place.2 c) place

theorem placeAfter_append (place : Nat × Nat) (text more : Bytes) :
    placeAfter place (text ++ more) = placeAfter (placeAfter place text) more :=
  List.foldl_append

theorem lastLine_snoc (text : Bytes) (c : UInt8) :
    lastLine (text ++ [c]) = if c = ch '\n' then [] else lastLine text ++ [c] := by
  by_cases hc : c = ch '\n'
  · simp [lastLine, hc]
  · simp [lastLine, hc]

theorem placeAfter_start (text : Bytes) :
    placeAfter (1, 1) text = (1 + text.count (ch '\n'), 1 + width (lastLine text)) := by
  induction text using List.reverseRecOn with
  | nil => rfl
  | append_singleton text c ih =>
    rw [placeAfter_append, ih, lastLine_snoc]
    by_cases hc : c = ch '\n'
    · subst hc
      simp [placeAfter, stepPlace, width, List.count_append, Nat.add_assoc]
    · have hcount : [c].count (ch '\n') = 0 := by simp [hc]
      simp [placeAfter, stepPlace, hc, width, List.count_append, hcount, Nat.add_assoc]

/-! ## §2 Texts that both counts agree on -/

/-- Every tab of the text has a newline behind it. -/
def TabsPassed (text : Bytes) : Prop :=
  ∀ rest ∈ text.tails, rest.head? = some (ch '\t') → ch '\n' ∈ rest

instance (text : Bytes) : Decidable (TabsPassed text) :=
  inferInstanceAs (Decidable (∀ rest ∈ text.tails, rest.head? = some (ch '\t') → ch '\n' ∈ rest))

/-- Neither a tab nor a newline. -/
def oneWide (c : UInt8) : Bool := c != ch '\t' && c != ch '\n'

theorem oneWide_iff {c : UInt8} : oneWide c = true ↔ c ≠ ch '\t' ∧ c ≠ ch '\n' := by
  simp [oneWide]

theorem tabsPassed_cons {c : UInt8} {text : Bytes} (h : TabsPassed (c :: text)) :
    (c = ch '\t' → ch '\n' ∈ text) ∧ TabsPassed text := by
  constructor
  · intro hc
    have hmem : ch '\n' ∈ c :: text := h (c :: text) (by simp) (by simp [hc])
    obtain heq | hmem := List.mem_cons.mp hmem
    · rw [hc] at heq
      exact absurd heq (by decide)
    · exact hmem
  · intro rest hrest
    exact h rest ((List.mem_tails _ _).mpr
      (((List.mem_tails _ _).mp hrest).trans (List.suffix_cons _ _)))

/-- A newline starts the column anew. -/
theorem placeAfter_of_newline {text : Bytes} (h : ch '\n' ∈ text) (line : Nat) :
    ∀ col col', placeAfter (line, col) text = placeAfter (line, col') text := by
  induction text generalizing line with
  | nil => cases h
  | cons c text ih =>
    intro col col'
    by_cases hc : c = ch '\n'
    · simp [placeAfter, stepPlace, hc]
    · have hmem : ch '\n' ∈ text := (List.mem_cons.mp h).resolve_left (Ne.symm hc)
      have hrest := ih hmem line (col + byteWidth c) (col' + byteWidth c)
      simpa [placeAfter, stepPlace, hc] using hrest

theorem countedAfter_eq {text : Bytes} (h : TabsPassed text) (line : Nat) :
    ∀ col, countedAfter (line, col) text = placeAfter (line, col) text := by
  induction text generalizing line with
  | nil => intro col; rfl
  | cons c text ih =>
    intro col
    obtain ⟨htab, hrest⟩ := tabsPassed_cons h
    by_cases hnl : c = ch '\n'
    · have hsame := ih hrest (line + 1) 1
      simpa [countedAfter, placeAfter, stringCol, stepPlace, hnl] using hsame
    · have hsame := ih hrest line (col + 1)
      by_cases hc : c = ch '\t'
      · have hcol := placeAfter_of_newline (htab hc) line (col + 1) (col + 4)
        have hwide := hsame.trans hcol
        subst hc
        simpa [countedAfter, placeAfter, stringCol, stepPlace, hnl, byteWidth] using hwide
      · simpa [countedAfter, placeAfter, stringCol, stepPlace, hnl, byteWidth, hc] using hsame

theorem placeAfter_plain {text : Bytes} (h : text.all oneWide = true) (line : Nat) :
    ∀ col, placeAfter (line, col) text = (line, col + text.length) := by
  induction text with
  | nil => intro col; rfl
  | cons c text ih =>
    intro col
    rw [List.all_cons, Bool.and_eq_true] at h
    obtain ⟨htab, hnl⟩ := oneWide_iff.mp h.1
    have hrest := ih h.2 (col + 1)
    rw [List.length_cons, Nat.add_comm text.length, ← Nat.add_assoc, ← hrest]
    simp [placeAfter, stepPlace, hnl, byteWidth, htab]

/-! ## §3 What the loops count -/

theorem countedAfter_cons (line col : Nat) (c : UInt8) (text : Bytes) :
    countedAfter (line, col) (c :: text) = countedAfter (stringCol line col c) text := rfl

theorem skipLine_counts (line col : Nat) (cs : Bytes) :
    ((skipLine line col cs).1, (skipLine line col cs).2.1) =
      countedAfter (line, col) (cs.take (lineLength cs)) := by
  fun_induction skipLine line col cs with
  | case1 => rfl
  | case2 col cs => simp [lineLength_cons, countedAfter, stringCol]
  | case3 col c cs hc ih =>
    rw [lineLength_cons, if_neg hc, List.take_succ_cons, countedAfter_cons, stringCol, if_neg hc]
    exact ih

theorem skipBlockComment_counts (depth line col : Nat) (cs : Bytes) :
    ((skipBlockComment depth line col cs).2.1, (skipBlockComment depth line col cs).2.2.1) =
      countedAfter (line, col) (cs.take (blockLength depth cs).2) := by
  have hstar : ∀ line col, stringCol line col (ch '*') = (line, col + 1) := fun _ _ => rfl
  have hslash : ∀ line col, stringCol line col (ch '/') = (line, col + 1) := fun _ _ => rfl
  fun_induction skipBlockComment depth line col cs with
  | case1 => simp [blockLength, countedAfter]
  | case2 => rfl
  | case3 => rfl
  | case4 depth line col c hc => simp [blockLength, countedAfter, stringCol, hc]
  | case5 depth line col c c' cs hmark ih =>
    rw [blockLength, if_pos hmark, hmark.1, hmark.2]
    simpa only [List.take_succ_cons, countedAfter_cons, hstar, hslash] using ih
  | case6 depth line col c c' cs hclose hmark ih =>
    rw [blockLength, if_neg hclose, if_pos hmark, hmark.1, hmark.2]
    simpa only [List.take_succ_cons, countedAfter_cons, hstar, hslash] using ih
  | case7 depth line col c' cs hclose hopen ih =>
    rw [blockLength, if_neg hclose, if_neg hopen]
    simpa only [List.take_succ_cons, countedAfter_cons, stringCol, if_true] using ih
  | case8 depth line col c c' cs hclose hopen hc ih =>
    rw [blockLength, if_neg hclose, if_neg hopen]
    simpa only [List.take_succ_cons, countedAfter_cons, stringCol, if_neg hc] using ih

theorem scanStringLoop_counts (line col : Nat) (cs : Bytes) :
    ((scanStringLoop line col cs).1, (scanStringLoop line col cs).2.1) =
      countedAfter (line, col) (cs.take (stringLength cs)) := by
  have hback : ∀ line col, stringCol line col (ch '\\') = (line, col + 1) := fun _ _ => rfl
  fun_induction scanStringLoop line col cs with
  | case1 => rfl
  | case2 => rw [stringLength_quote]; rfl
  | case3 => rfl
  | case4 line col hq c' cs' ih =>
    rw [stringLength_escape, List.take_succ_cons, List.take_succ_cons, countedAfter_cons, hback,
      countedAfter_cons]
    exact ih
  | case5 line col c cs hq hb ih =>
    rw [stringLength_other cs hq hb, List.take_succ_cons, countedAfter_cons]
    exact ih

theorem skipWhitespaceInline_counts (line col : Nat) (cs : Bytes) :
    (line, (skipWhitespaceInline col cs).1) =
      placeAfter (line, col) (cs.take (runLength isBlank cs)) := by
  fun_induction skipWhitespaceInline col cs with
  | case1 => rfl
  | case2 col cs ih =>
    rw [ih, runLength_cons]
    rfl
  | case3 col cs hspace ih =>
    rw [ih, runLength_cons]
    rfl
  | case4 col c cs hspace htab =>
    have hblank : isBlank c = false := by simp [isBlank, hspace, htab]
    rw [runLength_cons, hblank]
    rfl

theorem skipWhitespaceInline_blanks (col : Nat) (cs : Bytes) :
    (skipWhitespaceInline col cs).2 = cs.dropWhile isBlank := by
  fun_induction skipWhitespaceInline col cs with
  | case1 => rfl
  | case2 col cs ih => exact ih
  | case3 col cs hspace ih => exact ih
  | case4 col c cs hspace htab =>
    have hblank : isBlank c = false := by simp [isBlank, hspace, htab]
    rw [List.dropWhile_cons_of_neg (by simp [hblank])]

/-! ## §4 One token -/

/-- The column is right behind the token that starts with `c`. -/
def plainToken (c : UInt8) (cs : Bytes) : Bool :=
  let n := tokenLength c cs
  if c = ch '"' then decide (TabsPassed (cs.take n))
  else if isDigit c || (isIdentStart c && !(c == ch 'o' && cs.take 2 == bytes "p_")) then n == 0
  else decide (n ≤ cs.length) && (cs.take n).all oneWide

section Token

variable {t t' : Tokenizer} {c : UInt8} {cs : Bytes}

theorem plainToken_string (h : plainToken (ch '"') cs = true) :
    TabsPassed (cs.take (tokenLength (ch '"') cs)) := by
  simpa [plainToken] using h

theorem plainToken_short (hq : c ≠ ch '"')
    (hshort : isDigit c = true ∨ isIdentStart c = true ∧ ¬ (c = ch 'o' ∧ cs.take 2 = bytes "p_"))
    (h : plainToken c cs = true) : tokenLength c cs = 0 := by
  have hif : (isDigit c || (isIdentStart c && !(c == ch 'o' && cs.take 2 == bytes "p_"))) = true := by
    rw [Bool.or_eq_true]
    obtain hdigit | ⟨hident, hname⟩ := hshort
    · exact .inl hdigit
    · exact .inr (by simpa [hident, imp_iff_not_or] using hname)
  simpa only [plainToken, if_neg hq, if_pos hif, beq_iff_eq] using h

theorem plainToken_bytes (hq : c ≠ ch '"') (hdigit : isDigit c = false)
    (hword : isIdentStart c = false ∨ c = ch 'o' ∧ cs.take 2 = bytes "p_")
    (h : plainToken c cs = true) :
    tokenLength c cs ≤ cs.length ∧ (cs.take (tokenLength c cs)).all oneWide = true := by
  have hif : ¬ (isDigit c || (isIdentStart c && !(c == ch 'o' && cs.take 2 == bytes "p_"))) = true := by
    obtain hident | ⟨hc, hname⟩ := hword
    · simp [hdigit, hident]
    · subst hc
      simp [hdigit, hname]
  simpa only [plainToken, if_neg hq, if_neg hif, Bool.and_eq_true, decide_eq_true_eq] using h

/-- How a token moves line and column. -/
inductive Moves (t : Tokenizer) (c : UInt8) (cs : Bytes) (t' : Tokenizer) : Prop
  | newline (hc : c = ch '\n') (hline : t'.line = t.line + 1) (hcol : t'.col = 1)
  | string (hc : c = ch '"')
      (hcount : (t'.line, t'.col) = countedAfter (t.line, t.col + 1) (cs.take (tokenLength c cs)))
  | first (hc : c ≠ ch '\n') (hline : t'.line = t.line) (hcol : t'.col = t.col + 1)
      (hplain : plainToken c cs = true → tokenLength c cs = 0)
  | every (hc : c ≠ ch '\n') (hline : t'.line = t.line)
      (hcol : t'.col = t.col + 1 + tokenLength c cs)
      (hplain : plainToken c cs = true → tokenLength c cs ≤ cs.length ∧
        (cs.take (tokenLength c cs)).all oneWide = true)

theorem scanNumber_still (t : Tokenizer) :
    (scanNumber t).2.line = t.line ∧ (scanNumber t).2.col = t.col := by
  have hdecimal : (scanDecimal t).2.line = t.line ∧ (scanDecimal t).2.col = t.col := by
    unfold scanDecimal
    dsimp only
    split
    · exact ⟨rfl, rfl⟩
    · exact ⟨rfl, rfl⟩
  unfold scanNumber
  split
  · split_ifs
    · exact ⟨rfl, rfl⟩
    · exact ⟨rfl, rfl⟩
    · exact ⟨rfl, rfl⟩
    · exact hdecimal
    · exact hdecimal
  · exact hdecimal

theorem scanCharBody_bump (t : Tokenizer) : (scanCharBody t).2 = t.bump (charBodyLength t.pos) := by
  obtain ⟨start, pos, line, col⟩ := t
  rw [scanCharBody]
  obtain _ | ⟨c, cs⟩ := pos
  · rfl
  by_cases hback : c = ch '\\'
  · obtain _ | ⟨e, es⟩ := cs
    · simp [charBodyLength, hback]
    · by_cases hx : e = ch 'x'
      · obtain _ | ⟨h, _ | ⟨l, ls⟩⟩ := es
        · simp [charBodyLength, hback, hx]
        · simp [charBodyLength, hback, hx]
        · by_cases hhex : isHexChar h = true ∧ isHexChar l = true
          · simp [charBodyLength, hback, hx, hhex]
          · simp only [charBodyLength, hback, hx, if_true, if_neg hhex]
      · simp [charBodyLength, hback, hx]
  · simp [charBodyLength, hback]

theorem scanChar_moves (t : Tokenizer) :
    (scanChar t).2.line = t.line ∧ (scanChar t).2.col = t.col + charLength t.pos := by
  simp only [scanChar, scanCharBody_bump, charLength, Tokenizer.bump]
  split_ifs
  · exact ⟨rfl, rfl⟩
  · exact ⟨rfl, rfl⟩

theorem scanOperator_moves (t : Tokenizer) (c : UInt8) :
    ((scanTwoChar t c).getD (scanSingleChar t c)).2.line = t.line ∧
      ((scanTwoChar t c).getD (scanSingleChar t c)).2.col = t.col + operatorLength c t.pos := by
  have hsingle : (scanSingleChar t c).2.line = t.line ∧
      (scanSingleChar t c).2.col = t.col + singleLength c t.pos := by
    rw [scanSingleChar, singleLength]
    cases singleCharType c with
    | some type => exact ⟨rfl, rfl⟩
    | none =>
      dsimp only
      split_ifs
      · exact ⟨rfl, Nat.add_assoc _ _ _⟩
      · exact ⟨rfl, rfl⟩
  obtain ⟨start, pos, line, col⟩ := t
  cases pos with
  | nil => exact hsingle
  | cons next rest =>
    rw [operatorLength]
    cases htwo : twoCharType c next rest with
    | none => simpa [scanTwoChar, htwo] using hsingle
    | some r => simp [scanTwoChar, htwo, Tokenizer.emit, Tokenizer.bump]

theorem moves_scanToken (hpos : t.pos = c :: cs) : Moves t c cs (scanToken t c cs).2 := by
  have hcs : (t.bump 1).pos = cs := by simp [Tokenizer.bump, hpos]
  have hcol : (t.bump 1).col = t.col + 1 := rfl
  have hline : (t.bump 1).line = t.line := rfl
  unfold scanToken
  split_ifs with hnl hback hslash heq hhash hname hident hdigit hquote hchar
  · exact .newline hnl rfl rfl
  · exact .first hnl rfl rfl (fun _ => by rw [hback]; rfl)
  · exact .first hnl rfl rfl (fun _ => by rw [hslash]; rfl)
  · exact .first hnl rfl rfl (fun _ => by rw [hslash]; rfl)
  · exact .first hnl rfl rfl (fun _ => by rw [hhash]; rfl)
  · have hlength : tokenLength c cs = operatorNameLength cs := by
      rw [hname.1]
      exact (if_neg (by decide)).trans ((if_neg (by decide)).trans ((if_neg (by decide)).trans
        ((if_neg (by decide)).trans (if_pos ⟨rfl, hname.2⟩))))
    refine .every hnl rfl ?_ (plainToken_bytes ?_ ?_ (.inr hname))
    · rw [hlength, operatorNameLength, scanOperatorName, hpos]
      simp only [Tokenizer.emit, Tokenizer.bump, List.drop_succ_cons, runLength]
      omega
    · rw [hname.1]
      decide
    · rw [hname.1]
      decide
  · refine .first hnl rfl rfl (plainToken_short ?_ (.inr ⟨hident, hname⟩))
    rintro rfl
    exact absurd hident (by decide)
  · obtain ⟨hsame, hstill⟩ := scanNumber_still (t.bump 1)
    refine .first hnl hsame hstill (plainToken_short ?_ (.inl hdigit))
    rintro rfl
    exact absurd hdigit (by decide)
  · refine .string hquote ?_
    subst hquote
    have hcount := scanStringLoop_counts t.line (t.col + 1) cs
    have hlength : tokenLength (ch '"') cs = stringLength cs := rfl
    rw [hlength, ← hcount, scanString, hcs, hline, hcol]
    rfl
  · obtain ⟨hsame, hmoves⟩ := scanChar_moves (t.bump 1)
    have hlength : tokenLength c cs = charLength cs := by
      rw [hchar]
      rfl
    refine .every hnl hsame ?_ (plainToken_bytes hquote (by simpa using hdigit)
      (.inl (by simpa using hident)))
    rw [hmoves, hcs, hcol, hlength]
  · obtain ⟨hsame, hmoves⟩ := scanOperator_moves (t.bump 1) c
    have hlength : tokenLength c cs = operatorLength c cs := by
      rw [tokenLength, if_neg hnl, if_neg hback, if_neg hslash, if_neg hhash, if_neg hname,
        if_neg hident, if_neg hdigit, if_neg hquote, if_neg hchar]
    refine .every hnl hsame ?_ (plainToken_bytes hquote (by simpa using hdigit)
      (.inl (by simpa using hident)))
    rw [hmoves, hcs, hcol, hlength]

end Token

/-! ## §5 One call -/

/-- Nothing in front of the token, nor the token itself, is counted wrong. -/
def plainNext : Nat → Bytes → Bool
  | 0, _ => true
  | fuel + 1, text =>
    match text.dropWhile isBlank with
    | [] => true
    | c :: cs =>
      if c = ch '/' ∧ cs.head? = some (ch '/') then
        let n := lineLength cs.tail
        decide (TabsPassed (cs.tail.take n)) && plainNext fuel (cs.tail.drop n)
      else if c = ch '/' ∧ cs.head? = some (ch '*') then
        let (depth, n) := blockLength 1 cs.tail
        decide (TabsPassed (cs.tail.take n)) && (decide (depth > 0) || plainNext fuel (cs.tail.drop n))
      else plainToken c cs

def PlainCall (text : Bytes) : Prop := plainNext (text.length + 1) text = true

instance (text : Bytes) : Decidable (PlainCall text) :=
  inferInstanceAs (Decidable (plainNext (text.length + 1) text = true))

/-- The tokenizer stands behind `before`, at the right line and column. -/
structure Stands (source before : Bytes) (t : Tokenizer) : Prop where
  split : source = before ++ t.pos
  place : (t.line, t.col) = placeAfter (1, 1) before

section Call

variable {source before : Bytes} {t : Tokenizer}

/-- A move over text that is counted right. -/
theorem Stands.move (h : Stands source before t) {t' : Tokenizer} {text : Bytes}
    (htext : t.pos = text ++ t'.pos)
    (hplace : (t'.line, t'.col) = placeAfter (t.line, t.col) text) :
    Stands source (before ++ text) t' := by
  refine ⟨?_, ?_⟩
  · rw [h.split, htext, List.append_assoc]
  · rw [hplace, h.place, placeAfter_append]

theorem Stands.accurate (h : Stands source before t) : Accurate source t := by
  have hconsumed : consumed source t = before := by
    rw [consumed, textBetween, h.split, List.length_append, Nat.add_sub_cancel, List.take_left']
    rfl
  have hplace := h.place
  rw [placeAfter_start, Prod.mk.injEq] at hplace
  exact ⟨by rw [hconsumed, hplace.1], by rw [hconsumed, hplace.2]⟩

theorem Stands.scanToken (h : Stands source before t) {c : UInt8} {cs : Bytes}
    (hstart : t.start = c :: cs) (hpos : t.pos = c :: cs) (htab : c ≠ ch '\t')
    (hplain : plainToken c cs = true) : ∃ before', Stands source before' (scanToken t c cs).2 := by
  have hrest : (Aether.scanToken t c cs).2.pos = cs.drop (tokenLength c cs) := by
    rw [(scanToken_takes t c cs hstart hpos).2, (tokenLength_spec c cs).1]
  have htext : t.pos = (c :: cs.take (tokenLength c cs)) ++ (Aether.scanToken t c cs).2.pos := by
    rw [hpos, hrest, List.cons_append, List.take_append_drop]
  have hstep : c ≠ ch '\n' → ∀ line col text,
      placeAfter (line, col) (c :: text) = placeAfter (line, col + 1) text := by
    intro hc line col text
    simp [placeAfter, stepPlace, hc, byteWidth, htab]
  refine ⟨_, h.move htext ?_⟩
  cases moves_scanToken hpos with
  | newline hc hline hcol =>
    subst hc
    have hlength : tokenLength (ch '\n') cs = 0 := rfl
    rw [hlength, hline, hcol]
    rfl
  | string hc hcount =>
    subst hc
    rw [hcount, countedAfter_eq (plainToken_string hplain)]
    rfl
  | first hc hline hcol hlength =>
    rw [hline, hcol, hstep hc, hlength hplain]
    rfl
  | every hc hline hcol hlength =>
    obtain ⟨hle, hwide⟩ := hlength hplain
    rw [hline, hcol, hstep hc, placeAfter_plain hwide, List.length_take_of_le hle]

theorem head_tail {cs : Bytes} {c : UInt8} (h : cs.head? = some c) : cs = c :: cs.tail := by
  cases cs with
  | nil => cases h
  | cons d ds => rw [Option.some.inj h]; rfl

/-- Two bytes of a comment mark and what the loop behind it counts. -/
theorem Stands.comment (h : Stands source before t) {c c' : UInt8} {cs pos : Bytes}
    {n line col : Nat} (hpos : t.pos = c :: c' :: cs)
    (hmark : ∀ line col, placeAfter (line, col) [c, c'] = (line, col + 2))
    (hcount : (line, col) = countedAfter (t.line, t.col + 2) (cs.take n))
    (hrest : pos = cs.drop n) (htabs : TabsPassed (cs.take n)) (start : Bytes) :
    ∃ before', Stands source before' ⟨start, pos, line, col⟩ := by
  have htext : t.pos = ([c, c'] ++ cs.take n) ++ pos := by
    rw [hpos, hrest, List.append_assoc, List.take_append_drop]
    rfl
  refine ⟨_, h.move htext ?_⟩
  rw [hcount, countedAfter_eq htabs, placeAfter_append, hmark]

theorem Stands.nextFuel (fuel : Nat) : ∀ {t : Tokenizer} {before : Bytes}, Stands source before t →
    plainNext fuel t.pos = true → ∃ before', Stands source before' (nextFuel fuel t).2 := by
  induction fuel with
  | zero => exact fun h _ => ⟨_, h⟩
  | succ fuel ih =>
    intro t before h hplain
    rw [Aether.nextFuel]
    split
    · exact ⟨_, h⟩
    dsimp only
    have hblanks := skipWhitespaceInline_counts t.line t.col t.pos
    have hrest := skipWhitespaceInline_blanks t.col t.pos
    have htext : t.pos = t.pos.take (runLength isBlank t.pos) ++ t.pos.dropWhile isBlank := by
      rw [(runLength_advances isBlank t.pos).drop, List.take_append_drop]
    have hstops := stops_dropWhile isBlank t.pos
    rw [plainNext] at hplain
    rw [← hrest] at hplain htext hstops
    generalize skipWhitespaceInline t.col t.pos = skipped at *
    obtain ⟨col, rest⟩ := skipped
    dsimp only at *
    cases rest with
    | nil => exact ⟨_, h.move htext hblanks⟩
    | cons c cs =>
      have hstands : Stands source (before ++ t.pos.take (runLength isBlank t.pos))
          { t with start := c :: cs, pos := c :: cs, col := col } := h.move htext hblanks
      have htab : c ≠ ch '\t' := by
        rintro rfl
        exact absurd hstops (by simp [isBlank])
      have htail : (c :: cs).drop 2 = cs.tail := by simp
      obtain ⟨hdepth, hblockAdvance⟩ := blockLength_advances 1 t.line (col + 2) cs.tail
      have hcomment : c = ch '/' ∧ cs.head? = some (ch '*') →
          TabsPassed (cs.tail.take (blockLength 1 cs.tail).2) →
          ∃ before', Stands source before' ⟨c :: cs,
            (skipBlockComment 1 t.line (col + 2) cs.tail).2.2.2,
            (skipBlockComment 1 t.line (col + 2) cs.tail).2.1,
            (skipBlockComment 1 t.line (col + 2) cs.tail).2.2.1⟩ := by
        intro hblock htabs
        have hpos : c :: cs = ch '/' :: ch '*' :: cs.tail := by rw [hblock.1, ← head_tail hblock.2]
        exact hstands.comment hpos (fun _ _ => rfl) (skipBlockComment_counts 1 t.line (col + 2) cs.tail)
          hblockAdvance.drop htabs (c :: cs)
      dsimp only at hplain ⊢
      rw [htail]
      rw [hdepth, ← hblockAdvance.drop] at hplain
      split_ifs at hplain ⊢ with hline hblock hopen
      · rw [Bool.and_eq_true, decide_eq_true_eq] at hplain
        have hpos : c :: cs = ch '/' :: ch '/' :: cs.tail := by rw [hline.1, ← head_tail hline.2]
        have hcount := skipLine_counts t.line (col + 2) cs.tail
        have hafter : (skipLine t.line (col + 2) cs.tail).2.2 = cs.tail.drop (lineLength cs.tail) := by
          rw [skipLine_rest, ← (lineLength_advances cs.tail).drop, afterLine]
        rw [← hafter] at hplain
        obtain ⟨before', hnext⟩ :=
          hstands.comment hpos (fun _ _ => rfl) hcount hafter hplain.1 (c :: cs)
        exact ih hnext hplain.2
      · rw [Bool.and_eq_true, decide_eq_true_eq] at hplain
        exact hcomment hblock hplain.1
      · rw [Bool.and_eq_true, Bool.or_eq_true, decide_eq_true_eq, decide_eq_true_eq] at hplain
        obtain ⟨before', hnext⟩ := hcomment hblock hplain.1
        exact ih hnext (hplain.2.resolve_left hopen)
      · exact hstands.scanToken rfl rfl htab hplain

end Call

/-! ## §6 Every run -/

/-- Where no call meets a text that is counted wrong, line and column are those of the text in
front of the tokenizer. -/
theorem locations_accurate (source : Bytes) (n : Nat)
    (h : ∀ k < n, PlainCall (scanned (tokenizerCreate source) k).pos) :
    Accurate source (scanned (tokenizerCreate source) n) := by
  have hstands : ∀ k ≤ n, ∃ before, Stands source before (scanned (tokenizerCreate source) k) := by
    intro k
    induction k with
    | zero => exact fun _ => ⟨[], rfl, rfl⟩
    | succ k ih =>
      intro hk
      obtain ⟨before, hbefore⟩ := ih (Nat.le_of_succ_le hk)
      rw [scanned_succ]
      exact hbefore.nextFuel _ (h k hk)
  obtain ⟨before, hbefore⟩ := hstands n (Nat.le_refl n)
  exact hbefore.accurate


/-- A tab, a comment of two lines and a string of two lines, then a name of one byte. -/
theorem locations_accurate_twoLines :
    Accurate (bytes "\t/* \t\n */ \"\t\n\" x")
      (scanned (tokenizerCreate (bytes "\t/* \t\n */ \"\t\n\" x")) 2) :=
  locations_accurate _ 2 (by decide +kernel)

/-- A name of two bytes moves the column by one. -/
theorem word_misplaced :
    ¬ ∀ (source : Bytes) (n : Nat), Accurate source (scanned (tokenizerCreate source) n) := by
  intro h
  have hcol : (scanned (tokenizerCreate (bytes "ab")) 1).col = 3 := (h (bytes "ab") 1).col
  exact absurd hcol (by decide)

end Aether.Lexing
