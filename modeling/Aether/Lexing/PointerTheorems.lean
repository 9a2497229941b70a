/-
Aether.Lexing.PointerTheorems — where the tokenizer's pointers go.

What a scanner leaves is the text behind its advance (`takes_drop`). All of
them stay before the end of the source but for two, on a token that the end
cuts off (`tokenLength_le_iff`): an escape `'\x` and a lone byte over 127.
Every call returns, and moves on unless it is at the end.
-/
import Aether.Lexing.Pointers

namespace Aether.Lexing

open Aether.Lib.Scanner

-- the equations, before the proofs that share them
section
attribute [local simp] lineLength blockLength fractionLength exponentLength takesNumber onHead
  takeRun takeAny done charBodyLength isChar singleLength takesUnicode operatorLength takes
  tokenLength ch tokenizerNextAt
end

/-! ## §1 Advances -/

/-- `rest` is what is left of `cs` behind an advance of `n`. -/
structure Advances (n : Nat) (cs rest : Bytes) : Prop where
  drop : rest = cs.drop n
  le : n ≤ cs.length

namespace Advances

variable {n m : Nat} {cs mid rest : Bytes}

theorem zero (cs : Bytes) : Advances 0 cs cs := ⟨rfl, Nat.zero_le _⟩

theorem cons (c : UInt8) (h : Advances n cs rest) : Advances (n + 1) (c :: cs) rest :=
  ⟨h.drop, Nat.succ_le_succ h.le⟩

theorem trans (h : Advances n cs mid) (h' : Advances m mid rest) : Advances (n + m) cs rest := by
  have hle := h'.le
  have hcs := h.le
  refine ⟨by rw [h'.drop, h.drop, List.drop_drop], ?_⟩
  rw [h.drop, List.length_drop] at hle
  omega

end Advances

theorem runLength_advances (accept : UInt8 → Bool) (cs : Bytes) :
    Advances (runLength accept cs) cs (cs.dropWhile accept) :=
  ⟨(drop_takeWhile accept cs).symm, (List.takeWhile_prefix accept).length_le⟩

theorem runLength_cons (accept : UInt8 → Bool) (c : UInt8) (cs : Bytes) :
    runLength accept (c :: cs) = if accept c then runLength accept cs + 1 else 0 := by
  rw [runLength, List.takeWhile_cons]
  split_ifs <;> rfl

theorem lineLength_cons (c : UInt8) (cs : Bytes) :
    lineLength (c :: cs) = if c = ch '\n' then 1 else lineLength cs + 1 := by
  rw [lineLength, lineLength, runLength_cons]
  by_cases hc : c = ch '\n'
  · simp [hc]
  · simp only [hc, bne_iff_ne, ne_eq, not_false_eq_true, if_true, if_false, List.length_cons,
      Nat.add_lt_add_iff_right]
    split_ifs <;> rfl

theorem lineLength_advances (cs : Bytes) : Advances (lineLength cs) cs (afterLine cs) := by
  induction cs with
  | nil => exact .zero _
  | cons c cs ih =>
    rw [afterLine_cons, lineLength_cons]
    split_ifs
    · exact (Advances.zero cs).cons c
    · exact ih.cons c

theorem blockLength_advances (depth line col : Nat) (cs : Bytes) :
    (blockLength depth cs).1 = (skipBlockComment depth line col cs).1 ∧
      Advances (blockLength depth cs).2 cs (skipBlockComment depth line col cs).2.2.2 := by
  fun_induction skipBlockComment depth line col cs with
  | case1 => exact ⟨by simp [blockLength], by simpa [blockLength] using .zero _⟩
  | case2 => exact ⟨rfl, .zero _⟩
  | case3 => exact ⟨rfl, (Advances.zero []).cons _⟩
  | case4 => exact ⟨rfl, (Advances.zero []).cons _⟩
  | case5 depth line col c c' cs hmark ih =>
    rw [blockLength, if_pos hmark]
    exact ⟨ih.1, (ih.2.cons _).cons _⟩
  | case6 depth line col c c' cs hclose hmark ih =>
    rw [blockLength, if_neg hclose, if_pos hmark]
    exact ⟨ih.1, (ih.2.cons _).cons _⟩
  | case7 depth line col c' cs hclose hopen ih =>
    rw [blockLength, if_neg hclose, if_neg hopen]
    exact ⟨ih.1, ih.2.cons _⟩
  | case8 depth line col c c' cs hclose hopen _ ih =>
    rw [blockLength, if_neg hclose, if_neg hopen]
    exact ⟨ih.1, ih.2.cons _⟩

/-! ## §2 Numbers and strings -/

theorem fractionLength_advances (cs : Bytes) :
    Advances (fractionLength cs) cs (skipFraction cs).2 := by
  fun_cases skipFraction cs with
  | case1 c d cs h =>
    rw [fractionLength, if_pos h, Nat.add_comm]
    exact (runLength_advances _ _).cons c
  | case2 c d cs h =>
    rw [fractionLength, if_neg h]
    exact .zero _
  | case3 cs h =>
    rw [fractionLength]
    · exact .zero _
    · exact h

theorem exponentLength_advances (cs : Bytes) :
    Advances (exponentLength cs) cs (takesExponent cs).2 := by
  rw [takesExponent_eq]
  fun_cases skipExponent cs with
  | case1 c hc s cs' hs =>
    simp only [exponentLength, if_pos hc, if_pos hs, Nat.add_comm 2]
    exact ((runLength_advances _ _).cons s).cons c
  | case2 c hc s cs' hs =>
    simp only [exponentLength, if_pos hc, if_neg hs, Nat.add_comm 1]
    exact (runLength_advances _ _).cons c
  | case3 c hc =>
    simp only [exponentLength, if_pos hc]
    exact (Advances.zero []).cons c
  | case4 c cs hc =>
    simp only [exponentLength, if_neg hc]
    exact .zero _
  | case5 => exact .zero _

theorem decimalLength_advances (cs : Bytes) :
    Advances (decimalLength cs) cs (takesDecimal cs).2 := by
  have hdigits := runLength_advances isDigitOrUnderscore cs
  have hfraction := hdigits.trans (fractionLength_advances (cs.dropWhile isDigitOrUnderscore))
  have hexponent := hfraction.trans (exponentLength_advances _)
  rw [hfraction.drop, hdigits.drop] at hexponent
  simp only [takesDecimal]
  rw [hfraction.drop, hdigits.drop]
  exact hexponent

theorem numberLength_advances (c : UInt8) (cs : Bytes) :
    Advances (numberLength c cs) cs (takesNumber c cs).2 := by
  cases cs with
  | nil =>
    rw [takesNumber]
    split_ifs <;> exact decimalLength_advances []
  | cons next cs =>
    rw [takesNumber, numberLength]
    by_cases hc : c = ch '0'
    · simp only [hc, true_and, if_true, onHead, takeRun, Bool.or_eq_true, beq_iff_eq, Nat.add_comm 1]
      split_ifs
      · exact (runLength_advances _ _).cons next
      · exact (runLength_advances _ _).cons next
      · exact (runLength_advances _ _).cons next
      · exact decimalLength_advances _
    · simp only [hc, false_and, if_false]
      exact decimalLength_advances _

theorem stringLength_quote (cs : Bytes) : stringLength (ch '"' :: cs) = 1 := by
  rw [stringLength.eq_def]
  exact if_pos rfl

theorem stringLength_escape (c : UInt8) (cs : Bytes) :
    stringLength (ch '\\' :: c :: cs) = stringLength cs + 2 := by
  rw [stringLength.eq_def]
  rfl

theorem stringLength_other {c : UInt8} (cs : Bytes) (hq : c ≠ ch '"') (hb : c ≠ ch '\\') :
    stringLength (c :: cs) = stringLength cs + 1 := by
  rw [stringLength.eq_def]
  exact (if_neg hq).trans (if_neg hb)

theorem stringLength_advances (line col : Nat) (cs : Bytes) :
    Advances (stringLength cs) cs (scanStringLoop line col cs).2.2 := by
  fun_induction scanStringLoop line col cs with
  | case1 => exact .zero _
  | case2 =>
    rw [stringLength_quote]
    exact (Advances.zero _).cons _
  | case3 => exact (Advances.zero []).cons _
  | case4 line col hq c' cs' ih =>
    rw [stringLength_escape]
    exact (ih.cons _).cons _
  | case5 line col c cs hq hb ih =>
    rw [stringLength_other cs hq hb]
    exact ih.cons _

/-! ## §3 Tokens that the end of the source cuts off -/

/-- The escape that a character literal breaks off at. -/
def cutEscape : Bytes := [ch '\\', ch 'x']

theorem charBodyLength_spec (cs : Bytes) : (takesCharBody cs).2 = cs.drop (charBodyLength cs) ∧
    (charBodyLength cs ≤ cs.length ↔ cs ≠ cutEscape) := by
  rw [takesCharBody, cutEscape]
  obtain _ | ⟨c, _ | ⟨e, es⟩⟩ := cs
  · simp [onHead, takeAny, done, charBodyLength]
  · by_cases hback : c = ch '\\'
    · simp [onHead, isChar, takeAny, done, charBodyLength, hback]
    · simp [onHead, isChar, takeAny, done, charBodyLength, hback]
  · by_cases hback : c = ch '\\'
    · by_cases hx : e = ch 'x'
      · obtain _ | ⟨h, _ | ⟨l, ls⟩⟩ := es
        · simp [onHead, isChar, takeAny, done, charBodyLength, hback, hx]
        · cases hh : isHexChar h <;>
            simp [onHead, isChar, takeAny, done, charBodyLength, hback, hx, hh]
        · cases hh : isHexChar h <;> cases hl : isHexChar l <;>
            simp [onHead, isChar, takeAny, done, charBodyLength, hback, hx, hh, hl]
      · simp [onHead, isChar, takeAny, done, charBodyLength, hback, hx]
    · simp [onHead, isChar, takeAny, done, charBodyLength, hback]

theorem charLength_spec (cs : Bytes) : (takesChar cs).2 = cs.drop (charLength cs) ∧
    (charLength cs ≤ cs.length ↔ cs ≠ cutEscape) := by
  obtain ⟨hdrop, hle⟩ := charBodyLength_spec cs
  rw [takesChar, charLength, hdrop, ← hle]
  cases hrest : cs.drop (charBodyLength cs) with
  | nil => exact ⟨hrest.symm, by simp⟩
  | cons d ds =>
    have hlength := congrArg List.length hrest
    rw [List.length_drop, List.length_cons] at hlength
    have htail : cs.drop (charBodyLength cs + 1) = ds := by
      rw [← List.drop_drop, hrest]
      rfl
    by_cases hd : d = ch '\''
    · simp only [onHead, isChar, done, hd, beq_self_eq_true, List.head?_cons, if_true, htail, true_and]
      omega
    · simp only [onHead, isChar, done, List.head?_cons, Option.some.injEq, hd, if_false,
        beq_iff_eq, hrest, true_and]

theorem singleLength_spec (c : UInt8) (cs : Bytes) :
    (takesSingle c cs).2 = cs.drop (singleLength c cs) ∧
      (singleLength c cs ≤ cs.length ↔ ¬ (singleCharType c = none ∧ c > 127 ∧ cs = [])) := by
  rw [takesSingle, singleLength]
  cases htype : singleCharType c with
  | some type => simp
  | none =>
    by_cases hc : c > 127
    · cases cs with
      | nil => simp [hc, takesUnicode, takeRun, takeAny, onHead, done]
      | cons d ds =>
        have hrun := runLength_advances isUtf8Continuation ds
        have hle := hrun.le
        simp only [hc, if_true, takesUnicode, takeRun, takeAny, onHead, done, hrun.drop,
          List.drop_succ_cons, List.drop_zero, Nat.add_comm 1, List.length_cons]
        simp [hle]
    · simp [hc]

theorem twoCharType_le {c next : UInt8} {rest : Bytes} {r : Nat × TokenType}
    (hc : c ∈ startsOperator) (h : twoCharType c next rest = some r) :
    r.1 ≤ (next :: rest).length := by
  have hdots : rest.head? = some (ch '=') → 2 ≤ rest.length + 1 := by
    cases rest with
    | nil => intro h; cases h
    | cons d ds => simp
  rcases startsOperator_cases hc with
    rfl | rfl | rfl | rfl | rfl | rfl | rfl | rfl | rfl | rfl | rfl
  all_goals
    have hr := Option.some.inj h
    rw [← hr, List.length_cons]
    split_ifs <;> first | omega | exact hdots ‹_›

theorem high_ne {c k : UInt8} (h : c > 127) (hk : ¬ k > 127) : c ≠ k := fun heq => hk (heq ▸ h)

/-- A byte over 127 starts nothing but a sequence of its own. -/
theorem high_byte {c : UInt8} (h : c > 127) : singleCharType c = none ∧ c ∉ startsOperator ∧
    isIdentStart c = false ∧ isDigit c = false := by
  have hnat : 127 < c.toNat := h
  have hclass : isAlpha c = false ∧ isDigit c = false := by
    rw [← Bool.not_eq_true, ← Bool.not_eq_true, isAlpha_iff, isDigit_iff]
    omega
  refine ⟨?_, fun hmem => ?_, ?_, hclass.2⟩
  · have hne : ∀ k, ¬ k > 127 → ¬ c = k := fun k => high_ne h
    simp only [singleCharType]
    rw [if_neg (hne _ (by decide)), if_neg (hne _ (by decide)), if_neg (hne _ (by decide)),
      if_neg (hne _ (by decide)), if_neg (hne _ (by decide)), if_neg (hne _ (by decide)),
      if_neg (hne _ (by decide)), if_neg (hne _ (by decide)), if_neg (hne _ (by decide)),
      if_neg (hne _ (by decide)), if_neg (hne _ (by decide)), if_neg (hne _ (by decide)),
      if_neg (hne _ (by decide))]
  · have hlow : startsOperator.all (fun k => decide (k ≤ 127)) = true := rfl
    exact absurd h (UInt8.not_lt.mpr (of_decide_eq_true (List.all_eq_true.mp hlow c hmem)))
  · rw [isIdentStart, hclass.1, beq_eq_false_iff_ne.mpr (high_ne h (by decide))]
    rfl

theorem operatorLength_spec (c : UInt8) (cs : Bytes) {taken : TokenType × Bytes}
    (h : taken = match takesOperator c with
      | some f => atEnd (f cs)
      | none => takesSingle c cs) :
    taken.2 = cs.drop (operatorLength c cs) ∧
      (operatorLength c cs ≤ cs.length ↔ ¬ (c > 127 ∧ cs = [])) := by
  by_cases hc : c ∈ startsOperator
  · have hlow : ¬ c > 127 := fun hhigh => (high_byte hhigh).2.1 hc
    cases cs with
    | nil =>
      obtain ⟨f, hf, htaken, htype, -⟩ := takesOperator_nil c hc
      rw [hf] at h
      dsimp only at h
      rw [h, htaken, operatorLength, singleLength, htype]
      simp [hlow]
    | cons next rest =>
      obtain ⟨f, r, hf, htype, htaken⟩ := takesOperator_cons c hc next rest
      rw [hf] at h
      dsimp only at h
      rw [h, operatorLength, htype, htaken, atEnd]
      refine ⟨?_, iff_of_true (twoCharType_le hc htype) (by simp)⟩
      split_ifs with hend
      · exact hend.2.symm
      · rfl
  · obtain ⟨hf, htype⟩ := takesOperator_none c hc
    rw [hf] at h
    dsimp only at h
    have hsingle := singleLength_spec c cs
    have hlength : operatorLength c cs = singleLength c cs := by
      cases cs with
      | nil => rfl
      | cons next rest => rw [operatorLength, htype]
    rw [h, hlength]
    refine ⟨hsingle.1, hsingle.2.trans (not_congr ?_)⟩
    exact ⟨fun hcut => hcut.2, fun hcut => ⟨(high_byte hcut.1).1, hcut⟩⟩

theorem operatorNameLength_advances {cs : Bytes} (h : cs.take 2 = bytes "p_") :
    Advances (operatorNameLength cs) cs (takesOperatorName cs).2 := by
  obtain ⟨ds, rfl⟩ := exists_of_take_op h
  rw [operatorNameLength, Nat.add_comm]
  exact ((runLength_advances (fun c => !isOpDelimiter c) ds).cons _).cons _

/-- The two tokens that the source scans without a look at its end. -/
def CutOff (c : UInt8) (cs : Bytes) : Prop :=
  (c = ch '\'' ∧ cs = cutEscape) ∨ (c > 127 ∧ cs = [])

-- the equations, before the proofs that share them
section
attribute [local simp] CutOff
end

/-- What a token leaves is the text behind its advance, which ends with the
source at the latest unless the token is cut off. -/
theorem tokenLength_spec (c : UInt8) (cs : Bytes) :
    (takes c cs).2 = cs.drop (tokenLength c cs) ∧
      (tokenLength c cs ≤ cs.length ↔ ¬ CutOff c cs) := by
  have hscan : ∀ {n : Nat} {rest : Bytes}, Advances n cs rest → ¬ CutOff c cs →
      rest = cs.drop n ∧ (n ≤ cs.length ↔ ¬ CutOff c cs) :=
    fun h hcut => ⟨h.drop, iff_of_true h.le hcut⟩
  by_cases hhigh : c > 127
  · obtain ⟨-, -, hident, hdigit⟩ := high_byte hhigh
    have hchar : c ≠ ch '\'' := high_ne hhigh (by decide)
    have hcut : CutOff c cs ↔ c > 127 ∧ cs = [] := by simp [CutOff, hchar]
    rw [hcut, takes, tokenLength]
    simp only [hident, hdigit, hchar, high_ne hhigh (show ¬ ch '\n' > 127 by decide),
      high_ne hhigh (show ¬ ch '\\' > 127 by decide), high_ne hhigh (show ¬ ch '/' > 127 by decide),
      high_ne hhigh (show ¬ ch '#' > 127 by decide), high_ne hhigh (show ¬ ch 'o' > 127 by decide),
      high_ne hhigh (show ¬ ch '"' > 127 by decide), false_and, if_false, Bool.false_eq_true]
    exact operatorLength_spec c cs rfl
  · have hcut : CutOff c cs ↔ c = ch '\'' ∧ cs = cutEscape := by simp [CutOff, hhigh]
    by_cases hchar : c = ch '\''
    · have htakes : takes (ch '\'') cs = takesChar cs := rfl
      have hlength : tokenLength (ch '\'') cs = charLength cs := rfl
      rw [hcut, hchar, htakes, hlength]
      simpa using charLength_spec cs
    · have hnot : ¬ CutOff c cs := by simp [hcut, hchar]
      rw [takes, tokenLength, if_neg hchar, if_neg hchar]
      split_ifs with h1 h2 h3 h4 hop
      · exact hscan (.zero cs) hnot
      · exact hscan (.zero cs) hnot
      · exact hscan (.zero cs) hnot
      · exact hscan (.zero cs) hnot
      · exact hscan (operatorNameLength_advances hop.2) hnot
      · exact hscan (runLength_advances _ cs) hnot
      · exact hscan (numberLength_advances c cs) hnot
      · exact hscan (stringLength_advances 1 1 cs) hnot
      · obtain ⟨hdrop, hle⟩ := operatorLength_spec c cs rfl
        exact ⟨hdrop, hle.trans (iff_of_true (by simp [hhigh]) hnot)⟩

/-! ## §4 One call -/

/-- The offset `pos` of the source is where the text `cs` starts. -/
structure At (source : Bytes) (pos : Nat) (cs : Bytes) : Prop where
  le : pos ≤ source.length
  drop : source.drop pos = cs

section Call

variable {source : Bytes}

theorem At.advance {pos n : Nat} {cs rest : Bytes} (h : At source pos cs)
    (hn : Advances n cs rest) : At source (pos + n) rest := by
  have hle := h.le
  have hn' := hn.le
  rw [← h.drop, List.length_drop] at hn'
  exact ⟨by omega, by rw [← List.drop_drop, h.drop, hn.drop]⟩

theorem At.length {pos : Nat} {cs : Bytes} (h : At source pos cs) :
    pos + cs.length = source.length := by
  have hle := h.le
  rw [← h.drop, List.length_drop]
  omega

/-- The blanks in front of the next token or comment. -/
theorem walk_blanks (cs : Bytes) : Walk cs [] (cs.dropWhile isBlank) := by
  induction cs with
  | nil => exact .refl _
  | cons c cs ih =>
    rw [List.dropWhile_cons]
    split_ifs with hc
    · exact .step (.blank hc) ih
    · exact .refl _

theorem Walk.trans {cs mid rest : Bytes} {ws ws' : List Spelling} (h : Walk cs ws mid)
    (h' : Walk mid ws' rest) : Walk cs (ws ++ ws') rest := by
  induction h with
  | refl => exact h'
  | step hstep _ ih => rw [List.append_assoc]; exact .step hstep (ih h')

/-- A call that comes to a token: blanks and comments are walked over, and
the token starts at `start`. -/
structure Scans (source : Bytes) (t : Pointers) (tok : PlacedToken) (t' : Pointers) (c : UInt8)
    (cs : Bytes) : Prop where
  walked : Walk (source.drop t.pos) [] (c :: cs)
  atToken : AtToken c cs
  placed : At source t'.start (c :: cs)
  after : t.pos ≤ t'.start
  type : tok.type = (takes c cs).1
  stop : t'.pos = t'.start + 1 + tokenLength c cs

/-- A call that comes to the end of the source, and the end of file is told
from an error in a comment that nothing closes. -/
structure Ends (source : Bytes) (t : Pointers) (tok : PlacedToken) (t' : Pointers) : Prop where
  type : tok.type = .eof ∨ tok.type = .error ∧ t.pos < t'.pos
  atEnd : t'.pos = source.length
  start : t.start ≤ t.pos → t'.start ≤ t'.pos

/-- What a call can do that starts before the end of the source, or at it. -/
theorem tokenizerNextAt_cases (fuel : Nat) : ∀ {t : Pointers} {tok : PlacedToken} {t' : Pointers},
    t.pos ≤ source.length → tokenizerNextAt source fuel t = some (tok, t') →
    tok.start = t'.start ∧ tok.stop = t'.pos ∧
      ((∃ c cs, Scans source t tok t' c cs) ∨ Ends source t tok t') := by
  induction fuel with
  | zero => intro t tok t' _ h; cases h
  | succ fuel ih =>
    intro t tok t' hle h
    rw [tokenizerNextAt] at h
    split_ifs at h with hlt
    · have hat : At source t.pos (source.drop t.pos) := ⟨hle, rfl⟩
      have hblanks := hat.advance (runLength_advances isBlank _)
      have hwalk := walk_blanks (source.drop t.pos)
      have hstops := stops_dropWhile isBlank (source.drop t.pos)
      simp only [] at h
      generalize hpos : t.pos + runLength isBlank (source.drop t.pos) = pos at h hblanks
      generalize hrest : (source.drop t.pos).dropWhile isBlank = rest at hblanks hwalk hstops
      rw [hblanks.drop] at h
      have hlength := hblanks.length
      cases rest with
      | nil =>
        cases h
        exact ⟨rfl, rfl, .inr ⟨.inl rfl, hlength, fun _ => by show t.pos ≤ pos; omega⟩⟩
      | cons c cs =>
        simp only [List.length_cons] at hlength
        dsimp only at h
        have hagain : ∀ {n : Nat} {rest : Bytes}, Step (c :: cs) [] rest →
            Advances n (c :: cs) rest → tokenizerNextAt source fuel ⟨pos, pos + n⟩ = some (tok, t') →
            0 < n → tok.start = t'.start ∧ tok.stop = t'.pos ∧
              ((∃ c cs, Scans source t tok t' c cs) ∨ Ends source t tok t') := by
          intro n rest hstep hn hcall hpositive
          have hat' := hblanks.advance hn
          obtain ⟨hstart, hstop, hcases⟩ := ih hat'.le hcall
          refine ⟨hstart, hstop, ?_⟩
          rcases hcases with ⟨c', cs', hscans⟩ | hends
          · refine .inl ⟨c', cs', ?_⟩
            have hwalked := hscans.walked
            have hafter := hscans.after
            rw [hat'.drop] at hwalked
            exact ⟨hwalk.trans (.step hstep hwalked), hscans.atToken, hscans.placed,
              by simp only at hafter; omega, hscans.type, hscans.stop⟩
          · have htype := hends.type
            refine .inr ⟨htype.imp id fun herr => ⟨herr.1, ?_⟩, hends.atEnd, fun _ => hends.start ?_⟩
            · have := herr.2
              simp only at this
              omega
            · show pos ≤ pos + n
              omega
        split_ifs at h with hline hblock hopen
        · obtain ⟨rfl, hhead⟩ := hline
          obtain ⟨ds, rfl⟩ : ∃ ds, cs = ch '/' :: ds := List.head?_eq_some_iff.mp hhead
          have hadvance := ((lineLength_advances ds).cons (ch '/')).cons (ch '/')
          rw [List.tail_cons, Nat.add_assoc, Nat.add_comm 2] at h
          exact hagain (.line ds) hadvance h (by omega)
        · obtain ⟨rfl, hhead⟩ := hblock
          obtain ⟨ds, rfl⟩ : ∃ ds, cs = ch '*' :: ds := List.head?_eq_some_iff.mp hhead
          obtain ⟨hdepth, hskip⟩ := blockLength_advances 1 1 1 ds
          rw [List.tail_cons] at h hopen
          rw [skipBlockComment_open 1 1 1 ds (by omega)] at hskip
          have hfinal := (hblanks.advance ((hskip.cons (ch '*')).cons (ch '/'))).length
          rw [List.length_nil] at hfinal
          cases h
          refine ⟨rfl, rfl, .inr ⟨.inr ⟨rfl, ?_⟩, ?_, fun _ => ?_⟩⟩
          · show t.pos < pos + 2 + _
            omega
          · show pos + 2 + _ = _
            omega
          · show pos ≤ pos + 2 + _
            omega
        · obtain ⟨rfl, hhead⟩ := hblock
          obtain ⟨ds, rfl⟩ : ∃ ds, cs = ch '*' :: ds := List.head?_eq_some_iff.mp hhead
          obtain ⟨hdepth, hskip⟩ := blockLength_advances 1 1 1 ds
          rw [List.tail_cons] at h hopen
          have hclosed : afterBlock ds = some (skipBlockComment 1 1 1 ds).2.2.2 := by
            rw [afterBlock, if_pos (by omega)]
          rw [Nat.add_assoc, Nat.add_comm 2] at h
          exact hagain (.block hclosed) ((hskip.cons (ch '*')).cons (ch '/')) h (by omega)
        · cases h
          have hblank : isBlank c = false := stops_cons.mp hstops
          exact ⟨rfl, rfl, .inl ⟨c, cs, hwalk, ⟨hblank, hline, hblock⟩, hblanks,
            by show t.pos ≤ pos; omega, rfl, rfl⟩⟩
    · cases h
      exact ⟨rfl, rfl, .inr ⟨.inl rfl, by show t.pos = _; omega, fun h => h⟩⟩

/-- Blanks and comments do not change the next token. -/
theorem next_of_walk {cs rest : Bytes} {ws : List Spelling} (h : Walk cs ws rest) (hws : ws = []) :
    next cs = next rest := by
  induction h with
  | refl => rfl
  | step hstep _ ih =>
    obtain ⟨hnil, hnil'⟩ := List.append_eq_nil_iff.mp hws
    rw [← ih hnil']
    cases hstep with
    | blank h => exact next_blank h
    | line cs =>
      rw [next_of_not_blank (by decide), if_pos ⟨rfl, rfl⟩]
      rfl
    | @block ds _ h =>
      rw [next_of_not_blank (by decide), if_neg (not_line_of_block ds), if_pos ⟨rfl, rfl⟩,
        List.tail_cons, h]
    | unclosed => cases hnil
    | token => cases hnil

/-- The call reads the token that `tokenizer_next` reads of the text there. -/
theorem Scans.next {t t' : Pointers} {tok : PlacedToken} {c : UInt8} {cs : Bytes}
    (h : Scans source t tok t' c cs) : next (source.drop t.pos) =
      some (spelled c cs tok.type (source.drop t'.pos), source.drop t'.pos) := by
  have hrest : source.drop t'.pos = (takes c cs).2 := by
    rw [h.stop, Nat.add_assoc, ← List.drop_drop, h.placed.drop, (tokenLength_spec c cs).1,
      Nat.add_comm 1, List.drop_succ_cons]
  rw [next_of_walk h.walked rfl, h.atToken.next, h.type, hrest]

/-- Behind the end every call is end of file and moves nothing. -/
theorem tokenizerNextAt_behind {fuel : Nat} {t t' : Pointers} {tok : PlacedToken}
    (hle : source.length ≤ t.pos) (h : tokenizerNextAt source fuel t = some (tok, t')) :
    tok = ⟨.eof, t.start, t.pos⟩ ∧ t' = t := by
  cases fuel with
  | zero => cases h
  | succ fuel =>
    rw [tokenizerNextAt, if_neg (by omega)] at h
    cases h
    exact ⟨rfl, rfl⟩

/-- One unit of fuel for every byte that is left, and one more, is enough. -/
theorem tokenizerNextAt_returns (fuel : Nat) : ∀ {t : Pointers}, 0 < fuel →
    source.length < t.pos + fuel → ∃ r, tokenizerNextAt source fuel t = some r := by
  induction fuel with
  | zero => intro t h; omega
  | succ fuel ih =>
    intro t _ hfuel
    rw [tokenizerNextAt]
    split_ifs with hlt
    · generalize hpos : t.pos + runLength isBlank (source.drop t.pos) = pos
      dsimp only
      have hagain : ∀ n, ∃ r, tokenizerNextAt source fuel ⟨pos, pos + 2 + n⟩ = some r :=
        fun n => ih (by omega) (by show _ < pos + 2 + n + fuel; omega)
      split
      · exact ⟨_, rfl⟩
      · split_ifs
        · exact hagain _
        · exact ⟨_, rfl⟩
        · exact hagain _
        · exact ⟨_, rfl⟩
    · exact ⟨_, rfl⟩

end Call

/-! ## §5 A run of calls -/

theorem takes_ne_eof (c : UInt8) (cs : Bytes) : (takes c cs).1 ≠ .eof := by
  rcases takes_cases c cs with ⟨-, htakes⟩ | htakes | hmem
  · simp [htakes]
  · rw [htakes]
    exact (keywordType_ne _).1
  · have hall : ∀ type ∈ signTypes, type ≠ .eof := by decide
    exact hall _ hmem

/-- The text at the pointers is, behind blanks and comments, a token that the
end of the source cuts off. -/
def AtCutOff (source : Bytes) (t : Pointers) : Prop :=
  ∃ c cs, Walk (source.drop t.pos) [] (c :: cs) ∧ AtToken c cs ∧ CutOff c cs

/-- The position and the texts of the tokens lie in the source. -/
structure StaysInside (source : Bytes) (toks : List PlacedToken) (t : Pointers) : Prop where
  pos : t.pos ≤ source.length
  texts : ∀ tok ∈ toks, tok.type ≠ .error → tok.type ≠ .hash →
    tok.start ≤ tok.stop ∧ tok.stop ≤ source.length

section Run

variable {source : Bytes} {toks : List PlacedToken} {t : Pointers}

theorem call_start_le {t' : Pointers} {tok : PlacedToken} (hstart : t.start ≤ t.pos)
    (h : Call source t tok t') : t'.start ≤ t'.pos := by
  obtain ⟨fuel, hcall⟩ := h
  rcases Nat.lt_or_ge source.length t.pos with hlt | hle
  · obtain ⟨-, rfl⟩ := tokenizerNextAt_behind (by omega) hcall
    exact hstart
  · obtain ⟨-, -, ⟨c, cs, hscans⟩ | hends⟩ := tokenizerNextAt_cases fuel hle hcall
    · have := hscans.stop
      omega
    · exact hends.start hstart

theorem Calls.start_le (h : Calls source toks t) : t.start ≤ t.pos := by
  induction h with
  | create => exact Nat.le_refl _
  | next _ hcall ih => exact call_start_le ih hcall

/-- A call that is not at a cut off token leaves the position in the source. -/
theorem call_inside {t' : Pointers} {tok : PlacedToken} (hle : t.pos ≤ source.length)
    (hcut : ¬ AtCutOff source t) (h : Call source t tok t') :
    tok.start = t'.start ∧ tok.stop = t'.pos ∧ t'.pos ≤ source.length := by
  obtain ⟨fuel, hcall⟩ := h
  obtain ⟨hstart, hstop, ⟨c, cs, hscans⟩ | hends⟩ := tokenizerNextAt_cases fuel hle hcall
  · have hlength := hscans.placed.length
    have hnot : ¬ CutOff c cs := fun hcutOff => hcut ⟨c, cs, hscans.walked, hscans.atToken, hcutOff⟩
    have htoken := (tokenLength_spec c cs).2.mpr hnot
    have := hscans.stop
    rw [List.length_cons] at hlength
    exact ⟨hstart, hstop, by omega⟩
  · exact ⟨hstart, hstop, by rw [hends.atEnd]⟩

/-- In a run where no call starts at a token that the end of the source cuts
off, the tokenizer stays inside its source. -/
theorem stays_inside (h : Calls source toks t)
    (hcut : ∀ toks' t', Calls source toks' t' → toks'.length < toks.length → ¬ AtCutOff source t') :
    StaysInside source toks t := by
  induction h with
  | create => exact ⟨Nat.zero_le _, by simp⟩
  | @next toks t t' tok hrun hcall ih =>
    have hlonger : toks.length < (toks ++ [tok]).length := by simp
    have hinside := ih fun toks' t' hcalls hlt => hcut toks' t' hcalls (hlt.trans hlonger)
    obtain ⟨hstart, hstop, hle⟩ := call_inside hinside.pos (hcut toks t hrun hlonger) hcall
    have hstart_le := call_start_le hrun.start_le hcall
    refine ⟨hle, fun tok' htok' herr hhash => ?_⟩
    rcases List.mem_append.mp htok' with hmem | hmem
    · exact hinside.texts tok' hmem herr hhash
    · obtain rfl := List.mem_singleton.mp hmem
      rw [hstart, hstop]
      exact ⟨hstart_le, hle⟩

/-- At the latest when as many calls were made as the source has bytes, or
one of them gave end of file, the position is at the end. -/
theorem Calls.at_end (h : Calls source toks t) :
    (source.length ≤ t.pos ∨ toks.length ≤ t.pos) ∧
      ∀ tok ∈ toks, tok.type = .eof → source.length ≤ t.pos := by
  induction h with
  | create => exact ⟨.inr (Nat.le_refl _), by simp⟩
  | @next toks t t' tok hrun hcall ih =>
    obtain ⟨fuel, hcall⟩ := hcall
    rcases Nat.lt_or_ge t.pos source.length with hlt | hle
    · have hnone : ∀ tok' ∈ toks, tok'.type ≠ .eof := fun tok' hmem heof => by
        have := ih.2 tok' hmem heof
        omega
      have hlength : toks.length ≤ t.pos := ih.1.resolve_left (by omega)
      obtain ⟨-, -, ⟨c, cs, hscans⟩ | hends⟩ := tokenizerNextAt_cases fuel (Nat.le_of_lt hlt) hcall
      · have hstop := hscans.stop
        have hafter := hscans.after
        refine ⟨.inr (by rw [List.length_append, List.length_singleton]; omega), ?_⟩
        intro tok' hmem heof
        rcases List.mem_append.mp hmem with hmem | hmem
        · exact absurd heof (hnone tok' hmem)
        · obtain rfl := List.mem_singleton.mp hmem
          exact absurd (hscans.type.symm.trans heof) (takes_ne_eof c cs)
      · exact ⟨.inl hends.atEnd.ge, fun _ _ _ => hends.atEnd.ge⟩
    · obtain ⟨-, rfl⟩ := tokenizerNextAt_behind hle hcall
      exact ⟨.inl hle, fun _ _ _ => hle⟩

/-- Every call returns and moves on unless it gives end of file, and it gives
that when as many calls were made before as the source has bytes, or when one
of them gave it. -/
theorem tokenizer_finishes (h : Calls source toks t) :
    (∃ tok t', tokenizerNextAt source (source.length + 1) t = some (tok, t')) ∧
      ∀ tok t', Call source t tok t' → (tok.type ≠ .eof → t.pos < t'.pos) ∧
        (source.length ≤ toks.length ∨ (∃ tok' ∈ toks, tok'.type = .eof) → tok.type = .eof) := by
  obtain ⟨⟨tok, t'⟩, hreturns⟩ : ∃ r, tokenizerNextAt source (source.length + 1) t = some r :=
    tokenizerNextAt_returns _ (by omega) (by omega)
  refine ⟨⟨tok, t', hreturns⟩, ?_⟩
  rintro tok t' ⟨fuel, hcall⟩
  have hend := h.at_end
  rcases Nat.lt_or_ge t.pos source.length with hlt | hle
  · refine ⟨fun hne => ?_, fun hlast => ?_⟩
    · obtain ⟨-, -, ⟨c, cs, hscans⟩ | hends⟩ := tokenizerNextAt_cases fuel (Nat.le_of_lt hlt) hcall
      · have hstop := hscans.stop
        have hafter := hscans.after
        omega
      · exact (hends.type.resolve_left hne).2
    · -- there is no such call before the end
      rcases hlast with hmany | ⟨tok', hmem, heof⟩
      · have := hend.1
        omega
      · have := hend.2 tok' hmem heof
        omega
  · obtain ⟨rfl, -⟩ := tokenizerNextAt_behind hle hcall
    exact ⟨fun hne => absurd rfl hne, fun _ => rfl⟩

end Run

/-- One call on `x`. -/
theorem calls_word : Calls (bytes "x") [⟨.ident, 0, 1⟩] ⟨0, 1⟩ :=
  .next .create ⟨2, by decide⟩

theorem stays_inside_word : StaysInside (bytes "x") [⟨.ident, 0, 1⟩] ⟨0, 1⟩ := by
  refine stays_inside calls_word ?_
  intro toks' t' hcalls hlt hcut
  obtain ⟨c, cs, hwalk, -, hcutOff⟩ := hcut
  cases hcalls with
  | next => simp at hlt
  | create =>
    have hsuffix : c :: cs <:+ [ch 'x'] := hwalk.suffix
    obtain ⟨rfl, rfl⟩ : c = ch 'x' ∧ cs = [] := by simpa [List.suffix_cons_iff] using hsuffix
    revert hcutOff
    simp only [CutOff]
    decide

theorem tokenizer_finishes_word :
    ∃ tok t', tokenizerNextAt (bytes "x") 2 ⟨0, 1⟩ = some (tok, t') ∧ tok.type = .eof := by
  obtain ⟨⟨tok, t', hcall⟩, hall⟩ := tokenizer_finishes calls_word
  exact ⟨tok, t', hcall, (hall tok t' ⟨2, hcall⟩).2 (.inl (by decide))⟩

/-- A character literal that breaks off behind `\x` leaves the position one
byte behind the end. -/
theorem not_always_inside :
    ¬ ∀ source toks t, Calls source toks t → StaysInside source toks t := by
  intro h
  have hcalls : Calls (bytes "'\\x") [⟨.charLiteral, 0, 4⟩] ⟨0, 4⟩ :=
    .next .create ⟨2, by decide⟩
  have hpos := (h _ _ _ hcalls).pos
  revert hpos
  decide

end Aether.Lexing
