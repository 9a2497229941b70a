/-
Aether.Lexing.SpellingTheorems — tokens written with a space between them
are read back.

Keywords, operators, identifiers and decimal literals are read back as
written, but for `||`, `/=` and the bar of a lambda, which the tokenizer
never makes, and an operator of one character at the very end of the text,
where it is an error (`spell_read_iff`).
-/
import Aether.Lexing.Walk
import Aether.Parser.Print

namespace Aether.Lexing

open Aether.Lib.Scanner

/-! ## §1 The tokens that are written -/

/-- `token_type_name` on operators and punctuation. -/
def operatorNames : List (TokenType × Bytes) :=
  [(.plus, bytes "+"), (.minus, bytes "-"), (.star, bytes "*"), (.slash, bytes "/"),
    (.percent, bytes "%"), (.eq, bytes "="), (.eqEq, bytes "=="), (.bang, bytes "!"),
    (.bangEq, bytes "!="), (.lt, bytes "<"), (.gt, bytes ">"), (.ltEq, bytes "<="),
    (.gtEq, bytes ">="), (.ampersand, bytes "&"), (.andAnd, bytes "&&"), (.pipe, bytes "|"),
    (.pipePipe, bytes "||"), (.caret, bytes "^"), (.tilde, bytes "~"), (.ltLt, bytes "<<"),
    (.gtGt, bytes ">>"), (.arrow, bytes "->"), (.dotDot, bytes ".."), (.dotDotEq, bytes "..="),
    (.colon, bytes ":"), (.comma, bytes ","), (.dot, bytes "."), (.at, bytes "@"),
    (.hash, bytes "#"), (.lparen, bytes "("), (.rparen, bytes ")"), (.lbracket, bytes "["),
    (.rbracket, bytes "]"), (.lbrace, bytes "\x7b"), (.rbrace, bytes "\x7d"),
    (.plusEq, bytes "+="), (.plusPlus, bytes "++"), (.minusEq, bytes "-="),
    (.minusMinus, bytes "--"), (.starEq, bytes "*="), (.slashEq, bytes "/="),
    (.pipeLambda, bytes "|"), (.question, bytes "?"), (.backslash, bytes "\\"),
    (.semicolon, bytes ";"), (.colonColon, bytes "::"), (.starStar, bytes "**")]

/-- The digits of a decimal literal, with underscores between them. -/
def isDecimal : Bytes → Bool
  | [] => false
  | c :: cs => isDigit c && cs.all isDigitOrUnderscore

/-- A keyword, an operator, an identifier or a decimal literal. -/
inductive Written : Spelling → Prop
  | keyword {word : Bytes} {type : TokenType} (h : (word, type) ∈ keywords) : Written ⟨type, word⟩
  | operator {text : Bytes} {type : TokenType} (h : (type, text) ∈ operatorNames) :
      Written ⟨type, text⟩
  | ident {name : Bytes} (h : isIdentifier name = true) : Written ⟨.ident, name⟩
  | decimal {digits : Bytes} (h : isDecimal digits = true) : Written ⟨.intLiteral, digits⟩

/-- The spellings with a space between any two of them. -/
def spell : List Spelling → Bytes
  | [] => []
  | [w] => w.text
  | w :: w' :: ws => w.text ++ ch ' ' :: spell (w' :: ws)

/-! ## §2 Words and numerals -/

/-- What may follow a written token: nothing, or a space. -/
def AtSpace (r : Bytes) : Prop := ∀ c ∈ r.head?, c = ch ' '

theorem AtSpace.stops {r : Bytes} (h : AtSpace r) {p : UInt8 → Bool} (hp : p (ch ' ') = false) :
    Stops p r := fun c hc => h c hc ▸ hp

theorem not_blank {c : UInt8} (hspace : c ≠ ch ' ') (htab : c ≠ ch '\t') : isBlank c = false := by
  rw [isBlank, beq_eq_false_iff_ne.mpr hspace, beq_eq_false_iff_ne.mpr htab]
  rfl

/-- The letters of the prefixes are no digits. -/
theorem not_letter {k k' : UInt8} (hk : isDigitOrUnderscore k = false)
    (hk' : isDigitOrUnderscore k' = false) (d : UInt8) (hd : isDigitOrUnderscore d = true) :
    (d == k || d == k') = false := by
  rw [beq_eq_false_iff_ne.mpr (ne_of_class hd hk), beq_eq_false_iff_ne.mpr (ne_of_class hd hk')]
  rfl

theorem reads_word {c : UInt8} {cs r : Bytes} (hstart : isIdentStart c = true)
    (hall : cs.all isIdentContinue = true)
    (hop : c = ch 'o' → cs.take 2 = bytes "p_" → keywordType (c :: cs) = .ident) (hr : AtSpace r) :
    Reads ⟨keywordType (c :: cs), c :: cs⟩ r := by
  obtain ⟨hnl, hback, hslash, hhash⟩ := identStart_facts c hstart
  have hblank : isBlank c = false := not_blank (ne_of_class hstart rfl) (ne_of_class hstart rfl)
  refine ⟨(keywordType_ne _).2, c, cs, rfl, hblank, fun h => hslash h.1, fun h => hslash h.1, ?_⟩
  have hdrop : (cs ++ r).dropWhile isIdentContinue = r :=
    dropWhile_append_eq_iff.mpr ⟨hall, hr.stops (by decide)⟩
  unfold takes
  rw [if_neg hnl, if_neg hback, if_neg hslash, if_neg hhash]
  by_cases hname : c = ch 'o' ∧ (cs ++ r).take 2 = bytes "p_"
  · rw [if_pos hname]
    obtain ⟨cs', hcs'⟩ := exists_of_take_op hname.2
    obtain ⟨ds, rfl⟩ : ∃ ds, cs = ch 'p' :: ch '_' :: ds := by
      match cs, hcs' with
      | [], h =>
        have hr' : r = ch 'p' :: ch '_' :: cs' := h
        exact absurd (hr (ch 'p') (by rw [hr']; rfl)) (by decide)
      | [d], h =>
        have hr' : r = ch '_' :: cs' := (List.cons.inj h).2
        exact absurd (hr (ch '_') (by rw [hr']; rfl)) (by decide)
      | d :: e :: ds, h =>
        obtain ⟨hd, hds⟩ := List.cons.inj h
        exact ⟨ds, by rw [hd, (List.cons.inj hds).1]⟩
    simp only [List.all_cons, Bool.and_eq_true] at hall
    have hnames : ds.all (fun c => !isOpDelimiter c) = true := by
      rw [List.all_eq_true] at hall ⊢
      exact fun c hc => identContinue_facts c (hall.2.2 c hc)
    have hrest : ((ch 'p' :: ch '_' :: ds ++ r).drop 2).dropWhile (fun c => !isOpDelimiter c) = r :=
      dropWhile_append_eq_iff.mpr ⟨hnames, hr.stops (by decide)⟩
    rw [hop hname.1 rfl, takesOperatorName, hrest]
  · rw [if_neg hname, if_pos hstart, takesWord, hdrop]
    simp

theorem reads_decimal {digits r : Bytes} (h : isDecimal digits = true) (hr : AtSpace r) :
    Reads ⟨.intLiteral, digits⟩ r := by
  cases digits with
  | nil => cases h
  | cons c cs =>
    simp only [isDecimal, Bool.and_eq_true] at h
    obtain ⟨hident, hnl, hback, hslash, hhash, ho, -⟩ := digit_facts c h.1
    have hblank : isBlank c = false := not_blank (ne_of_class h.1 rfl) (ne_of_class h.1 rfl)
    refine ⟨by simp, c, cs, rfl, hblank, fun h => hslash h.1, fun h => hslash h.1, ?_⟩
    have hdrop : (cs ++ r).dropWhile isDigitOrUnderscore = r :=
      dropWhile_append_eq_iff.mpr ⟨h.2, hr.stops (by decide)⟩
    have hfraction : skipFraction r = (false, r) := by
      rw [skipFraction_eq, if_neg]
      have hstop := hr.stops (p := isChar (ch '.')) (by decide)
      cases r with
      | nil => decide
      | cons d ds => simp [startsFraction, stops_cons.mp hstop]
    have hexponent : takesExponent r = (false, r) := by
      have hstop := hr.stops (p := fun c => c == ch 'e' || c == ch 'E') (by decide)
      exact onHead_of_stops hstop
    have hdecimal : takesDecimal (cs ++ r) = (.intLiteral, r) := by
      simp [takesDecimal, hdrop, hfraction, hexponent]
    have hnumber : takesNumber c (cs ++ r) = (.intLiteral, r) := by
      have hstops : ∀ {p : UInt8 → Bool}, p (ch ' ') = false →
          (∀ d, isDigitOrUnderscore d = true → p d = false) → Stops p (cs ++ r) := by
        intro p hspace hp
        cases cs with
        | nil => exact hr.stops hspace
        | cons d ds =>
          simp only [List.all_cons, Bool.and_eq_true] at h
          exact stops_cons.mpr (hp d h.2.1)
      unfold takesNumber
      split
      · rw [onHead_of_stops (hstops (by decide) (not_letter rfl rfl)),
          onHead_of_stops (hstops (by decide) (not_letter rfl rfl)),
          onHead_of_stops (hstops (by decide) (not_letter rfl rfl)), hdecimal]
      · exact hdecimal
    unfold takes
    rw [if_neg hnl, if_neg hback, if_neg hslash, if_neg hhash, if_neg (fun h => ho h.1),
      if_neg (by simp [hident]), if_pos h.1, hnumber]

/-! ## §3 Operators -/

/-- Whether the tokenizer reads the token at its own text, before `r`. -/
def readsAt (w : Spelling) (r : Bytes) : Bool :=
  match w.text with
  | [] => false
  | c :: cs =>
    w.type != .error && !isBlank c && !(c == ch '/' && (cs ++ r).head? == some (ch '/')) &&
      !(c == ch '/' && (cs ++ r).head? == some (ch '*')) && takes c (cs ++ r) == (w.type, r)

theorem readsAt_iff (w : Spelling) (r : Bytes) : readsAt w r = true ↔ Reads w r := by
  constructor
  · intro h
    rw [readsAt] at h
    split at h
    · cases h
    · next c cs htext =>
      simp only [Bool.and_eq_true, bne_iff_ne, Bool.not_eq_true', Bool.and_eq_false_iff,
        beq_eq_false_iff_ne, beq_iff_eq] at h
      obtain ⟨⟨⟨⟨herr, hblank⟩, hline⟩, hblock⟩, htakes⟩ := h
      exact ⟨herr, c, cs, htext, hblank, fun hc => hline.elim (· hc.1) (· hc.2),
        fun hc => hblock.elim (· hc.1) (· hc.2), htakes⟩
  · intro h
    obtain ⟨c, cs, htext, hblank, hline, hblock, htakes⟩ := h.starts
    have herr := h.notError
    rw [readsAt, htext]
    simp only [Bool.and_eq_true, bne_iff_ne, Bool.not_eq_true', Bool.and_eq_false_iff,
      beq_eq_false_iff_ne, beq_iff_eq]
    exact ⟨⟨⟨⟨herr, hblank⟩, not_and_or.mp hline⟩, not_and_or.mp hblock⟩, htakes⟩

theorem operators_read : ∀ entry ∈ operatorNames, entry.1 ∉ neverRead →
    readsAt ⟨entry.1, entry.2⟩ [ch ' '] = true ∧
      (entry.1 ∉ bareTypes → readsAt ⟨entry.1, entry.2⟩ [] = true) := by
  decide

theorem reads_operator {text r : Bytes} {type : TokenType} (h : (type, text) ∈ operatorNames)
    (hnever : type ∉ neverRead) (hr : AtSpace r) (hend : type ∈ bareTypes → r ≠ []) :
    Reads ⟨type, text⟩ r := by
  obtain ⟨hspace, hnil⟩ := operators_read _ h hnever
  cases r with
  | nil => exact (readsAt_iff _ _).mp (hnil fun hbare => hend hbare rfl)
  | cons c cs =>
    have hc : c = ch ' ' := hr c rfl
    subst hc
    refine ((readsAt_iff _ _).mp hspace).exchange (.of_head rfl fun hpoint => ?_) fun _ h => nomatch h
    exact absurd (Option.some.inj hpoint) (by decide)

/-! ## §4 Written tokens -/

theorem keywords_are_words : ∀ entry ∈ keywords, ∃ c cs, entry.1 = c :: cs ∧
    isIdentStart c = true ∧ cs.all isIdentContinue = true ∧ cs.take 2 ≠ bytes "p_" ∧
      keywordType (c :: cs) = entry.2 := by
  have hall : ∀ entry ∈ keywords, entry.1 ≠ [] ∧ isIdentStart (entry.1.headD 0) = true ∧
      entry.1.tail.all isIdentContinue = true ∧ entry.1.tail.take 2 ≠ bytes "p_" ∧
        keywordType entry.1 = entry.2 := by
    decide
  intro entry hentry
  obtain ⟨hne, hstart, hcontinue, hop, htype⟩ := hall entry hentry
  cases hword : entry.1 with
  | nil => exact absurd hword hne
  | cons c cs =>
    rw [hword] at hstart hcontinue hop htype
    exact ⟨c, cs, rfl, hstart, hcontinue, hop, htype⟩

theorem Written.reads {w : Spelling} {r : Bytes} (h : Written w) (hnever : w.type ∉ neverRead)
    (hr : AtSpace r) (hend : w.type ∈ bareTypes → r ≠ []) : Reads w r := by
  cases h with
  | keyword h =>
    obtain ⟨c, cs, hword, hstart, hall, hop, htype⟩ := keywords_are_words _ h
    simp only at hword htype
    subst hword
    rw [← htype]
    exact reads_word hstart hall (fun _ hop' => absurd hop' hop) hr
  | operator h => exact reads_operator h hnever hr hend
  | @ident name h =>
    cases name with
    | nil => cases h
    | cons c cs =>
      simp only [isIdentifier, Bool.and_eq_true, beq_iff_eq] at h
      have hreads := reads_word h.1.1 h.1.2 (fun _ _ => h.2) hr
      rwa [h.2] at hreads
  | decimal h => exact reads_decimal h hr

/-! ## §5 Tokens that no text gives -/

theorem takes_type (c : UInt8) (cs : Bytes) : (takes c cs).1 ∉ neverRead := by
  rcases takes_cases c cs with ⟨-, htakes⟩ | htakes | hmem
  · simp [htakes, neverRead]
  · rw [htakes]
    change keywordType _ ∉ neverRead
    generalize c :: cs.take (cs.length - (cs.dropWhile isIdentContinue).length) = word
    by_cases hident : keywordType word = .ident
    · simp [hident, neverRead]
    · have hall : ∀ entry ∈ keywords, entry.2 ∉ neverRead := by decide
      exact hall _ (mem_keywords hident)
  · have hall : ∀ type ∈ signTypes, type ∉ neverRead := by decide
    exact hall _ hmem

theorem nextOf_type (fuel : Nat) : ∀ {cs : Bytes} {w : Spelling} {rest : Bytes},
    nextOf fuel cs = some (w, rest) → w.type ∉ neverRead := by
  induction fuel with
  | zero => intro cs w rest h; cases h
  | succ fuel ih =>
    intro cs w rest h
    rw [nextOf] at h
    split at h
    · cases h
    · split_ifs at h
      · exact ih h
      · split at h
        · exact ih h
        · cases h
          decide
      · rw [readToken_eq] at h
        cases h
        exact takes_type _ _

theorem spellings_type (n : Nat) : ∀ {cs : Bytes}, cs.length < n →
    ∀ w ∈ spellings cs, w.type ∉ neverRead := by
  induction n with
  | zero => intro cs h; omega
  | succ n ih =>
    intro cs h w hw
    rw [spellings_eq] at hw
    cases hnext : next cs with
    | none => simp [hnext] at hw
    | some r =>
      rw [hnext] at hw
      rcases List.mem_cons.mp hw with rfl | hw
      · exact nextOf_type _ (hnext : nextOf _ cs = some (r.1, r.2))
      · have := nextOf_shorter _ (hnext : nextOf _ cs = some (r.1, r.2))
        exact ih (by omega) w hw

/-! ## §6 The round trip -/

theorem operators_at_end : ∀ entry ∈ operatorNames, entry.1 ∈ bareTypes →
    (next entry.2).map (·.1.type) = some .error := by
  decide

theorem spellings_spell_cons {w w' : Spelling} {ws : List Spelling} (h : Written w)
    (hnever : w.type ∉ neverRead) :
    spellings (spell (w :: w' :: ws)) = w :: spellings (spell (w' :: ws)) := by
  have hreads := h.reads (r := ch ' ' :: spell (w' :: ws)) hnever (by simp [AtSpace])
    fun _ h => nomatch h
  exact (spellings_step hreads.step).trans (congrArg (w :: ·) (spellings_step (.blank (by decide))))

/-- Written tokens are read back when the tokenizer makes them at all and
the last is no operator of one character that needs something after it. -/
theorem spellings_spell_iff (ws : List Spelling) (h : ∀ w ∈ ws, Written w) :
    spellings (spell ws) = ws ↔
      (∀ w ∈ ws, w.type ∉ neverRead) ∧ ∀ w ∈ ws.getLast?, w.type ∉ bareTypes := by
  constructor
  · intro heq
    have hnever : ∀ w ∈ ws, w.type ∉ neverRead := by
      have hall := spellings_type _ (Nat.lt_succ_self (spell ws).length)
      rwa [heq] at hall
    refine ⟨hnever, ?_⟩
    induction ws with
    | nil => simp
    | cons w ws ih =>
      have hw := h w (List.mem_cons_self ..)
      cases ws with
      | nil =>
        intro w' hw' hbare
        obtain rfl : w = w' := by simpa using hw'
        cases hw with
        | keyword hmem =>
          have hall : ∀ entry ∈ keywords, entry.2 ∉ bareTypes := by decide
          exact hall _ hmem hbare
        | @operator text type hmem =>
          have hend := operators_at_end _ hmem hbare
          have hnext := spellings_eq text
          rw [show spellings text = [⟨type, text⟩] from heq] at hnext
          cases hread : next text with
          | none => simp [hread] at hnext
          | some r =>
            rw [hread] at hnext hend
            have htype : r.1.type = .error := Option.some.inj hend
            rw [← (List.cons.inj hnext).1] at htype
            have hall : ∀ entry ∈ operatorNames, entry.1 ≠ .error := by decide
            exact hall _ hmem htype
        | ident => exact absurd hbare (by simp [bareTypes])
        | decimal => exact absurd hbare (by simp [bareTypes])
      | cons w' ws =>
        rw [spellings_spell_cons hw (hnever w (List.mem_cons_self ..))] at heq
        have hrest := ih (fun v hv => h v (List.mem_cons_of_mem _ hv)) (List.cons.inj heq).2
          fun v hv => hnever v (List.mem_cons_of_mem _ hv)
        simpa using hrest
  · rintro ⟨hnever, hlast⟩
    induction ws with
    | nil => exact spellings_nil
    | cons w ws ih =>
      have hw := h w (List.mem_cons_self ..)
      have hw' := hnever w (List.mem_cons_self ..)
      cases ws with
      | nil =>
        have hreads := hw.reads (r := []) hw' (by simp [AtSpace])
          fun hbare => absurd hbare (hlast w rfl)
        have hstep := spellings_step hreads.step
        rw [List.append_nil, spellings_nil] at hstep
        exact hstep
      | cons w' ws =>
        rw [spellings_spell_cons hw hw', ih (fun v hv => h v (List.mem_cons_of_mem _ hv))
          (fun v hv => hnever v (List.mem_cons_of_mem _ hv)) (by simpa using hlast)]

/-- A token that is written by its spelling. -/
structure WrittenToken where
  spelling : Spelling
  written : Written spelling

/-- The tokens of the text of some written tokens are these again, exactly
when none is `||`, `/=` or the bar of a lambda, and the last one is no
operator of one character that the end of the text turns into an error. -/
theorem spelling_round_trip_iff (ws : List WrittenToken) :
    spellings (spell (ws.map WrittenToken.spelling)) = ws.map WrittenToken.spelling ↔
      (∀ w ∈ ws, w.spelling.type ∉ neverRead) ∧ ∀ w ∈ ws.getLast?, w.spelling.type ∉ bareTypes := by
  have hwritten : ∀ w ∈ ws.map WrittenToken.spelling, Written w := by
    intro w hw
    obtain ⟨token, -, rfl⟩ := List.mem_map.mp hw
    exact token.written
  rw [spellings_spell_iff _ hwritten]
  simp

/-- `a || b` comes back as four tokens. -/
theorem or_not_read_back :
    ¬ ∀ ws : List WrittenToken,
      spellings (spell (ws.map WrittenToken.spelling)) = ws.map WrittenToken.spelling := by
  intro h
  have hor := h [⟨⟨.ident, bytes "a"⟩, .ident (by decide)⟩,
    ⟨⟨.pipePipe, bytes "||"⟩, .operator (by decide)⟩, ⟨⟨.ident, bytes "b"⟩, .ident (by decide)⟩]
  have hlength := congrArg List.length hor
  revert hlength
  decide

end Aether.Lexing
