/-
Aether.Lexing.Takes — what a token takes, by its first character.

`takes` says for each first character which token it starts and what is
left after it; `readToken_eq` connects it with `scanToken`. An operator of
one character is no token at the end of the text, where the source's last
switch does not know it.
-/
import Aether.Lexing.Steps

namespace Aether.Lexing

open Aether.Lib.Scanner

/-! ## §1 What a token takes -/

def isChar (c : UInt8) : UInt8 → Bool := fun c' => c' == c

/-- The operators of one character that the last switch does not know. -/
def bareTypes : List TokenType :=
  [.eq, .bang, .lt, .gt, .ampersand, .pipe, .minus, .plus, .star, .dot, .colon]

/-- The tokens that no text gives. -/
def neverRead : List TokenType := [.pipePipe, .slashEq, .pipeLambda]

/-- At the end of the text such an operator is an error. -/
def atEnd (taken : TokenType × Bytes) : TokenType × Bytes :=
  if taken.1 ∈ bareTypes ∧ taken.2 = [] then (.error, []) else taken

def takesWord (c : UInt8) (cs : Bytes) : TokenType × Bytes :=
  (keywordType (c :: cs.take (cs.length - (cs.dropWhile isIdentContinue).length)),
    cs.dropWhile isIdentContinue)

def takesExponent : Bytes → Bool × Bytes :=
  onHead (fun c => c == ch 'e' || c == ch 'E')
    (onHead (fun c => c == ch '+' || c == ch '-') (takeRun isDigitOrUnderscore true)
      (takeRun isDigitOrUnderscore true))
    (done false)

def takesDecimal (cs : Bytes) : TokenType × Bytes :=
  let (hasFraction, rest) := skipFraction (cs.dropWhile isDigitOrUnderscore)
  let (hasExponent, rest) := takesExponent rest
  (if hasFraction || hasExponent then .floatLiteral else .intLiteral, rest)

def takesNumber (c : UInt8) : Bytes → TokenType × Bytes :=
  if c = ch '0' then
    onHead (fun c => c == ch 'x' || c == ch 'X') (takeRun isHexOrUnderscore .intLiteral)
      (onHead (fun c => c == ch 'b' || c == ch 'B') (takeRun isBinOrUnderscore .intLiteral)
        (onHead (fun c => c == ch 'o' || c == ch 'O') (takeRun isOctOrUnderscore .intLiteral)
          takesDecimal))
  else takesDecimal

def takesString (cs : Bytes) : TokenType × Bytes := (.stringLiteral, (scanStringLoop 1 1 cs).2.2)

def takesCharBody : Bytes → Unit × Bytes :=
  onHead (isChar (ch '\\'))
    (onHead (isChar (ch 'x'))
      (onHead isHexChar (onHead isHexChar (done ()) (done ())) (takeAny ()))
      (takeAny ()))
    (takeAny ())

def takesChar (cs : Bytes) : TokenType × Bytes :=
  onHead (isChar (ch '\'')) (done .charLiteral) (done .charLiteral) (takesCharBody cs).2

def takesOperatorName (cs : Bytes) : TokenType × Bytes :=
  (.ident, (cs.drop 2).dropWhile fun c => !isOpDelimiter c)

/-- The operators that may go on after their first character. -/
def takesOperator (c : UInt8) : Option (Bytes → TokenType × Bytes) :=
  let goesOn (next : Char) (type : TokenType) := onHead (isChar (ch next)) (done type)
  if c = ch '=' then some (goesOn '=' .eqEq (done .eq))
  else if c = ch '!' then some (goesOn '=' .bangEq (done .bang))
  else if c = ch '<' then some (goesOn '=' .ltEq (goesOn '<' .ltLt (done .lt)))
  else if c = ch '>' then some (goesOn '=' .gtEq (goesOn '>' .gtGt (done .gt)))
  else if c = ch '&' then some (goesOn '&' .andAnd (done .ampersand))
  else if c = ch '|' then some (done .pipe)
  else if c = ch '-' then
    some (goesOn '>' .arrow (goesOn '=' .minusEq (goesOn '-' .minusMinus (done .minus))))
  else if c = ch '+' then some (goesOn '=' .plusEq (goesOn '+' .plusPlus (done .plus)))
  else if c = ch '*' then some (goesOn '=' .starEq (goesOn '*' .starStar (done .star)))
  else if c = ch '.' then
    some (onHead (isChar (ch '.')) (goesOn '=' .dotDotEq (done .dotDot)) (done .dot))
  else if c = ch ':' then some (goesOn ':' .colonColon (done .colon))
  else none

def takesUnicode (cs : Bytes) : TokenType × Bytes :=
  takeRun isUtf8Continuation .unicodeOp (takeAny () cs).2

/-- The last switch. -/
def takesSingle (c : UInt8) (cs : Bytes) : TokenType × Bytes :=
  match singleCharType c with
  | some type => (type, cs)
  | none => if c > 127 then takesUnicode cs else (.error, cs)

/-- The type of the token that starts with `c`, and what is left after it. -/
def takes (c : UInt8) (cs : Bytes) : TokenType × Bytes :=
  if c = ch '\n' then (.newline, cs)
  else if c = ch '\\' then (.backslash, cs)
  else if c = ch '/' then (.slash, cs)
  else if c = ch '#' then (.hash, cs)
  else if c = ch 'o' ∧ cs.take 2 = bytes "p_" then takesOperatorName cs
  else if isIdentStart c then takesWord c cs
  else if isDigit c then takesNumber c cs
  else if c = ch '"' then takesString cs
  else if c = ch '\'' then takesChar cs
  else
    match takesOperator c with
    | some f => atEnd (f cs)
    | none => takesSingle c cs

/-- The text that was taken, and the message of an error token. -/
def spelled (c : UInt8) (cs : Bytes) (type : TokenType) (rest : Bytes) : Spelling :=
  ⟨type, if type = .error then bytes "Unexpected character" else textBetween (c :: cs) rest⟩

/-! ## §2 It is what the tokenizer takes -/

section Reading

variable (c : UInt8) (cs : Bytes) (line col : Nat)

theorem seen_emit {type : TokenType} {rest : Bytes} (heof : type ≠ .eof) (herr : type ≠ .error) :
    seen ((⟨c :: cs, rest, line, col⟩ : Tokenizer).emit type) =
      some (spelled c cs type rest, rest) := by
  simp [seen, spelling, Tokenizer.emit, makeToken, heof, spelled, herr]

theorem seen_error (rest : Bytes) :
    seen (errorToken ⟨c :: cs, rest, line, col⟩ "Unexpected character",
      (⟨c :: cs, rest, line, col⟩ : Tokenizer)) = some (spelled c cs .error rest, rest) := by
  simp [seen, spelling, errorToken, spelled]

theorem keywordType_ne (word : Bytes) : keywordType word ≠ .eof ∧ keywordType word ≠ .error := by
  have hall : ∀ entry ∈ keywords, entry.2 ≠ .eof ∧ entry.2 ≠ .error := by decide
  rw [keywordType]
  cases hlookup : keywords.lookup word with
  | none => exact ⟨by decide, by decide⟩
  | some type =>
    obtain ⟨l₁, l₂, hmem, -⟩ := List.lookup_eq_some_iff.mp hlookup
    exact hall (word, type) (by rw [hmem]; simp)

theorem textBetween_suffix {rest : Bytes} (h : rest <:+ cs) :
    textBetween (c :: cs) rest = c :: cs.take (cs.length - rest.length) := by
  have := h.length_le
  rw [textBetween, List.length_cons, Nat.succ_sub this, List.take_succ_cons]

theorem seen_word :
    seen (scanIdentOrKeyword ⟨c :: cs, cs, line, col⟩) =
      some (spelled c cs (takesWord c cs).1 (takesWord c cs).2, (takesWord c cs).2) := by
  have htext := textBetween_suffix c cs (List.dropWhile_suffix isIdentContinue (l := cs))
  simp only [scanIdentOrKeyword, htext, takesWord]
  exact seen_emit c cs line col (keywordType_ne _).1 (keywordType_ne _).2

theorem takesExponent_eq (cs : Bytes) : takesExponent cs = skipExponent cs := by
  fun_cases skipExponent cs with
  | case1 c hc s cs' hs =>
    simp only [takesExponent, onHead]
    rw [if_pos (by simpa using hc), if_pos (by simpa using hs)]
    rfl
  | case2 c hc s cs' hs =>
    simp only [takesExponent, onHead]
    rw [if_pos (by simpa using hc), if_neg (by simpa using hs)]
    rfl
  | case3 c hc =>
    simp only [takesExponent, onHead]
    rw [if_pos (by simpa using hc)]
    rfl
  | case4 c cs hc =>
    simp only [takesExponent, onHead]
    rw [if_neg (by simpa using hc)]
    rfl
  | case5 => rfl

theorem seen_decimal :
    seen (scanDecimal ⟨c :: cs, cs, line, col⟩) =
      some (spelled c cs (takesDecimal cs).1 (takesDecimal cs).2, (takesDecimal cs).2) := by
  simp only [scanDecimal, takesDecimal, takesExponent_eq]
  split_ifs <;> simp [seen, spelling, makeToken, spelled]

theorem seen_prefixed {next : UInt8} {cs : Bytes} (accept : UInt8 → Bool) (value : Bytes → UInt64) :
    seen (scanPrefixed ⟨c :: next :: cs, next :: cs, line, col⟩ accept value) =
      some (spelled c (next :: cs) .intLiteral (cs.dropWhile accept), cs.dropWhile accept) := by
  simp [scanPrefixed, seen, spelling, makeToken, spelled]

theorem seen_number :
    seen (scanNumber ⟨c :: cs, cs, line, col⟩) =
      some (spelled c cs (takesNumber c cs).1 (takesNumber c cs).2, (takesNumber c cs).2) := by
  have hdecimal := seen_decimal c cs line col
  rw [scanNumber, takesNumber]
  by_cases hc : c = ch '0'
  · rw [if_pos hc]
    cases cs with
    | nil => exact hdecimal
    | cons next cs =>
      simp only [if_pos hc, onHead, Bool.or_eq_true, beq_iff_eq]
      split_ifs
      · exact seen_prefixed c line col _ _
      · exact seen_prefixed c line col _ _
      · exact seen_prefixed c line col _ _
      · exact hdecimal
  · rw [if_neg hc]
    cases cs with
    | nil => exact hdecimal
    | cons next cs =>
      simp only [if_neg hc]
      exact hdecimal

theorem seen_string :
    seen (scanString ⟨c :: cs, cs, line, col⟩) =
      some (spelled c cs (takesString cs).1 (takesString cs).2, (takesString cs).2) := by
  simp only [scanString, takesString, scanStringLoop_rest line col cs 1 1]
  exact seen_emit c cs _ _ (by decide) (by decide)

theorem takesCharBody_eq (start : Bytes) :
    (scanCharBody ⟨start, cs, line, col⟩).2.start = start ∧
      (scanCharBody ⟨start, cs, line, col⟩).2.pos = (takesCharBody cs).2 := by
  rw [scanCharBody, takesCharBody]
  cases cs with
  | nil => exact ⟨rfl, rfl⟩
  | cons c cs =>
    by_cases hback : c = ch '\\'
    · simp only [hback, if_true, onHead, isChar, beq_self_eq_true]
      cases cs with
      | nil => exact ⟨rfl, rfl⟩
      | cons e es =>
        by_cases hx : e = ch 'x'
        · simp only [hx, if_true, beq_self_eq_true]
          cases es with
          | nil => exact ⟨rfl, rfl⟩
          | cons h hs =>
            cases hs with
            | nil => cases hh : isHexChar h <;> simp [onHead, done, takeAny, Tokenizer.bump, hh]
            | cons l ls =>
              cases hh : isHexChar h <;> cases hl : isHexChar l <;>
                simp [onHead, done, takeAny, Tokenizer.bump, hh, hl]
        · simp [hx, onHead, takeAny, done, Tokenizer.bump]
    · simp [hback, onHead, isChar, takeAny, done, Tokenizer.bump]

theorem seen_char :
    seen (scanChar ⟨c :: cs, cs, line, col⟩) =
      some (spelled c cs (takesChar cs).1 (takesChar cs).2, (takesChar cs).2) := by
  obtain ⟨hstart, hpos⟩ := takesCharBody_eq cs line col (c :: cs)
  simp only [scanChar, takesChar, hpos]
  generalize (scanCharBody ⟨c :: cs, cs, line, col⟩).2 = t at *
  cases hbody : (takesCharBody cs).2 with
  | nil => simp [seen, spelling, makeToken, onHead, done, spelled, hstart, hpos, hbody]
  | cons d ds =>
    by_cases hd : d = ch '\''
    · simp [seen, spelling, makeToken, Tokenizer.bump, onHead, isChar, done, spelled, hstart, hpos,
        hbody, hd]
    · simp [seen, spelling, makeToken, onHead, isChar, done, spelled, hstart, hpos, hbody, hd]

theorem drop_takeWhile (p : UInt8 → Bool) (ds : Bytes) :
    ds.drop (ds.takeWhile p).length = ds.dropWhile p := by
  have hleft : (ds.takeWhile p ++ ds.dropWhile p).drop (ds.takeWhile p).length = ds.dropWhile p :=
    List.drop_left
  rwa [List.takeWhile_append_dropWhile] at hleft

theorem seen_operatorName :
    seen (scanOperatorName ⟨c :: cs, c :: cs, line, col⟩) =
      some (spelled c cs (takesOperatorName cs).1 (takesOperatorName cs).2,
        (takesOperatorName cs).2) := by
  have hpos : (c :: cs).drop (3 + ((cs.drop 2).takeWhile fun c => !isOpDelimiter c).length) =
      (takesOperatorName cs).2 := by
    rw [← List.drop_drop, List.drop_succ_cons, drop_takeWhile]
    rfl
  simp only [scanOperatorName, List.drop_succ_cons, Tokenizer.bump, hpos]
  exact seen_emit c cs _ _ (by decide) (by decide)

/-- The state after an operator of `r.1` more characters. -/
def afterOperator (next : UInt8) (rest : Bytes) (r : Nat × TokenType) : TokenType × Bytes :=
  (r.2, (next :: rest).drop r.1)

theorem goesOn_eq {next : UInt8} {rest : Bytes} (k : UInt8) (type : TokenType)
    {g : Bytes → TokenType × Bytes} {r : Nat × TokenType}
    (hg : g (next :: rest) = afterOperator next rest r) :
    onHead (isChar k) (done type) g (next :: rest) =
      afterOperator next rest (if next = k then (1, type) else r) := by
  by_cases hk : next = k
  · simp [onHead, isChar, done, hk, afterOperator]
  · simp [onHead, isChar, hk, hg]

/-- The characters that start an operator that may go on. -/
def startsOperator : Bytes := bytes "=!<>&|-+*.:"

theorem startsOperator_cases {c : UInt8} (h : c ∈ startsOperator) :
    c = ch '=' ∨ c = ch '!' ∨ c = ch '<' ∨ c = ch '>' ∨ c = ch '&' ∨ c = ch '|' ∨ c = ch '-' ∨
      c = ch '+' ∨ c = ch '*' ∨ c = ch '.' ∨ c = ch ':' := by
  have hmem : c ∈ [ch '=', ch '!', ch '<', ch '>', ch '&', ch '|', ch '-', ch '+', ch '*', ch '.',
    ch ':'] := h
  simpa only [List.mem_cons, List.not_mem_nil, or_false] using hmem

theorem takesOperator_none (h : c ∉ startsOperator) :
    takesOperator c = none ∧ ∀ next rest, twoCharType c next rest = none := by
  simp only [startsOperator, bytes, String.toList, List.mem_map, not_exists, not_and] at h
  have hne : ∀ k ∈ "=!<>&|-+*.:".toList, c ≠ ch k := fun k hk heq => h k hk heq.symm
  have h1 := hne '=' (by decide)
  have h2 := hne '!' (by decide)
  have h3 := hne '<' (by decide)
  have h4 := hne '>' (by decide)
  have h5 := hne '&' (by decide)
  have h6 := hne '|' (by decide)
  have h7 := hne '-' (by decide)
  have h8 := hne '+' (by decide)
  have h9 := hne '*' (by decide)
  have h10 := hne '.' (by decide)
  have h11 := hne ':' (by decide)
  constructor
  · unfold takesOperator
    rw [if_neg h1, if_neg h2, if_neg h3, if_neg h4, if_neg h5, if_neg h6, if_neg h7, if_neg h8,
      if_neg h9, if_neg h10, if_neg h11]
  · intro next rest
    unfold twoCharType
    rw [if_neg h1, if_neg h2, if_neg h3, if_neg h4, if_neg h5, if_neg h6, if_neg h7, if_neg h8,
      if_neg h9, if_neg h10, if_neg h11]

theorem takesOperator_cons (h : c ∈ startsOperator) (next : UInt8) (rest : Bytes) :
    ∃ f r, takesOperator c = some f ∧ twoCharType c next rest = some r ∧
      f (next :: rest) = afterOperator next rest r := by
  have hpipe : ¬ next.toNat = 0x7c7c := by
    have := next.toNat_lt
    omega
  rcases startsOperator_cases h with rfl | rfl | rfl | rfl | rfl | rfl | rfl | rfl | rfl | rfl | rfl
  · exact ⟨_, _, rfl, rfl, goesOn_eq _ _ rfl⟩
  · exact ⟨_, _, rfl, rfl, goesOn_eq _ _ rfl⟩
  · exact ⟨_, _, rfl, rfl, goesOn_eq _ _ (goesOn_eq _ _ rfl)⟩
  · exact ⟨_, _, rfl, rfl, goesOn_eq _ _ (goesOn_eq _ _ rfl)⟩
  · exact ⟨_, _, rfl, rfl, goesOn_eq _ _ rfl⟩
  · refine ⟨_, (0, .pipe), rfl, ?_, rfl⟩
    exact congrArg some (if_neg hpipe)
  · exact ⟨_, _, rfl, rfl, goesOn_eq _ _ (goesOn_eq _ _ (goesOn_eq _ _ rfl))⟩
  · exact ⟨_, _, rfl, rfl, goesOn_eq _ _ (goesOn_eq _ _ rfl)⟩
  · exact ⟨_, _, rfl, rfl, goesOn_eq _ _ (goesOn_eq _ _ rfl)⟩
  · refine ⟨_, _, rfl, rfl, ?_⟩
    by_cases hdot : next = ch '.'
    · cases rest with
      | nil => simp [onHead, isChar, done, hdot, afterOperator]
      | cons d rest =>
        by_cases hd : d = ch '='
        · simp [onHead, isChar, done, hdot, hd, afterOperator]
        · simp [onHead, isChar, done, hdot, hd, afterOperator]
    · simp [onHead, isChar, hdot, afterOperator, done]
  · exact ⟨_, _, rfl, rfl, goesOn_eq _ _ rfl⟩

theorem takesOperator_nil (h : c ∈ startsOperator) :
    ∃ f, takesOperator c = some f ∧ atEnd (f []) = (.error, []) ∧ singleCharType c = none ∧
      ¬ c > 127 := by
  rcases startsOperator_cases h with rfl | rfl | rfl | rfl | rfl | rfl | rfl | rfl | rfl | rfl | rfl <;>
    exact ⟨_, rfl, by decide, by decide, by decide⟩

theorem twoCharType_ne {next : UInt8} {rest : Bytes} {r : Nat × TokenType}
    (h : twoCharType c next rest = some r) : r.2 ≠ .eof ∧ r.2 ≠ .error := by
  revert h
  fun_cases twoCharType c next rest <;> rintro h <;> cases h <;> split_ifs <;>
    exact ⟨by decide, by decide⟩

theorem twoCharType_bare {next : UInt8} {rest : Bytes} {r : Nat × TokenType}
    (h : twoCharType c next rest = some r) (hbare : r.2 ∈ bareTypes) : r.1 = 0 := by
  revert h hbare
  fun_cases twoCharType c next rest <;> rintro h <;> cases h <;> split_ifs <;> decide

theorem singleCharType_ne {type : TokenType} (h : singleCharType c = some type) :
    type ≠ .eof ∧ type ≠ .error := by
  revert h
  fun_cases singleCharType c <;> intro h <;> cases h <;> exact ⟨by decide, by decide⟩

theorem seen_single :
    seen (scanSingleChar ⟨c :: cs, cs, line, col⟩ c) =
      some (spelled c cs (takesSingle c cs).1 (takesSingle c cs).2, (takesSingle c cs).2) := by
  rw [scanSingleChar, takesSingle]
  cases hsingle : singleCharType c with
  | some type => exact seen_emit c cs line col (singleCharType_ne c hsingle).1 (singleCharType_ne c hsingle).2
  | none =>
    dsimp only
    split_ifs
    · have hpos : (cs.drop 1).drop ((cs.drop 1).takeWhile isUtf8Continuation).length =
          (takesUnicode cs).2 := by
        rw [drop_takeWhile]
        cases cs with
        | nil => rfl
        | cons d ds => rfl
      simp only [Tokenizer.bump, hpos]
      exact seen_emit c cs _ _ (by decide) (by decide)
    · exact seen_error c cs line col cs

/-- The last two switches. -/
theorem seen_operator :
    seen ((scanTwoChar ⟨c :: cs, cs, line, col⟩ c).getD
        (scanSingleChar ⟨c :: cs, cs, line, col⟩ c)) =
      (let taken := match takesOperator c with
        | some f => atEnd (f cs)
        | none => takesSingle c cs
      some (spelled c cs taken.1 taken.2, taken.2)) := by
  have hsingle := seen_single c cs line col
  by_cases hc : c ∈ startsOperator
  · cases cs with
    | nil =>
      obtain ⟨f, hf, hnil, hnone, hle⟩ := takesOperator_nil c hc
      have hsame : takesSingle c [] = atEnd (f []) := by rw [takesSingle, hnone, hnil, if_neg hle]
      rw [hf]
      dsimp only
      rw [← hsame]
      exact hsingle
    | cons next rest =>
      obtain ⟨f, r, hf, hr, hafter⟩ := takesOperator_cons c hc next rest
      have hgo : atEnd (afterOperator next rest r) = afterOperator next rest r := by
        rw [atEnd, if_neg]
        rintro ⟨hbare, hrest⟩
        rw [afterOperator, twoCharType_bare c hr hbare] at hrest
        cases hrest
      rw [hf]
      simp only [scanTwoChar, hr, hafter, hgo]
      exact seen_emit c _ _ _ (twoCharType_ne c hr).1 (twoCharType_ne c hr).2
  · obtain ⟨hnone, htwo⟩ := takesOperator_none c hc
    rw [hnone]
    have hscan : scanTwoChar ⟨c :: cs, cs, line, col⟩ c = none := by
      cases cs with
      | nil => rfl
      | cons next rest => simp [scanTwoChar, htwo]
    rw [hscan]
    exact hsingle

end Reading

/-- The token at `c`: its type and text, and what is left. -/
theorem readToken_eq (c : UInt8) (cs : Bytes) :
    readToken c cs = some (spelled c cs (takes c cs).1 (takes c cs).2, (takes c cs).2) := by
  rw [readToken, scanToken, takes]
  split_ifs
  · exact seen_emit c cs _ _ (by decide) (by decide)
  · exact seen_emit c cs _ _ (by decide) (by decide)
  · next hc heq => rw [hc] at heq; exact absurd heq (by decide)
  · exact seen_emit c cs _ _ (by decide) (by decide)
  · next hc =>
    subst hc
    simp [scanHash, seen, spelling, spelled, Tokenizer.bump, textBetween]
    rfl
  · exact seen_operatorName c cs 1 1
  · exact seen_word c cs 1 2
  · exact seen_number c cs 1 2
  · exact seen_string c cs 1 2
  · exact seen_char c cs 1 2
  · exact seen_operator c cs 1 2

/-! ## §3 The types of what is taken -/

theorem takes_operator {c : UInt8} (h : c ∈ startsOperator) (cs : Bytes) :
    ∃ f, takesOperator c = some f ∧ takes c cs = atEnd (f cs) := by
  rcases startsOperator_cases h with rfl | rfl | rfl | rfl | rfl | rfl | rfl | rfl | rfl | rfl | rfl <;>
    exact ⟨_, rfl, rfl⟩

theorem takesNumber_type (c : UInt8) (cs : Bytes) :
    (takesNumber c cs).1 = .intLiteral ∨ (takesNumber c cs).1 = .floatLiteral := by
  have hdecimal : ∀ cs, (takesDecimal cs).1 = .intLiteral ∨ (takesDecimal cs).1 = .floatLiteral := by
    intro cs
    simp only [takesDecimal]
    split
    · exact .inr rfl
    · exact .inl rfl
  have honHead : ∀ (p accept : UInt8 → Bool) {g : Bytes → TokenType × Bytes},
      (∀ cs, (g cs).1 = .intLiteral ∨ (g cs).1 = .floatLiteral) →
      ∀ cs, (onHead p (takeRun accept .intLiteral) g cs).1 = .intLiteral ∨
        (onHead p (takeRun accept .intLiteral) g cs).1 = .floatLiteral := by
    intro p accept g hg cs
    cases cs with
    | nil => exact hg []
    | cons c cs =>
      rw [onHead]
      split
      · exact .inl rfl
      · exact hg (c :: cs)
  unfold takesNumber
  split
  · exact honHead _ _ (honHead _ _ (honHead _ _ hdecimal)) cs
  · exact hdecimal cs

theorem takesChar_type (cs : Bytes) : (takesChar cs).1 = .charLiteral := by
  rw [takesChar]
  cases (takesCharBody cs).2 with
  | nil => rfl
  | cons c ds =>
    rw [onHead]
    split
    · rfl
    · rfl

/-- Where no operator starts that may go on, neither one of its types comes
out nor one that no text gives. -/
theorem takes_plain {c : UInt8} (h : c ∉ startsOperator) (cs : Bytes) :
    (takes c cs).1 ∉ bareTypes ∧ (takes c cs).1 ∉ neverRead := by
  have hkeywords : ∀ word, keywordType word ∉ bareTypes ∧ keywordType word ∉ neverRead := by
    have hall : ∀ entry ∈ keywords, entry.2 ∉ bareTypes ∧ entry.2 ∉ neverRead := by decide
    intro word
    rw [keywordType]
    cases hlookup : keywords.lookup word with
    | none => decide
    | some type =>
      obtain ⟨l₁, l₂, hmem, -⟩ := List.lookup_eq_some_iff.mp hlookup
      exact hall (word, type) (by rw [hmem]; simp)
  unfold takes
  split_ifs
  · simp [bareTypes, neverRead]
  · simp [bareTypes, neverRead]
  · simp [bareTypes, neverRead]
  · simp [bareTypes, neverRead]
  · simp [bareTypes, neverRead, takesOperatorName]
  · exact hkeywords _
  · rcases takesNumber_type c cs with h | h <;> simp [bareTypes, neverRead, h]
  · simp [bareTypes, neverRead, takesString]
  · simp [bareTypes, neverRead, takesChar_type]
  · rw [(takesOperator_none c h).1]
    have hsingle : ∀ type, singleCharType c = some type → type ∉ bareTypes ∧ type ∉ neverRead := by
      intro type
      fun_cases singleCharType c <;> intro h <;> cases h <;> decide
    simp only [takesSingle]
    cases hcase : singleCharType c with
    | some type => exact hsingle type hcase
    | none =>
      dsimp only
      split
      · simp [bareTypes, neverRead, takesUnicode, takeRun]
      · simp [bareTypes, neverRead]

/-- An operator of one character takes no more, and is an error at the end
of the text. -/
theorem takes_bare {c : UInt8} {cs : Bytes} (h : (takes c cs).1 ∈ bareTypes) :
    (takes c cs).2 = cs ∧ takes c [] = (.error, []) := by
  by_cases hc : c ∈ startsOperator
  · obtain ⟨f, hf, htakes⟩ := takes_operator hc cs
    obtain ⟨g, hg, hnil⟩ := takes_operator hc []
    obtain ⟨g', hg', hnil', -⟩ := takesOperator_nil c hc
    rw [hf] at hg hg'
    obtain rfl := Option.some.inj hg
    obtain rfl := Option.some.inj hg'
    refine ⟨?_, hnil.trans hnil'⟩
    rw [htakes] at h ⊢
    cases cs with
    | nil =>
      rw [hnil']
    | cons next rest =>
      obtain ⟨g, r, hg, hr, hafter⟩ := takesOperator_cons c hc next rest
      rw [hf] at hg
      obtain rfl := Option.some.inj hg
      rw [hafter] at h ⊢
      rw [atEnd] at h ⊢
      split at h
      · exact absurd h (by decide)
      · next hend =>
        rw [if_neg hend, afterOperator, twoCharType_bare c hr h]
        rfl
  · exact absurd h (takes_plain hc cs).1

/-! ## §4 All types -/

/-- The types of tokens that are neither words nor newlines. -/
def signTypes : List TokenType :=
  [.error, .ident, .intLiteral, .floatLiteral, .stringLiteral, .charLiteral, .backslash, .slash, .hash,
    .eq, .eqEq, .bang, .bangEq, .lt, .ltEq, .ltLt, .gt, .gtEq, .gtGt, .ampersand, .andAnd, .pipe,
    .arrow, .minusEq, .minusMinus, .minus, .plusEq, .plusPlus, .plus, .starEq, .starStar, .star,
    .dotDotEq, .dotDot, .dot, .colonColon, .colon, .lparen, .rparen, .lbracket, .rbracket, .lbrace,
    .rbrace, .comma, .semicolon, .question, .tilde, .caret, .percent, .at, .unicodeOp]

theorem twoCharType_mem {c next : UInt8} {rest : Bytes} {r : Nat × TokenType}
    (h : twoCharType c next rest = some r) : r.2 ∈ signTypes := by
  have hpipe : ¬ next.toNat = 0x7c7c := by
    have := next.toNat_lt
    omega
  revert h
  fun_cases twoCharType c next rest <;> rintro h <;> cases h <;> (try rw [if_neg hpipe]) <;>
    (try split_ifs) <;> simp [signTypes]

theorem singleCharType_mem {c : UInt8} {type : TokenType} (h : singleCharType c = some type) :
    type ∈ signTypes := by
  revert h
  fun_cases singleCharType c <;> intro h <;> cases h <;> decide

theorem takesOperator_mem {c : UInt8} {cs : Bytes} {f : Bytes → TokenType × Bytes}
    (hc : c ∈ startsOperator) (hf : takesOperator c = some f) : (atEnd (f cs)).1 ∈ signTypes := by
  cases cs with
  | nil =>
    obtain ⟨g, hg, hnil, -⟩ := takesOperator_nil c hc
    rw [hf] at hg
    obtain rfl := Option.some.inj hg
    rw [hnil]
    decide
  | cons next rest =>
    obtain ⟨g, r, hg, hr, hafter⟩ := takesOperator_cons c hc next rest
    rw [hf] at hg
    obtain rfl := Option.some.inj hg
    rw [hafter, atEnd]
    split
    · decide
    · exact twoCharType_mem hr

/-- A newline, a word, or a token of another type. -/
theorem takes_cases (c : UInt8) (cs : Bytes) :
    (c = ch '\n' ∧ takes c cs = (.newline, cs)) ∨ takes c cs = takesWord c cs ∨
      (takes c cs).1 ∈ signTypes := by
  by_cases hc : c ∈ startsOperator
  · obtain ⟨f, hf, htakes⟩ := takes_operator hc cs
    rw [htakes]
    exact .inr (.inr (takesOperator_mem hc hf))
  · unfold takes
    split_ifs with hnl
    · exact .inl ⟨hnl, rfl⟩
    · simp [signTypes]
    · simp [signTypes]
    · simp [signTypes]
    · simp [signTypes, takesOperatorName]
    · simp
    · rcases takesNumber_type c cs with h | h <;> simp [signTypes, h]
    · simp [signTypes, takesString]
    · simp [signTypes, takesChar_type]
    · rw [(takesOperator_none c hc).1]
      refine .inr (.inr ?_)
      simp only [takesSingle]
      cases hcase : singleCharType c with
      | some type => exact singleCharType_mem hcase
      | none =>
        dsimp only
        split
        · simp [signTypes, takesUnicode, takeRun]
        · simp [signTypes]

theorem mem_keywords {word : Bytes} (h : keywordType word ≠ .ident) :
    (word, keywordType word) ∈ keywords := by
  rw [keywordType] at h ⊢
  cases hlookup : keywords.lookup word with
  | none => exact absurd (by rw [hlookup]; rfl) h
  | some type =>
    obtain ⟨l₁, l₂, hmem, -⟩ := List.lookup_eq_some_iff.mp hlookup
    rw [hmem]
    simp

/-- Only a newline starts a newline token. -/
theorem newline_of_takes {c : UInt8} {cs : Bytes} (h : (takes c cs).1 = .newline) :
    c = ch '\n' ∧ takes c cs = (.newline, cs) := by
  rcases takes_cases c cs with hnl | hword | hsign
  · exact hnl
  · rw [hword] at h
    change keywordType _ = _ at h
    have hall : ∀ entry ∈ keywords, entry.2 ≠ .newline := by decide
    exact absurd h (hall _ (mem_keywords (by rw [h]; decide)))
  · have hall : ∀ type ∈ signTypes, type ≠ .newline := by decide
    exact absurd h (hall _ hsign)

end Aether.Lexing
