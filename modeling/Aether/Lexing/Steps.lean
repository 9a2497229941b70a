/-
Aether.Lexing.Steps — the tokenizer over the text alone.

What a token is, its type and its text, depends on the text and not on the
line and column (`SamePlace.scanToken`); `nextOf` is `tokenizer_next` over
the text (`seen_nextFuel`).
-/
import Aether.TokenizerTheorems
import Aether.Lib.Scanner

namespace Aether.Lexing

open Aether.Lib.Scanner

/-! ## §1 Spellings -/

/-- The type and the text of a token. -/
structure Spelling where
  type : TokenType
  text : Bytes
  deriving DecidableEq, Repr

def spelling (tok : Token) : Spelling := ⟨tok.type, tok.text⟩

/-- The tokens of a text, as their types and texts. -/
def spellings (source : Bytes) : List Spelling := (tokensOf source).1.map spelling

/-- What a call of the tokenizer says about the text: `none` at the end of
it, otherwise the token and the rest. -/
def seen (r : Token × Tokenizer) : Option (Spelling × Bytes) :=
  if r.1.type = .eof then none else some (spelling r.1, r.2.pos)

/-- The token that starts with `c`, where neither a blank nor a comment does. -/
def readToken (c : UInt8) (cs : Bytes) : Option (Spelling × Bytes) :=
  seen (scanToken ⟨c :: cs, c :: cs, 1, 1⟩ c cs)

/-! ## §2 Lines and columns do not matter -/

theorem skipWhitespaceInline_rest (cs : Bytes) :
    ∀ col, (skipWhitespaceInline col cs).2 = (skipWhitespaceInline 1 cs).2 := by
  induction cs with
  | nil => intro col; rfl
  | cons c cs ih =>
    intro col
    rw [skipWhitespaceInline, skipWhitespaceInline]
    split_ifs
    · rw [ih (col + 1), ih (1 + 1)]
    · rw [ih (col + 4), ih (1 + 4)]
    · rfl

theorem skipLine_rest (cs : Bytes) :
    ∀ line col, (skipLine line col cs).2.2 = (skipLine 1 1 cs).2.2 := by
  induction cs with
  | nil => intro line col; rfl
  | cons c cs ih =>
    intro line col
    rw [skipLine, skipLine]
    split_ifs
    · rfl
    · rw [ih line (col + 1), ih 1 (1 + 1)]

theorem skipBlockComment_rest (depth line col : Nat) (cs : Bytes) :
    ∀ line' col', (skipBlockComment depth line col cs).1 = (skipBlockComment depth line' col' cs).1 ∧
      (skipBlockComment depth line col cs).2.2.2 =
        (skipBlockComment depth line' col' cs).2.2.2 := by
  fun_induction skipBlockComment depth line col cs with
  | case1 => intro line' col'; simp [skipBlockComment]
  | case2 => intro line' col'; simp [skipBlockComment]
  | case3 depth line col => intro line' col'; simp [skipBlockComment]
  | case4 depth line col c hc => intro line' col'; simp [skipBlockComment, hc]
  | case5 depth line col c c' cs h ih =>
    intro line' col'
    rw [skipBlockComment, if_pos h]
    exact ih line' (col' + 2)
  | case6 depth line col c c' cs h h' ih =>
    intro line' col'
    rw [skipBlockComment, if_neg h, if_pos h']
    exact ih line' (col' + 2)
  | case7 depth line col c' cs h h' ih =>
    intro line' col'
    rw [skipBlockComment, if_neg h, if_neg h', if_pos rfl]
    exact ih (line' + 1) 1
  | case8 depth line col c c' cs h h' hc ih =>
    intro line' col'
    rw [skipBlockComment, if_neg h, if_neg h', if_neg hc]
    exact ih line' (col' + 1)

theorem scanStringLoop_rest (line col : Nat) (cs : Bytes) :
    ∀ line' col', (scanStringLoop line col cs).2.2 = (scanStringLoop line' col' cs).2.2 := by
  fun_induction scanStringLoop line col cs with
  | case1 => intro line' col'; rfl
  | case2 line col cs =>
    intro line' col'
    rw [scanStringLoop.eq_def line' col']
    dsimp only
    rw [if_pos rfl]
  | case3 line col hq =>
    intro line' col'
    rw [scanStringLoop.eq_def line' col']
    rfl
  | case4 line col hq c' cs' ih =>
    intro line' col'
    rw [scanStringLoop.eq_def line' col']
    exact ih _ _
  | case5 line col c cs hq hb ih =>
    intro line' col'
    rw [scanStringLoop.eq_def line' col']
    dsimp only
    rw [if_neg hq, if_neg hb]
    exact ih _ _

/-- Two states at the same place of the text. -/
structure SamePlace (t t' : Tokenizer) : Prop where
  start : t.start = t'.start
  pos : t.pos = t'.pos

namespace SamePlace

variable {t t' : Tokenizer}

theorem emit (h : SamePlace t t') (type : TokenType) : seen (t.emit type) = seen (t'.emit type) := by
  obtain ⟨hstart, hpos⟩ := h
  cases t
  cases t'
  cases hstart
  cases hpos
  rfl

theorem moveTo (h : SamePlace t t') {pos pos' : Bytes} (hpos : pos = pos') (line col line' col' : Nat) :
    SamePlace ⟨t.start, pos, line, col⟩ ⟨t'.start, pos', line', col'⟩ := ⟨h.start, hpos⟩

theorem bump (h : SamePlace t t') (n : Nat) : SamePlace (t.bump n) (t'.bump n) :=
  ⟨h.start, congrArg (List.drop n) h.pos⟩

theorem scanNumber (h : SamePlace t t') : seen (scanNumber t) = seen (Aether.scanNumber t') := by
  have hdecimal : seen (scanDecimal t) = seen (scanDecimal t') := by
    simp only [scanDecimal, h.start, h.pos]
    split_ifs <;> simp [seen, spelling, makeToken]
  have hprefixed : ∀ accept value,
      seen (scanPrefixed t accept value) = seen (scanPrefixed t' accept value) := by
    intro accept value
    simp [scanPrefixed, seen, spelling, makeToken, h.start]
  simp only [Aether.scanNumber, h.start]
  split
  · split_ifs
    · exact hprefixed _ _
    · exact hprefixed _ _
    · exact hprefixed _ _
    · exact hdecimal
    · exact hdecimal
  · exact hdecimal

theorem scanString (h : SamePlace t t') : seen (scanString t) = seen (Aether.scanString t') := by
  have hrest := scanStringLoop_rest t.line t.col t.pos t'.line t'.col
  rw [h.pos] at hrest
  simp only [Aether.scanString, h.pos]
  exact (h.moveTo hrest _ _ _ _).emit _

theorem scanCharBody (h : SamePlace t t') :
    SamePlace (scanCharBody t).2 (Aether.scanCharBody t').2 := by
  simp only [Aether.scanCharBody, h.pos]
  split
  · exact h
  · split_ifs
    · split
      · exact h.bump _
      · split_ifs
        · split
          · split_ifs
            · exact h.bump _
            · exact h.bump _
          · exact h.bump _
        · exact h.bump _
    · exact h.bump _

theorem scanChar (h : SamePlace t t') : seen (scanChar t) = seen (Aether.scanChar t') := by
  have hbody := h.scanCharBody
  simp only [Aether.scanChar, hbody.pos]
  split_ifs
  · simp [seen, spelling, makeToken, Tokenizer.bump, hbody.start, hbody.pos]
  · simp [seen, spelling, makeToken, hbody.start, hbody.pos]

theorem scanToken (h : SamePlace t t') (c : UInt8) (cs : Bytes) :
    seen (scanToken t c cs) = seen (Aether.scanToken t' c cs) := by
  simp only [Aether.scanToken]
  split_ifs
  · exact (h.moveTo rfl _ _ _ _).emit _
  · exact (h.bump 1).emit _
  · exact (h.bump 1).emit _
  · exact (h.bump 1).emit _
  · simp [scanHash, seen, spelling, (h.bump 1).pos]
  · have hname := h.pos
    simp only [scanOperatorName, hname]
    exact (h.bump _).emit _
  · have hword := h.bump 1
    have htext := congrArg (List.dropWhile isIdentContinue) hword.pos
    simp only [scanIdentOrKeyword]
    rw [hword.start, htext]
    rfl
  · exact (h.bump 1).scanNumber
  · exact (h.bump 1).scanString
  · exact (h.bump 1).scanChar
  · have hpos := (h.bump 1).pos
    simp only [scanTwoChar, hpos]
    have hsingle : seen (scanSingleChar (t.bump 1) c) = seen (scanSingleChar (t'.bump 1) c) := by
      simp only [scanSingleChar]
      split
      · exact (h.bump 1).emit _
      · split_ifs
        · have hpos' := ((h.bump 1).bump 1).pos
          simp only [hpos']
          exact (((h.bump 1).bump 1).bump _).emit _
        · simp [seen, spelling, errorToken, hpos]
    split
    · exact hsingle
    · next next rest hrest =>
      cases htype : twoCharType c next rest with
      | none => exact hsingle
      | some r => exact ((h.bump 1).bump r.1).emit r.2

end SamePlace

/-! ## §3 The next token -/

def isBlank (c : UInt8) : Bool := c == ch ' ' || c == ch '\t'

/-- The text after the end of the line. -/
def afterLine (cs : Bytes) : Bytes := (skipLine 1 1 cs).2.2

/-- The text after a block comment, `none` when nothing closes it. -/
def afterBlock (cs : Bytes) : Option Bytes :=
  if (skipBlockComment 1 1 1 cs).1 = 0 then some (skipBlockComment 1 1 1 cs).2.2.2 else none

/-- `tokenizer_next` on the text, with fuel. -/
def nextOf : Nat → Bytes → Option (Spelling × Bytes)
  | 0, _ => none
  | fuel + 1, cs =>
    match (skipWhitespaceInline 1 cs).2 with
    | [] => none
    | c :: cs =>
      if c = ch '/' ∧ cs.head? = some (ch '/') then nextOf fuel (afterLine cs.tail)
      else if c = ch '/' ∧ cs.head? = some (ch '*') then
        match afterBlock cs.tail with
        | some rest => nextOf fuel rest
        | none => some (⟨.error, bytes "Unclosed block comment '/* ... */'"⟩,
            (skipBlockComment 1 1 1 cs.tail).2.2.2)
      else readToken c cs

theorem seen_nextFuel (fuel : Nat) : ∀ t : Tokenizer, seen (nextFuel fuel t) = nextOf fuel t.pos := by
  induction fuel with
  | zero => intro t; rfl
  | succ fuel ih =>
    intro t
    have hskip := skipWhitespaceInline_rest t.pos t.col
    rw [nextFuel, nextOf, ← hskip]
    split
    · next hpos => simp [hpos, skipWhitespaceInline, seen, Tokenizer.emit, makeToken]
    · simp only []
      cases hrest : (skipWhitespaceInline t.col t.pos).2 with
      | nil => rfl
      | cons c cs =>
        have htail : (c :: cs).drop 2 = cs.tail := List.drop_one
        simp only [htail]
        generalize (skipWhitespaceInline t.col t.pos).1 = col
        have hsame := skipBlockComment_rest 1 t.line (col + 2) cs.tail 1 1
        split_ifs with hline hblock hdepth
        · rw [ih, afterLine]
          exact congrArg (nextOf fuel) (skipLine_rest _ _ _)
        · have hopen := hdepth
          rw [hsame.1] at hopen
          rw [afterBlock, if_neg (by omega)]
          simp [seen, spelling, errorToken, hsame.2]
        · have hclosed := hdepth
          rw [hsame.1] at hclosed
          rw [ih, afterBlock, if_pos (by omega)]
          exact congrArg (nextOf fuel) hsame.2
        · have hplace : SamePlace ⟨c :: cs, c :: cs, t.line, col⟩ ⟨c :: cs, c :: cs, 1, 1⟩ :=
            ⟨rfl, rfl⟩
          exact hplace.scanToken c cs

end Aether.Lexing
