/-
Aether.Lexing.Places — where the tokens of a text start and end.

Every token carries the places of the text at which the tokenizer stood when
it was made (`tokStart`, `tokPos`). `Placed` says that they follow each
other: a token starts in what the last one left, and its own rest is part of
what starts there. The end-of-file token may start where the last token did.
-/
import Aether.Lexing.Walk

namespace Aether.Lexing

open Aether.Lib.Scanner

/-! ## §1 One token -/

/-- The token starts at `place`, and its rest is that of the tokenizer. -/
structure Marked (place : Bytes) (r : Token × Tokenizer) : Prop where
  start : r.2.start = place
  tokStart : r.1.tokStart = place
  tokPos : r.1.tokPos = r.2.pos

variable {t : Tokenizer}

theorem marked_scanNumber (t : Tokenizer) : Marked t.start (scanNumber t) := by
  have hdecimal : Marked t.start (scanDecimal t) := by
    unfold scanDecimal
    dsimp only
    split
    · exact ⟨rfl, rfl, rfl⟩
    · exact ⟨rfl, rfl, rfl⟩
  unfold scanNumber
  split
  · split_ifs
    · exact ⟨rfl, rfl, rfl⟩
    · exact ⟨rfl, rfl, rfl⟩
    · exact ⟨rfl, rfl, rfl⟩
    · exact hdecimal
    · exact hdecimal
  · exact hdecimal

theorem marked_scanChar (t : Tokenizer) : Marked t.start (scanChar t) := by
  have hstart : (scanCharBody t).2.start = t.start :=
    (takesCharBody_eq t.pos t.line t.col t.start).1
  unfold scanChar
  dsimp only
  split
  · exact ⟨hstart, hstart, rfl⟩
  · exact ⟨hstart, hstart, rfl⟩

theorem marked_scanToken (t : Tokenizer) (c : UInt8) (cs : Bytes) :
    Marked t.start (scanToken t c cs) := by
  unfold scanToken
  split_ifs
  · exact ⟨rfl, rfl, rfl⟩
  · exact ⟨rfl, rfl, rfl⟩
  · exact ⟨rfl, rfl, rfl⟩
  · exact ⟨rfl, rfl, rfl⟩
  · exact ⟨rfl, rfl, rfl⟩
  · exact ⟨rfl, rfl, rfl⟩
  · exact ⟨rfl, rfl, rfl⟩
  · exact marked_scanNumber (t.bump 1)
  · exact ⟨rfl, rfl, rfl⟩
  · exact marked_scanChar (t.bump 1)
  · have hsingle : Marked t.start (scanSingleChar (t.bump 1) c) := by
      unfold scanSingleChar
      split
      · exact ⟨rfl, rfl, rfl⟩
      · split
        · exact ⟨rfl, rfl, rfl⟩
        · exact ⟨rfl, rfl, rfl⟩
    cases htwo : scanTwoChar (t.bump 1) c with
    | none => exact hsingle
    | some r =>
      unfold scanTwoChar at htwo
      split at htwo
      · cases htwo
      · obtain ⟨⟨n, type⟩, -, rfl⟩ := Option.map_eq_some_iff.mp htwo
        exact ⟨rfl, rfl, rfl⟩

/-- The type of a token, and the rest behind it. -/
theorem scanToken_takes (t : Tokenizer) (c : UInt8) (cs : Bytes) (hstart : t.start = c :: cs)
    (hpos : t.pos = c :: cs) : (scanToken t c cs).1.type = (takes c cs).1 ∧
      (scanToken t c cs).2.pos = (takes c cs).2 := by
  have hsame : SamePlace t ⟨c :: cs, c :: cs, 1, 1⟩ := ⟨hstart, hpos⟩
  have hseen : seen (scanToken t c cs) = readToken c cs := hsame.scanToken c cs
  rw [readToken_eq, seen] at hseen
  split at hseen
  · cases hseen
  · obtain ⟨hspelling, hrest⟩ := Prod.mk.inj (Option.some.inj hseen)
    exact ⟨congrArg Spelling.type hspelling, hrest⟩

theorem singleCharType_rbrace {c : UInt8} (h : singleCharType c = some .rbrace) : c = ch '}' := by
  revert h
  fun_cases singleCharType c <;> intro h <;> first | assumption | cases h

theorem twoCharType_rbrace {c next : UInt8} {rest : Bytes} {r : Nat × TokenType}
    (h : twoCharType c next rest = some r) : r.2 ≠ .rbrace := by
  revert h
  fun_cases twoCharType c next rest <;> intro h <;> cases h <;> (try split_ifs) <;> decide

/-- Only a closing brace is a closing brace. -/
theorem rbrace_of_takes {c : UInt8} {cs : Bytes} (h : (takes c cs).1 = .rbrace) :
    c = ch '}' ∧ (takes c cs).2 = cs := by
  by_cases hc : c ∈ startsOperator
  · obtain ⟨f, hf, htakes⟩ := takes_operator hc cs
    rw [htakes] at h
    cases cs with
    | nil =>
      obtain ⟨g, hg, hnil, -⟩ := takesOperator_nil c hc
      rw [hf] at hg
      obtain rfl := Option.some.inj hg
      rw [hnil] at h
      cases h
    | cons next rest =>
      obtain ⟨g, r, hg, hr, hafter⟩ := takesOperator_cons c hc next rest
      rw [hf] at hg
      obtain rfl := Option.some.inj hg
      rw [hafter, atEnd] at h
      split at h
      · cases h
      · exact absurd h (twoCharType_rbrace hr)
  · have hword : ∀ word, keywordType word ≠ .rbrace := by
      intro word hword
      have hall : ∀ entry ∈ keywords, entry.2 ≠ .rbrace := by decide
      exact hall _ (mem_keywords (by rw [hword]; decide)) hword
    revert h
    unfold takes
    split_ifs
    · simp
    · simp
    · simp
    · simp
    · simp [takesOperatorName]
    · exact fun h => absurd h (hword _)
    · rcases takesNumber_type c cs with h | h <;> simp [h]
    · simp [takesString]
    · simp [takesChar_type]
    · rw [(takesOperator_none c hc).1]
      simp only [takesSingle]
      cases hcase : singleCharType c with
      | some type =>
        rintro rfl
        exact ⟨singleCharType_rbrace hcase, rfl⟩
      | none =>
        dsimp only
        split
        · simp [takesUnicode, takeRun]
        · simp

/-! ## §2 The next token -/

/-- What a call of the tokenizer in state `t` gives. -/
structure Follows (t : Tokenizer) (r : Token × Tokenizer) : Prop where
  tokStart : r.1.tokStart = r.2.start
  tokPos : r.1.tokPos = r.2.pos
  atEof : r.1.type = .eof → r.2.start = t.start ∨ r.2.start <:+ t.pos
  start : r.1.type ≠ .eof → r.2.start <:+ t.pos
  pos : r.1.type ≠ .eof → r.2.pos <:+ r.2.start
  rbrace : r.1.type = .rbrace → r.2.start = ch '}' :: r.2.pos

theorem skipWhitespaceInline_suffix (col : Nat) (cs : Bytes) :
    (skipWhitespaceInline col cs).2 <:+ cs := by
  fun_induction skipWhitespaceInline col cs with
  | case1 => exact List.suffix_rfl
  | case2 col cs ih => exact ih.trans (List.suffix_cons _ _)
  | case3 _ _ _ ih => exact ih.trans (List.suffix_cons _ _)
  | case4 => exact List.suffix_rfl

theorem skipLine_suffix (line col : Nat) (cs : Bytes) : (skipLine line col cs).2.2 <:+ cs := by
  fun_induction skipLine line col cs with
  | case1 => exact List.suffix_rfl
  | case2 => exact List.suffix_cons _ _
  | case3 _ _ _ _ ih => exact ih.trans (List.suffix_cons _ _)

/-- From a state further on in the text. -/
theorem Follows.later {t' : Tokenizer} {r : Token × Tokenizer} (h : Follows t' r)
    (hstart : t'.start <:+ t.pos) (hpos : t'.pos <:+ t.pos) : Follows t r where
  tokStart := h.tokStart
  tokPos := h.tokPos
  atEof := fun heof => .inr ((h.atEof heof).elim (fun heq => heq ▸ hstart) fun hsuf => hsuf.trans hpos)
  start := fun hne => (h.start hne).trans hpos
  pos := h.pos
  rbrace := h.rbrace

theorem follows_scanToken {c : UInt8} {cs : Bytes} (hstart : t.start = c :: cs)
    (hpos : t.pos = c :: cs) : Follows t (scanToken t c cs) := by
  obtain ⟨hmark, htok, hrest⟩ := marked_scanToken t c cs
  obtain ⟨htype, htakes⟩ := scanToken_takes t c cs hstart hpos
  refine ⟨htok.trans hmark.symm, hrest, fun _ => .inl hmark, fun _ => ?_, fun _ => ?_, fun hbrace => ?_⟩
  · simp only [hmark, hstart, hpos, List.suffix_rfl]
  · rw [hmark, hstart, htakes]
    exact (takes_suffix c cs).trans (List.suffix_cons _ _)
  · rw [htype] at hbrace
    obtain ⟨rfl, hcs⟩ := rbrace_of_takes hbrace
    rw [hmark, hstart, htakes, hcs]

theorem follows_nextFuel (fuel : Nat) : ∀ t : Tokenizer, Follows t (nextFuel fuel t) := by
  have heof : ∀ t : Tokenizer, Follows t (t.emit .eof) := fun t =>
    ⟨rfl, rfl, fun _ => .inl rfl, fun h => absurd rfl h, fun h => absurd rfl h,
      fun h => TokenType.noConfusion h⟩
  induction fuel with
  | zero => exact heof
  | succ fuel ih =>
    intro t
    rw [nextFuel]
    split
    · exact heof t
    dsimp only
    have hskip := skipWhitespaceInline_suffix t.col t.pos
    generalize skipWhitespaceInline t.col t.pos = skipped at hskip ⊢
    obtain ⟨col, rest⟩ := skipped
    dsimp only at hskip ⊢
    split
    · exact (heof _).later List.suffix_rfl List.nil_suffix
    next c cs =>
    have hdrop : (c :: cs).drop 2 <:+ t.pos := (List.drop_suffix 2 _).trans hskip
    split
    · exact (ih _).later hskip ((skipLine_suffix _ _ _).trans hdrop)
    split
    · split
      · exact ⟨rfl, rfl, fun h => TokenType.noConfusion h, fun _ => hskip,
          fun _ => (skipBlockComment_suffix _ _ _ _).trans (List.drop_suffix 2 _),
          fun h => TokenType.noConfusion h⟩
      · exact (ih _).later hskip ((skipBlockComment_suffix _ _ _ _).trans hdrop)
    · exact (follows_scanToken rfl rfl).later hskip hskip

/-! ## §3 The tokens of a text -/

/-- The tokens follow each other, from a token that starts at `start` and
leaves `pos`. -/
def Placed : Bytes → Bytes → List Token → Token → Prop
  | start, pos, [], eof => eof.tokStart = start ∨ eof.tokStart <:+ pos
  | _, pos, tok :: toks, eof => tok.tokStart <:+ pos ∧ tok.tokPos <:+ tok.tokStart ∧
      (tok.type = .rbrace → tok.tokStart = ch '}' :: tok.tokPos) ∧
      Placed tok.tokStart tok.tokPos toks eof

theorem placed_tokensLoop (fuel : Nat) : ∀ t : Tokenizer,
    Placed t.start t.pos (tokensLoop fuel t).1 (tokensLoop fuel t).2 := by
  induction fuel with
  | zero => exact fun t => .inl rfl
  | succ fuel ih =>
    intro t
    have hnext : Follows t (tokenizerNext t) := follows_nextFuel _ t
    rw [tokensLoop]
    dsimp only
    split
    · next heof =>
      change (tokenizerNext t).1.tokStart = t.start ∨ (tokenizerNext t).1.tokStart <:+ t.pos
      rw [hnext.tokStart]
      exact hnext.atEof heof
    · next hne =>
      refine ⟨?_, ?_, fun hbrace => ?_, ?_⟩
      · rw [hnext.tokStart]
        exact hnext.start hne
      · rw [hnext.tokStart, hnext.tokPos]
        exact hnext.pos hne
      · rw [hnext.tokStart, hnext.tokPos]
        exact hnext.rbrace hbrace
      · rw [hnext.tokStart, hnext.tokPos]
        exact ih _

end Aether.Lexing
