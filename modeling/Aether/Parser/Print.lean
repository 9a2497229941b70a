/-
Aether.Parser.Print — operator trees of the precedence table, printed with
the fewest parentheses the table allows, and the tokens of the text.

A tree is printed as words, each followed by a space. A child is put in
parentheses where it binds more loosely than its parent by the table.
`tokens_printWords`: the tokenizer gives the tokens of the words.
-/
import Aether.Parser.Surface
import Aether.TokenizerTheorems

namespace Aether

/-! ## §1 Trees -/

/-- The prefix operators, level 2 of the table. -/
inductive PrefixOp where
  | hash | tilde | bang | kwNot | minus | plusPlus | minusMinus
  deriving DecidableEq, Repr

def PrefixOp.text : PrefixOp → String
  | .hash => "#" | .tilde => "~" | .bang => "!" | .kwNot => "not" | .minus => "-"
  | .plusPlus => "++" | .minusMinus => "--"

def PrefixOp.type : PrefixOp → TokenType
  | .hash => .hash | .tilde => .tilde | .bang => .bang | .kwNot => .kwNot | .minus => .minus
  | .plusPlus => .plusPlus | .minusMinus => .minusMinus

def PrefixOp.ast : PrefixOp → UnaryOp
  | .hash => .arrayLen | .tilde => .bitNot | .bang | .kwNot => .not | .minus => .neg
  | .plusPlus => .inc | .minusMinus => .dec

def isIdentifier : Bytes → Bool
  | [] => false
  | c :: cs => isIdentStart c && cs.all isIdentContinue && keywordType (c :: cs) == .ident

def isNumeral (digits : Bytes) : Bool := digits != [] && digits.all isDigit

/-- An identifier or a decimal literal. -/
inductive Leaf where
  | ident (name : Bytes) (h : isIdentifier name = true)
  | int (digits : Bytes) (h : isNumeral digits = true)

def Leaf.text : Leaf → Bytes
  | .ident name _ => name
  | .int digits _ => digits

def Leaf.lexeme : Leaf → Lexeme
  | .ident name _ => ⟨.ident, name, 0⟩
  | .int digits _ => ⟨.intLiteral, digits, strtoull (cleanDigits digits) 10⟩

def Leaf.node : Leaf → AstNode
  | .ident name _ => .ident name
  | .int digits _ => .literalInt (strtoull (cleanDigits digits) 10) false

/-- An expression of the table; `paren` is a parenthesised expression. -/
inductive Tree where
  | leaf (l : Leaf)
  | paren (t : Tree)
  | unary (op : PrefixOp) (t : Tree)
  | binary (op : SpecOp) (l r : Tree)

namespace Tree

/-- The level of the root; leaves and parenthesised expressions are primary. -/
def level : Tree → Nat
  | leaf _ => 0
  | paren _ => 0
  | unary .. => 2
  | binary op .. => op.level

/-- At most one operator of each level on any path, given the levels above. -/
def Distinct (above : List Nat) : Tree → Prop
  | leaf _ => True
  | paren t => t.Distinct above
  | unary _ t => 2 ∉ above ∧ t.Distinct (2 :: above)
  | binary op l r =>
    op.level ∉ above ∧ l.Distinct (op.level :: above) ∧ r.Distinct (op.level :: above)

/-- The syntax tree, if it has the operators. -/
def ast : Tree → Option AstNode
  | leaf l => some l.node
  | paren t => t.ast
  | unary op t => do
    let operand ← t.ast
    some (.unaryOp op.ast (some operand))
  | binary op l r => do
    let b ← op.ast
    let left ← l.ast
    let right ← r.ast
    some (.binaryOp b (some left) (some right) [])

end Tree

/-! ## §2 Words -/

inductive Word where
  | leaf (l : Leaf)
  | operator (op : SpecOp)
  | unary (op : PrefixOp)
  | lparen
  | rparen

def Word.text : Word → Bytes
  | .leaf l => l.text
  | .operator op => bytes op.text
  | .unary op => bytes op.text
  | .lparen => bytes "("
  | .rparen => bytes ")"

def Word.lexemes : Word → List Lexeme
  | .leaf l => [l.lexeme]
  | .operator op => op.lexemes
  | .unary op => [⟨op.type, bytes op.text, 0⟩]
  | .lparen => [⟨.lparen, bytes "(", 0⟩]
  | .rparen => [⟨.rparen, bytes ")", 0⟩]

/-- Words with parentheses around them, if `b` holds. -/
def parens (b : Bool) (ws : List Word) : List Word := if b then .lparen :: ws ++ [.rparen] else ws

/-- A child that binds more loosely than its parent is in parentheses. -/
def Tree.words : Tree → List Word
  | .leaf l => [.leaf l]
  | .paren t => parens true t.words
  | .unary op t => .unary op :: parens (2 < t.level) t.words
  | .binary op l r =>
    parens (op.level < l.level) l.words ++ .operator op :: parens (op.level < r.level) r.words

def printWords (ws : List Word) : Bytes := ws.flatMap fun w => w.text ++ [ch ' ']

def Tree.print (t : Tree) : Bytes := printWords t.words

/-! ## §3 One word -/

/-- The tokenizer gives these tokens from `t` to `t'`. -/
def Yields : Tokenizer → List Lexeme → Tokenizer → Prop
  | t, [], t' => t = t'
  | t, l :: ls, t' =>
    l.type ≠ .eof ∧ (tokenizerNext t).1.lexeme = l ∧ Yields (tokenizerNext t).2 ls t'

/-- A word at the next place that is not blank is one token, up to `rest`. -/
def ScansTo (w rest : Bytes) (l : Lexeme) : Prop :=
  ∀ t : Tokenizer, (skipWhitespaceInline t.col t.pos).2 = w ++ rest →
    (tokenizerNext t).1.lexeme = l ∧ (tokenizerNext t).2.pos = rest

/-- A character that starts neither a blank nor a comment. -/
def StartsToken (c : UInt8) (cs : Bytes) : Prop :=
  ¬ (c = ch '/' ∧ cs.head? = some (ch '/')) ∧ ¬ (c = ch '/' ∧ cs.head? = some (ch '*'))

theorem tokenizerNext_of_skip {t : Tokenizer} {c : UInt8} {cs : Bytes}
    (hskip : (skipWhitespaceInline t.col t.pos).2 = c :: cs) (hstart : StartsToken c cs) :
    ∃ col, tokenizerNext t =
      scanToken { start := c :: cs, pos := c :: cs, line := t.line, col := col } c cs := by
  refine ⟨(skipWhitespaceInline t.col t.pos).1, ?_⟩
  rw [tokenizerNext, nextFuel]
  split
  · next hpos =>
    rw [hpos] at hskip
    cases hskip
  · simp only [hskip]
    rw [if_neg hstart.1, if_neg hstart.2]

/-- A symbol that is scanned character by character. -/
theorem scansTo_symbol {c : UInt8} {cs rest : Bytes} {type : TokenType}
    (hstart : StartsToken c (cs ++ rest))
    (hscan : ∀ line col, ∃ col', scanToken ⟨c :: (cs ++ rest), c :: (cs ++ rest), line, col⟩ c
      (cs ++ rest) = (⟨c :: (cs ++ rest), rest, line, col'⟩ : Tokenizer).emit type) :
    ScansTo (c :: cs) rest ⟨type, c :: cs, 0⟩ := by
  intro t hskip
  rw [List.cons_append] at hskip
  obtain ⟨col, hnext⟩ := tokenizerNext_of_skip hskip hstart
  obtain ⟨col', hscan⟩ := hscan t.line col
  rw [hnext, hscan]
  have htext : textBetween (c :: (cs ++ rest)) rest = c :: cs := textBetween_append (c :: cs) rest
  simp [Tokenizer.emit, makeToken, Token.lexeme, htext]

theorem startsToken_of_ne {c : UInt8} (h : c ≠ ch '/') (cs : Bytes) : StartsToken c cs :=
  ⟨fun hc => h hc.1, fun hc => h hc.1⟩

/-- The symbols of one token, before any text that starts with a space. -/
theorem scansTo_op {op : SpecOp} {type : TokenType} (hsingle : op.single = some type)
    (hand : op ≠ .kwAnd) (hor : op ≠ .kwOr) (rest : Bytes) :
    ScansTo (bytes op.text) (ch ' ' :: rest) ⟨type, bytes op.text, 0⟩ := by
  cases op <;> cases hsingle <;> first | contradiction | skip
  case slash =>
    exact scansTo_symbol ⟨by simp; decide, by simp; decide⟩ fun _ _ => ⟨_, rfl⟩
  all_goals exact scansTo_symbol (startsToken_of_ne (by decide) _) fun _ _ => ⟨_, rfl⟩

theorem dropWhile_append {accept : UInt8 → Bool} {xs rest : Bytes} (hall : xs.all accept = true)
    (hrest : ∀ c ∈ rest.head?, accept c = false) : (xs ++ rest).dropWhile accept = rest := by
  induction xs with
  | nil =>
    cases rest with
    | nil => rfl
    | cons c cs => simp [hrest c rfl]
  | cons x xs ih =>
    simp only [List.all_cons, Bool.and_eq_true] at hall
    rw [List.cons_append, List.dropWhile_cons, if_pos hall.1, ih hall.2]

theorem takeWhile_append {accept : UInt8 → Bool} {xs rest : Bytes} (hall : xs.all accept = true)
    (hrest : ∀ c ∈ rest.head?, accept c = false) : (xs ++ rest).takeWhile accept = xs := by
  induction xs with
  | nil =>
    cases rest with
    | nil => rfl
    | cons c cs => simp [hrest c rfl]
  | cons x xs ih =>
    simp only [List.all_cons, Bool.and_eq_true] at hall
    rw [List.cons_append, List.takeWhile_cons, if_pos hall.1, ih hall.2]

theorem operatorName_cases {cs rest : Bytes} (h : (cs ++ ch ' ' :: rest).take 2 = bytes "p_") :
    ∃ cs', cs = ch 'p' :: ch '_' :: cs' := by
  match cs, h with
  | [], h => exact absurd (congrArg List.head? h) (by simp; decide)
  | [c], h =>
    have h' : [c, ch ' '] = bytes "p_" := h
    exact absurd (congrArg List.getLast? h') (by simp; decide)
  | c :: c' :: cs', h =>
    obtain ⟨rfl, rfl⟩ : c = ch 'p' ∧ c' = ch '_' := by simpa [bytes, ch] using h
    exact ⟨cs', rfl⟩

/-- A word of identifier characters. -/
theorem scansTo_word {c : UInt8} {cs rest : Bytes} (hstart : isIdentStart c = true)
    (hall : cs.all isIdentContinue = true)
    (hop : c = ch 'o' ∧ (cs ++ ch ' ' :: rest).take 2 = bytes "p_" →
      keywordType (c :: cs) = .ident) :
    ScansTo (c :: cs) (ch ' ' :: rest) ⟨keywordType (c :: cs), c :: cs, 0⟩ := by
  obtain ⟨hnl, hback, hslash, hhash⟩ := identStart_facts c hstart
  refine scansTo_symbol (startsToken_of_ne hslash _) fun line col => ?_
  have hdrop : (cs ++ ch ' ' :: rest).dropWhile isIdentContinue = ch ' ' :: rest :=
    dropWhile_append hall (by simp; decide)
  rw [scanToken, if_neg hnl, if_neg hback, if_neg hslash, if_neg hhash]
  split
  · next h =>
    obtain ⟨cs', rfl⟩ : ∃ cs', cs = ch 'p' :: ch '_' :: cs' := operatorName_cases h.2
    simp only [List.all_cons, Bool.and_eq_true] at hall
    have hname : (cs' ++ ch ' ' :: rest).takeWhile (fun c => !isOpDelimiter c) = cs' := by
      refine takeWhile_append ?_ (by simp; decide)
      rw [List.all_eq_true] at hall ⊢
      exact fun c hc => identContinue_facts c (hall.2.2 c hc)
    refine ⟨col + (3 + cs'.length), ?_⟩
    rw [hop ⟨h.1, h.2⟩, scanOperatorName]
    simp [hname, Tokenizer.bump, Nat.add_comm 3]
  · rw [scanIdentOrKeyword]
    refine ⟨col + 1, ?_⟩
    have htext := textBetween_append (c :: cs) (ch ' ' :: rest)
    rw [List.cons_append] at htext
    simp [Tokenizer.bump, hdrop, htext]

theorem skipFraction_space (rest : Bytes) :
    skipFraction (ch ' ' :: rest) = (false, ch ' ' :: rest) := by
  cases rest with
  | nil => rfl
  | cons d rest =>
    have hne : ch ' ' ≠ ch '.' := by decide
    simp [skipFraction, hne]

/-- A decimal literal. -/
theorem scansTo_numeral {digits rest : Bytes} (h : isNumeral digits = true) :
    ScansTo digits (ch ' ' :: rest) ⟨.intLiteral, digits, strtoull (cleanDigits digits) 10⟩ := by
  obtain ⟨c, cs, rfl⟩ : ∃ c cs, digits = c :: cs := by
    cases digits with
    | nil => cases h
    | cons c cs => exact ⟨c, cs, rfl⟩
  have hdigits : isDigit c = true ∧ ∀ d ∈ cs, isDigit d = true := by simpa [isNumeral] using h
  obtain ⟨hident, hnl, hback, hslash, hhash, ho, hx, hX, hb, hB, hO, _⟩ := digit_facts c hdigits.1
  intro t hskip
  rw [List.cons_append] at hskip
  obtain ⟨col, hnext⟩ := tokenizerNext_of_skip hskip (startsToken_of_ne hslash _)
  have hdecimal : scanNumber ⟨c :: (cs ++ ch ' ' :: rest), cs ++ ch ' ' :: rest, t.line, col + 1⟩ =
      scanDecimal ⟨c :: (cs ++ ch ' ' :: rest), cs ++ ch ' ' :: rest, t.line, col + 1⟩ := by
    have hnext : ∃ d ds, cs ++ ch ' ' :: rest = d :: ds ∧ d ≠ ch 'x' ∧ d ≠ ch 'X' ∧ d ≠ ch 'b' ∧
        d ≠ ch 'B' ∧ d ≠ ch 'o' ∧ d ≠ ch 'O' := by
      cases cs with
      | nil => exact ⟨ch ' ', rest, rfl, by decide, by decide, by decide, by decide, by decide, by decide⟩
      | cons d ds =>
        obtain ⟨_, _, _, _, _, ho, hx, hX, hb, hB, hO, _⟩ :=
          digit_facts d (hdigits.2 d (List.mem_cons_self ..))
        exact ⟨d, _, rfl, hx, hX, hb, hB, ho, hO⟩
    obtain ⟨d, ds, hds, hx, hX, hb, hB, ho, hO⟩ := hnext
    simp [scanNumber, hds, hx, hX, hb, hB, ho, hO]
  have hdrop : (cs ++ ch ' ' :: rest).dropWhile isDigitOrUnderscore = ch ' ' :: rest := by
    refine dropWhile_append ?_ (by simp; decide)
    rw [List.all_eq_true]
    exact fun d hd => (digit_facts d (hdigits.2 d hd)).2.2.2.2.2.2.2.2.2.2.2
  have hexp : skipExponent (ch ' ' :: rest) = (false, ch ' ' :: rest) := by
    have hne : ch ' ' ≠ ch 'e' ∧ ch ' ' ≠ ch 'E' := by decide
    simp [skipExponent, hne]
  have htext := textBetween_append (c :: cs) (ch ' ' :: rest)
  rw [List.cons_append] at htext
  rw [hnext]
  simp [scanToken, hnl, hback, hslash, hhash, ho, hident, hdigits.1, Tokenizer.bump, hdecimal,
    scanDecimal, hdrop, skipFraction_space, hexp, htext, Token.lexeme, makeToken]

/-! ## §4 Words -/

/-- The operators of which the tree has one. -/
def Word.HasAst : Word → Prop
  | .operator op => op.ast ≠ none
  | _ => True

theorem yields_of_scans {w rest : Bytes} {l : Lexeme} {t : Tokenizer} (h : ScansTo w rest l)
    (hne : l.type ≠ .eof) (hskip : (skipWhitespaceInline t.col t.pos).2 = w ++ rest) :
    ∃ t', Yields t [l] t' ∧ t'.pos = rest :=
  ⟨_, ⟨hne, (h t hskip).1, rfl⟩, (h t hskip).2⟩

theorem yields_append {ls ls' : List Lexeme} : ∀ {t t' t'' : Tokenizer},
    Yields t ls t' → Yields t' ls' t'' → Yields t (ls ++ ls') t'' := by
  induction ls with
  | nil => rintro t t' t'' rfl h; exact h
  | cons l ls ih => exact fun h h' => ⟨h.1, h.2.1, ih h.2.2 h'⟩

theorem skip_of_ne {c : UInt8} {cs : Bytes} (hspace : c ≠ ch ' ') (htab : c ≠ ch '\t') (col : Nat) :
    (skipWhitespaceInline col (c :: cs)).2 = c :: cs := by
  rw [skipWhitespaceInline, if_neg hspace, if_neg htab]

theorem scansTo_bar {c : UInt8} (hc : c = ch ' ' ∨ c = ch '|') (rest : Bytes) :
    ScansTo (bytes "|") (c :: rest) ⟨.pipe, bytes "|", 0⟩ := by
  rcases hc with rfl | rfl
  · exact scansTo_symbol (startsToken_of_ne (by decide) _) fun _ _ => ⟨_, rfl⟩
  · exact scansTo_symbol (startsToken_of_ne (by decide) _) fun _ _ => ⟨_, rfl⟩

/-- The slash of `/=` is a token of its own. -/
theorem scansTo_slash (rest : Bytes) :
    ScansTo (bytes "/") (ch '=' :: rest) ⟨.slash, bytes "/", 0⟩ :=
  scansTo_symbol ⟨by simp; decide, by simp; decide⟩ fun _ _ => ⟨_, rfl⟩

/-- A symbol of two tokens. -/
theorem yields_two {w rest : Bytes} (c : UInt8) (cs : Bytes) {l l' : Lexeme} {t : Tokenizer}
    (hspace : c ≠ ch ' ') (htab : c ≠ ch '\t') (hne : l.type ≠ .eof) (hne' : l'.type ≠ .eof)
    (h : ScansTo w (c :: (cs ++ rest)) l) (h' : ScansTo (c :: cs) rest l')
    (hskip : (skipWhitespaceInline t.col t.pos).2 = w ++ c :: (cs ++ rest)) :
    ∃ t', Yields t [l, l'] t' ∧ t'.pos = rest := by
  obtain ⟨t₁, hyields, hpos⟩ := yields_of_scans h hne hskip
  have hskip₁ : (skipWhitespaceInline t₁.col t₁.pos).2 = c :: cs ++ rest := by
    rw [hpos, skip_of_ne hspace htab]
    rfl
  obtain ⟨t₂, hyields', hpos'⟩ := yields_of_scans h' hne' hskip₁
  exact ⟨t₂, yields_append hyields hyields', hpos'⟩

theorem scansTo_hash (rest : Bytes) :
    ScansTo (bytes "#") rest ⟨.hash, bytes "#", 0⟩ := by
  intro t hskip
  have hskip' : (skipWhitespaceInline t.col t.pos).2 = ch '#' :: rest := hskip
  obtain ⟨col, hnext⟩ := tokenizerNext_of_skip hskip' (startsToken_of_ne (by decide) _)
  rw [hnext]
  exact ⟨rfl, rfl⟩

/-- The operators that are not one token of their own. -/
theorem not_single_cases {op : SpecOp} (h : op.single = none) (hast : op.ast ≠ none) :
    op = .pipe ∨ op = .pipePipe ∨ op = .slashEq := by
  cases op <;> first | (cases h; done) | exact absurd rfl hast | simp

theorem yields_operator {op : SpecOp} {rest : Bytes} {t : Tokenizer} (hast : op.ast ≠ none)
    (hskip : (skipWhitespaceInline t.col t.pos).2 = bytes op.text ++ ch ' ' :: rest) :
    ∃ t', Yields t op.lexemes t' ∧ t'.pos = ch ' ' :: rest := by
  cases hsingle : op.single with
  | some type =>
    rw [lexemes_of_single hsingle]
    have hne : type ≠ .eof := by
      rintro rfl
      exact (single_ordinary hsingle).2.2.2.2 rfl
    by_cases hand : op = .kwAnd
    · subst hand
      cases hsingle
      exact yields_of_scans (scansTo_word (by decide) (by decide) (by simp; decide)) hne hskip
    by_cases hor : op = .kwOr
    · subst hor
      cases hsingle
      exact yields_of_scans (scansTo_word (by decide) (by decide) (by simp; decide)) hne hskip
    exact yields_of_scans (scansTo_op hsingle hand hor rest) hne hskip
  | none =>
    rcases not_single_cases hsingle hast with rfl | rfl | rfl
    · rw [lexemes_pipes.1]
      exact yields_of_scans (scansTo_bar (.inl rfl) rest) (by decide) hskip
    · rw [lexemes_pipes.2]
      exact yields_two (ch '|') [] (by decide) (by decide) (by decide) (by decide)
        (scansTo_bar (.inr rfl) _) (scansTo_bar (.inl rfl) rest) hskip
    · rw [lexemes_slashEq]
      have hsingle' : SpecOp.single .eq = some .eq := rfl
      exact yields_two (ch '=') [] (by decide) (by decide) (by decide) (by decide)
        (scansTo_slash _) (scansTo_op hsingle' (by decide) (by decide) rest) hskip

/-- One word. -/
theorem yields_word {w : Word} {rest : Bytes} {t : Tokenizer} (hast : w.HasAst)
    (hskip : (skipWhitespaceInline t.col t.pos).2 = w.text ++ ch ' ' :: rest) :
    ∃ t', Yields t w.lexemes t' ∧ t'.pos = ch ' ' :: rest := by
  cases w with
  | leaf l =>
    cases l with
    | ident name h =>
      obtain ⟨c, cs, rfl⟩ : ∃ c cs, name = c :: cs := by
        cases name with
        | nil => cases h
        | cons c cs => exact ⟨c, cs, rfl⟩
      simp only [isIdentifier, Bool.and_eq_true, beq_iff_eq] at h
      have hscan : ScansTo (c :: cs) (ch ' ' :: rest) ⟨keywordType (c :: cs), c :: cs, 0⟩ :=
        scansTo_word h.1.1 h.1.2 fun _ => h.2
      rw [h.2] at hscan
      exact yields_of_scans hscan (by simp [Leaf.lexeme]) hskip
    | int digits h => exact yields_of_scans (scansTo_numeral h) (by simp [Leaf.lexeme]) hskip
  | operator op => exact yields_operator hast hskip
  | unary op =>
    cases op
    case hash => exact yields_of_scans (scansTo_hash _) (by decide) hskip
    case kwNot =>
      exact yields_of_scans (scansTo_word (by decide) (by decide) (by simp; decide)) (by decide) hskip
    all_goals
      exact yields_of_scans (scansTo_symbol (startsToken_of_ne (by decide) _) fun _ _ => ⟨_, rfl⟩)
        (by decide) hskip
  | lparen | rparen =>
    exact yields_of_scans (scansTo_symbol (startsToken_of_ne (by decide) _) fun _ _ => ⟨_, rfl⟩)
      (by decide) hskip

/-! ## §5 The tokens of the printed text -/

theorem text_starts (w : Word) : ∃ c cs, w.text = c :: cs ∧ c ≠ ch ' ' ∧ c ≠ ch '\t' := by
  cases w with
  | leaf l =>
    cases l with
    | ident name h =>
      cases name with
      | nil => cases h
      | cons c cs =>
        simp only [isIdentifier, Bool.and_eq_true] at h
        exact ⟨c, cs, rfl, by rintro rfl; exact absurd h.1.1 (by decide),
          by rintro rfl; exact absurd h.1.1 (by decide)⟩
    | int digits h =>
      cases digits with
      | nil => cases h
      | cons c cs =>
        simp only [isNumeral, List.all_cons, Bool.and_eq_true] at h
        exact ⟨c, cs, rfl, by rintro rfl; exact absurd h.2.1 (by decide),
          by rintro rfl; exact absurd h.2.1 (by decide)⟩
  | operator op => cases op <;> exact ⟨_, _, rfl, by decide, by decide⟩
  | unary op => cases op <;> exact ⟨_, _, rfl, by decide, by decide⟩
  | lparen | rparen => exact ⟨_, _, rfl, by decide, by decide⟩

/-- A word has at least as many characters as tokens. -/
theorem length_lexemes_le {w : Word} (hast : w.HasAst) : w.lexemes.length ≤ w.text.length := by
  cases w with
  | operator op =>
    cases hsingle : op.single with
    | some type =>
      obtain ⟨c, cs, htext, _⟩ := text_starts (.operator op)
      simp [Word.lexemes, lexemes_of_single hsingle, htext]
    | none =>
      rcases not_single_cases hsingle hast with rfl | rfl | rfl <;> decide
  | leaf l =>
    obtain ⟨c, cs, htext, _⟩ := text_starts (.leaf l)
    simp [Word.lexemes, htext]
  | unary op => cases op <;> decide
  | lparen | rparen => decide

theorem skip_printWords (ws : List Word) (col : Nat) :
    (skipWhitespaceInline col (printWords ws)).2 = printWords ws := by
  cases ws with
  | nil => rfl
  | cons w ws =>
    obtain ⟨c, cs, htext, hspace, htab⟩ := text_starts w
    rw [printWords, List.flatMap_cons, htext]
    exact skip_of_ne hspace htab col

theorem tokensLoop_yields {ls : List Lexeme} : ∀ {fuel : Nat} {t t' : Tokenizer},
    Yields t ls t' →
      (tokensLoop (fuel + ls.length) t).1.map Token.lexeme =
        ls ++ (tokensLoop fuel t').1.map Token.lexeme := by
  induction ls with
  | nil => rintro fuel t t' rfl; rfl
  | cons l ls ih =>
    intro fuel t t' h
    obtain ⟨hne, hlex, hrest⟩ := h
    have htype : (tokenizerNext t).1.type ≠ .eof := by
      rw [← hlex] at hne
      exact hne
    rw [List.length_cons, ← Nat.add_assoc, tokensLoop]
    simp only [if_neg htype, List.map_cons, hlex, ih hrest, List.cons_append]

theorem tokensLoop_end {fuel : Nat} {t : Tokenizer}
    (hskip : (skipWhitespaceInline t.col t.pos).2 = []) : (tokensLoop fuel t).1 = [] := by
  cases fuel with
  | zero => rfl
  | succ fuel =>
    have heof : (tokenizerNext t).1.type = .eof := by
      rw [tokenizerNext, nextFuel]
      split
      · rfl
      · simp only [hskip]
        rfl
    rw [tokensLoop]
    simp [heof]

theorem tokensLoop_words {ws : List Word} : ∀ {fuel : Nat} {t : Tokenizer},
    (∀ w ∈ ws, w.HasAst) → (skipWhitespaceInline t.col t.pos).2 = printWords ws →
      (printWords ws).length ≤ fuel →
      (tokensLoop fuel t).1.map Token.lexeme = ws.flatMap Word.lexemes := by
  induction ws with
  | nil =>
    intro fuel t _ hskip _
    rw [tokensLoop_end hskip]
    rfl
  | cons w ws ih =>
    intro fuel t hast hskip hfuel
    have hprint : printWords (w :: ws) = w.text ++ ch ' ' :: printWords ws := by
      simp [printWords]
    obtain ⟨t', hyields, hpos⟩ := yields_word (hast w (List.mem_cons_self ..)) (hskip.trans hprint)
    have hlen := length_lexemes_le (hast w (List.mem_cons_self ..))
    rw [hprint, List.length_append, List.length_cons] at hfuel
    obtain ⟨fuel', rfl⟩ : ∃ fuel', fuel = fuel' + w.lexemes.length :=
      ⟨fuel - w.lexemes.length, by omega⟩
    have hskip' : (skipWhitespaceInline t'.col t'.pos).2 = printWords ws := by
      rw [hpos, skipWhitespaceInline, if_pos rfl, skip_printWords]
    rw [tokensLoop_yields hyields,
      ih (fun w' hw' => hast w' (List.mem_cons_of_mem _ hw')) hskip' (by omega)]
    rfl

/-- The tokenizer gives the tokens of the words. -/
theorem tokens_printWords {ws : List Word} (hast : ∀ w ∈ ws, w.HasAst) :
    (tokensOf (printWords ws)).1.map Token.lexeme = ws.flatMap Word.lexemes :=
  tokensLoop_words hast (skip_printWords ws 1) (Nat.le_succ _)

end Aether
