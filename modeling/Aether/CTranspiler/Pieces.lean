/-
Aether.CTranspiler.Pieces — how the parser cuts a literal into pieces, item
by item.

`emit` is what a literal piece decodes to in the end: the parser takes the
backslashes of braces away, the emitter decodes the escapes that are left.
`piecesFrom` is the scanning loop of the parser without its fuel. The
lemmas say what both do with one item of a content in front.
-/
import Aether.CTranspiler.Interpolation

namespace Aether.CTranspiler

-- the equations, before the proofs that share them
section
attribute [local simp] processEscapes unescapeBraces isBrace matchBrace piecesLoop Item.bytes
  hasInterp ch
end

/-! ## §1 Decoding -/

def emit (text : Bytes) : Bytes := processEscapes (unescapeBraces text)

-- the equations, before the proofs that share them
section
attribute [local simp] emit
end

/-- The text starts with a brace. -/
def startsBrace (text : Bytes) : Bool := text.head?.any isBrace

variable {c e : UInt8} {cs : Bytes}

theorem processEscapes_cons (h : c ≠ ch '\\') : processEscapes (c :: cs) = c :: processEscapes cs := by
  cases cs <;> simp [processEscapes, h]

@[simp] theorem processEscapes_escape :
    processEscapes (ch '\\' :: e :: cs) = processEscape e :: processEscapes cs := by
  simp [processEscapes]

theorem processEscapes_length : ∀ text : Bytes, (processEscapes text).length ≤ text.length
  | [] => by simp [processEscapes]
  | [c] => by simp [processEscapes]
  | c :: e :: cs => by
    have hescape := processEscapes_length cs
    have hnext := processEscapes_length (e :: cs)
    rw [processEscapes]
    split
    · simp only [List.length_cons]
      omega
    · simpa using hnext

theorem unescapeBraces_cons (h : c ≠ ch '\\') : unescapeBraces (c :: cs) = c :: unescapeBraces cs := by
  cases cs <;> simp [unescapeBraces, h]

theorem unescapeBraces_brace (h : isBrace e = true) :
    unescapeBraces (ch '\\' :: e :: cs) = e :: unescapeBraces cs := by
  simp [unescapeBraces, h]

theorem unescapeBraces_keep (h : startsBrace cs = false) :
    unescapeBraces (ch '\\' :: cs) = ch '\\' :: unescapeBraces cs := by
  cases cs with
  | nil => rfl
  | cons e cs =>
    have hbrace : isBrace e = false := h
    simp [unescapeBraces, hbrace]

theorem unescapeBraces_length : ∀ text : Bytes, (unescapeBraces text).length ≤ text.length
  | [] => by simp [unescapeBraces]
  | [c] => by simp [unescapeBraces]
  | c :: e :: cs => by
    have hescape := unescapeBraces_length cs
    have hnext := unescapeBraces_length (e :: cs)
    rw [unescapeBraces]
    split
    · simp only [List.length_cons]
      omega
    · simpa using hnext

theorem emit_length (text : Bytes) : (emit text).length ≤ text.length :=
  (processEscapes_length _).trans (unescapeBraces_length text)

@[simp] theorem emit_nil : emit [] = [] := rfl

theorem emit_cons (h : c ≠ ch '\\') : emit (c :: cs) = c :: emit cs := by
  rw [emit, unescapeBraces_cons h, processEscapes_cons h, emit]

theorem ne_backslash_of_isBrace (h : isBrace e = true) : e ≠ ch '\\' := by
  rintro rfl
  revert h
  decide

/-- An escape of a character that is no brace and no backslash. -/
theorem emit_escape (hbrace : isBrace e = false) (hback : e ≠ ch '\\') :
    emit (ch '\\' :: e :: cs) = processEscape e :: emit cs := by
  rw [emit, unescapeBraces_keep (by simpa [startsBrace] using hbrace), unescapeBraces_cons hback,
    processEscapes_escape, emit]

theorem emit_brace (h : isBrace e = true) : emit (ch '\\' :: e :: cs) = e :: emit cs := by
  rw [emit, unescapeBraces_brace h, processEscapes_cons (ne_backslash_of_isBrace h), emit]

/-- An escaped backslash, when no brace follows. -/
theorem emit_backslash (h : startsBrace cs = false) :
    emit (ch '\\' :: ch '\\' :: cs) = ch '\\' :: emit cs := by
  rw [emit, unescapeBraces_keep rfl, unescapeBraces_keep h, processEscapes_escape, emit]
  rfl

/-- The backslash is lost when a brace follows. -/
theorem emit_backslash_brace (h : isBrace e = true) :
    emit (ch '\\' :: ch '\\' :: e :: cs) = e :: emit cs := by
  have hsame : processEscape e = e := by
    rw [isBrace, Bool.or_eq_true, beq_iff_eq, beq_iff_eq] at h
    rcases h with rfl | rfl <;> decide
  rw [emit, unescapeBraces_keep rfl, unescapeBraces_brace h, processEscapes_escape, hsame, emit]

/-! ## §2 Items -/

/-- What an item that is no expression decodes to: a hexadecimal escape only
loses its backslash. -/
def Item.emitted : Item → Bytes
  | .plain c _ => [c]
  | .escape e => [e.byte]
  | .hex high low _ => [ch 'x', high, low]
  | .openBrace => [ch '\x7b']
  | .closeBrace => [ch '\x7d']
  | .expr _ _ => []

theorem Item.emitted_eq {item : Item} (hhex : item.isHex = false) (hexpr : item.isExpr = false) :
    item.emitted.map Part.byte = [item.part] := by
  cases item with
  | hex high low h => cases hhex
  | expr text h => cases hexpr
  | _ => rfl

theorem isPlain_facts (c : UInt8) (h : isPlain c = true) : c ≠ ch '\\' ∧ isBrace c = false := by
  simp only [isPlain, Bool.not_eq_true', Bool.or_eq_false_iff, beq_eq_false_iff_ne] at h
  exact ⟨h.1.1, h.2⟩

theorem isHexChar_facts (c : UInt8) (h : isHexChar c = true) :
    c ≠ ch '\\' ∧ isBrace c = false := by
  have hne : ∀ k : UInt8, isHexChar k = false → c ≠ k := by
    rintro k hk rfl
    exact absurd (h.symm.trans hk) (by decide)
  refine ⟨hne _ (by decide), ?_⟩
  rw [isBrace, Bool.or_eq_false_iff, beq_eq_false_iff_ne, beq_eq_false_iff_ne]
  exact ⟨hne _ (by decide), hne _ (by decide)⟩

theorem ordinary (h : c ≠ ch '\\' ∧ isBrace c = false) : c ≠ ch '\\' ∧ c ≠ ch '\x7b' := by
  refine ⟨h.1, ?_⟩
  rintro rfl
  cases h.2

/-- The emitter alone decodes every item by itself. -/
theorem processEscapes_item {item : Item} (h : item.isExpr = false) (rest : Bytes) :
    processEscapes (item.bytes ++ rest) = item.emitted ++ processEscapes rest := by
  cases item with
  | plain c hc => exact processEscapes_cons (isPlain_facts c hc).1
  | escape e => cases e <;> exact processEscapes_escape
  | hex high low hdigits =>
    show processEscapes (ch '\\' :: ch 'x' :: high :: low :: rest) = _
    rw [processEscapes_escape, processEscapes_cons (isHexChar_facts _ hdigits.1).1,
      processEscapes_cons (isHexChar_facts _ hdigits.2).1]
    rfl
  | openBrace => exact processEscapes_cons (by decide)
  | closeBrace => exact processEscapes_cons (by decide)
  | expr text ht => cases h

/-- So does the parser before it, but for an escaped backslash in front of a
brace. -/
theorem emit_item {item : Item} (h : item.isExpr = false) {rest : Bytes}
    (hrest : item = .escape .backslash → startsBrace rest = false) :
    emit (item.bytes ++ rest) = item.emitted ++ emit rest := by
  cases item with
  | plain c hc => exact emit_cons (isPlain_facts c hc).1
  | escape e =>
    cases e with
    | backslash => exact emit_backslash (hrest rfl)
    | openBrace => exact emit_brace (by decide)
    | closeBrace => exact emit_brace (by decide)
    | newline => exact emit_escape (by decide) (by decide)
    | tab => exact emit_escape (by decide) (by decide)
    | quote => exact emit_escape (by decide) (by decide)
  | hex high low hdigits =>
    show emit (ch '\\' :: ch 'x' :: high :: low :: rest) = _
    rw [emit_escape (by decide) (by decide), emit_cons (isHexChar_facts _ hdigits.1).1,
      emit_cons (isHexChar_facts _ hdigits.2).1]
    rfl
  | openBrace => exact emit_cons (by decide)
  | closeBrace => exact emit_cons (by decide)
  | expr text ht => cases h

/-- An item that starts with a brace. -/
def Item.isBraced (item : Item) : Bool := item.isExpr || item.isLoneBrace

theorem startsBrace_item (item : Item) (rest : Bytes) :
    startsBrace (item.bytes ++ rest) = item.isBraced := by
  cases item with
  | plain c h => exact (isPlain_facts c h).2
  | escape e => cases e <;> rfl
  | _ => rfl

theorem startsBrace_render_cons (item : Item) (items : List Item) :
    startsBrace (render (item :: items)) = item.isBraced := by
  rw [render, List.flatMap_cons, startsBrace_item]

/-! ## §3 Matching braces -/

variable {depth : Nat} {text rest : Bytes}

theorem matchBrace_cons (hback : c ≠ ch '\\') (hbrace : isBrace c = false) :
    matchBrace depth text (c :: cs) = matchBrace depth (text ++ [c]) cs := by
  have hopen : c ≠ ch '\x7b' := by rintro rfl; cases hbrace
  have hclose : c ≠ ch '\x7d' := by rintro rfl; cases hbrace
  cases cs <;> simp [matchBrace, hback, hopen, hclose]

theorem matchBrace_backslash (h : startsBrace cs = false) :
    matchBrace depth text (ch '\\' :: cs) = matchBrace depth (text ++ [ch '\\']) cs := by
  have hopen : ch '\\' ≠ ch '\x7b' := by decide
  have hclose : ch '\\' ≠ ch '\x7d' := by decide
  cases cs with
  | nil => simp [matchBrace, hclose]
  | cons e cs =>
    have hbrace : isBrace e = false := h
    simp [matchBrace, hbrace, hopen, hclose]

theorem matchBrace_escaped (h : isBrace e = true) :
    matchBrace depth text (ch '\\' :: e :: cs) = matchBrace depth (text ++ [ch '\\', e]) cs := by
  simp [matchBrace, h]

theorem matchBrace_open :
    matchBrace depth text (ch '\x7b' :: cs) = matchBrace (depth + 1) (text ++ [ch '\x7b']) cs := by
  have hback : ch '\x7b' ≠ ch '\\' := by decide
  have hclose : ch '\x7b' ≠ ch '\x7d' := by decide
  cases cs <;> simp [matchBrace, hback, hclose]

theorem matchBrace_close :
    matchBrace depth text (ch '\x7d' :: cs) =
      if depth = 1 then some (text, cs) else matchBrace (depth - 1) (text ++ [ch '\x7d']) cs := by
  have hback : ch '\x7d' ≠ ch '\\' := by decide
  have hopen : ch '\x7d' ≠ ch '\x7b' := by decide
  cases cs <;> simp [matchBrace, hback, hopen]

/-- A balanced text is skipped up to the brace that closes it. -/
theorem matchBrace_balanced (inner : Bytes) (h : balanced depth inner = true) :
    ∀ text, matchBrace (depth + 1) text (inner ++ ch '\x7d' :: rest) = some (text ++ inner, rest) := by
  fun_induction balanced depth inner with
  | case1 depth =>
    intro text
    have hdepth : depth = 0 := by simpa using h
    simp [matchBrace_close, hdepth]
  | case2 depth c =>
    intro text
    simp only [Bool.and_eq_true, bne_iff_ne, decide_eq_true_eq] at h
    obtain ⟨⟨hback, hopen⟩, hdepth⟩ := h
    rw [List.singleton_append]
    by_cases hclose : c = ch '\x7d'
    · subst hclose
      simp [matchBrace_close, hdepth]
    · rw [matchBrace_cons hback (by simp [isBrace, hopen, hclose]), matchBrace_close]
      simp [hdepth, hclose]
  | case3 depth c c' cs hescaped ih =>
    intro text
    rw [hescaped.1, List.cons_append, List.cons_append, matchBrace_escaped hescaped.2, ih h]
    simp
  | case4 depth c' cs hescaped ih =>
    intro text
    rw [List.cons_append, matchBrace_open, ih h]
    simp
  | case5 depth c' cs hescaped hopen ih =>
    intro text
    simp only [Bool.and_eq_true, bne_iff_ne] at h
    have hdepth : depth - 1 + 1 = depth := by omega
    rw [List.cons_append, matchBrace_close, if_neg (by omega), Nat.add_sub_cancel, ← hdepth,
      ih h.2]
    simp
  | case6 depth c c' cs hescaped hopen hclose ih =>
    intro text
    by_cases hback : c = ch '\\'
    · have hbrace : startsBrace (c' :: cs ++ ch '\x7d' :: rest) = false := by
        simpa [startsBrace] using fun h => hescaped ⟨hback, h⟩
      rw [hback, List.cons_append, matchBrace_backslash hbrace, ih h]
      simp
    · rw [List.cons_append, matchBrace_cons hback (by simp [isBrace, hopen, hclose]), ih h]
      simp

/-- One step: the closing brace is found, or some text is taken. -/
theorem matchBrace_step (depth : Nat) (c : UInt8) (cs : Bytes) :
    (c = ch '\x7d' ∧ ∀ text, matchBrace depth text (c :: cs) = some (text, cs)) ∨
      ∃ depth' taken tail, c :: cs = taken ++ tail ∧ taken ≠ [] ∧
        ∀ text, matchBrace depth text (c :: cs) = matchBrace depth' (text ++ taken) tail := by
  by_cases hback : c = ch '\\'
  · subst hback
    cases hbrace : startsBrace cs with
    | false =>
      exact .inr ⟨depth, [ch '\\'], cs, rfl, by simp, fun text => matchBrace_backslash hbrace⟩
    | true =>
      obtain ⟨e, es, rfl⟩ : ∃ e es, cs = e :: es :=
        List.exists_cons_of_ne_nil (by rintro rfl; cases hbrace)
      exact .inr ⟨depth, [ch '\\', e], es, rfl, by simp, fun text => matchBrace_escaped hbrace⟩
  · by_cases hopen : c = ch '\x7b'
    · subst hopen
      exact .inr ⟨depth + 1, [ch '\x7b'], cs, rfl, by simp, fun text => matchBrace_open⟩
    · by_cases hclose : c = ch '\x7d'
      · subst hclose
        by_cases hdepth : depth = 1
        · exact .inl ⟨rfl, fun text => by rw [matchBrace_close, if_pos hdepth]⟩
        · exact .inr ⟨depth - 1, [ch '\x7d'], cs, rfl, by simp,
            fun text => by rw [matchBrace_close, if_neg hdepth]⟩
      · have hbrace : isBrace c = false := by simp [isBrace, hopen, hclose]
        exact .inr ⟨depth, [c], cs, rfl, by simp, fun text => matchBrace_cons hback hbrace⟩

/-- What was taken before only comes back in front. -/
theorem matchBrace_eq (cs : Bytes) (depth : Nat) :
    (∀ text, matchBrace depth text cs = none) ∨
      ∃ inner rest, rest.length < cs.length ∧
        ∀ text, matchBrace depth text cs = some (text ++ inner, rest) := by
  match cs with
  | [] => exact .inl fun _ => rfl
  | c :: cs =>
    rcases matchBrace_step depth c cs with ⟨-, hfound⟩ | ⟨depth', taken, tail, hcs, htaken, htake⟩
    · exact .inr ⟨[], cs, Nat.lt_succ_self _, fun text => by rw [hfound, List.append_nil]⟩
    · have hlength : tail.length < (c :: cs).length := by
        have := List.length_pos_iff.mpr htaken
        rw [hcs, List.length_append]
        omega
      have hle : tail.length ≤ cs.length := Nat.le_of_lt_succ hlength
      rcases matchBrace_eq tail depth' with hnone | ⟨inner, rest, hrest, hfound⟩
      · exact .inl fun text => by rw [htake, hnone]
      · refine .inr ⟨taken ++ inner, rest, hrest.trans hlength, fun text => ?_⟩
        rw [htake, hfound, List.append_assoc]
termination_by cs.length

theorem matchBrace_length {cs inner : Bytes} (h : matchBrace depth text cs = some (inner, rest)) :
    rest.length < cs.length := by
  rcases matchBrace_eq cs depth with hnone | ⟨inner', rest', hrest, hfound⟩
  · rw [hnone] at h
    cases h
  · rw [hfound] at h
    cases h
    exact hrest

theorem matchBrace_none (text' : Bytes) (h : matchBrace depth text cs = none) :
    matchBrace depth text' cs = none := by
  rcases matchBrace_eq cs depth with hnone | ⟨inner, rest, -, hfound⟩
  · exact hnone text'
  · rw [hfound] at h
    cases h

/-- The partner of a brace is not the next byte unless it looks like it. -/
theorem matchBrace_ne_nil {cs inner : Bytes} (hhead : cs.head? ≠ some (ch '\x7d'))
    (h : matchBrace depth text cs = some (inner, rest)) : inner ≠ [] := by
  cases cs with
  | nil => cases h
  | cons c cs =>
    rcases matchBrace_step depth c cs with ⟨hc, -⟩ | ⟨depth', taken, tail, -, htaken, htake⟩
    · exact absurd (congrArg some hc) hhead
    · rw [htake] at h
      rcases matchBrace_eq tail depth' with hnone | ⟨inner', rest', -, hfound⟩
      · rw [hnone] at h
        cases h
      · rw [hfound] at h
        cases h
        simp [htaken]

/-! ## §4 The scanning loop -/

/-- The loop with fuel enough. -/
def piecesFrom (escaped : Bool) (literal text : Bytes) : List Piece :=
  piecesLoop (text.length + 1) escaped literal text

-- the equations, before the proofs that share them
section
attribute [local simp] piecesFrom
end

theorem piecesLoop_eq : ∀ (fuel : Nat) (escaped : Bool) (literal text : Bytes),
    text.length < fuel → piecesLoop fuel escaped literal text = piecesFrom escaped literal text := by
  have hfuel : ∀ (fuel fuel' : Nat) (escaped : Bool) (literal text : Bytes),
      text.length < fuel → text.length < fuel' →
      piecesLoop fuel escaped literal text = piecesLoop fuel' escaped literal text := by
    intro fuel
    induction fuel with
    | zero => intro _ _ _ _ h; cases h
    | succ fuel ih =>
      intro fuel' escaped literal text h h'
      obtain ⟨fuel', rfl⟩ := Nat.exists_eq_succ_of_ne_zero (Nat.ne_of_gt (Nat.zero_lt_of_lt h'))
      cases text with
      | nil => rfl
      | cons c cs =>
        have hlt := Nat.lt_of_succ_lt_succ h
        have hlt' := Nat.lt_of_succ_lt_succ h'
        rw [piecesLoop, piecesLoop]
        split
        · cases hmatch : matchBrace 1 [] cs with
          | none => simp only [ih fuel' false [] cs hlt hlt']
          | some found =>
            have hrest := matchBrace_length hmatch
            simp only [ih fuel' false [] found.2 (hrest.trans hlt) (hrest.trans hlt')]
        · exact ih fuel' _ _ cs hlt hlt'
  exact fun fuel escaped literal text h => hfuel fuel _ escaped literal text h (Nat.lt_succ_self _)

variable {escaped : Bool} {literal : Bytes}

@[simp] theorem piecesFrom_nil : piecesFrom escaped literal [] = literalPiece literal := rfl

/-- A byte of the text between expressions. -/
theorem piecesFrom_push (h : c = ch '\x7b' → escaped = true) :
    piecesFrom escaped literal (c :: cs) = piecesFrom (c = ch '\\') (literal ++ [c]) cs := by
  rw [piecesFrom, List.length_cons, piecesLoop, if_neg]
  · rfl
  · rintro ⟨hc, hescaped⟩
    rw [h hc] at hescaped
    cases hescaped

theorem piecesFrom_matched {inner rest : Bytes} (h : matchBrace 1 [] cs = some (inner, rest)) :
    piecesFrom false literal (ch '\x7b' :: cs) =
      literalPiece literal ++ exprPiece inner ++ piecesFrom false [] rest := by
  have hrest := matchBrace_length h
  rw [piecesFrom, List.length_cons, piecesLoop, if_pos ⟨rfl, rfl⟩]
  simp only [h]
  rw [piecesLoop_eq _ _ _ _ (hrest.trans (Nat.lt_succ_self _))]

theorem piecesFrom_unmatched (h : matchBrace 1 [] cs = none) :
    piecesFrom false literal (ch '\x7b' :: cs) = literalPiece literal ++ piecesFrom false [] cs := by
  rw [piecesFrom, List.length_cons, piecesLoop, if_pos ⟨rfl, rfl⟩]
  simp only [h]
  rfl

/-- The byte before only matters for an opening brace. -/
theorem piecesFrom_escaped (h : startsBrace text = false) :
    piecesFrom true literal text = piecesFrom false literal text := by
  cases text with
  | nil => rfl
  | cons c cs =>
    have hopen : c ≠ ch '\x7b' := by
      rintro rfl
      cases h
    rw [piecesFrom_push fun h => absurd h hopen, piecesFrom_push fun h => absurd h hopen]

theorem piecesFrom_ordinary (hback : c ≠ ch '\\') (hopen : c ≠ ch '\x7b') :
    piecesFrom escaped literal (c :: cs) = piecesFrom false (literal ++ [c]) cs := by
  rw [piecesFrom_push fun h => absurd h hopen, decide_eq_false hback]

theorem piecesFrom_escape :
    piecesFrom escaped literal (ch '\\' :: e :: cs) =
      piecesFrom (e = ch '\\') (literal ++ [ch '\\', e]) cs := by
  have hopen : ch '\\' ≠ ch '\x7b' := by decide
  rw [piecesFrom_push fun h => absurd h hopen, piecesFrom_push fun _ => decide_eq_true rfl,
    List.append_assoc, List.singleton_append]

/-- An item of literal text. -/
theorem piecesFrom_item {item : Item} (h : item.isExpr = false)
    (hopen : item = .openBrace → escaped = true) (rest : Bytes) :
    piecesFrom escaped literal (item.bytes ++ rest) =
      piecesFrom (item = .escape .backslash) (literal ++ item.bytes) rest := by
  cases item with
  | plain c hc =>
    obtain ⟨hback, hbrace⟩ := ordinary (isPlain_facts c hc)
    exact piecesFrom_ordinary hback hbrace
  | escape e =>
    refine piecesFrom_escape.trans ?_
    cases e <;> rfl
  | hex high low hdigits =>
    obtain ⟨hhigh, hhigh'⟩ := ordinary (isHexChar_facts high hdigits.1)
    obtain ⟨hlow, hlow'⟩ := ordinary (isHexChar_facts low hdigits.2)
    have hx : ch 'x' ≠ ch '\\' := by decide
    show piecesFrom escaped literal (ch '\\' :: ch 'x' :: high :: low :: rest) = _
    rw [piecesFrom_escape, piecesFrom_ordinary hhigh hhigh', piecesFrom_ordinary hlow hlow']
    simp [Item.bytes]
  | openBrace => exact piecesFrom_push fun _ => hopen rfl
  | closeBrace => exact piecesFrom_ordinary (by decide) (by decide)
  | expr text ht => cases h

/-- An expression between its braces. -/
theorem piecesFrom_expr {inner : Bytes} (h : inner ≠ [] ∧ balanced 0 inner = true) :
    piecesFrom false literal ((Item.expr inner h).bytes ++ rest) =
      literalPiece literal ++ .expr inner :: piecesFrom false [] rest := by
  have hmatch : matchBrace 1 [] (inner ++ ch '\x7d' :: rest) = some (inner, rest) :=
    matchBrace_balanced inner h.2 []
  have hbytes : (Item.expr inner h).bytes ++ rest = ch '\x7b' :: (inner ++ ch '\x7d' :: rest) := by
    simp [Item.bytes]
  rw [hbytes, piecesFrom_matched hmatch, exprPiece, if_neg h.1, List.append_assoc,
    List.singleton_append]

/-! ## §5 Interpolations -/

theorem hasInterp_ordinary (hback : c ≠ ch '\\') (hopen : c ≠ ch '\x7b') :
    hasInterp escaped (c :: cs) = hasInterp false cs := by
  simp [hasInterp, hback, hopen]

theorem hasInterp_escape :
    hasInterp escaped (ch '\\' :: e :: cs) = hasInterp (e = ch '\\') cs := by
  have hopen : ch '\\' ≠ ch '\x7b' := by decide
  simp [hasInterp, hopen]

theorem hasInterp_item {item : Item} (h : item.isExpr = false)
    (hopen : item = .openBrace → escaped = true) (rest : Bytes) :
    hasInterp escaped (item.bytes ++ rest) = hasInterp (item = .escape .backslash) rest := by
  cases item with
  | plain c hc =>
    obtain ⟨hback, hbrace⟩ := ordinary (isPlain_facts c hc)
    exact hasInterp_ordinary hback hbrace
  | escape e =>
    refine hasInterp_escape.trans ?_
    cases e <;> rfl
  | hex high low hdigits =>
    obtain ⟨hhigh, hhigh'⟩ := ordinary (isHexChar_facts high hdigits.1)
    obtain ⟨hlow, hlow'⟩ := ordinary (isHexChar_facts low hdigits.2)
    show hasInterp escaped (ch '\\' :: ch 'x' :: high :: low :: rest) = _
    have hx : ch 'x' ≠ ch '\\' := by decide
    rw [hasInterp_escape, hasInterp_ordinary hhigh hhigh', hasInterp_ordinary hlow hlow']
    simp
  | openBrace =>
    rw [hopen rfl]
    simp [Item.bytes, hasInterp, show ch '\x7b' ≠ ch '\\' by decide]
  | closeBrace => exact hasInterp_ordinary (by decide) (by decide)
  | expr text ht => cases h

theorem hasInterp_open : hasInterp false (ch '\x7b' :: cs) = true := by simp [hasInterp]

end Aether.CTranspiler
