/-
Aether.Parser.AsmTheorems — what the two asm branches capture of a block.

Both find the closing brace by counting brace tokens. The statement branch
takes the text up to the token behind that brace and then strips one brace;
the top-level branch takes the text from the first token of the block and
strips every brace at its end. `textOf` is the text between the braces
without the white space around it.
-/
import Aether.Parser.Steps
import Aether.Lexing.Places
import Mathlib.Data.List.DropRight

namespace Aether

open Lib.Procedures

-- the equations, before the proofs that share them
section
attribute [local simp] trimEnd isSpaceOrBrace Parser.advance Lexer.advance
end

/-! ## §1 Trimmed texts -/

section Trimming

variable {drop drop' : UInt8 → Bool} {xs ys : Bytes}

theorem trimEnd_eq_nil : trimEnd drop xs = [] ↔ ∀ c ∈ xs, drop c = true :=
  List.rdropWhile_eq_nil_iff

theorem trimEnd_isPrefix (drop : UInt8 → Bool) (xs : Bytes) : trimEnd drop xs <+: xs :=
  List.rdropWhile_prefix drop xs

/-- The part that is left of the second text keeps the first. -/
theorem trimEnd_append (drop : UInt8 → Bool) (xs ys : Bytes) : trimEnd drop (xs ++ ys) =
    if trimEnd drop ys = [] then trimEnd drop xs else xs ++ trimEnd drop ys := by
  unfold trimEnd
  rw [List.reverse_append, List.dropWhile_append]
  by_cases h : ys.reverse.dropWhile drop = []
  · simp [h]
  · simp [h]

/-- What is dropped at the end. -/
theorem trimEnd_rest (drop : UInt8 → Bool) (xs : Bytes) :
    ∃ ys, trimEnd drop xs ++ ys = xs ∧ ∀ c ∈ ys, drop c = true :=
  ⟨_, List.rdropWhile_append_rtakeWhile, fun _ hc => List.mem_rtakeWhile_imp hc⟩

theorem trimEnd_append_dropped (h : ∀ c ∈ ys, drop c = true) :
    trimEnd drop (xs ++ ys) = trimEnd drop xs := by
  rw [trimEnd_append, if_pos (trimEnd_eq_nil.mpr h)]

theorem trimEnd_eq_self (h : ∀ c, xs.getLast? = some c → drop c = false) : trimEnd drop xs = xs :=
  List.rdropWhile_eq_self_iff.mpr fun hne =>
    by simp [h _ (List.getLast?_eq_some_getLast hne)]

theorem last_trimEnd {c : UInt8} (h : (trimEnd drop xs).getLast? = some c) : drop c = false := by
  have hne : trimEnd drop xs ≠ [] := by
    intro hnil
    rw [hnil] at h
    cases h
  have hlast := List.rdropWhile_last_not drop xs hne
  have heq : (trimEnd drop xs).getLast hne = c := by
    rw [List.getLast?_eq_some_getLast hne] at h
    exact Option.some.inj h
  rw [← heq]
  exact Bool.eq_false_iff.mpr hlast

/-- Dropping more leaves less. -/
theorem length_trimEnd_le (h : ∀ c, drop c = true → drop' c = true) (xs : Bytes) :
    (trimEnd drop' xs).length ≤ (trimEnd drop xs).length := by
  have hdrop : ∀ cs : Bytes, (cs.dropWhile drop').length ≤ (cs.dropWhile drop).length := by
    intro cs
    induction cs with
    | nil => exact Nat.le_refl _
    | cons c cs ih =>
      by_cases hc : drop c = true
      · rw [List.dropWhile_cons_of_pos hc, List.dropWhile_cons_of_pos (h c hc)]
        exact ih
      · rw [List.dropWhile_cons_of_neg hc]
        exact (List.dropWhile_suffix drop').length_le
  simpa [trimEnd] using hdrop xs.reverse

/-- White space on both sides is dropped. -/
def trim (text : Bytes) : Bytes := trimEnd isSpace (text.dropWhile isSpace)

-- the equations, before the proofs that share them
section
attribute [local simp] trim
end

theorem trim_eq_nil : trim xs = [] ↔ ∀ c ∈ xs, isSpace c = true := by
  unfold trim
  rw [trimEnd_eq_nil]
  constructor
  · intro h c hc
    rw [← List.takeWhile_append_dropWhile (p := isSpace) (l := xs)] at hc
    rcases List.mem_append.mp hc with hc | hc
    · exact List.mem_takeWhile_imp hc
    · exact h c hc
  · exact fun h c hc => h c ((List.dropWhile_suffix _).subset hc)

/-- The first byte is no white space. -/
def StartsInk (text : Bytes) : Prop := ∀ c, text.head? = some c → isSpace c = false

theorem trim_of_startsInk (h : StartsInk xs) : trim xs = trimEnd isSpace xs := by
  cases xs with
  | nil => rfl
  | cons c cs =>
    rw [trim, List.dropWhile_cons_of_neg (by simp [h c rfl])]

theorem startsInk_trim (xs : Bytes) : StartsInk (trim xs) := by
  intro c hc
  obtain ⟨ys, hys⟩ := trimEnd_isPrefix isSpace (xs.dropWhile isSpace)
  have hhead : (xs.dropWhile isSpace).head? = some c := by
    rw [← hys, List.head?_append]
    exact (congrArg (·.or ys.head?) hc).trans rfl
  exact Bool.eq_false_iff.mpr (List.head?_dropWhile_not isSpace xs |> fun h => by
    rw [hhead] at h
    simpa using h)

/-- A text that starts with the trimmed text of another one. -/
theorem startsInk_of_prefix {text : Bytes} (h : trim xs <+: text) (hne : trim xs ≠ []) :
    StartsInk text := by
  intro c hc
  obtain ⟨ys, rfl⟩ := h
  refine startsInk_trim xs c ?_
  cases htrim : trim xs with
  | nil => exact absurd htrim hne
  | cons d ds => rwa [htrim] at hc

end Trimming

/-! ## §2 The captured texts -/

/-- The text of an assembly node; none when it is empty. -/
def textNode (text : Bytes) : Option Bytes := if text = [] then none else some text

theorem textNode_inj {xs ys : Bytes} : textNode xs = textNode ys ↔ xs = ys := by
  unfold textNode
  constructor
  · intro h
    split at h <;> split at h <;> simp_all
  · rintro rfl
    rfl

/-- The text strictly between the braces, without the white space around it. -/
def textOf (content : Bytes) : Option Bytes := textNode (trim content)

/-- The block's text does not end in a brace of its own. -/
def EndsNoBrace (text : Bytes) : Prop := (trim text).getLast? ≠ some (ch '}')

-- the equations, before the proofs that share them
section
attribute [local simp] textOf EndsNoBrace
end

theorem isSpace_brace : isSpace (ch '}') = false := by decide

/-- The top-level branch: `lead` is the text before the first token. -/
theorem top_text_iff (lead body : Bytes) :
    textNode (trimEnd isSpaceOrBrace body) = textOf (lead ++ body) ↔
      trim (lead ++ body) = [] ∨
        (∀ c ∈ lead, isSpace c = true) ∧ StartsInk body ∧ EndsNoBrace (lead ++ body) := by
  have hdrop : ∀ c, isSpace c = true → isSpaceOrBrace c = true := fun c h => by
    simp [isSpaceOrBrace, h]
  rw [textOf, textNode_inj]
  constructor
  · intro h
    refine or_iff_not_imp_left.mpr fun hne => ?_
    have hpre : trim (lead ++ body) <+: body := h ▸ trimEnd_isPrefix _ _
    have hink : StartsInk body := startsInk_of_prefix hpre hne
    refine ⟨?_, hink, ?_⟩
    · -- text in front of the first token would make the trimmed text longer
      refine List.dropWhile_eq_nil_iff.mp ?_
      by_contra hlead
      have hbody : trimEnd isSpace body ≠ [] := by
        intro hnil
        have hshort := length_trimEnd_le hdrop body
        rw [h, hnil] at hshort
        exact hne (List.length_eq_zero_iff.mp (Nat.le_zero.mp hshort))
      have htrim : trim (lead ++ body) = lead.dropWhile isSpace ++ trimEnd isSpace body := by
        rw [trim, List.dropWhile_append, if_neg (by simpa using hlead), trimEnd_append,
          if_neg hbody]
      have hlen := length_trimEnd_le hdrop body
      rw [h, htrim, List.length_append] at hlen
      have hpos := List.length_pos_iff.mpr hlead
      omega
    · intro hlast
      rw [← h] at hlast
      have hkept := last_trimEnd hlast
      simp [isSpaceOrBrace] at hkept
  · rintro (hnil | ⟨hlead, hink, hlast⟩)
    · rw [hnil, trimEnd_eq_nil]
      intro c hc
      exact hdrop c (trim_eq_nil.mp hnil c (List.mem_append_right _ hc))
    · have htrim : trim (lead ++ body) = trimEnd isSpace body := by
        have hskip : (lead ++ body).dropWhile isSpace = body.dropWhile isSpace :=
          List.dropWhile_append_of_pos hlead
        rw [← trim_of_startsInk hink, trim, trim, hskip]
      unfold EndsNoBrace at hlast
      rw [htrim] at hlast ⊢
      -- what white space leaves, braces leave too
      obtain ⟨ys, hys, hspaces⟩ := trimEnd_rest isSpace body
      have hself : trimEnd isSpaceOrBrace (trimEnd isSpace body) = trimEnd isSpace body := by
        refine trimEnd_eq_self fun c hc => ?_
        rw [isSpaceOrBrace, last_trimEnd hc, Bool.false_or, beq_eq_false_iff_ne]
        rintro rfl
        exact hlast hc
      calc trimEnd isSpaceOrBrace body
          = trimEnd isSpaceOrBrace (trimEnd isSpace body ++ ys) := by rw [hys]
        _ = trimEnd isSpaceOrBrace (trimEnd isSpace body) :=
          trimEnd_append_dropped fun c hc => hdrop c (hspaces c hc)
        _ = trimEnd isSpace body := hself

/-- The statement branch strips one brace at the end. -/
theorem asmText_eq (text : Bytes) : asmText text =
    textNode (if (trimEnd isSpace text).getLast? = some (ch '}') then
      trimEnd isSpace (trimEnd isSpace text).dropLast else trimEnd isSpace text) := rfl

/-- The end is trimmed as the whole is, if nothing is to trim in front. -/
theorem trimEnd_eq_trim_iff (content : Bytes) :
    trimEnd isSpace content = trim content ↔ trim content = [] ∨ StartsInk content := by
  constructor
  · intro h
    refine or_iff_not_imp_left.mpr fun hne => ?_
    exact startsInk_of_prefix (h ▸ trimEnd_isPrefix _ _) hne
  · rintro (hnil | hink)
    · rw [hnil, trimEnd_eq_nil]
      exact trim_eq_nil.mp hnil
    · exact (trim_of_startsInk hink).symm

/-- The statement branch at the end of the text: nothing is behind the
closing brace. -/
theorem stmt_text_end_iff (content : Bytes) :
    asmText content = textOf content ↔
      trim content = [] ∨ StartsInk content ∧ EndsNoBrace content := by
  rw [asmText_eq, textOf, textNode_inj]
  constructor
  · intro h
    refine or_iff_not_imp_left.mpr fun hne => ?_
    have hpre : trim content <+: content := by
      rw [← h]
      split
      · exact ((trimEnd_isPrefix _ _).trans (List.dropLast_prefix _)).trans (trimEnd_isPrefix _ _)
      · exact trimEnd_isPrefix _ _
    have hink : StartsInk content := startsInk_of_prefix hpre hne
    refine ⟨hink, fun hlast => ?_⟩
    rw [trim_of_startsInk hink] at hlast h hne
    -- the brace would be lost
    rw [if_pos hlast] at h
    have hlen := congrArg List.length h
    have hle := (trimEnd_isPrefix isSpace (trimEnd isSpace content).dropLast).length_le
    rw [List.length_dropLast] at hle
    have hpos := List.length_pos_iff.mpr hne
    omega
  · rintro (hnil | ⟨hink, hlast⟩)
    · have hends : trimEnd isSpace content = [] := trimEnd_eq_nil.mpr (trim_eq_nil.mp hnil)
      rw [hnil, hends]
      rfl
    · unfold EndsNoBrace at hlast
      rw [trim_of_startsInk hink] at hlast ⊢
      rw [if_neg hlast]

/-- The statement branch, with `gap` between the closing brace and the next
token. -/
theorem stmt_text_gap_iff (content gap : Bytes) :
    asmText (content ++ ch '}' :: gap) = textOf content ↔
      (∀ c ∈ gap, isSpace c = true) ∧ (trim content = [] ∨ StartsInk content) := by
  have hbrace : trimEnd isSpace (content ++ [ch '}']) = content ++ [ch '}'] :=
    trimEnd_eq_self fun c hc => by
      rw [List.getLast?_concat] at hc
      rw [← Option.some.inj hc]
      exact isSpace_brace
  have hsplit : content ++ ch '}' :: gap = (content ++ [ch '}']) ++ gap := by simp
  rw [asmText_eq, textOf, textNode_inj, hsplit]
  by_cases hgap : ∀ c ∈ gap, isSpace c = true
  · rw [trimEnd_append_dropped hgap, hbrace, List.getLast?_concat, if_pos rfl, List.dropLast_concat,
      trimEnd_eq_trim_iff]
    exact (and_iff_right hgap).symm
  · -- the text behind the brace is captured with the brace
    refine ⟨fun h => ?_, fun h => absurd h.1 hgap⟩
    have hne : trimEnd isSpace gap ≠ [] := fun hnil => hgap (trimEnd_eq_nil.mp hnil)
    rw [trimEnd_append, if_neg hne] at h
    have hlen := congrArg List.length h
    have hle : (trim content).length ≤ content.length :=
      (trimEnd_isPrefix _ _).length_le.trans (List.dropWhile_suffix _).length_le
    have hkept : (content ++ [ch '}']).length ≤
        (trimEnd isSpace ((content ++ [ch '}']) ++ (trimEnd isSpace gap).dropLast)).length := by
      rw [trimEnd_append]
      split
      · rw [hbrace]
      · simp
    have hcontent : (content ++ [ch '}']).length = content.length + 1 := by simp
    split at hlen
    · rw [List.dropLast_append_of_ne_nil hne] at hlen
      omega
    · rw [List.length_append] at hlen
      omega

/-! ## §3 The closing brace -/

/-- The braces that are open behind a token. -/
def depthAfter (depth : Nat) (type : TokenType) : Nat :=
  if type = .lbrace then depth + 1 else if type = .rbrace then depth - 1 else depth

/-- The brace that closes `depth` open ones, and the tokens behind it. -/
def closing : Nat → List Token → Option (Token × List Token)
  | _, [] => none
  | depth, tok :: toks =>
    if tok.type = .eof then none
    else if depthAfter depth tok.type = 0 then some (tok, toks)
    else closing (depthAfter depth tok.type) toks

-- the equations, before the proofs that share them
section
attribute [local simp] depthAfter closing
end

theorem depthAfter_eq_zero {depth : Nat} {type : TokenType} (hdepth : 0 < depth)
    (h : depthAfter depth type = 0) : type = .rbrace ∧ depth = 1 := by
  unfold depthAfter at h
  split at h
  · omega
  · split at h
    · exact ⟨‹_›, by omega⟩
    · omega

theorem closing_type {close : Token} {rest : List Token} : ∀ {toks : List Token} {depth : Nat},
    0 < depth → closing depth toks = some (close, rest) → close.type = .rbrace := by
  intro toks
  induction toks with
  | nil => intro depth _ h; cases h
  | cons tok toks ih =>
    intro depth hdepth h
    rw [closing] at h
    split at h
    · cases h
    split at h
    · next hclose =>
      obtain ⟨rfl, -⟩ := Prod.mk.inj (Option.some.inj h)
      exact (depthAfter_eq_zero hdepth hclose).1
    · next hclose => exact ih (Nat.pos_of_ne_zero hclose) h

/-- The tokens of the parser from the current one on. -/
def Parser.tokens (p : Parser) : List Token := p.current :: p.lexer.pending

theorem tokens_advance {p : Parser} {tok : Token} {toks : List Token}
    (h : p.lexer.pending = tok :: toks) : p.advance.tokens = p.lexer.pending := by
  simp [Parser.tokens, Parser.advance, Lexer.advance, h]

theorem eof_advance (p : Parser) : p.advance.lexer.eof = p.lexer.eof := by
  simp only [Parser.advance, Lexer.advance]
  cases p.lexer.pending <;> rfl

theorem current_advance (p : Parser) :
    p.advance.current = p.lexer.pending.headD p.lexer.eof := by
  simp only [Parser.advance, Lexer.advance]
  cases p.lexer.pending <;> rfl

/-- The top-level loop stops at the closing brace. -/
theorem topAsm_returns {close : Token} {rest : List Token} : ∀ {toks : List Token} {depth : Nat}
    {p : Parser}, 0 < depth → p.hasCurrent = true → p.tokens = toks →
    closing depth toks = some (close, rest) →
    ∃ q, ProcReturns procs (.topAsm depth) p () q ∧ q.hasCurrent = true ∧ q.current = close := by
  intro toks
  induction toks with
  | nil => intro depth p _ _ htokens; cases htokens
  | cons tok toks ih =>
    intro depth p hdepth hcur htokens hclosing
    obtain ⟨rfl, hpending⟩ := List.cons.inj htokens
    have hens : p.ensure = p := ensure_of_hasCurrent hcur
    rw [closing] at hclosing
    have hne : p.current.type ≠ .eof := fun heof => by simp [heof] at hclosing
    rw [if_neg hne] at hclosing
    have hcheck : Steps procs (check .eof) p false p := by simp [hens, hne]
    have hbody : ∀ q, Steps procs (if depthAfter depth p.current.type = 0 then pure () else do
        advance
        recur (.topAsm (depthAfter depth p.current.type))) p () q →
        ProcReturns procs (.topAsm depth) p () q := by
      intro q h
      rw [procReturns_iff]
      change Steps procs (topAsm depth) p () q
      rw [topAsm, if_neg (Nat.pos_iff_ne_zero.mp hdepth)]
      exact steps_bind.mpr ⟨false, p, hcheck, steps_get_bind.mpr h⟩
    by_cases hclose : depthAfter depth p.current.type = 0
    · rw [if_pos hclose] at hclosing
      refine ⟨p, hbody p ?_, hcur, (Prod.mk.inj (Option.some.inj hclosing)).1⟩
      rw [if_pos hclose]
      exact steps_pure.mpr ⟨rfl, rfl⟩
    · rw [if_neg hclose] at hclosing
      cases toks with
      | nil => cases hclosing
      | cons next toks =>
        obtain ⟨q, hret, hq⟩ := ih (Nat.pos_of_ne_zero hclose) rfl
          ((tokens_advance hpending).trans hpending) hclosing
        refine ⟨q, hbody q ?_, hq⟩
        rw [if_neg hclose]
        exact steps_bind.mpr ⟨(), _, steps_advance.mpr rfl, steps_recur.mpr hret⟩

theorem asmBody_zero {p : Parser} {asmEnd : Bytes} : ProcReturns procs (.asmBody 0 asmEnd) p asmEnd p := by
  rw [procReturns_iff]
  change Steps procs (asmBody 0 asmEnd) p asmEnd p
  exact steps_pure.mpr ⟨rfl, rfl⟩

/-- The end that the statement loop keeps behind a token of type `type`, with
`next` the current one. -/
def endAfter (depth : Nat) (type : TokenType) (next : Token) : Bytes :=
  if type = .lbrace then next.tokStart
  else if type = .rbrace then if depth = 1 then next.tokStart else next.tokPos
  else next.tokPos

-- the equations, before the proofs that share them
section
attribute [local simp] endAfter
end

/-- The statement loop ends where the token behind the closing brace starts. -/
theorem asmBody_returns {close : Token} {rest : List Token} : ∀ {toks : List Token} {depth : Nat}
    {p : Parser} {asmEnd : Bytes}, 0 < depth → p.hasCurrent = true → p.tokens = toks →
    closing depth toks = some (close, rest) →
    ∃ q, ProcReturns procs (.asmBody depth asmEnd) p (rest.headD p.lexer.eof).tokStart q := by
  intro toks
  induction toks with
  | nil => intro depth p _ _ _ htokens; cases htokens
  | cons tok toks ih =>
    intro depth p asmEnd hdepth hcur htokens hclosing
    obtain ⟨rfl, hpending⟩ := List.cons.inj htokens
    have hens : p.ensure = p := ensure_of_hasCurrent hcur
    rw [closing] at hclosing
    have hne : p.current.type ≠ .eof := fun heof => by simp [heof] at hclosing
    rw [if_neg hne] at hclosing
    have hcheck : Steps procs (check .eof) p false p := by simp [hens, hne]
    have hbody : ∀ e q, ProcReturns procs (.asmBody (depthAfter depth p.current.type)
        (endAfter depth p.current.type p.advance.current)) p.advance e q →
        ProcReturns procs (.asmBody depth asmEnd) p e q := by
      intro e q h
      rw [procReturns_iff]
      change Steps procs (asmBody depth asmEnd) p e q
      rw [asmBody, if_neg (Nat.pos_iff_ne_zero.mp hdepth)]
      refine steps_bind.mpr ⟨false, p, hcheck, steps_advance_bind.mpr (steps_get_bind.mpr ?_)⟩
      have hprevious : p.advance.previous.type = p.current.type := rfl
      rw [hprevious]
      unfold depthAfter endAfter at h
      by_cases hopen : p.current.type = .lbrace
      · rw [if_pos hopen] at h ⊢
        rw [if_pos hopen] at h
        exact steps_recur.mpr h
      · rw [if_neg hopen] at h ⊢
        rw [if_neg hopen] at h
        by_cases hclose : p.current.type = .rbrace
        · rw [if_pos hclose] at h ⊢
          rw [if_pos hclose] at h
          exact steps_recur.mpr h
        · rw [if_neg hclose] at h ⊢
          rw [if_neg hclose] at h
          exact steps_recur.mpr h
    by_cases hclose : depthAfter depth p.current.type = 0
    · obtain ⟨htype, rfl⟩ := depthAfter_eq_zero hdepth hclose
      rw [if_pos hclose] at hclosing
      obtain ⟨-, rfl⟩ := Prod.mk.inj (Option.some.inj hclosing)
      have hend : endAfter 1 p.current.type p.advance.current =
          (toks.headD p.lexer.eof).tokStart := by
        rw [endAfter, if_neg (by rw [htype]; decide), if_pos htype, if_pos rfl, current_advance,
          hpending]
      refine ⟨p.advance, hbody _ _ ?_⟩
      rw [hclose, hend]
      exact asmBody_zero
    · rw [if_neg hclose] at hclosing
      cases toks with
      | nil => cases hclosing
      | cons next toks =>
        obtain ⟨q, hret⟩ := ih (Nat.pos_of_ne_zero hclose) rfl
          ((tokens_advance hpending).trans hpending) hclosing
        rw [eof_advance] at hret
        exact ⟨q, hbody _ _ hret⟩

/-! ## §4 The texts of a block -/

/-- The text strictly between the brace at `p` and the brace that closes it. -/
def blockContent (p : Parser) (close : Token) : Bytes :=
  textBetween p.current.tokPos close.tokStart

/-- The text before the first token of the block. -/
def blockLead (p : Parser) : Bytes := textBetween p.current.tokPos p.advance.current.tokStart

/-- The text from the first token of the block on. -/
def blockBody (p : Parser) (close : Token) : Bytes :=
  textBetween p.advance.current.tokStart close.tokStart

/-- The text between the closing brace and the token behind it. -/
def blockGap (p : Parser) (close : Token) (rest : List Token) : Bytes :=
  textBetween close.tokPos (rest.headD p.lexer.eof).tokStart

/-- How the texts at the tokens of a block follow each other. -/
structure BlockPlaces (p : Parser) (close : Token) (rest : List Token) : Prop where
  first : p.current.tokPos = blockLead p ++ p.advance.current.tokStart
  body : p.advance.current.tokStart = blockBody p close ++ close.tokStart
  brace : close.tokStart = ch '}' :: close.tokPos
  behind : (rest.headD p.lexer.eof).tokStart = close.tokStart ∨
    close.tokPos = blockGap p close rest ++ (rest.headD p.lexer.eof).tokStart

theorem textBetween_of_suffix {xs ys : Bytes} (h : ys <:+ xs) : xs = textBetween xs ys ++ ys := by
  obtain ⟨zs, rfl⟩ := h
  rw [textBetween_append]

theorem placed_closing {close eof : Token} {rest : List Token} : ∀ {toks : List Token}
    {depth : Nat} {start pos : Bytes}, 0 < depth → Lexing.Placed start pos toks eof →
    closing depth toks = some (close, rest) →
    (toks.headD eof).tokStart <:+ pos ∧ close.tokStart <:+ (toks.headD eof).tokStart ∧
      close.tokStart = ch '}' :: close.tokPos ∧
      ((rest.headD eof).tokStart = close.tokStart ∨ (rest.headD eof).tokStart <:+ close.tokPos) := by
  intro toks
  induction toks with
  | nil => intro depth start pos _ _ hclosing; cases hclosing
  | cons tok toks ih =>
    intro depth start pos hdepth hplaced hclosing
    obtain ⟨hstart, hpos, hbrace, hplaced⟩ := hplaced
    rw [closing] at hclosing
    split at hclosing
    · cases hclosing
    split at hclosing
    · next hclose =>
      obtain ⟨rfl, rfl⟩ := Prod.mk.inj (Option.some.inj hclosing)
      refine ⟨hstart, List.suffix_rfl, hbrace (depthAfter_eq_zero hdepth hclose).1, ?_⟩
      cases toks with
      | nil => exact hplaced
      | cons next toks => exact .inr hplaced.1
    · next hclose =>
      obtain ⟨hfirst, hsuffix, hends⟩ := ih (Nat.pos_of_ne_zero hclose) hplaced hclosing
      exact ⟨hstart, (hsuffix.trans hfirst).trans hpos, hends⟩

/-- The parser is at a token of the source. -/
def ParserOver (source : Bytes) (p : Parser) : Prop :=
  p.hasCurrent = true ∧ ∃ n, p.current = (Parser.advance^[n + 1] (parserCreate source)).current ∧
    p.lexer = (Parser.advance^[n + 1] (parserCreate source)).lexer

theorem placed_advance {p : Parser} {start pos : Bytes}
    (h : Lexing.Placed start pos p.lexer.pending p.lexer.eof) :
    Lexing.Placed p.advance.current.tokStart p.advance.current.tokPos p.advance.lexer.pending
      p.advance.lexer.eof := by
  cases hpending : p.lexer.pending with
  | nil =>
    have hnone : p.advance.lexer.pending = [] := by simp [Parser.advance, Lexer.advance, hpending]
    have heof : p.advance.current = p.lexer.eof := by rw [current_advance, hpending]; rfl
    rw [hnone, eof_advance, heof]
    exact .inl rfl
  | cons tok toks =>
    have hrest : p.advance.lexer.pending = toks := by simp [Parser.advance, Lexer.advance, hpending]
    have htok : p.advance.current = tok := by rw [current_advance, hpending]; rfl
    rw [hpending] at h
    rw [hrest, eof_advance, htok]
    exact h.2.2.2

theorem ParserOver.placed {source : Bytes} {p : Parser} (h : ParserOver source p) :
    Lexing.Placed p.current.tokStart p.current.tokPos p.lexer.pending p.lexer.eof := by
  obtain ⟨-, n, hcurrent, hlexer⟩ := h
  rw [hcurrent, hlexer]
  clear hcurrent hlexer
  induction n with
  | zero =>
    exact placed_advance (p := parserCreate source)
      (Lexing.placed_tokensLoop (source.length + 1) (tokenizerCreate source))
  | succ n ih =>
    rw [Function.iterate_succ_apply']
    exact placed_advance ih

theorem ParserOver.places {source : Bytes} {p : Parser} {close : Token} {rest : List Token}
    (h : ParserOver source p) (hclosing : closing 1 p.lexer.pending = some (close, rest)) :
    BlockPlaces p close rest := by
  obtain ⟨hfirst, hbody, hbrace, hbehind⟩ := placed_closing Nat.one_pos h.placed hclosing
  rw [← current_advance] at hfirst hbody
  exact ⟨textBetween_of_suffix hfirst, textBetween_of_suffix hbody, hbrace,
    hbehind.imp id textBetween_of_suffix⟩

/-! ## §5 What the branches capture -/

section Capture

variable {p p₀ : Parser} {close : Token} {rest : List Token} {outputs : List Bytes}

theorem tokens_of_closing (hclosing : closing 1 p.lexer.pending = some (close, rest)) :
    p.advance.tokens = p.lexer.pending := by
  cases hpending : p.lexer.pending with
  | nil =>
    rw [hpending] at hclosing
    cases hclosing
  | cons tok toks => exact (tokens_advance hpending).trans hpending

theorem steps_openBrace (hcur : p.hasCurrent = true) (hopen : p.current.type = .lbrace) :
    Steps procs (matchTok .lbrace) p true p.advance := by
  have hens : p.ensure = p := ensure_of_hasCurrent hcur
  exact (steps_matchTok_true (by rw [hens, hopen])).mpr ⟨rfl, by rw [hens]⟩

theorem declAsm_steps (hcur : p.hasCurrent = true) (hopen : p.current.type = .lbrace)
    (hclosing : closing 1 p.lexer.pending = some (close, rest)) (decls : List AstNode) :
    ∃ q, Steps procs (declAsm decls) p
      (decls ++ [.asmBlock (textNode (trimEnd isSpaceOrBrace (blockBody p close))) []]) q := by
  obtain ⟨q, hloop, hcur', hclose⟩ :=
    topAsm_returns (p := p.advance) Nat.one_pos rfl (tokens_of_closing hclosing) hclosing
  have hexpect : Steps procs (expect .rbrace) q () q.advance := by
    simp [expect, ensure_of_hasCurrent hcur', hclose, closing_type Nat.one_pos hclosing]
  have htext : textBetween p.advance.current.tokStart q.current.tokStart = blockBody p close := by
    rw [hclose, blockBody]
  refine ⟨q.advance, steps_bind.mpr ⟨true, p.advance, steps_openBrace hcur hopen, ?_⟩⟩
  refine steps_get_bind.mpr ?_
  refine steps_bind.mpr ⟨(), q, steps_recur.mpr hloop, ?_⟩
  refine steps_get_bind.mpr ?_
  dsimp only
  rw [htext]
  exact steps_bind.mpr ⟨(), q.advance, hexpect, steps_pure.mpr ⟨rfl, rfl⟩⟩

theorem parseAsm_steps (hcur : p.hasCurrent = true) (hopen : p.current.type = .lbrace)
    (hclosing : closing 1 p.lexer.pending = some (close, rest))
    (houtputs : Steps procs parseAsmOutputs p₀ outputs p) :
    ∃ q, Steps procs parseAsm p₀ (some (.asmBlock
      (asmText (textBetween p.current.tokPos (rest.headD p.lexer.eof).tokStart)) outputs)) q := by
  have hloop : ∃ q, ProcReturns procs (.asmBody 1 p.current.tokPos) p.advance
      (rest.headD p.advance.lexer.eof).tokStart q :=
    asmBody_returns Nat.one_pos rfl (tokens_of_closing hclosing) hclosing
  rw [eof_advance] at hloop
  obtain ⟨q, hloop⟩ := hloop
  refine ⟨q, steps_bind.mpr ⟨outputs, p, houtputs, ?_⟩⟩
  refine steps_bind.mpr ⟨true, p.advance, steps_openBrace hcur hopen, ?_⟩
  refine steps_get_bind.mpr ?_
  exact steps_bind.mpr ⟨_, q, steps_recur.mpr hloop, steps_pure.mpr ⟨rfl, rfl⟩⟩

end Capture

/-! ## §6 The blocks that are captured verbatim -/

/-- Both branches capture the text between the braces without the white space
around it. -/
def Verbatim (p : Parser) (content : Bytes) : Prop :=
  (∀ decls, ∃ q, Steps procs (declAsm decls) p (decls ++ [.asmBlock (textOf content) []]) q) ∧
    ∀ p₀ outputs, Steps procs parseAsmOutputs p₀ outputs p →
      ∃ q, Steps procs parseAsm p₀ (some (.asmBlock (textOf content) outputs)) q

/-- Only white space is between the closing brace and the next token, and the
block is blank, or starts right behind its brace and does not end in a brace. -/
def CapturedWhen (p : Parser) (close : Token) (rest : List Token) : Prop :=
  (∀ c ∈ blockGap p close rest, isSpace c = true) ∧
    (trim (blockContent p close) = [] ∨ blockLead p = [] ∧ StartsInk (blockContent p close) ∧
      EndsNoBrace (blockContent p close))

section Verbatim

variable {source : Bytes} {p : Parser} {close : Token} {rest : List Token}

theorem BlockPlaces.content (h : BlockPlaces p close rest) :
    blockContent p close = blockLead p ++ blockBody p close := by
  have htext : p.current.tokPos = (blockLead p ++ blockBody p close) ++ close.tokStart := by
    rw [List.append_assoc, ← h.body]
    exact h.first
  rw [blockContent, htext, textBetween_append]

theorem BlockPlaces.opening (h : BlockPlaces p close rest) :
    p.current.tokPos = blockContent p close ++ close.tokStart := by
  rw [h.content, List.append_assoc, ← h.body]
  exact h.first

/-- The statement branch, wherever the next token starts. -/
theorem BlockPlaces.stmt_text_iff (h : BlockPlaces p close rest) :
    asmText (textBetween p.current.tokPos (rest.headD p.lexer.eof).tokStart) =
        textOf (blockContent p close) ↔
      (∀ c ∈ blockGap p close rest, isSpace c = true) ∧
        (trim (blockContent p close) = [] ∨ StartsInk (blockContent p close) ∧
          ((rest.headD p.lexer.eof).tokStart = close.tokStart →
            EndsNoBrace (blockContent p close))) := by
  by_cases hend : (rest.headD p.lexer.eof).tokStart = close.tokStart
  · have hgap : blockGap p close rest = [] := by
      rw [blockGap, hend, h.brace]
      simp [textBetween]
    rw [hend, h.opening, textBetween_append, stmt_text_end_iff, hgap]
    simp
  · have hrest := h.behind.resolve_left hend
    have htext : p.current.tokPos = (blockContent p close ++ ch '}' :: blockGap p close rest) ++
        (rest.headD p.lexer.eof).tokStart := by
      rw [List.append_assoc, List.cons_append, ← hrest, ← h.brace]
      exact h.opening
    rw [htext, textBetween_append, stmt_text_gap_iff]
    exact and_congr_right fun _ => or_congr_right
      ⟨fun hink => ⟨hink, fun heq => absurd heq hend⟩, fun hink => hink.1⟩

theorem verbatim_iff_texts (hcur : p.hasCurrent = true) (hopen : p.current.type = .lbrace)
    (hclosing : closing 1 p.lexer.pending = some (close, rest)) : Verbatim p (blockContent p close) ↔
      textNode (trimEnd isSpaceOrBrace (blockBody p close)) = textOf (blockContent p close) ∧
      asmText (textBetween p.current.tokPos (rest.headD p.lexer.eof).tokStart) =
        textOf (blockContent p close) := by
  have hnone : Steps procs parseAsmOutputs p [] p := by
    have hens : p.ensure = p := ensure_of_hasCurrent hcur
    refine steps_bind.mpr ⟨false, p, (steps_matchTok_false ?_).mpr ⟨rfl, hens⟩, steps_pure.mpr ⟨rfl, rfl⟩⟩
    rw [hens, hopen]
    decide
  constructor
  · rintro ⟨htop, hstmt⟩
    constructor
    · obtain ⟨q, hq⟩ := htop []
      obtain ⟨q', hq'⟩ := declAsm_steps hcur hopen hclosing []
      have heq := (Prod.mk.inj (evals_det hq' hq)).1
      simpa using heq
    · obtain ⟨q, hq⟩ := hstmt p [] hnone
      obtain ⟨q', hq'⟩ := parseAsm_steps hcur hopen hclosing hnone
      have heq := (Prod.mk.inj (evals_det hq' hq)).1
      simpa using heq
  · rintro ⟨htop, hstmt⟩
    refine ⟨fun decls => ?_, fun p₀ outputs houtputs => ?_⟩
    · rw [← htop]
      exact declAsm_steps hcur hopen hclosing decls
    · rw [← hstmt]
      exact parseAsm_steps hcur hopen hclosing houtputs

/-- A block is captured verbatim by both branches if and only if its text
starts right behind the brace, ends in no brace, and only white space is
behind it. -/
theorem asm_verbatim_iff (hover : ParserOver source p) (hopen : p.current.type = .lbrace)
    (hclosing : closing 1 p.lexer.pending = some (close, rest)) :
    Verbatim p (blockContent p close) ↔ CapturedWhen p close rest := by
  have hplaces : BlockPlaces p close rest := hover.places hclosing
  rw [verbatim_iff_texts hover.1 hopen hclosing, hplaces.stmt_text_iff]
  have htop := top_text_iff (blockLead p) (blockBody p close)
  rw [← hplaces.content] at htop
  rw [htop]
  constructor
  · rintro ⟨htop, hgap, hstmt⟩
    refine ⟨hgap, ?_⟩
    rcases htop with hblank | ⟨hlead, hink, hbrace⟩
    · exact .inl hblank
    rcases hstmt with hblank | ⟨hfirst, -⟩
    · exact .inl hblank
    refine .inr ⟨?_, hfirst, hbrace⟩
    cases hcases : blockLead p with
    | nil => rfl
    | cons c cs =>
      rw [hplaces.content, hcases] at hfirst
      rw [hcases] at hlead
      exact absurd (hlead c (List.mem_cons_self ..)) (by simp [hfirst c rfl])
  · rintro ⟨hgap, hblank | ⟨hlead, hink, hbrace⟩⟩
    · exact ⟨.inl hblank, hgap, .inl hblank⟩
    · have hbody : blockContent p close = blockBody p close := by rw [hplaces.content, hlead]; rfl
      refine ⟨.inr ⟨by simp [hlead], hbody ▸ hink, hbrace⟩, hgap, .inr ⟨hink, fun _ => hbrace⟩⟩

end Verbatim

/-! ## §7 Two blocks -/

/-- The parser at the first token of a source. -/
def atStart (source : Bytes) : Parser := (parserCreate source).advance

theorem atStart_over (source : Bytes) : ParserOver source (atStart source) := ⟨rfl, 0, rfl, rfl⟩

/-- The texts of the block that starts the source. -/
def firstBlock (source : Bytes) : Option (Bytes × Bytes × Bytes) :=
  (closing 1 (atStart source).lexer.pending).map fun (close, rest) =>
    (blockContent (atStart source) close, blockLead (atStart source),
      blockGap (atStart source) close rest)

theorem closing_of_firstBlock {source content lead gap : Bytes}
    (h : firstBlock source = some (content, lead, gap)) : ∃ close rest,
      closing 1 (atStart source).lexer.pending = some (close, rest) ∧
      blockContent (atStart source) close = content ∧ blockLead (atStart source) = lead ∧
      blockGap (atStart source) close rest = gap := by
  obtain ⟨⟨close, rest⟩, hclosing, htexts⟩ := Option.map_eq_some_iff.mp h
  obtain ⟨hcontent, htexts⟩ := Prod.mk.inj htexts
  obtain ⟨hlead, hgap⟩ := Prod.mk.inj htexts
  exact ⟨close, rest, hclosing, hcontent, hlead, hgap⟩

/-- The block `{nop}`. -/
def nopBlock : Bytes := bytes "\x7bnop\x7d"

theorem asm_verbatim_iff_nop : Verbatim (atStart nopBlock) (bytes "nop") := by
  have htexts : firstBlock nopBlock = some (bytes "nop", [], []) := by decide
  obtain ⟨close, rest, hclosing, hcontent, hlead, hgap⟩ := closing_of_firstBlock htexts
  have hverbatim := (asm_verbatim_iff (atStart_over nopBlock) (by decide) hclosing).mpr ?_
  · rwa [hcontent] at hverbatim
  · rw [CapturedWhen, hgap, hcontent, hlead]
    refine ⟨by simp, .inr ⟨rfl, ?_, ?_⟩⟩
    · intro c hc
      obtain rfl := Option.some.inj hc
      decide
    · unfold EndsNoBrace
      decide

/-- The block with the nested block `{a{b}}`. -/
def nestedBlock : Bytes := bytes "\x7ba\x7bb\x7d\x7d"

/-- Its last inner brace is lost. -/
theorem not_always_verbatim : ¬ ∀ source p close rest, ParserOver source p →
    p.current.type = .lbrace → closing 1 p.lexer.pending = some (close, rest) →
    Verbatim p (blockContent p close) := by
  intro h
  have htexts : firstBlock nestedBlock = some (bytes "a\x7bb\x7d", [], []) := by decide
  obtain ⟨close, rest, hclosing, hcontent, -, -⟩ := closing_of_firstBlock htexts
  have hopen : (atStart nestedBlock).current.type = .lbrace := by decide
  have hverbatim := h nestedBlock _ close rest (atStart_over nestedBlock) hopen hclosing
  obtain ⟨htop, -⟩ := (verbatim_iff_texts rfl hopen hclosing).mp hverbatim
  have hplaces : BlockPlaces (atStart nestedBlock) close rest :=
    (atStart_over nestedBlock).places hclosing
  have hiff := top_text_iff (blockLead (atStart nestedBlock)) (blockBody (atStart nestedBlock) close)
  rw [← hplaces.content, hcontent] at hiff
  rw [hcontent] at htop
  rcases hiff.mp htop with hblank | ⟨-, -, hbrace⟩
  · revert hblank
    decide
  · revert hbrace
    unfold EndsNoBrace
    decide

end Aether
