/-
Aether.Asm.ParserTheorems — the bounds of `src/asm_parser.c`.

Every token but the end of the file takes a byte (`lexAt_suffix`), so every
function leaves the parser at a later place of the same text (`Behind`).
`asmBlockPass` is one pass of the loop of `asm_parse_block`; it takes at least
a byte, which ends the loop. An operand that begins with a size keyword is read
into a record of which only `mem` is set, and `UnsetAt` says at which passes
such a record gets into an element.
-/
import Aether.Asm.Parser
import Mathlib.Data.List.Infix

namespace Aether.Asm

-- the equations, before the proofs that share them
section
attribute [local simp] lexAt lexZero lexDigits stringLoop asmLexNext asmParseOperand asmParseMem
  asmParseDataValues asmParsePrefixes asmParseOperands asmParseInstruction asmParseDirective
  asmParseLabel asmSkipLine asmParseBlockLoop asmParseAfterBase asmParseScale asmParseDisp
  AsmParser.accept AsmParser.expect AsmParser.peek AsmParser.next
end

/-! ## §1 Tokens take bytes -/

theorem stringLoop_suffix (quote : UInt8) : ∀ cs, (stringLoop quote cs).2 <:+ cs
  | [] => List.suffix_rfl
  | c :: cs => by
    rw [stringLoop.eq_def]
    dsimp only
    split
    · exact List.suffix_cons c cs
    · split
      · cases cs with
        | nil => exact List.nil_suffix
        | cons d cs' =>
          exact ((stringLoop_suffix quote cs').trans (List.suffix_cons d cs')).trans
            (List.suffix_cons c _)
      · exact (stringLoop_suffix quote cs).trans (List.suffix_cons c cs)

theorem dropWhile_suffix_tail {accept : UInt8 → Bool} {c : UInt8} (hc : accept c = true)
    (cs : Bytes) : (c :: cs).dropWhile accept <:+ cs := by
  rw [List.dropWhile_cons_of_pos hc]
  exact List.dropWhile_suffix _

theorem lexZero_suffix (text cs : Bytes) : (lexZero text cs).2 <:+ cs := by
  unfold lexZero
  split
  · next c cs' =>
    split
    · exact (List.dropWhile_suffix _).trans (List.suffix_cons c cs')
    · split
      · exact (List.dropWhile_suffix _).trans (List.suffix_cons c cs')
      · exact List.suffix_rfl
  · exact List.suffix_rfl

/-- A token takes the character it starts with. -/
theorem lexAt_suffix (c : UInt8) (cs : Bytes) : (lexAt c cs).2 <:+ cs := by
  unfold lexAt
  split
  · exact List.suffix_rfl
  · split
    · exact stringLoop_suffix c cs
    · split
      · next hdigit =>
        split
        · exact lexZero_suffix _ cs
        · exact dropWhile_suffix_tail hdigit cs
      · split
        · exact List.suffix_rfl
        · split
          · next hword =>
            refine dropWhile_suffix_tail ?_ cs
            simp only [Bool.or_eq_true] at hword
            obtain (halpha | hunderscore) | hdot := hword
            · simp [isWordChar, halpha]
            · simp [isWordChar, hunderscore]
            · simp [isWordChar, hdot]
          · exact List.suffix_rfl

/-- Where a token starts: behind blanks and a comment. -/
def tokenStart (source : Bytes) : Bytes :=
  let text := source.dropWhile isBlank
  if text.head? = some (ch ';') then text.dropWhile (· != ch '\n') else text

theorem tokenStart_suffix (source : Bytes) : tokenStart source <:+ source := by
  unfold tokenStart
  dsimp only
  split
  · exact (List.dropWhile_suffix _).trans (List.dropWhile_suffix _)
  · exact List.dropWhile_suffix _

theorem asmLexNext_eq (source : Bytes) : asmLexNext source =
    match tokenStart source with
    | [] => ({ type := .eof }, [])
    | c :: cs => lexAt c cs := rfl

theorem asmLexNext_suffix (source : Bytes) : (asmLexNext source).2 <:+ source := by
  rw [asmLexNext_eq]
  have hstart := tokenStart_suffix source
  cases htext : tokenStart source with
  | nil => exact List.nil_suffix
  | cons c cs =>
    rw [htext] at hstart
    exact ((lexAt_suffix c cs).trans (List.suffix_cons c cs)).trans hstart

theorem asmLexNext_lt {source : Bytes} (h : (asmLexNext source).1.type ≠ .eof) :
    (asmLexNext source).2.length < source.length := by
  rw [asmLexNext_eq] at h ⊢
  have hstart := (tokenStart_suffix source).length_le
  cases htext : tokenStart source with
  | nil =>
    rw [htext] at h
    exact absurd rfl h
  | cons c cs =>
    rw [htext, List.length_cons] at hstart
    have hle := (lexAt_suffix c cs).length_le
    show (lexAt c cs).2.length < _
    omega

/-! ## §2 The parser moves forward -/

/-- The second parser stands in the text of the first, at its place or later. -/
def Behind (p q : AsmParser) : Prop := q.rest <:+ p.rest

theorem Behind.rfl {p : AsmParser} : Behind p p := List.suffix_rfl

theorem Behind.trans {p q r : AsmParser} (h : Behind p q) (h' : Behind q r) : Behind p r :=
  List.IsSuffix.trans h' h

theorem behind_next (p : AsmParser) : Behind p p.next := asmLexNext_suffix p.rest

theorem behind_error (p : AsmParser) (message : String) : Behind p (p.error message) := Behind.rfl

theorem next_lt {p : AsmParser} (h : p.peek.type ≠ .eof) : p.next.rest.length < p.rest.length :=
  asmLexNext_lt h

theorem behind_accept (p : AsmParser) (type : AsmTokenType) : Behind p (p.accept type).2 := by
  unfold AsmParser.accept
  split
  · exact behind_next p
  · exact .rfl

theorem behind_expectBracket (p : AsmParser) : Behind p (expectBracket p) := by
  unfold expectBracket AsmParser.expect
  split
  · exact behind_next p
  · exact behind_next p

theorem behind_disp (p : AsmParser) (mem : AsmMem) : Behind p (asmParseDisp p mem).2 := by
  unfold asmParseDisp
  dsimp only
  split
  · exact (behind_next p).trans (behind_next _)
  · exact .rfl

theorem behind_scale (p : AsmParser) (mem : AsmMem) : Behind p (asmParseScale p mem).2 := by
  unfold asmParseScale
  dsimp only
  split
  · exact (behind_next p).trans (behind_next _)
  · exact .rfl

theorem behind_afterBase (p : AsmParser) (mem : AsmMem) : Behind p (asmParseAfterBase p mem).2 := by
  unfold asmParseAfterBase
  dsimp only
  split
  · refine (behind_next p).trans ?_
    split
    · exact (behind_next _).trans ((behind_scale _ _).trans (behind_disp _ _))
    · split
      · exact behind_next _
      · exact .rfl
  · exact .rfl

theorem behind_mem (p : AsmParser) : Behind p (asmParseMem p).2.2 := by
  have haccept := behind_accept p .lbracket
  unfold asmParseMem
  dsimp only
  split
  · next q hq =>
    rw [hq] at haccept
    exact haccept
  · next q hq =>
    rw [hq] at haccept
    refine haccept.trans ?_
    split
    · exact (behind_next q).trans ((behind_next _).trans (behind_expectBracket _))
    · split
      · exact (behind_next q).trans ((behind_afterBase _ _).trans (behind_expectBracket _))
      · exact (behind_next q).trans (behind_expectBracket _)
      · exact (behind_next q).trans (behind_expectBracket _)
      · exact .rfl

theorem behind_operand (p : AsmParser) (op : AsmOperand) :
    Behind p (asmParseOperand p op).2.2 := by
  have hmem := behind_mem p
  unfold asmParseOperand
  dsimp only
  split
  · exact (behind_next p).trans (behind_mem _)
  · exact behind_next p
  · split
    · next hq =>
      rw [hq] at hmem
      exact hmem
    · next hq =>
      rw [hq] at hmem
      exact hmem
  · exact behind_next p
  · exact behind_next p
  · exact behind_next p
  · exact behind_next p
  · exact .rfl

theorem behind_dataValues (stale : AsmOperand) (room : Nat) : ∀ p,
    Behind p (asmParseDataValues stale room p).2 := by
  induction room with
  | zero => exact fun p => .rfl
  | succ room ih =>
    intro p
    have hop := behind_operand p stale
    rw [asmParseDataValues]
    split
    · next hq =>
      rw [hq] at hop
      exact hop
    · next op q hq =>
      rw [hq] at hop
      have haccept := behind_accept q .comma
      refine hop.trans ?_
      split
      · next hr =>
        rw [hr] at haccept
        exact haccept
      · next hr =>
        rw [hr] at haccept
        exact haccept.trans (ih _)

theorem behind_prefixes (fuel : Nat) : ∀ p, Behind p (asmParsePrefixes fuel p).2.2 := by
  induction fuel with
  | zero => exact fun p => .rfl
  | succ fuel ih =>
    intro p
    rw [asmParsePrefixes]
    split
    · exact (behind_next p).trans (ih p.next)
    · exact .rfl

theorem behind_operands (fuel : Nat) : ∀ (op : AsmOperand) (instr : AsmInstruction) (p : AsmParser),
    Behind p (asmParseOperands op instr fuel p).2.2 := by
  induction fuel with
  | zero => exact fun op instr p => .rfl
  | succ fuel ih =>
    intro op instr p
    have haccept := behind_accept p .comma
    rw [asmParseOperands]
    split
    · next hq =>
      rw [hq] at haccept
      exact haccept
    · next q hq =>
      rw [hq] at haccept
      have hop := behind_operand q op
      refine haccept.trans ?_
      split
      · next hr =>
        rw [hr] at hop
        exact hop
      · next hr =>
        rw [hr] at hop
        exact hop.trans (ih _ _ _)

theorem behind_skipLine (fuel : Nat) : ∀ p, Behind p (asmSkipLine fuel p) := by
  induction fuel with
  | zero => exact fun p => .rfl
  | succ fuel ih =>
    intro p
    rw [asmSkipLine]
    split
    · exact (behind_next p).trans (ih p.next)
    · exact .rfl

theorem behind_directive (stale : AsmOperand) (p : AsmParser) :
    Behind p.next (asmParseDirective stale p).2 := by
  unfold asmParseDirective
  dsimp only
  split
  · exact .rfl
  · split
    · exact behind_next _
    · exact behind_next _
    · exact behind_next _
    · exact behind_dataValues stale _ _
    · exact behind_next _
    · exact .rfl

/-- Where the operands of an instruction start: behind the mnemonic and a size keyword. -/
def operandsStart (p : AsmParser) : AsmParser :=
  let p := (asmParsePrefixes p.rest.length p).2.2.next
  if p.peek.type = .sizeSpec then p.next else p

theorem behind_operandsStart (p : AsmParser) : Behind p (operandsStart p) := by
  refine (behind_prefixes p.rest.length p).trans ((behind_next _).trans ?_)
  unfold operandsStart
  dsimp only
  split
  · exact behind_next _
  · exact .rfl

/-- The operands from where they start. -/
def instructionRest (stale : AsmOperand) (fuel : Nat) (instr : AsmInstruction) (p : AsmParser) :
    Option AsmInstruction × AsmParser :=
  if p.peek.type ≠ .newline ∧ p.peek.type ≠ .eof ∧ p.peek.type ≠ .colon then
    match asmParseOperand p stale with
    | (false, _, p) => (none, p)
    | (true, op, p) =>
      match asmParseOperands op (asmInstrAddOperand instr op) fuel p with
      | (true, instr, p) => (some instr, p)
      | (false, _, p) => (none, p)
  else (some instr, p)

/-- An instruction in front of its operands. -/
def instructionHead (p : AsmParser) : AsmInstruction :=
  let (lock, rep, q) := asmParsePrefixes p.rest.length p
  let instr := { asmInstrInit q.peek.text with isLockPrefix := lock, isRepPrefix := rep }
  if q.next.peek.type = .sizeSpec then { instr with sizeSpec := some (sizeSpecOf q.next.peek.text) }
  else instr

theorem asmParseInstruction_eq (stale : AsmOperand) (p : AsmParser) : asmParseInstruction stale p =
    if (asmParsePrefixes p.rest.length p).2.2.peek.type ≠ .ident then
      (none, (asmParsePrefixes p.rest.length p).2.2.error "expected instruction mnemonic")
    else instructionRest stale p.rest.length (instructionHead p) (operandsStart p) := by
  unfold asmParseInstruction instructionHead operandsStart instructionRest
  dsimp only
  split
  · rfl
  · split
    · rfl
    · rfl

theorem behind_instructionRest (stale : AsmOperand) (fuel : Nat) (instr : AsmInstruction)
    (p : AsmParser) : Behind p (instructionRest stale fuel instr p).2 := by
  have hop := behind_operand p stale
  unfold instructionRest
  split
  · split
    · next hq =>
      rw [hq] at hop
      exact hop
    · next op q hq =>
      rw [hq] at hop
      have hops := behind_operands fuel op (asmInstrAddOperand instr op) q
      refine hop.trans ?_
      split
      · next hr =>
        rw [hr] at hops
        exact hops
      · next hr =>
        rw [hr] at hops
        exact hops
  · exact .rfl

theorem behind_instruction (stale : AsmOperand) (p : AsmParser) :
    Behind p (asmParseInstruction stale p).2 := by
  rw [asmParseInstruction_eq]
  split
  · exact behind_prefixes _ p
  · exact (behind_operandsStart p).trans (behind_instructionRest ..)

/-! ## §3 A pass of the loop -/

/-- One pass of `asm_parse_block`: the elements it adds and where it leaves the parser. -/
def asmBlockPass (stale : AsmOperand) (p : AsmParser) : Option (List AsmElement × AsmParser) :=
  match p.peek.type with
  | .eof => none
  | .newline => some ([], p.next)
  | type =>
    match asmParseLabel p with
    | some (label, p) => some ([.label label], p)
    | none =>
      match type with
      | .directive =>
        let (dir, p) := asmParseDirective stale p
        some ((dir.map AsmElement.directive).toList, asmSkipLine p.rest.length p)
      | .ident | .prefixWord | .lbracket =>
        let (instr, p) := asmParseInstruction stale p
        some ((instr.map AsmElement.instruction).toList, asmSkipLine p.rest.length p)
      | _ => some ([], p.next)

theorem asmParseBlockLoop_eq (stale : AsmOperand) (fuel : Nat) (p : AsmParser) :
    asmParseBlockLoop stale (fuel + 1) p = match asmBlockPass stale p with
      | none => ([], p)
      | some (elements, q) =>
        (elements ++ (asmParseBlockLoop stale fuel q).1, (asmParseBlockLoop stale fuel q).2) := by
  rw [asmParseBlockLoop, asmBlockPass]
  cases htype : p.peek.type with
  | eof => rfl
  | newline => rfl
  | _ =>
    cases hlabel : asmParseLabel p with
    | none => rfl
    | some result => rfl

/-- The recovery loop ends at a line end or at the end of the text. -/
theorem skipLine_stops (p : AsmParser) (fuel : Nat) (h : p.rest.length ≤ fuel) :
    (asmSkipLine fuel p).peek.type = .newline ∨ (asmSkipLine fuel p).peek.type = .eof := by
  induction fuel generalizing p with
  | zero =>
    have hnil : p.rest = [] := List.eq_nil_of_length_eq_zero (by omega)
    refine .inr ?_
    rw [asmSkipLine, AsmParser.peek, hnil]
    rfl
  | succ fuel ih =>
    rw [asmSkipLine]
    split
    · next hgoes =>
      have hlt := next_lt hgoes.2
      exact ih p.next (by omega)
    · next hstops =>
      by_cases hline : p.peek.type = .newline
      · exact .inl hline
      · exact .inr (by by_contra heof; exact hstops ⟨hline, heof⟩)

/-- Off a line end the recovery loop takes a byte. -/
theorem skipLine_lt {p : AsmParser} (hline : p.peek.type ≠ .newline) (heof : p.peek.type ≠ .eof) :
    (asmSkipLine p.rest.length p).rest.length < p.rest.length := by
  have hlt := next_lt heof
  obtain ⟨n, hn⟩ : ∃ n, p.rest.length = n + 1 := ⟨p.rest.length - 1, by omega⟩
  have hskip : asmSkipLine p.rest.length p = asmSkipLine n p.next := by
    rw [hn, asmSkipLine, if_pos ⟨hline, heof⟩]
  rw [hskip]
  exact Nat.lt_of_le_of_lt (behind_skipLine n p.next).length_le hlt

theorem behind_label {p q : AsmParser} {label : AsmLabel} (h : asmParseLabel p = some (label, q)) :
    Behind p q ∧ q.rest.length < p.rest.length := by
  simp only [asmParseLabel] at h
  split at h
  · next hlabel =>
    cases h
    have hlt := next_lt (p := p) (by rw [hlabel.1]; decide)
    have hle := (behind_next p.next).length_le
    exact ⟨(behind_next p).trans (behind_next _), by omega⟩
  · cases h

/-- Whatever was parsed of a line that starts with a word or a bracket, it is left behind. -/
theorem skipLine_behind {p q : AsmParser} (h : Behind p q) (hline : p.peek.type ≠ .newline)
    (heof : p.peek.type ≠ .eof) :
    (asmSkipLine q.rest.length q).rest.length < p.rest.length := by
  have hle := (behind_skipLine q.rest.length q).length_le
  by_cases hsame : q.rest = p.rest
  · have hpeek : q.peek = p.peek := by rw [AsmParser.peek, AsmParser.peek, hsame]
    have hlt := skipLine_lt (p := q) (by rwa [hpeek]) (by rwa [hpeek])
    rwa [← hsame]
  · have hlt : q.rest.length < p.rest.length :=
      Nat.lt_of_le_of_ne h.length_le fun hlen => hsame (h.eq_of_length hlen)
    omega

/-- A pass stays in the text and takes at least a byte. -/
theorem pass_forward {stale : AsmOperand} {p q : AsmParser} {elements : List AsmElement}
    (h : asmBlockPass stale p = some (elements, q)) :
    Behind p q ∧ q.rest.length < p.rest.length := by
  unfold asmBlockPass at h
  split at h
  · cases h
  · next hline =>
    cases h
    exact ⟨behind_next p, next_lt (by rw [hline]; decide)⟩
  · next heof hline =>
    have heof : p.peek.type ≠ .eof := heof
    have hline : p.peek.type ≠ .newline := hline
    split at h
    · next hlabel =>
      cases h
      exact behind_label hlabel
    · split at h
      · cases h
        have hbehind : Behind p (asmParseDirective stale p).2 :=
          (behind_next p).trans (behind_directive stale p)
        exact ⟨hbehind.trans (behind_skipLine _ _), skipLine_behind hbehind hline heof⟩
      · cases h
        have hbehind := behind_instruction stale p
        exact ⟨hbehind.trans (behind_skipLine _ _), skipLine_behind hbehind hline heof⟩
      · cases h
        have hbehind := behind_instruction stale p
        exact ⟨hbehind.trans (behind_skipLine _ _), skipLine_behind hbehind hline heof⟩
      · cases h
        have hbehind := behind_instruction stale p
        exact ⟨hbehind.trans (behind_skipLine _ _), skipLine_behind hbehind hline heof⟩
      · cases h
        exact ⟨behind_next p, next_lt heof⟩

/-- The parser stands here before some pass. -/
inductive Passes (stale : AsmOperand) (p : AsmParser) : AsmParser → Prop where
  | start : Passes stale p p
  | next {q r : AsmParser} {elements : List AsmElement} (h : Passes stale p q)
    (hpass : asmBlockPass stale q = some (elements, r)) : Passes stale p r

theorem Passes.behind {stale : AsmOperand} {p q : AsmParser} (h : Passes stale p q) :
    Behind p q := by
  induction h with
  | start => exact .rfl
  | next _ hpass ih => exact ih.trans (pass_forward hpass).1

theorem Passes.head {stale : AsmOperand} {p q r : AsmParser} {elements : List AsmElement}
    (hpass : asmBlockPass stale p = some (elements, q)) (h : Passes stale q r) :
    Passes stale p r := by
  induction h with
  | start => exact .next .start hpass
  | next _ hlast ih => exact .next ih hlast

theorem Passes.cases_head {stale : AsmOperand} {p r : AsmParser} (h : Passes stale p r) :
    r = p ∨ ∃ elements q, asmBlockPass stale p = some (elements, q) ∧ Passes stale q r := by
  induction h with
  | start => exact .inl rfl
  | next _ hlast ih =>
    obtain rfl | ⟨elements, q, hpass, hrest⟩ := ih
    · exact .inr ⟨_, _, hlast, .start⟩
    · exact .inr ⟨elements, q, hpass, .next hrest hlast⟩

/-- What the loop ends with: the elements of all passes, at the end of the text. -/
structure Parsed (stale : AsmOperand) (p : AsmParser) (block : AsmIRBlock) (q : AsmParser) :
    Prop where
  returns : ∀ fuel, p.rest.length < fuel → asmParseBlockLoop stale fuel p = (block, q)
  atEnd : q.peek.type = .eof
  elements : ∀ e, e ∈ block ↔ ∃ r added r', Passes stale p r ∧
    asmBlockPass stale r = some (added, r') ∧ e ∈ added

theorem eof_of_pass {stale : AsmOperand} {p : AsmParser} (h : asmBlockPass stale p = none) :
    p.peek.type = .eof := by
  unfold asmBlockPass at h
  split at h
  · assumption
  · cases h
  · split at h
    · cases h
    · split at h
      all_goals cases h

/-- The loop ends. -/
theorem parsed (stale : AsmOperand) (n : Nat) : ∀ p : AsmParser, p.rest.length = n →
    ∃ block q, Parsed stale p block q := by
  induction n using Nat.strongRecOn with
  | ind n ih =>
    intro p hn
    cases hpass : asmBlockPass stale p with
    | none =>
      refine ⟨[], p, fun fuel hfuel => ?_, eof_of_pass hpass, fun e => ?_⟩
      · obtain ⟨fuel, rfl⟩ : ∃ m, fuel = m + 1 := ⟨fuel - 1, by omega⟩
        rw [asmParseBlockLoop_eq, hpass]
      · refine iff_of_false List.not_mem_nil ?_
        intro ⟨r, added, r', hpasses, hadds, _⟩
        obtain rfl | ⟨elements, q, hfirst, -⟩ := hpasses.cases_head
        · rw [hpass] at hadds
          cases hadds
        · rw [hpass] at hfirst
          cases hfirst
    | some result =>
      obtain ⟨elements, q⟩ := result
      have hlt := (pass_forward hpass).2
      obtain ⟨block, last, hparsed⟩ := ih q.rest.length (by omega) q rfl
      refine ⟨elements ++ block, last, fun fuel hfuel => ?_, hparsed.atEnd, fun e => ?_⟩
      · obtain ⟨fuel, rfl⟩ : ∃ m, fuel = m + 1 := ⟨fuel - 1, by omega⟩
        rw [asmParseBlockLoop_eq, hpass]
        show (elements ++ (asmParseBlockLoop stale fuel q).1, _) = _
        rw [hparsed.returns fuel (by omega)]
      · rw [List.mem_append, hparsed.elements]
        constructor
        · intro h
          obtain hmem | ⟨r, added, r', hpasses, hadds, hmem⟩ := h
          · exact ⟨p, elements, q, .start, hpass, hmem⟩
          · exact ⟨r, added, r', .head hpass hpasses, hadds, hmem⟩
        · intro ⟨r, added, r', hpasses, hadds, hmem⟩
          obtain rfl | ⟨elements', q', hfirst, hrest⟩ := hpasses.cases_head
          · rw [hpass] at hadds
            cases hadds
            exact .inl hmem
          · rw [hpass] at hfirst
            cases hfirst
            exact .inr ⟨r, added, r', hrest, hadds, hmem⟩

/-! ## §4 The fields of the elements -/

/-- `ASM_MAX_MNEMONIC_LEN`, with the NUL. -/
def ASM_MAX_MNEMONIC_LEN : Nat := 12

/-- The labels of an operand are terminated within their fields. -/
structure OperandBounded (op : AsmOperand) : Prop where
  label : op.label.length < ASM_MAX_LABEL_LEN
  memLabel : op.mem.label.length < ASM_MAX_LABEL_LEN

/-- At most `ASM_MAX_OPERANDS` operands, and every name terminated within its field. -/
def ElementBounded : AsmElement → Prop
  | .instruction instr => instr.mnemonic.length < ASM_MAX_MNEMONIC_LEN ∧
    instr.operands.length ≤ ASM_MAX_OPERANDS ∧ ∀ op ∈ instr.operands, OperandBounded op
  | .directive dir => dir.name.length < ASM_MAX_LABEL_LEN ∧
    dir.dataOperands.length ≤ ASM_MAX_OPERANDS ∧ ∀ op ∈ dir.dataOperands, OperandBounded op
  | .label label => label.name.length < ASM_MAX_LABEL_LEN
  | .comment _ => True

theorem length_tokCopy_lt (tok : AsmToken) : (tokCopy tok).length < ASM_MAX_LABEL_LEN := by
  rw [tokCopy, List.length_take, ASM_MAX_LABEL_LEN]
  omega

theorem length_labelField_lt (text : Bytes) : (labelField text).length < ASM_MAX_LABEL_LEN := by
  rw [labelField, List.length_take, ASM_MAX_LABEL_LEN]
  omega

theorem disp_label (p : AsmParser) (mem : AsmMem) : (asmParseDisp p mem).1.label = mem.label := by
  unfold asmParseDisp
  dsimp only
  split
  · split <;> rfl
  · rfl

theorem scale_label (p : AsmParser) (mem : AsmMem) : (asmParseScale p mem).1.label = mem.label := by
  unfold asmParseScale
  dsimp only
  split
  · split <;> rfl
  · rfl

theorem afterBase_label (p : AsmParser) (mem : AsmMem) :
    (asmParseAfterBase p mem).1.label = mem.label := by
  unfold asmParseAfterBase
  dsimp only
  split
  · split
    · rw [disp_label, scale_label]
    · split <;> rfl
  · rfl

theorem mem_bounded (p : AsmParser) : (asmParseMem p).2.1.label.length < ASM_MAX_LABEL_LEN := by
  have hinit : (asmMemInit.label).length < ASM_MAX_LABEL_LEN := by decide
  unfold asmParseMem
  dsimp only
  split
  · exact hinit
  · split
    · split
      · exact length_tokCopy_lt _
      · exact hinit
    · split
      · rw [afterBase_label]
        exact hinit
      · exact length_tokCopy_lt _
      · exact hinit
      · exact hinit

/-- An operand that begins with a size keyword keeps the label of its record, any other one sets
all its fields. -/
theorem operand_read {p q : AsmParser} {op op' : AsmOperand}
    (h : asmParseOperand p op = (true, op', q)) :
    op'.mem.label.length < ASM_MAX_LABEL_LEN ∧
      if p.peek.type = .sizeSpec then op'.label = op.label
      else op'.label.length < ASM_MAX_LABEL_LEN := by
  have hzero : ([] : Bytes).length < ASM_MAX_LABEL_LEN := by decide
  unfold asmParseOperand at h
  dsimp only at h
  split at h
  · next htype =>
    simp only [Prod.mk.injEq] at h
    obtain ⟨-, rfl, -⟩ := h
    exact ⟨mem_bounded p.next, by rw [if_pos htype]⟩
  · next htype =>
    cases h
    exact ⟨hzero, by rw [if_neg (by rw [htype]; decide)]; exact hzero⟩
  · next htype =>
    have hmem := mem_bounded p
    split at h
    · next hq =>
      cases h
      rw [hq] at hmem
      exact ⟨hmem, by rw [if_neg (by rw [htype]; decide)]; exact hzero⟩
    · cases h
  · next htype =>
    cases h
    exact ⟨hzero, by rw [if_neg (by rw [htype]; decide)]; exact hzero⟩
  · next htype =>
    cases h
    exact ⟨hzero, by rw [if_neg (by rw [htype]; decide)]; exact hzero⟩
  · next htype =>
    cases h
    exact ⟨hzero, by rw [if_neg (by rw [htype]; decide)]; exact length_labelField_lt _⟩
  · next htype =>
    cases h
    exact ⟨hzero, by rw [if_neg (by rw [htype]; decide)]; exact hzero⟩
  · cases h

theorem operand_bounded {p q : AsmParser} {op op' : AsmOperand}
    (h : asmParseOperand p op = (true, op', q))
    (hset : op.label.length < ASM_MAX_LABEL_LEN ∨ p.peek.type ≠ .sizeSpec) :
    OperandBounded op' := by
  obtain ⟨hmem, hlabel⟩ := operand_read h
  refine ⟨?_, hmem⟩
  split at hlabel
  · next htype =>
    rw [hlabel]
    exact hset.resolve_right (absurd htype)
  · exact hlabel

/-- What is read, and from where on, does not depend on the record. -/
theorem operand_same (p : AsmParser) (op op' : AsmOperand) :
    (asmParseOperand p op).1 = (asmParseOperand p op').1 ∧
      (asmParseOperand p op).2.2 = (asmParseOperand p op').2.2 := by
  unfold asmParseOperand
  dsimp only
  split
  · exact ⟨rfl, rfl⟩
  · exact ⟨rfl, rfl⟩
  · split <;> exact ⟨rfl, rfl⟩
  all_goals exact ⟨rfl, rfl⟩

/-- One of the values begins with a size keyword. -/
def dataUnset : Nat → AsmParser → Prop
  | 0, _ => False
  | room + 1, p =>
    (asmParseOperand p {}).1 = true ∧
      (p.peek.type = .sizeSpec ∨
        (((asmParseOperand p {}).2.2.accept .comma).1 = true ∧
          dataUnset room ((asmParseOperand p {}).2.2.accept .comma).2))

theorem dataValues_bounded (stale : AsmOperand) (room : Nat) : ∀ p : AsmParser,
    (asmParseDataValues stale room p).1.length ≤ room ∧
      (stale.label.length < ASM_MAX_LABEL_LEN ∨ ¬ dataUnset room p →
        ∀ op ∈ (asmParseDataValues stale room p).1, OperandBounded op) ∧
      (dataUnset room p → ∃ op ∈ (asmParseDataValues stale room p).1, op.label = stale.label) := by
  induction room with
  | zero => exact fun p => ⟨Nat.le_refl 0, fun _ _ h => absurd h List.not_mem_nil, fun h => h.elim⟩
  | succ room ih =>
    intro p
    obtain ⟨hok, hnext⟩ := operand_same p stale {}
    rw [asmParseDataValues, dataUnset, ← hok, ← hnext]
    cases hop : asmParseOperand p stale with
    | mk ok result =>
      obtain ⟨op, q⟩ := result
      cases ok with
      | false => simp
      | true =>
        cases haccept : q.accept .comma with
        | mk taken r =>
          have hset : stale.label.length < ASM_MAX_LABEL_LEN ∨ p.peek.type ≠ .sizeSpec →
              OperandBounded op := operand_bounded hop
          have hkept : p.peek.type = .sizeSpec → op.label = stale.label := by
            intro htype
            have hread := (operand_read hop).2
            rwa [if_pos htype] at hread
          cases taken with
          | false =>
            simp only [haccept, List.length_singleton, List.mem_singleton, Bool.false_eq_true,
              false_and, or_false, true_and, forall_eq, exists_eq_left]
            exact ⟨by omega, hset, hkept⟩
          | true =>
            obtain ⟨hlength, hall, hone⟩ := ih r
            simp only [haccept, List.length_cons, List.mem_cons, true_and]
            refine ⟨by omega, fun hgood op' hmem => ?_, fun hunset => ?_⟩
            · obtain rfl | hmem := hmem
              · exact hset (hgood.imp_right fun h htype => h (.inl htype))
              · exact hall (hgood.imp_right fun h hrest => h (.inr hrest)) op' hmem
            · obtain htype | hrest := hunset
              · exact ⟨op, .inl rfl, hkept htype⟩
              · obtain ⟨op', hmem, hlabel⟩ := hone hrest
                exact ⟨op', .inr hmem, hlabel⟩

theorem addOperand_bounded {instr : AsmInstruction} {op : AsmOperand}
    (h : ElementBounded (.instruction instr)) (hop : OperandBounded op) :
    ElementBounded (.instruction (asmInstrAddOperand instr op)) := by
  unfold asmInstrAddOperand
  split
  · exact h
  · next hroom =>
    obtain ⟨hmnemonic, -, hops⟩ := h
    refine ⟨hmnemonic, ?_, fun op' hmem => ?_⟩
    · simp only [List.length_append, List.length_singleton]
      omega
    · obtain hmem | hmem := List.mem_append.mp hmem
      · exact hops op' hmem
      · rw [List.mem_singleton.mp hmem]
        exact hop

theorem operands_bounded (fuel : Nat) : ∀ {op : AsmOperand} {instr instr' : AsmInstruction}
    {p q : AsmParser}, OperandBounded op → ElementBounded (.instruction instr) →
    asmParseOperands op instr fuel p = (true, instr', q) →
    ElementBounded (.instruction instr') := by
  induction fuel with
  | zero =>
    intro op instr instr' p q hop hinstr h
    cases h
    exact hinstr
  | succ fuel ih =>
    intro op instr instr' p q hop hinstr h
    rw [asmParseOperands] at h
    split at h
    · cases h
      exact hinstr
    · split at h
      · cases h
      · next hnext =>
        have hbounded := operand_bounded hnext (.inl hop.label)
        exact ih hbounded (addOperand_bounded hinstr hbounded) h

/-- An operand that is there stays there. -/
theorem operands_keep (fuel : Nat) : ∀ {op kept : AsmOperand} {instr instr' : AsmInstruction}
    {p q : AsmParser}, kept ∈ instr.operands →
    asmParseOperands op instr fuel p = (true, instr', q) → kept ∈ instr'.operands := by
  induction fuel with
  | zero =>
    intro op kept instr instr' p q hkept h
    cases h
    exact hkept
  | succ fuel ih =>
    intro op kept instr instr' p q hkept h
    rw [asmParseOperands] at h
    split at h
    · cases h
      exact hkept
    · split at h
      · cases h
      · refine ih ?_ h
        unfold asmInstrAddOperand
        split
        · exact hkept
        · exact List.mem_append_left _ hkept

/-! ## §5 The elements of a pass -/

theorem instructionHead_bounded (p : AsmParser) :
    ElementBounded (.instruction (instructionHead p)) ∧ (instructionHead p).operands = [] := by
  have hmnemonic : ∀ text : Bytes, (text.take 11).length < ASM_MAX_MNEMONIC_LEN := by
    intro text
    rw [List.length_take, ASM_MAX_MNEMONIC_LEN]
    omega
  unfold instructionHead
  dsimp only
  split
  · exact ⟨⟨hmnemonic _, Nat.zero_le _, fun op h => absurd h List.not_mem_nil⟩, rfl⟩
  · exact ⟨⟨hmnemonic _, Nat.zero_le _, fun op h => absurd h List.not_mem_nil⟩, rfl⟩

theorem instructionRest_bounded {stale : AsmOperand} {fuel : Nat} {instr instr' : AsmInstruction}
    {p q : AsmParser} (hinstr : ElementBounded (.instruction instr))
    (h : instructionRest stale fuel instr p = (some instr', q))
    (hset : stale.label.length < ASM_MAX_LABEL_LEN ∨ p.peek.type ≠ .sizeSpec) :
    ElementBounded (.instruction instr') := by
  unfold instructionRest at h
  split at h
  · split at h
    · cases h
    · next hop =>
      have hbounded := operand_bounded hop hset
      split at h
      · next hops =>
        cases h
        exact operands_bounded fuel hbounded (addOperand_bounded hinstr hbounded) hops
      · cases h
  · cases h
    exact hinstr

theorem instructionRest_unset {stale : AsmOperand} {fuel : Nat} {instr instr' : AsmInstruction}
    {p q : AsmParser} (hnone : instr.operands = [])
    (h : instructionRest stale fuel instr p = (some instr', q)) (htype : p.peek.type = .sizeSpec) :
    ∃ op ∈ instr'.operands, op.label = stale.label := by
  rw [instructionRest, if_pos (by rw [htype]; decide)] at h
  split at h
  · cases h
  · next op r hop =>
    have hlabel := (operand_read hop).2
    rw [if_pos htype] at hlabel
    split at h
    · next hops =>
      cases h
      refine ⟨op, operands_keep fuel ?_ hops, hlabel⟩
      simp [asmInstrAddOperand, hnone, ASM_MAX_OPERANDS]
    · cases h

theorem instruction_bounded_iff (stale : AsmOperand) (p : AsmParser) :
    (∀ instr, (asmParseInstruction stale p).1 = some instr → ElementBounded (.instruction instr)) ↔
      (stale.label.length < ASM_MAX_LABEL_LEN ∨
        ¬ ((asmParseInstruction stale p).1.isSome = true ∧
          (operandsStart p).peek.type = .sizeSpec)) := by
  rw [asmParseInstruction_eq]
  split
  · exact iff_of_true (fun instr h => nomatch h) (.inr fun h => nomatch h.1)
  · obtain ⟨hhead, hnone⟩ := instructionHead_bounded p
    cases hrest : instructionRest stale p.rest.length (instructionHead p) (operandsStart p) with
    | mk result q =>
      cases result with
      | none => exact iff_of_true (fun instr h => nomatch h) (.inr fun h => nomatch h.1)
      | some instr =>
        simp only [Option.some.injEq, forall_eq', Option.isSome_some, true_and]
        constructor
        · intro hbounded
          by_contra hbad
          obtain ⟨hlong, htype⟩ := not_or.mp hbad
          obtain ⟨op, hmem, hlabel⟩ := instructionRest_unset hnone hrest (not_not.mp htype)
          exact hlong (hlabel ▸ (hbounded.2.2 op hmem).label)
        · exact fun hset => instructionRest_bounded hhead hrest hset

theorem directive_bounded_iff (stale : AsmOperand) {p : AsmParser} (htype : p.peek.type = .directive) :
    (∀ dir, (asmParseDirective stale p).1 = some dir → ElementBounded (.directive dir)) ↔
      (stale.label.length < ASM_MAX_LABEL_LEN ∨
        ¬ ((directiveKind p.peek.text).2 = .data ∧ dataUnset ASM_MAX_OPERANDS p.next)) := by
  obtain ⟨hlength, hall, hone⟩ := dataValues_bounded stale ASM_MAX_OPERANDS p.next
  have hplain : ∀ dir : AsmDirective, dir.name.length < ASM_MAX_LABEL_LEN → dir.dataOperands = [] →
      ElementBounded (.directive dir) := by
    intro dir hname hnone
    refine ⟨hname, by simp [hnone], fun op hmem => ?_⟩
    rw [hnone] at hmem
    cases hmem
  unfold asmParseDirective
  rw [if_neg (not_not.mpr htype)]
  cases hkind : directiveKind p.peek.text with
  | mk type arg =>
    cases arg with
    | data =>
      simp only [Option.some.injEq, forall_eq', true_and]
      constructor
      · intro hbounded
        by_contra hbad
        obtain ⟨hlong, hunset⟩ := not_or.mp hbad
        obtain ⟨op, hmem, hlabel⟩ := hone (not_not.mp hunset)
        exact hlong (hlabel ▸ (hbounded.2.2 op hmem).label)
      · exact fun hset => ⟨length_tokCopy_lt _, hlength, hall hset⟩
    | none =>
      refine iff_of_true (fun dir h => ?_) (.inr fun h => by cases h.1)
      cases h
      exact hplain _ (length_tokCopy_lt _) rfl
    | _ =>
      refine iff_of_true (fun dir h => ?_) (.inr fun h => by cases h.1)
      cases h
      split
      · exact hplain _ (length_tokCopy_lt _) rfl
      · exact hplain _ (length_tokCopy_lt _) rfl

/-- A pass at which an operand is read into a record that nothing set, and kept. -/
def UnsetAt (stale : AsmOperand) (p : AsmParser) : Prop :=
  asmParseLabel p = none ∧
    ((p.peek.type = .directive ∧ (directiveKind p.peek.text).2 = .data ∧
        dataUnset ASM_MAX_OPERANDS p.next) ∨
      ((p.peek.type = .ident ∨ p.peek.type = .prefixWord ∨ p.peek.type = .lbracket) ∧
        (asmParseInstruction stale p).1.isSome = true ∧
        (operandsStart p).peek.type = .sizeSpec))

theorem forall_mem_toList {α : Type} {f : α → AsmElement} {o : Option α} :
    (∀ e ∈ (o.map f).toList, ElementBounded e) ↔ ∀ a, o = some a → ElementBounded (f a) := by
  cases o <;> simp

/-- The elements of a pass are within bounds exactly when no unset record gets into them. -/
theorem pass_bounded_iff {stale : AsmOperand} {p q : AsmParser} {elements : List AsmElement}
    (h : asmBlockPass stale p = some (elements, q)) : (∀ e ∈ elements, ElementBounded e) ↔
      (stale.label.length < ASM_MAX_LABEL_LEN ∨ ¬ UnsetAt stale p) := by
  have hnothing : ∀ e ∈ ([] : List AsmElement), ElementBounded e := fun e h => absurd h List.not_mem_nil
  rw [asmBlockPass] at h
  cases hlabel : asmParseLabel p with
  | some result =>
    have hnot : ¬ UnsetAt stale p := by
      intro hunset
      rw [UnsetAt, hlabel] at hunset
      cases hunset.1
    refine iff_of_true ?_ (.inr hnot)
    obtain ⟨label, r⟩ := result
    have hname : ElementBounded (.label label) := by
      simp only [asmParseLabel] at hlabel
      split at hlabel
      · cases hlabel
        exact length_tokCopy_lt _
      · cases hlabel
    simp only [hlabel] at h
    split at h
    · cases h
    · cases h
      exact hnothing
    · cases h
      intro e he
      rw [List.mem_singleton.mp he]
      exact hname
  | none =>
    simp only [hlabel] at h
    cases htype : p.peek.type with
    | directive =>
      simp only [htype] at h
      cases h
      rw [forall_mem_toList, directive_bounded_iff stale htype]
      simp [UnsetAt, hlabel, htype]
    | ident =>
      simp only [htype] at h
      cases h
      rw [forall_mem_toList, instruction_bounded_iff stale p]
      simp [UnsetAt, hlabel, htype]
    | prefixWord =>
      simp only [htype] at h
      cases h
      rw [forall_mem_toList, instruction_bounded_iff stale p]
      simp [UnsetAt, hlabel, htype]
    | lbracket =>
      simp only [htype] at h
      cases h
      rw [forall_mem_toList, instruction_bounded_iff stale p]
      simp [UnsetAt, hlabel, htype]
    | eof =>
      simp only [htype] at h
      cases h
    | _ =>
      simp only [htype] at h
      cases h
      exact iff_of_true hnothing (.inr (by simp [UnsetAt, htype]))

/-! ## §6 The whole text -/

theorem prefixes_more (fuel : Nat) : ∀ p : AsmParser, p.rest.length ≤ fuel →
    asmParsePrefixes (fuel + 1) p = asmParsePrefixes fuel p := by
  have hstep : ∀ (n : Nat) (p : AsmParser), asmParsePrefixes (n + 1) p =
      if p.peek.type = .prefixWord then
        (decide (p.peek.text = bytes "lock") || (asmParsePrefixes n p.next).1,
          !decide (p.peek.text = bytes "lock") || (asmParsePrefixes n p.next).2.1,
          (asmParsePrefixes n p.next).2.2)
      else (false, false, p) := fun n p => rfl
  induction fuel with
  | zero =>
    intro p h
    have hnil : p.rest = [] := List.eq_nil_of_length_eq_zero (by omega)
    have hpeek : p.peek.type = .eof := by rw [AsmParser.peek, hnil]; rfl
    rw [hstep, if_neg (by rw [hpeek]; decide)]
    rfl
  | succ fuel ih =>
    intro p h
    rw [hstep (fuel + 1) p, hstep fuel p]
    split
    · next htype =>
      have hlt := next_lt (p := p) (by rw [htype]; decide)
      rw [ih p.next (by omega)]
    · rfl

theorem operands_more (fuel : Nat) : ∀ (op : AsmOperand) (instr : AsmInstruction) (p : AsmParser),
    p.rest.length ≤ fuel →
    asmParseOperands op instr (fuel + 1) p = asmParseOperands op instr fuel p := by
  have hlast : ∀ (n : Nat) (op : AsmOperand) (instr : AsmInstruction) (p : AsmParser),
      p.peek.type ≠ .comma → asmParseOperands op instr n p = (true, instr, p) := by
    intro n op instr p htype
    cases n with
    | zero => rfl
    | succ n =>
      have haccept : p.accept .comma = (false, p) := if_neg htype
      rw [asmParseOperands, haccept]
  induction fuel with
  | zero =>
    intro op instr p h
    have hnil : p.rest = [] := List.eq_nil_of_length_eq_zero (by omega)
    have hpeek : p.peek.type ≠ .comma := by rw [AsmParser.peek, hnil]; decide
    rw [hlast _ op instr p hpeek, hlast _ op instr p hpeek]
  | succ fuel ih =>
    intro op instr p h
    by_cases htype : p.peek.type = .comma
    · have haccept : p.accept .comma = (true, p.next) := if_pos htype
      have hnext : ∀ n, asmParseOperands op instr (n + 1) p =
          match asmParseOperand p.next op with
          | (false, _, q) => (false, instr, q)
          | (true, op', q) => asmParseOperands op' (asmInstrAddOperand instr op') n q := by
        intro n
        rw [asmParseOperands, haccept]
        all_goals rfl
      have hlt := next_lt (p := p) (by rw [htype]; decide)
      have hop := List.IsSuffix.length_le (behind_operand p.next op)
      rw [hnext, hnext]
      cases hread : asmParseOperand p.next op with
      | mk ok result =>
        obtain ⟨op', q⟩ := result
        rw [hread] at hop
        have hle : q.rest.length ≤ p.next.rest.length := hop
        cases ok with
        | false => rfl
        | true => exact ih op' _ q (by omega)
    · rw [hlast _ op instr p htype, hlast _ op instr p htype]

/-- The parser returns, every pass takes a byte of the text, and every element is within bounds.
The loops inside a pass have run to their end when they have as many turns as there are bytes. -/
structure AsmWithinBounds (stale : AsmOperand) (source : Bytes) : Prop where
  returns : ∃ block q, Parsed stale { rest := source } block q ∧ (asmParseString stale source).1 = block
  prefixes : ∀ (p : AsmParser) (fuel : Nat), p.rest.length ≤ fuel →
    asmParsePrefixes (fuel + 1) p = asmParsePrefixes fuel p
  operands : ∀ (op : AsmOperand) (instr : AsmInstruction) (p : AsmParser) (fuel : Nat),
    p.rest.length ≤ fuel →
      asmParseOperands op instr (fuel + 1) p = asmParseOperands op instr fuel p
  skips : ∀ (p : AsmParser) (fuel : Nat), p.rest.length ≤ fuel →
    (asmSkipLine fuel p).peek.type = .newline ∨ (asmSkipLine fuel p).peek.type = .eof
  consumes : ∀ p q elements, Passes stale { rest := source } p →
    asmBlockPass stale p = some (elements, q) → q.rest.length < p.rest.length
  inside : ∀ p, Passes stale { rest := source } p → p.rest <:+ source
  elements : ∀ e ∈ (asmParseString stale source).1, ElementBounded e

theorem string_parsed (stale : AsmOperand) (source : Bytes) :
    ∃ block q, Parsed stale { rest := source } block q ∧
      (asmParseString stale source).1 = block := by
  obtain ⟨block, q, hparsed⟩ := parsed stale source.length { rest := source } rfl
  refine ⟨block, q, hparsed, ?_⟩
  rw [asmParseString, hparsed.returns (source.length + 1) (Nat.lt_succ_self _)]

theorem elements_bounded_iff (stale : AsmOperand) (source : Bytes) :
    (∀ e ∈ (asmParseString stale source).1, ElementBounded e) ↔
      (stale.label.length < ASM_MAX_LABEL_LEN ∨
        ∀ p, Passes stale { rest := source } p → ¬ UnsetAt stale p) := by
  obtain ⟨block, q, hparsed, hblock⟩ := string_parsed stale source
  rw [hblock]
  constructor
  · intro hbounded
    by_contra hbad
    obtain ⟨hlong, hsome⟩ := not_or.mp hbad
    obtain ⟨p, hp⟩ := not_forall.mp hsome
    obtain ⟨hpasses, hunset⟩ := Classical.not_imp.mp hp
    have hunset := not_not.mp hunset
    cases hpass : asmBlockPass stale p with
    | none =>
      have heof := eof_of_pass hpass
      simp [UnsetAt, heof] at hunset
    | some result =>
      obtain ⟨elements, r⟩ := result
      have hadded : ∀ e ∈ elements, ElementBounded e := fun e he =>
        hbounded e ((hparsed.elements e).mpr ⟨p, elements, r, hpasses, hpass, he⟩)
      exact ((pass_bounded_iff hpass).mp hadded).elim hlong fun hnot => hnot hunset
  · intro hset e he
    obtain ⟨p, added, r, hpasses, hpass, hmem⟩ := (hparsed.elements e).mp he
    exact (pass_bounded_iff hpass).mpr (hset.imp_right fun h => h p hpasses) e hmem

end Aether.Asm
