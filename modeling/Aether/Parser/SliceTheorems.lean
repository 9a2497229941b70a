/-
Aether.Parser.SliceTheorems — `left[start..stop]` in `parse_infix`, and the
slice that `c_emit_expr` builds for its node.

The bracket branch parses an expression and then looks for `..`, but the
expression parser takes `..` as the range operator: it only stops at a token
that is no operator. The node of `a[i..j]` is an index with a range.
-/
import Aether.Parser.Surface

namespace Aether

open Lib.Procedures

/-! ## §1 The emitted slice -/

/-- `slice` of the emitted C. -/
structure SliceValue where
  data : UInt64
  len : UInt64
  elemSize : UInt64
  deriving DecidableEq, Repr

/-- Where element `k` is. -/
def SliceValue.elemAddr (s : SliceValue) (k : UInt64) : UInt64 := s.data + k * s.elemSize

/-- The compound literal that `c_emit_expr` writes for `NODE_SLICE`. -/
def emittedSlice (target : SliceValue) (start stop : Option UInt64) : SliceValue where
  data := target.data + start.getD 0 * target.elemSize
  len :=
    match stop, start with
    | some stop, some start => stop - start
    | some stop, none => stop
    | none, some start => target.len - start
    | none, none => target.len
  elemSize := target.elemSize

/-- Element `k` of the slice is element `i + k` of the target. -/
theorem elemAddr_emittedSlice (a : SliceValue) (i : UInt64) (stop : Option UInt64) (k : UInt64) :
    (emittedSlice a (some i) stop).elemAddr k = a.elemAddr (i + k) := by
  simp only [SliceValue.elemAddr, emittedSlice, Option.getD_some]
  rw [UInt64.add_mul, UInt64.add_assoc]

/-! ## §2 Where an expression ends -/

/-- An expression ends at a token that stops the infix loop. -/
def EndsAtStop (m : Precedence) (r : Option AstNode) (q : Parser) : Prop :=
  r ≠ none → q.hasCurrent = true ∧ stops m q.current.type

def stopPost : ∀ c : Proc × Parser, c.1.Result × Parser → Prop
  | (.exprPrec m, _), rs => EndsAtStop m rs.1 rs.2
  | (.infixLoop m _ _, _), rs => EndsAtStop m rs.1 rs.2
  | _, _ => True

theorem infixLoop_endsAtStop (m : Precedence) (left : AstNode) (b : Bool) (p : Parser) :
    Spec (fun _ => True) stopPost (infixLoop m left b) p (EndsAtStop m) := by
  unfold infixLoop
  refine spec_any fun _ p => ?_
  simp only [checkAny, spec_bind, spec_modify, spec_get, spec_pure]
  have hcur : p.ensure.hasCurrent = true := ensure_hasCurrent p
  split
  · next hend =>
    have hmem : p.ensure.current.type ∈ exprEnd := by simpa using hend
    exact fun _ => ⟨hcur, .inl (tokenPrecedence_of_mem_exprEnd hmem)⟩
  · refine spec_bind.mpr (spec_get.mpr ?_)
    split
    · next hlt => exact fun _ => ⟨hcur, .inr hlt⟩
    split
    · next hmin => exact fun _ => ⟨hcur, .inl hmin⟩
    refine spec_any fun next p' => ?_
    cases next with
    | none => exact fun h => absurd rfl h
    | some next => exact spec_callProc.mpr ⟨trivial, fun _ _ hloop => hloop⟩

theorem exprPrec_endsAtStop (m : Precedence) (p : Parser) :
    Spec (fun _ => True) stopPost (exprPrec m) p (EndsAtStop m) := by
  unfold exprPrec
  refine spec_any fun b p => ?_
  split
  · exact fun h => absurd rfl h
  refine spec_any fun left p => ?_
  cases left with
  | none => exact fun h => absurd rfl h
  | some left =>
    refine spec_any fun left p => ?_
    exact spec_callProc.mpr ⟨trivial, fun _ _ hloop => hloop⟩

variable {p q : Parser} {left : AstNode}

theorem endsAtStop {m : Precedence} {r : Option AstNode}
    (h : ProcReturns procs (.exprPrec m) p r q) : EndsAtStop m r q := by
  have hbody : ∀ c : Proc × Parser, ∃ pre, Meets pre stopPost (bodies procs c) (stopPost c) := by
    rintro ⟨proc, p⟩
    refine ⟨fun _ => True, ?_⟩
    cases proc with
    | exprPrec m => exact exprPrec_endsAtStop m p
    | infixLoop m left b => exact infixLoop_endsAtStop m left b p
    | _ => exact meets_true _
  exact returns_of_meets hbody h

/-- No expression ends at `..`. -/
theorem not_dotDot_of_expr {t : AstNode} (h : ProcReturns procs (.exprPrec .min) p (some t) q) :
    q.ensure.current.type ≠ .dotDot := by
  obtain ⟨hcur, hstop⟩ := endsAtStop h (by simp)
  rw [ensure_of_hasCurrent hcur]
  intro hdots
  rw [hdots] at hstop
  revert hstop
  decide

/-! ## §3 The bracket branch -/

theorem infixExpr_lbracket {r : Option AstNode} (h : p.current.type = .lbracket) :
    ProcReturns procs (.infixExpr left) p r q ↔ Steps procs (parseIndex left) p r q := by
  rw [procReturns_iff]
  change Steps procs (infixExpr left) p r q ↔ _
  rw [infixExpr, steps_get_bind]
  dsimp only
  rw [h]

/-- With an expression behind the bracket, the node is an index. -/
theorem bracket_is_index {r : Option AstNode} (hbracket : p.current.type = .lbracket)
    (h : ProcReturns procs (.infixExpr left) p r q) :
    (∃ index, r = some (.index (some left) index)) ∨
      ∃ stop, r = some (.slice (some left) none stop) := by
  rw [infixExpr_lbracket hbracket] at h
  simp only [parseIndex, steps_bind, steps_advance, steps_parseExpr] at h
  obtain ⟨_, _, rfl, index, p₁, hindex, b, p₂, hdots, h⟩ := h
  cases b with
  | true =>
    rw [if_pos rfl, steps_bind] at h
    obtain ⟨stop, _, _, h⟩ := h
    rw [steps_bind] at h
    obtain ⟨_, _, _, h⟩ := h
    have hnode := (steps_pure.mp h).1
    cases index with
    | none => exact .inr ⟨stop, hnode.symm⟩
    | some index =>
      have hne := not_dotDot_of_expr hindex
      rw [steps_matchTok_false hne] at hdots
      cases hdots.1
  | false =>
    rw [if_neg Bool.false_ne_true, steps_bind] at h
    obtain ⟨_, _, _, h⟩ := h
    exact .inl ⟨index, (steps_pure.mp h).1.symm⟩

/-! ## §4 Slices -/

/-- The parser turns the text at `p` into a slice of `left` from `start` to
`stop`. -/
def ParsesAsSlice (p : Parser) (left start stop : AstNode) : Prop :=
  ∃ q, ProcReturns procs (.infixExpr left) p (some (.slice (some left) (some start) (some stop))) q

/-- The slice of `a` from `i` to `j`. -/
def IsSliceOf (s a : SliceValue) (i j : UInt64) : Prop :=
  s.len = j - i ∧ s.elemSize = a.elemSize ∧ ∀ k, s.elemAddr k = a.elemAddr (i + k)

/-- `left[start..stop]` is parsed and emitted as a slice. -/
def SliceLaw (p : Parser) (left start stop : AstNode) : Prop :=
  ParsesAsSlice p left start stop ∧
    ∀ a i j, IsSliceOf (emittedSlice a (some i) (some j)) a i j

/-- The emitted slice is the right one. -/
theorem emitted_isSliceOf (a : SliceValue) (i j : UInt64) :
    IsSliceOf (emittedSlice a (some i) (some j)) a i j :=
  ⟨rfl, rfl, elemAddr_emittedSlice a i (some j)⟩

/-- No bracket is parsed as a slice with a start. -/
theorem slice_never_parses {start stop : AstNode} (hbracket : p.current.type = .lbracket) :
    ¬ SliceLaw p left start stop := by
  rintro ⟨⟨q, h⟩, _⟩
  rcases bracket_is_index hbracket h with ⟨index, h⟩ | ⟨stop', h⟩
  · cases h
  · cases h

/-! ## §5 The range instead -/

def rangeDots : Lexeme := ⟨.dotDot, bytes "..", 0⟩

/-- `[i..j]`. -/
def bracketed (i j : Surface) : List Lexeme :=
  ⟨.lbracket, bytes "[", 0⟩ :: ((Surface.binary i rangeDots j).lexemes ++ [⟨.rbracket, bytes "]", 0⟩])

/-- `left[i..j]` is an index with the range from `i` to `j`. -/
theorem bracketed_is_index {i j : Surface} {p' : Parser} (hwf : (Surface.binary i rangeDots j).WF)
    (hpost : i.NoPost ∧ j.NoPost) (hreads : p.Reads (bracketed i j) p') :
    ProcReturns procs (.infixExpr left) p
      (some (.index (some left) (some (.binaryOp .range (some i.ast) (some j.ast) [])))) p' := by
  obtain ⟨hbracket, hreads⟩ := hreads
  obtain ⟨p₁, hrange, hclose, rfl⟩ := reads_append.mp hreads
  have htype : p₁.current.type = .rbracket := congrArg Lexeme.type hclose
  have hcur : p₁.hasCurrent = true := hrange.hasCurrent rfl
  have hindex : ProcReturns procs (.exprPrec .min) p.advance
      (some (Surface.binary i rangeDots j).ast) p₁ :=
    (surface_parses hwf hpost).returns (Nat.zero_le _) rfl hrange (by rw [Ordinary, htype]; decide)
      (by rw [htype]; exact Nat.lt_of_lt_of_le (by decide) (bound_pos hwf)) (.inl (by rw [htype]; rfl))
  rw [infixExpr_lbracket (congrArg Lexeme.type hbracket)]
  have hens : p₁.ensure = p₁ := ensure_of_hasCurrent hcur
  have hdots : Steps procs (matchTok .dotDot) p₁ false p₁ :=
    (steps_matchTok_false (by rw [hens, htype]; decide)).mpr ⟨rfl, hens⟩
  have hexpect : Steps procs (expect .rbracket) p₁ () p₁.advance := by
    simp [expect, hens, htype]
  exact steps_bind.mpr ⟨(), _, steps_advance.mpr rfl, steps_bind.mpr ⟨_, p₁, steps_parseExpr.mpr hindex,
    steps_bind.mpr ⟨false, p₁, hdots, steps_bind.mpr ⟨(), _, hexpect, steps_pure.mpr ⟨rfl, rfl⟩⟩⟩⟩⟩

/-- A number as an expression. -/
def numeral (text : Bytes) (value : UInt64) : Surface := .leaf ⟨.intLiteral, text, value⟩

/-- The parser at the bracket of `a[1..2]`. -/
def atBracket : Parser :=
  let token (type : TokenType) (text : Bytes) (value : UInt64) : Token :=
    { Token.zero with type := type, text := text, intValue := value }
  { parserOf ⟨[token .intLiteral (bytes "1") 1, token .dotDot (bytes "..") 0,
      token .intLiteral (bytes "2") 2, token .rbracket (bytes "]") 0],
      { Token.zero with type := .eof }, rfl⟩ with
    current := token .lbracket (bytes "[") 0
    hasCurrent := true }

theorem atBracket_reads : ∃ p',
    atBracket.Reads (bracketed (numeral (bytes "1") 1) (numeral (bytes "2") 2)) p' :=
  ⟨_, rfl, rfl, rfl, rfl, rfl, rfl⟩

theorem slice_never_parses_one_two :
    ¬ SliceLaw atBracket (.ident (bytes "a")) (.literalInt 1 false) (.literalInt 2 false) :=
  slice_never_parses rfl

/-- `a[1..2]` is no slice. -/
theorem not_always_sliced : ¬ ∀ (p p' : Parser) (left : AstNode) (i j : Surface),
    i.WF → j.WF → p.hasCurrent = true → p.Reads (bracketed i j) p' →
      SliceLaw p left i.ast j.ast := by
  intro h
  obtain ⟨p', hreads⟩ := atBracket_reads
  obtain ⟨⟨q, hslice⟩, _⟩ := h atBracket p' (.ident (bytes "a")) (numeral (bytes "1") 1)
    (numeral (bytes "2") 2) (.inr rfl) (.inr rfl) rfl hreads
  rcases bracket_is_index rfl hslice with ⟨index, h⟩ | ⟨stop, h⟩
  · cases h
  · cases h

end Aether
