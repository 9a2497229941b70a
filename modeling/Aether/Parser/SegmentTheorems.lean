/-
Aether.Parser.SegmentTheorems — errors inside the interpolations of a string.

`parse_prefix` parses each segment of a string literal with a parser of its
own and destroys that parser: its error count goes with it, and the tokens
it has left are not looked at.
-/
import Aether.Parser.PrecedenceTheorems

namespace Aether

open Lib.Procedures

-- the equations, before the proofs that share them
section
attribute [local simp] interpolation prefixExpr bytes parseStringLiteral
end

/-! ## §1 Segments -/

/-- The texts between the braces of a literal's content, the empty ones
too. -/
def segmentsLoop : Nat → Bool → Bytes → List Bytes
  | 0, _, _ => []
  | _ + 1, _, [] => []
  | fuel + 1, escaped, c :: cs =>
    if c = ch '{' ∧ escaped = false then
      match matchBrace 1 [] cs with
      | some (segment, rest) => segment :: segmentsLoop fuel false rest
      | none => segmentsLoop fuel false cs
    else segmentsLoop fuel (c = ch '\\') cs

-- the equations, before the proofs that share them
section
attribute [local simp] segmentsLoop
end

/-- The segments of a string token. -/
def segments (raw : Bytes) : List Bytes :=
  segmentsLoop ((stringContent raw).length + 1) false (stringContent raw)

theorem mem_literalPiece {segment literal : Bytes} : .expr segment ∉ literalPiece literal := by
  unfold literalPiece
  split <;> simp

theorem mem_exprPiece {segment text : Bytes} :
    .expr segment ∈ exprPiece text ↔ segment = text ∧ segment ≠ [] := by
  unfold exprPiece
  split
  · next h => simp [h]
  · next h =>
    simp only [List.mem_singleton, Piece.expr.injEq]
    exact ⟨fun heq => ⟨heq, heq ▸ h⟩, fun heq => heq.1⟩

/-- The pieces that are parsed are the segments with a text. -/
theorem mem_piecesLoop {segment : Bytes} (fuel : Nat) (escaped : Bool) (literal content : Bytes) :
    .expr segment ∈ piecesLoop fuel escaped literal content ↔
      segment ∈ segmentsLoop fuel escaped content ∧ segment ≠ [] := by
  fun_induction piecesLoop fuel escaped literal content with
  | case1 => simp [segmentsLoop]
  | case2 => simp [segmentsLoop, mem_literalPiece]
  | case3 fuel escaped literal c cs hopen expr rest hmatch ih =>
    rw [segmentsLoop, if_pos hopen, hmatch]
    simp only [List.mem_append, mem_literalPiece, mem_exprPiece, false_or, ih, List.mem_cons, or_and_right]
  | case4 fuel escaped literal c cs hopen hmatch ih =>
    rw [segmentsLoop, if_pos hopen, hmatch]
    simp only [List.mem_append, mem_literalPiece, false_or, ih]
  | case5 fuel escaped literal c cs hopen ih =>
    rw [segmentsLoop, if_neg hopen, ih]

theorem segmentsLoop_nil (fuel : Nat) (escaped : Bool) (content : Bytes)
    (h : hasInterp escaped content = false) : segmentsLoop fuel escaped content = [] := by
  induction content generalizing fuel escaped with
  | nil => cases fuel <;> rfl
  | cons c cs ih =>
    simp only [hasInterp, Bool.or_eq_false_iff] at h
    cases fuel with
    | zero => rfl
    | succ fuel =>
      have hopen : ¬ (c = ch '{' ∧ escaped = false) := by
        intro hopen
        simp [hopen.1, hopen.2] at h
      rw [segmentsLoop, if_neg hopen]
      exact ih fuel _ h.2

/-- Every segment with a text gets a parser. -/
theorem mem_stringPieces {segment raw : Bytes} :
    .expr segment ∈ (stringPieces raw).getD [] ↔ segment ∈ segments raw ∧ segment ≠ [] := by
  unfold stringPieces segments
  dsimp only
  split
  · exact mem_piecesLoop _ _ _ _
  · next h =>
    rw [segmentsLoop_nil _ _ _ (by simpa using h)]
    simp

/-! ## §2 Malformed segments -/

/-- The text is one expression and nothing more: `parse_expr` gives a node,
no error, and is at the end. -/
def IsExpression (text : Bytes) : Prop :=
  ∃ node q, ProcReturns procs (.exprPrec .min) (parserCreate text) (some node) q ∧
    q.errors = [] ∧ (q.skipAll [.newline]).current.type = .eof

/-- A string token with a segment that is not one expression. -/
def Malformed (raw : Bytes) : Prop := ∃ segment ∈ segments raw, ¬ IsExpression segment

/-- `parse_prefix` counts an error. -/
def Reported (p : Parser) : Prop :=
  ∃ r q, ProcReturns procs .prefixExpr p r q ∧ p.errors.length < q.errors.length

/-! ## §3 The parser of the literal -/

variable {p q : Parser} {r : Option AstNode}

theorem steps_recurOn {proc : Proc} {sub : Parser} {a : proc.Result} :
    Steps procs (recurOn proc sub) p a q ↔
      (∃ sub', ProcReturns procs proc sub a sub') ∧ p = q := by
  simp only [recurOn, steps_bind]
  constructor
  · rintro ⟨rs, p₁, hcall, h⟩
    obtain ⟨hret, rfl⟩ := steps_callOn.mp hcall
    obtain ⟨rfl, rfl⟩ := steps_pure.mp h
    exact ⟨⟨rs.2, hret⟩, rfl⟩
  · rintro ⟨⟨sub', hret⟩, rfl⟩
    exact ⟨(a, sub'), p, steps_callOn.mpr ⟨hret, rfl⟩, steps_pure.mpr ⟨rfl, rfl⟩⟩

/-- Joining the pieces leaves the parser as it was. -/
theorem steps_interpolation : ∀ (pieces : List Piece) {result : Option AstNode},
    Steps procs (interpolation pieces result) p r q → q = p
  | [], _, h => (steps_pure.mp h).2.symm
  | .literal _ :: rest, _, h => steps_interpolation rest h
  | .expr _ :: rest, result, h => by
    rw [interpolation, steps_bind] at h
    obtain ⟨node, p₁, hsub, h⟩ := h
    obtain ⟨_, rfl⟩ := steps_recurOn.mp hsub
    cases node with
    | none => exact steps_interpolation rest h
    | some node => exact steps_interpolation rest h

theorem steps_parseStringLiteral {token : Token}
    (h : Steps procs (parseStringLiteral token) p r q) : q = p := by
  unfold parseStringLiteral at h
  split at h
  · exact (steps_pure.mp h).2.symm
  · next pieces _ =>
    rw [steps_bind] at h
    obtain ⟨result, p₁, hpieces, h⟩ := h
    rw [← (steps_pure.mp h).2]
    exact steps_interpolation pieces hpieces

/-- A string literal takes its token and changes nothing else. -/
theorem prefixExpr_string (hstr : p.current.type = .stringLiteral)
    (h : ProcReturns procs .prefixExpr p r q) : q = p.advance := by
  rw [procReturns_iff] at h
  change Steps procs prefixExpr p r q at h
  rw [prefixExpr, steps_get_bind] at h
  dsimp only at h
  rw [hstr] at h
  dsimp only at h
  rw [steps_advance_bind] at h
  exact steps_parseStringLiteral h

/-- No malformed segment is reported. -/
theorem malformed_not_reported (hstr : p.current.type = .stringLiteral) :
    Malformed p.current.text → ¬ Reported p := by
  rintro _ ⟨r, q, hret, hlt⟩
  obtain rfl := prefixExpr_string hstr hret
  exact Nat.lt_irrefl _ hlt

/-! ## §4 Two numbers in a segment -/

theorem exprPrec_literalInt {m : Precedence} (hcur : p.hasCurrent = true)
    (hint : p.current.type = .intLiteral) (hnext : p.advance.current.type = .intLiteral) :
    ProcReturns procs (.exprPrec m) p (some (.literalInt p.current.intValue false)) p.advance := by
  have hprefix : ProcReturns procs .prefixExpr p
      (some (.literalInt p.current.intValue false)) p.advance := by
    rw [procReturns_iff]
    change Steps procs prefixExpr p _ _
    rw [prefixExpr, steps_get_bind]
    simp [hint, leaf]
  rw [exprPrec_of_prefixExpr hprefix hcur (by simp [hint]) rfl (by simp [hnext]) (by simp [hnext])]
  exact infixLoop_stops rfl (by simp [hnext]) (.inl (by rw [hnext]; rfl))

/-- `1 2` as words. -/
def oneTwo : List Word := [.leaf (.int (bytes "1") (by decide)), .leaf (.int (bytes "2") (by decide))]

/-- The parser of `1 2` gives the number 1 and is at the number 2. -/
theorem exprPrec_oneTwo : ∃ q,
    ProcReturns procs (.exprPrec .min) (parserCreate (bytes "1 2 ")) (some (.literalInt 1 false)) q ∧
      q.hasCurrent = true ∧ q.current.type = .intLiteral := by
  have hast : ∀ w ∈ oneTwo, w.HasAst := by simp [oneTwo, Word.HasAst]
  have htokens : (tokensOf (bytes "1 2 ")).1.map Token.lexeme =
      [⟨.intLiteral, bytes "1", 1⟩, ⟨.intLiteral, bytes "2", 2⟩] := tokens_printWords hast
  obtain ⟨_, hreads, _⟩ := reads_pending _ (p := parserCreate (bytes "1 2 ")) rfl
  rw [show (parserCreate (bytes "1 2 ")).lexer.pending = (tokensOf (bytes "1 2 ")).1 from rfl,
    htokens] at hreads
  obtain ⟨hone, htwo, _⟩ := hreads
  have hnext : (parserCreate (bytes "1 2 ")).advance.advance.current.type = .intLiteral :=
    congrArg Lexeme.type htwo
  refine ⟨_, ?_, rfl, hnext⟩
  have hparse := exprPrec_literalInt (m := .min) (p := (parserCreate (bytes "1 2 ")).advance) rfl
    (congrArg Lexeme.type hone) hnext
  have hvalue : (parserCreate (bytes "1 2 ")).advance.current.intValue = 1 :=
    congrArg Lexeme.intValue hone
  rw [hvalue] at hparse
  exact exprPrec_ensure.mpr hparse

theorem oneTwo_not_expression : ¬ IsExpression (bytes "1 2 ") := by
  rintro ⟨node, q, hret, _, hend⟩
  obtain ⟨q', hret', hcur, hint⟩ := exprPrec_oneTwo
  obtain ⟨_, rfl⟩ := Prod.mk.inj (returns_det hret hret')
  rw [skipAll_of_not_mem (by simp [ensure_of_hasCurrent hcur, hint]), ensure_of_hasCurrent hcur,
    hint] at hend
  cases hend

/-- The literal with `1 2` in braces. -/
def oneTwoLiteral : Bytes := bytes "\"\x7b1 2 \x7d\""

theorem oneTwo_malformed : Malformed oneTwoLiteral :=
  ⟨bytes "1 2 ", by decide, oneTwo_not_expression⟩

/-- The parser at a string token, the last one. -/
def atString (raw : Bytes) : Parser :=
  { parserOf ⟨[], { Token.zero with type := .eof }, Eq.refl TokenType.eof⟩ with
    current := { Token.zero with type := .stringLiteral, text := raw }
    hasCurrent := true }

theorem malformed_not_reported_oneTwo : ¬ Reported (atString oneTwoLiteral) :=
  malformed_not_reported rfl oneTwo_malformed

/-- The literal is the number 1, without an error. -/
theorem prefixExpr_oneTwo : ProcReturns procs .prefixExpr (atString oneTwoLiteral)
    (some (.literalInt 1 false)) (atString oneTwoLiteral).advance := by
  obtain ⟨q, hret, _, _⟩ := exprPrec_oneTwo
  have hpieces : stringPieces oneTwoLiteral = some [.expr (bytes "1 2 ")] := by decide
  have hsegment : ∀ p, Steps procs (interpolation [.expr (bytes "1 2 ")] none) p
      (some (.literalInt 1 false)) p := by
    intro p
    rw [interpolation, steps_bind]
    exact ⟨_, p, steps_recurOn.mpr ⟨⟨q, hret⟩, rfl⟩, steps_pure.mpr ⟨rfl, rfl⟩⟩
  have hliteral : ∀ p, Steps procs (parseStringLiteral (atString oneTwoLiteral).current) p
      (some (.literalInt 1 false)) p := by
    intro p
    unfold parseStringLiteral
    rw [show (atString oneTwoLiteral).current.text = oneTwoLiteral from rfl, hpieces]
    exact steps_bind.mpr ⟨_, p, hsegment p, steps_pure.mpr ⟨rfl, rfl⟩⟩
  rw [procReturns_iff]
  change Steps procs prefixExpr _ _ _
  exact steps_get_bind.mpr (steps_advance_bind.mpr (hliteral _))

/-- Not every malformed segment is reported. -/
theorem not_always_reported : ¬ ∀ (p q : Parser) (r : Option AstNode),
    p.current.type = .stringLiteral → Malformed p.current.text →
      ProcReturns procs .prefixExpr p r q → p.errors.length < q.errors.length := by
  intro h
  exact Nat.lt_irrefl _
    (h (atString oneTwoLiteral) (atString oneTwoLiteral).advance _ rfl oneTwo_malformed
      prefixExpr_oneTwo)

end Aether
