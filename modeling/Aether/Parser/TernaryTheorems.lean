/-
Aether.Parser.TernaryTheorems — the conditional operator of `parse_infix`.

`c ? a : b` is a ternary node unless the token after `?` is a string: then
`? a` is an error context. What the loop does with an operand is the same at
every precedence up to the one the operand was parsed with (`exprPrec_lower`),
so the condition may be any expression that binds more tightly than `?`.
-/
import Aether.Parser.SliceTheorems

namespace Aether

open Lib.Procedures

variable {m m' : Precedence} {left : AstNode} {p q : Parser} {r : Option AstNode}

/-! ## §1 Operands -/

theorem stops_of_le {type : TokenType} (hle : m.level ≤ m'.level) (h : stops m type) :
    stops m' type :=
  h.imp id fun hlt => Nat.lt_of_lt_of_le hlt hle

/-- Where a loop leaves, a loop with a lower precedence goes on. -/
def lowerPost : ∀ c : Proc × Parser, c.1.Result × Parser → Prop
  | (.infixLoop m' left b, p), rs => ∀ (m : Precedence) (node : AstNode) (r : Option AstNode)
      (q : Parser), m.level ≤ m'.level → rs.1 = some node → rs.2.current.type ≠ .newline →
      ProcReturns procs (.infixLoop m node true) rs.2 r q →
      ProcReturns procs (.infixLoop m left b) p r q
  | _, _ => True

theorem lowerPost_leave {b : Bool} :
    lowerPost (.infixLoop m' left b, p) (some left, infixState b p) := by
  intro m node r q _ hnode hnewline hloop
  obtain rfl := Option.some.inj hnode
  have hstate : infixState true (infixState b p) = infixState b p :=
    infixState_of_ne (ensure_hasCurrent _) hnewline
  rw [infixLoop_iff, hstate] at hloop
  exact infixLoop_iff.mpr hloop

theorem infixLoop_lowers (m' : Precedence) (left : AstNode) (b : Bool) (p : Parser) :
    Spec (fun _ => True) (fun c rs => Returns (bodies procs) c rs ∧ lowerPost c rs)
      (infixLoop m' left b) p fun r q => lowerPost (.infixLoop m' left b, p) (r, q) := by
  have hstate : (if b then p.skipAll [.newline] else p).ensure = infixState b p := rfl
  simp only [infixLoop, skipNewlinesIf, checkAny, spec_bind, spec_modify, spec_get, spec_pure,
    hstate]
  split
  · exact lowerPost_leave
  next hend =>
  simp only [spec_bind, spec_get]
  split
  · exact lowerPost_leave
  next hlt =>
  split
  · exact lowerPost_leave
  next hmin =>
  have hgo : ¬ stops m' (infixState b p).current.type := fun h => h.elim hmin hlt
  refine spec_bind.mpr (spec_callProc.mpr ⟨trivial, fun next p₁ hnext => ?_⟩)
  cases next with
  | none => exact fun _ _ _ _ _ hnode => absurd hnode (by simp)
  | some next =>
    refine spec_callProc.mpr ⟨trivial, fun r q hrest m node r' q' hle hnode hnewline hloop => ?_⟩
    rw [infixLoop_iff, if_neg fun h => hgo (stops_of_le hle h)]
    exact ⟨some next, p₁, hnext.1, hrest.2 m node r' q' hle hnode hnewline hloop⟩

theorem infixLoop_lower {b : Bool} {node : AstNode} {p₁ : Parser} (hle : m.level ≤ m'.level)
    (h : ProcReturns procs (.infixLoop m' left b) p (some node) p₁)
    (hnewline : p₁.current.type ≠ .newline)
    (hloop : ProcReturns procs (.infixLoop m node true) p₁ r q) :
    ProcReturns procs (.infixLoop m left b) p r q := by
  have hbody : ∀ c : Proc × Parser, ∃ pre,
      Meets pre (fun c rs => Returns (bodies procs) c rs ∧ lowerPost c rs) (bodies procs c)
        (lowerPost c) := by
    rintro ⟨proc, p⟩
    refine ⟨fun _ => True, ?_⟩
    cases proc with
    | infixLoop m' left b => exact infixLoop_lowers m' left b p
    | _ => exact meets_true _
  exact returns_of_meets_returns hbody h m node r q hle rfl hnewline hloop

theorem exprPrec_eof (h : p.ensure.current.type = .eof)
    (hret : ProcReturns procs (.exprPrec m) p r q) : r = none := by
  rw [procReturns_iff] at hret
  change Steps procs (exprPrec m) p r q at hret
  obtain ⟨h', -⟩ : none = r ∧ p.ensure = q := by simpa [exprPrec, h] using hret
  exact h'.symm

/-- An operand of a higher precedence, and then the loop. -/
theorem exprPrec_lower {node : AstNode} {p₁ : Parser} (hle : m.level ≤ m'.level)
    (h : ProcReturns procs (.exprPrec m') p (some node) p₁)
    (hnewline : p₁.current.type ≠ .newline)
    (hloop : ProcReturns procs (.infixLoop m node true) p₁ r q) :
    ProcReturns procs (.exprPrec m) p r q := by
  have hne : p.ensure.current.type ≠ .eof := fun heof => by cases exprPrec_eof heof h
  rw [exprPrec_ensure, exprPrec_iff (ensure_hasCurrent p) hne] at h ⊢
  obtain ⟨l, p₂, hprefix, h⟩ := h
  cases l with
  | none => cases h.1
  | some first =>
    obtain ⟨left, p₃, hpost, h⟩ := h
    exact ⟨some first, p₂, hprefix, left, p₃, hpost, infixLoop_lower hle h hnewline hloop⟩

/-! ## §2 The question mark -/

theorem peekNext_eq (p : Parser) : p.lexer.peekNext = p.advance.current := by
  unfold Lexer.peekNext Parser.advance Lexer.advance
  cases p.lexer.pending <;> rfl

theorem infixExpr_question (h : p.current.type = .question) :
    ProcReturns procs (.infixExpr left) p r q ↔ Steps procs (parseQuestion left) p r q := by
  rw [procReturns_iff]
  change Steps procs (infixExpr left) p r q ↔ _
  rw [infixExpr, steps_get_bind]
  dsimp only
  rw [h]

/-- `c ? a :`, up to the colon: the condition binds more tightly than `?`. -/
structure Branches (p p₁ p₂ : Parser) (c a : AstNode) : Prop where
  condition : ProcReturns procs (.exprPrec .logicalOr) p (some c) p₁
  question : p₁.current.type = .question
  thenVal : ProcReturns procs (.exprPrec .ternary) p₁.advance (some a) p₂
  colon : p₂.current.type = .colon

/-- `b` behind the colon, and nothing of an expression behind `b`. -/
structure ElseBranch (p₂ p' : Parser) (b : AstNode) : Prop where
  elseVal : ProcReturns procs (.exprPrec .assignment) p₂.advance (some b) p'
  ends : tokenPrecedence (infixState true p').current.type = .min

variable {p₁ p₂ p' : Parser} {c a b : AstNode}

/-- After the condition, the loop is at `?`. -/
theorem Branches.loop (h : Branches p p₁ p₂ c a) (hm : m.level ≤ Precedence.ternary.level)
    {node : AstNode} (hstep : ProcReturns procs (.infixExpr c) p₁ (some node) q)
    (hstops : stops m (infixState true q).current.type) :
    ProcReturns procs (.exprPrec m) p (some node) (infixState true q) := by
  have hcur : p₁.hasCurrent = true := (endsAtStop h.condition (by simp)).1
  have hnewline : p₁.current.type ≠ .newline := by simp [h.question]
  have hgo : ¬ stops m p₁.current.type := by
    rw [h.question]
    rintro (hmin | hlt)
    · cases hmin
    · exact absurd hlt (Nat.not_lt.mpr hm)
  refine exprPrec_lower (Nat.le_trans hm (by decide)) h.condition hnewline ?_
  rw [infixLoop_iff, infixState_of_ne hcur hnewline, if_neg hgo]
  refine ⟨some node, q, hstep, ?_⟩
  exact infixLoop_iff.mpr (by rw [if_pos hstops]; exact ⟨rfl, rfl⟩)

/-- Without a string after `?`, a ternary. -/
theorem Branches.ternary (h : Branches p p₁ p₂ c a) (hb : ElseBranch p₂ p' b)
    (hm : m.level ≤ Precedence.ternary.level) (hstr : p₁.advance.current.type ≠ .stringLiteral) :
    ProcReturns procs (.exprPrec m) p (some (.ternary [c, a, b])) (infixState true p') := by
  refine h.loop hm ((infixExpr_question h.question).mpr ?_) (.inl hb.ends)
  have hcur : p₂.hasCurrent = true := (endsAtStop h.thenVal (by simp)).1
  have hcolon : Steps procs (expect .colon) p₂ () p₂.advance := by
    simp [expect, ensure_of_hasCurrent hcur, h.colon]
  refine steps_get_bind.mpr ?_
  rw [if_neg (by rwa [peekNext_eq])]
  refine steps_advance_bind.mpr (steps_bind.mpr ⟨_, _, steps_parseExprPrec.mpr h.thenVal, ?_⟩)
  refine steps_bind.mpr ⟨(), _, hcolon, ?_⟩
  exact steps_bind.mpr ⟨_, _, steps_parseExprPrec.mpr hb.elseVal, steps_pure.mpr ⟨rfl, rfl⟩⟩

/-- With a string after `?`, an error context, up to the colon. -/
theorem Branches.errorContext (h : Branches p p₁ p₂ c a) (hm : m.level ≤ Precedence.ternary.level)
    (hstr : p₁.advance.current.type = .stringLiteral) :
    ProcReturns procs (.exprPrec m) p (some (.binaryOp .errorContext (some c) (some a) [])) p₂ := by
  have hcur : p₂.hasCurrent = true := (endsAtStop h.thenVal (by simp)).1
  have hstate : infixState true p₂ = p₂ := infixState_of_ne hcur (by simp [h.colon])
  have hstep : ProcReturns procs (.infixExpr c) p₁
      (some (.binaryOp .errorContext (some c) (some a) [])) p₂ := by
    refine (infixExpr_question h.question).mpr ?_
    refine steps_get_bind.mpr ?_
    rw [if_pos (by rwa [peekNext_eq])]
    refine steps_advance_bind.mpr (steps_bind.mpr ⟨_, _, steps_parseExprPrec.mpr h.thenVal, ?_⟩)
    exact steps_pure.mpr ⟨rfl, rfl⟩
  have hparse := h.loop hm hstep (.inl (by rw [hstate, h.colon]; rfl))
  rwa [hstate] at hparse

/-! ## §3 The ternary node -/

/-- `parse_expr` gives the ternary node with these three children. -/
def ParsesAsTernary (p : Parser) (c a b : AstNode) : Prop :=
  ∃ q, ProcReturns procs (.exprPrec .min) p (some (.ternary [c, a, b])) q

theorem parsesAsTernary_iff (h : Branches p p₁ p₂ c a) (hb : ElseBranch p₂ p' b) :
    ParsesAsTernary p c a b ↔ p₁.advance.current.type ≠ .stringLiteral := by
  constructor
  · rintro ⟨q, hret⟩ hstr
    cases returns_det hret (h.errorContext (Nat.zero_le _) hstr)
  · exact fun hstr => ⟨_, h.ternary hb (Nat.zero_le _) hstr⟩

/-- The rest of a ternary behind the colon of another. -/
theorem Branches.elseBranch {p₃ p₄ : Parser} {d e f : AstNode}
    (h : Branches p₂.advance p₃ p₄ d e) (hf : ElseBranch p₄ p' f)
    (hstr : p₃.advance.current.type ≠ .stringLiteral) :
    ElseBranch p₂ (infixState true p') (.ternary [d, e, f]) where
  elseVal := h.ternary hf (by decide) hstr
  ends := by rw [infixState_idem]; exact hf.ends

/-- The conditional operator is a ternary node, and groups to the right, if
and only if no string follows a question mark. -/
theorem ternary_iff (h : Branches p p₁ p₂ c a) :
    (∀ p' b, ElseBranch p₂ p' b →
      (ParsesAsTernary p c a b ↔ p₁.advance.current.type ≠ .stringLiteral)) ∧
    ∀ p₃ p₄ p' d e f, Branches p₂.advance p₃ p₄ d e → ElseBranch p₄ p' f →
      (ParsesAsTernary p c a (.ternary [d, e, f]) ↔
        p₁.advance.current.type ≠ .stringLiteral ∧ p₃.advance.current.type ≠ .stringLiteral) := by
  refine ⟨fun p' b hb => parsesAsTernary_iff h hb, fun p₃ p₄ p' d e f hd hf => ⟨?_, ?_⟩⟩
  · rintro ⟨q, hret⟩
    have hfirst : p₁.advance.current.type ≠ .stringLiteral := by
      intro hstr
      cases returns_det hret (h.errorContext (Nat.zero_le _) hstr)
    refine ⟨hfirst, fun hstr => ?_⟩
    -- the second one is an error context up to its colon, and the ternary ends there
    have hcur : p₄.hasCurrent = true := (endsAtStop hd.thenVal (by simp)).1
    have hstate : infixState true p₄ = p₄ := infixState_of_ne hcur (by simp [hd.colon])
    have hctx : ElseBranch p₂ p₄ (.binaryOp .errorContext (some d) (some e) []) :=
      ⟨hd.errorContext (by decide) hstr, by rw [hstate, hd.colon]; rfl⟩
    cases returns_det hret (h.ternary hctx (Nat.zero_le _) hfirst)
  · rintro ⟨hfirst, hsecond⟩
    exact ⟨_, h.ternary (hd.elseBranch hf hsecond) (Nat.zero_le _) hfirst⟩

/-! ## §4 One token for each operand -/

def tokenOf (l : Lexeme) : Token :=
  { Token.zero with type := l.type, text := l.text, intValue := l.intValue }

/-- The parser at the first of these tokens. -/
def atTokens (first : Lexeme) (rest : List Lexeme) : Parser :=
  { parserOf ⟨rest.map tokenOf, { Token.zero with type := .eof }, Eq.refl TokenType.eof⟩ with
    current := tokenOf first
    hasCurrent := true }

/-- `c ? a : b`. -/
def conditional (a b : Lexeme) : Parser :=
  atTokens ⟨.ident, bytes "c", 0⟩ [⟨.question, bytes "?", 0⟩, a, ⟨.colon, bytes ":", 0⟩, b]

/-- An identifier, or a string without interpolations. -/
def simpleNode (l : Lexeme) : AstNode :=
  if l.type = .ident then .ident l.text else .literalString l.text

def SimpleLexeme (l : Lexeme) : Prop :=
  l.type = .ident ∨ l.type = .stringLiteral ∧ stringPieces l.text = none

theorem prefixExpr_simple {l : Lexeme} (hl : SimpleLexeme l) (h : p.current.lexeme = l) :
    ProcReturns procs .prefixExpr p (some (simpleNode l)) p.advance := by
  subst h
  rw [procReturns_iff]
  change Steps procs prefixExpr p _ _
  refine steps_get_bind.mpr ?_
  unfold simpleNode
  rcases hl with hident | ⟨hstr, hpieces⟩
  · have htype : p.current.type = .ident := hident
    rw [if_pos hident]
    dsimp only
    rw [htype]
    exact steps_bind.mpr ⟨(), _, steps_advance.mpr rfl, steps_pure.mpr ⟨rfl, rfl⟩⟩
  · have htype : p.current.type = .stringLiteral := hstr
    rw [if_neg (by rw [hstr]; decide)]
    dsimp only
    rw [htype]
    refine steps_bind.mpr ⟨(), _, steps_advance.mpr rfl, ?_⟩
    have hnone : stringPieces p.current.text = none := hpieces
    rw [parseStringLiteral, hnone]
    exact steps_pure.mpr ⟨rfl, rfl⟩

theorem exprPrec_simple {l : Lexeme} (hl : SimpleLexeme l) (hcur : p.hasCurrent = true)
    (h : p.current.lexeme = l) (hplus : p.advance.current.type ≠ .plusPlus)
    (hminus : p.advance.current.type ≠ .minusMinus) (hnewline : p.advance.current.type ≠ .newline)
    (hstops : stops m p.advance.current.type) :
    ProcReturns procs (.exprPrec m) p (some (simpleNode l)) p.advance := by
  have hne : p.current.type ≠ .eof := by
    rw [show p.current.type = l.type from congrArg Lexeme.type h]
    rcases hl with h | ⟨h, _⟩ <;> rw [h] <;> decide
  exact (exprPrec_of_prefixExpr (prefixExpr_simple hl h) hcur hne rfl hplus hminus).mpr
    (infixLoop_stops rfl hnewline hstops)

theorem conditional_branches {x y : Lexeme} (hx : SimpleLexeme x) (hy : SimpleLexeme y) :
    Branches (conditional x y) (conditional x y).advance
      (conditional x y).advance.advance.advance (.ident (bytes "c")) (simpleNode x) ∧
    ElseBranch (conditional x y).advance.advance.advance
      (conditional x y).advance.advance.advance.advance.advance (simpleNode y) := by
  have hc : SimpleLexeme ⟨.ident, bytes "c", 0⟩ := .inl rfl
  have hlevel : Precedence.ternary.level < Precedence.logicalOr.level := by decide
  refine ⟨⟨?_, rfl, ?_, rfl⟩, ⟨?_, rfl⟩⟩
  · exact exprPrec_simple hc rfl rfl nofun nofun nofun (.inr hlevel)
  · exact exprPrec_simple hx rfl rfl nofun nofun nofun (.inl rfl)
  · exact exprPrec_simple hy rfl rfl nofun nofun nofun (.inl rfl)

theorem ternary_iff_names : ParsesAsTernary
    (conditional ⟨.ident, bytes "x", 0⟩ ⟨.ident, bytes "y", 0⟩)
    (.ident (bytes "c")) (.ident (bytes "x")) (.ident (bytes "y")) := by
  obtain ⟨h, hb⟩ := conditional_branches (x := ⟨.ident, bytes "x", 0⟩)
    (y := ⟨.ident, bytes "y", 0⟩) (.inl rfl) (.inl rfl)
  exact ((ternary_iff h).1 _ _ hb).mpr nofun

/-- `c ? "x" : "y"` is an error context, and the parser stops at the colon. -/
theorem not_always_ternary : ¬ ∀ (p p₁ p₂ p' : Parser) (c a b : AstNode),
    Branches p p₁ p₂ c a → ElseBranch p₂ p' b → ParsesAsTernary p c a b := by
  intro hall
  obtain ⟨h, hb⟩ := conditional_branches (x := ⟨.stringLiteral, bytes "\"x\"", 0⟩)
    (y := ⟨.stringLiteral, bytes "\"y\"", 0⟩) (.inr ⟨rfl, by decide⟩) (.inr ⟨rfl, by decide⟩)
  exact (parsesAsTernary_iff h hb).mp (hall _ _ _ _ _ _ _ h hb) rfl

end Aether
