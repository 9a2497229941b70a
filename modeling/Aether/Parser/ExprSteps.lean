/-
Aether.Parser.ExprSteps — the expression parser, one step at a time.

What `parse_expr_prec`, its two loops and the binary branch of
`parse_infix` return, in terms of what their calls return, and `Reads`:
the tokens the parser moves over, up to their locations.
-/
import Aether.Parser.Termination

namespace Aether

open Lib.Procedures

/-! ## §1 Lexemes -/

/-- What the expression parser reads of a token. -/
structure Lexeme where
  type : TokenType
  text : Bytes := []
  intValue : UInt64 := 0
  deriving DecidableEq, Repr

def Token.lexeme (tok : Token) : Lexeme := ⟨tok.type, tok.text, tok.intValue⟩

/-- The parser moves over `lexemes` from state `p` to state `p'`. -/
def Parser.Reads : Parser → List Lexeme → Parser → Prop
  | p, [], p' => p = p'
  | p, l :: ls, p' => p.current.lexeme = l ∧ p.advance.Reads ls p'

theorem reads_append {xs ys : List Lexeme} : ∀ {p p' : Parser},
    p.Reads (xs ++ ys) p' ↔ ∃ q, p.Reads xs q ∧ q.Reads ys p' := by
  induction xs with
  | nil => simp [Parser.Reads]
  | cons x xs ih =>
    intro p p'
    simp only [List.cons_append, Parser.Reads, ih]
    constructor
    · rintro ⟨hx, q, hxs, hys⟩
      exact ⟨q, ⟨hx, hxs⟩, hys⟩
    · rintro ⟨q, ⟨hx, hxs⟩, hys⟩
      exact ⟨hx, q, hxs, hys⟩

theorem Parser.Reads.hasCurrent {ls : List Lexeme} {p p' : Parser} (h : p.Reads ls p')
    (hcur : p.hasCurrent = true) : p'.hasCurrent = true := by
  induction ls generalizing p with
  | nil => exact h ▸ hcur
  | cons l ls ih => exact ih h.2 rfl

theorem Parser.Reads.errors {ls : List Lexeme} {p p' : Parser} (h : p.Reads ls p') :
    p'.errors = p.errors := by
  induction ls generalizing p with
  | nil => rw [h]
  | cons l ls ih => exact ih (p := p.advance) h.2

/-! ## §2 The expression procedures -/

@[simp] theorem steps_parsePrefix {r : Option AstNode} {p p' : Parser} :
    Steps procs parsePrefix p r p' ↔ ProcReturns procs .prefixExpr p r p' := steps_recur

@[simp] theorem steps_parseInfix {left : AstNode} {r : Option AstNode} {p p' : Parser} :
    Steps procs (parseInfix left) p r p' ↔ ProcReturns procs (.infixExpr left) p r p' := steps_recur

@[simp] theorem steps_parseExprPrec {m : Precedence} {r : Option AstNode} {p p' : Parser} :
    Steps procs (parseExprPrec m) p r p' ↔ ProcReturns procs (.exprPrec m) p r p' := steps_recur

@[simp] theorem steps_parseExpr {r : Option AstNode} {p p' : Parser} :
    Steps procs parseExpr p r p' ↔ ProcReturns procs (.exprPrec .min) p r p' := steps_recur

variable {m : Precedence} {left : AstNode} {r : Option AstNode} {p q : Parser}

theorem exprPrec_iff (hcur : p.hasCurrent = true) (hne : p.current.type ≠ .eof) :
    ProcReturns procs (.exprPrec m) p r q ↔
      ∃ l p₁, ProcReturns procs .prefixExpr p l p₁ ∧
        match l with
        | none => r = none ∧ q = p₁
        | some left => ∃ left' p₂, ProcReturns procs (.postfixLoop left) p₁ left' p₂ ∧
            ProcReturns procs (.infixLoop m left' false) p₂ r q := by
  rw [procReturns_iff]
  change Steps procs (exprPrec m) p r q ↔ _
  simp only [exprPrec, steps_bind, steps_check, ensure_of_hasCurrent hcur, hne]
  constructor
  · rintro ⟨_, _, ⟨rfl, rfl⟩, h⟩
    obtain ⟨l, p₁, hl, h⟩ := by simpa using h
    refine ⟨l, p₁, hl, ?_⟩
    cases l with
    | none => simpa [eq_comm] using h
    | some left =>
      obtain ⟨left', p₂, hleft, hloop⟩ := steps_bind.mp h
      exact ⟨left', p₂, steps_recur.mp hleft, steps_recur.mp hloop⟩
  · rintro ⟨l, p₁, hl, h⟩
    refine ⟨_, _, ⟨rfl, rfl⟩, ?_⟩
    simp only [decide_false, Bool.false_eq_true, if_false, steps_bind, steps_parsePrefix]
    refine ⟨l, p₁, hl, ?_⟩
    cases l with
    | none => simpa [eq_comm] using h
    | some left =>
      obtain ⟨left', p₂, hleft, hloop⟩ := h
      exact steps_bind.mpr ⟨left', p₂, steps_recur.mpr hleft, steps_recur.mpr hloop⟩

theorem postfixLoop_iff {left' : AstNode} (hcur : p.hasCurrent = true)
    (hplus : p.current.type ≠ .plusPlus) (hminus : p.current.type ≠ .minusMinus) :
    ProcReturns procs (.postfixLoop left) p left' q ↔ left = left' ∧ p = q := by
  rw [procReturns_iff]
  change Steps procs (postfixLoop left) p left' q ↔ _
  simp [postfixLoop, ensure_of_hasCurrent hcur, hplus, hminus]

/-- The tokens at which the infix loop leaves. -/
def stops (m : Precedence) (type : TokenType) : Prop :=
  tokenPrecedence type = .min ∨ (tokenPrecedence type).level < m.level

instance (m : Precedence) (type : TokenType) : Decidable (stops m type) :=
  inferInstanceAs (Decidable (_ ∨ _))

theorem tokenPrecedence_of_mem_exprEnd {type : TokenType} (h : type ∈ exprEnd) :
    tokenPrecedence type = .min := by
  cases type <;> first | rfl | simp [exprEnd] at h

theorem infixLoop_iff {b : Bool} :
    ProcReturns procs (.infixLoop m left b) p r q ↔
      if stops m (infixState b p).current.type then r = some left ∧ q = infixState b p
      else ∃ l p₁, ProcReturns procs (.infixExpr left) (infixState b p) l p₁ ∧
        match l with
        | none => r = none ∧ q = p₁
        | some left' => ProcReturns procs (.infixLoop m left' true) p₁ r q := by
  rw [procReturns_iff]
  change Steps procs (infixLoop m left b) p r q ↔ _
  have hstate : (if b then p.skipAll [.newline] else p).ensure = infixState b p := rfl
  simp [infixLoop, skipNewlinesIf]
  simp only [hstate]
  generalize infixState b p = q₀
  have hleave : Steps procs (pure (some left) : ParseM (Option AstNode)) q₀ r q ↔
      r = some left ∧ q = q₀ := by
    rw [steps_pure, eq_comm, @eq_comm _ q₀]
  by_cases hstops : stops m q₀.current.type
  · rw [if_pos hstops, ← hleave]
    split
    · rfl
    rw [steps_get_bind]
    split
    · rfl
    · rw [if_pos (hstops.resolve_right ‹_›)]
  · have hmin : tokenPrecedence q₀.current.type ≠ .min := fun h => hstops (.inl h)
    have hlt : ¬ (tokenPrecedence q₀.current.type).level < m.level := fun h => hstops (.inr h)
    have hend : q₀.current.type ∉ exprEnd := fun h => hmin (tokenPrecedence_of_mem_exprEnd h)
    rw [if_neg hstops, if_neg hend, steps_get_bind, if_neg hlt, if_neg hmin, steps_bind]
    constructor
    · rintro ⟨l, p₁, hl, h⟩
      refine ⟨l, p₁, steps_parseInfix.mp hl, ?_⟩
      cases l with
      | none => simpa [eq_comm] using h
      | some left' => exact steps_recur.mp h
    · rintro ⟨l, p₁, hl, h⟩
      refine ⟨l, p₁, steps_parseInfix.mpr hl, ?_⟩
      cases l with
      | none => simpa [eq_comm] using h
      | some left' => exact steps_recur.mpr h

/-- The binary branch of `parse_infix`. -/
theorem infixExpr_iff {op : BinOp} (hop : binaryOpOf p.current.type = some op)
    (hpipe : p.current.type ≠ .pipe) :
    ProcReturns procs (.infixExpr left) p r q ↔
      ∃ right, ProcReturns procs (.exprPrec (tokenPrecedence p.current.type)) p.advance right q ∧
        r = some (.binaryOp op (some left) right (if op = .custom then p.current.text else [])) := by
  have hbinary : Steps procs (infixExpr left) p r q ↔
      Steps procs (parseBinary left p.current) p r q := by
    simp only [infixExpr, steps_bind, steps_get]
    constructor
    · rintro ⟨_, _, ⟨rfl, rfl⟩, h⟩
      split at h <;> first | exact h | simp_all [binaryOpOf]
    · intro h
      refine ⟨p, p, ⟨rfl, rfl⟩, ?_⟩
      split <;> first | exact h | simp_all [binaryOpOf]
  rw [procReturns_iff]
  change Steps procs (infixExpr left) p r q ↔ _
  rw [hbinary]
  simp only [parseBinary, hop]
  simp [eq_comm]

/-! ## §3 One operand, one operator -/

theorem exprPrec_ensure : ProcReturns procs (.exprPrec m) p r q ↔
    ProcReturns procs (.exprPrec m) p.ensure r q := by
  rw [procReturns_iff, procReturns_iff]
  change Steps procs (exprPrec m) p r q ↔ Steps procs (exprPrec m) p.ensure r q
  simp [exprPrec]

/-- After a prefix expression, the infix loop decides. -/
theorem exprPrec_of_prefixExpr {p' : Parser} (hleft : ProcReturns procs .prefixExpr p (some left) p')
    (hcur : p.hasCurrent = true) (hne : p.current.type ≠ .eof) (hcur' : p'.hasCurrent = true)
    (hplus : p'.current.type ≠ .plusPlus) (hminus : p'.current.type ≠ .minusMinus) :
    ProcReturns procs (.exprPrec m) p r q ↔ ProcReturns procs (.infixLoop m left false) p' r q := by
  rw [exprPrec_iff hcur hne]
  constructor
  · rintro ⟨l, p₁, hl, h⟩
    obtain ⟨rfl, rfl⟩ : l = some left ∧ p₁ = p' := by
      simpa using returns_det hl hleft
    obtain ⟨left', p₂, hpost, h⟩ := h
    obtain ⟨rfl, rfl⟩ := (postfixLoop_iff hcur' hplus hminus).mp hpost
    exact h
  · intro h
    exact ⟨_, _, hleft, _, _, (postfixLoop_iff hcur' hplus hminus).mpr ⟨rfl, rfl⟩, h⟩

theorem infixState_of_ne {b : Bool} (hcur : p.hasCurrent = true)
    (hnewline : p.current.type ≠ .newline) : infixState b p = p := by
  have hens := ensure_of_hasCurrent hcur
  have hskip : p.skipAll [.newline] = p.ensure :=
    skipAll_of_not_mem (by rw [hens]; simpa using hnewline)
  cases b <;> simp [infixState, hskip, hens]

/-- The infix loop at a token that stops it. -/
theorem infixLoop_stops {b : Bool} (hcur : p.hasCurrent = true)
    (hnewline : p.current.type ≠ .newline) (hstops : stops m p.current.type) :
    ProcReturns procs (.infixLoop m left b) p (some left) p := by
  rw [infixLoop_iff, infixState_of_ne hcur hnewline, if_pos hstops]
  exact ⟨rfl, rfl⟩

/-- An iteration of the infix loop at an operator. -/
theorem infixLoop_operator {op : BinOp} {b : Bool} (hcur : p.hasCurrent = true)
    (hop : binaryOpOf p.current.type = some op) (hcustom : op ≠ .custom)
    (hpipe : p.current.type ≠ .pipe) (hstops : ¬ stops m p.current.type) :
    ProcReturns procs (.infixLoop m left b) p r q ↔
      ∃ right p₁,
        ProcReturns procs (.exprPrec (tokenPrecedence p.current.type)) p.advance right p₁ ∧
        ProcReturns procs (.infixLoop m (.binaryOp op (some left) right []) true) p₁ r q := by
  have hnewline : p.current.type ≠ .newline := by
    intro h
    rw [h] at hop
    cases hop
  rw [infixLoop_iff, infixState_of_ne hcur hnewline, if_neg hstops]
  constructor
  · rintro ⟨l, p₁, hl, h⟩
    obtain ⟨right, hright, rfl⟩ := (infixExpr_iff hop hpipe).mp hl
    rw [if_neg hcustom] at h
    exact ⟨right, p₁, hright, h⟩
  · rintro ⟨right, p₁, hright, h⟩
    exact ⟨_, p₁, (infixExpr_iff hop hpipe).mpr ⟨right, hright, by rw [if_neg hcustom]⟩, h⟩

theorem current_skipLoop {types : List TokenType} (heof : .eof ∉ types) :
    ∀ {toks : List Token} {p : Parser}, p.lexer.pending = toks →
      (Parser.skipLoop types toks p).current.type ∉ types
  | [], p, hpend => by
    rw [Parser.skipLoop]
    split
    · simpa [Parser.advance, Lexer.advance, hpend, p.lexer.eof_type] using heof
    · next h => simpa using h
  | tok :: toks, p, hpend => by
    rw [Parser.skipLoop]
    split
    · exact current_skipLoop heof (by simp [Parser.advance, Lexer.advance, hpend])
    · next h => simpa using h

theorem hasCurrent_skipLoop {types : List TokenType} :
    ∀ {toks : List Token} {p : Parser}, p.hasCurrent = true →
      (Parser.skipLoop types toks p).hasCurrent = true
  | [], p, h => by
    rw [Parser.skipLoop]
    split
    · rfl
    · exact h
  | tok :: toks, p, h => by
    rw [Parser.skipLoop]
    split
    · exact hasCurrent_skipLoop rfl
    · exact h

/-- Newlines are skipped once. -/
theorem infixState_idem (p : Parser) : infixState true (infixState true p) = infixState true p := by
  have hcur : (p.skipAll [.newline]).hasCurrent = true :=
    hasCurrent_skipLoop (ensure_hasCurrent p)
  have hstate : infixState true p = p.skipAll [.newline] := ensure_of_hasCurrent hcur
  have hnot : (p.skipAll [.newline]).ensure.current.type ∉ [TokenType.newline] := by
    rw [ensure_of_hasCurrent hcur]
    exact current_skipLoop (by decide) rfl
  rw [hstate, infixState, if_pos rfl, skipAll_of_not_mem hnot, ensure_ensure,
    ensure_of_hasCurrent hcur]

end Aether
