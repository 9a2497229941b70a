/-
Aether.Parser.Surface — operator expressions as they are written.

A `Surface` is an operator expression with its parentheses, over lexemes:
`lexemes` writes it down, `ast` is the tree without the parentheses. `WF`
says that the parentheses are where the parser's precedences need them.
`surface_returns`: the parser gives the tree of a well-formed expression.
-/
import Aether.Parser.SpecTable

namespace Aether

open Lib.Procedures

/-! ## §1 Operator expressions -/

/-- The unary operator of a prefix token. -/
def unaryOpOf : TokenType → Option UnaryOp
  | .hash => some .arrayLen
  | .tilde => some .bitNot
  | .bang => some .not
  | .kwNot => some .not
  | .minus => some .neg
  | .plusPlus => some .inc
  | .minusMinus => some .dec
  | _ => none

/-- The binary operator of a token that `parse_infix` consumes. -/
def infixOpOf : TokenType → Option BinOp
  | .pipe => none
  | .unicodeOp => none
  | type => binaryOpOf type

inductive Surface where
  | leaf (l : Lexeme)
  | paren (lp : Lexeme) (s : Surface) (rp : Lexeme)
  | unary (l : Lexeme) (s : Surface)
  | postInc (s : Surface) (l : Lexeme)
  | binary (s : Surface) (l : Lexeme) (s' : Surface)

namespace Surface

def lexemes : Surface → List Lexeme
  | leaf l => [l]
  | paren lp s rp => lp :: s.lexemes ++ [rp]
  | unary l s => l :: s.lexemes
  | postInc s l => s.lexemes ++ [l]
  | binary s l s' => s.lexemes ++ l :: s'.lexemes

def ast : Surface → AstNode
  | leaf l => if l.type = .ident then .ident l.text else .literalInt l.intValue false
  | paren _ s _ => s.ast
  | unary l s => .unaryOp ((unaryOpOf l.type).getD .ref) (some s.ast)
  | postInc s _ => .unaryOp .inc (some s.ast)
  | binary s l s' =>
    .binaryOp ((infixOpOf l.type).getD .custom) (some s.ast) (some s'.ast) []

/-- The precedence of the root operator. -/
def bound : Surface → Nat
  | binary _ l _ => (tokenPrecedence l.type).level
  | _ => Precedence.primary.level

def isBinary : Surface → Bool
  | binary .. => true
  | _ => false

/-- The parentheses are where the parser needs them: the left operand binds
more tightly than its operator, the right operand not less tightly. -/
def WF : Surface → Prop
  | leaf l => l.type = .ident ∨ l.type = .intLiteral
  | paren lp s rp => lp.type = .lparen ∧ s.WF ∧ rp.type = .rparen
  | unary l s => unaryOpOf l.type ≠ none ∧ s.WF ∧ s.isBinary = false
  | postInc s l => l.type = .plusPlus ∧ s.WF ∧ s.isBinary = false
  | binary s l s' => infixOpOf l.type ≠ none ∧ s.WF ∧ s'.WF ∧
      (tokenPrecedence l.type).level < s.bound ∧ (tokenPrecedence l.type).level ≤ s'.bound

/-- No postfix `++` anywhere. -/
def NoPost : Surface → Prop
  | leaf _ => True
  | paren _ s _ => s.NoPost
  | unary _ s => s.NoPost
  | postInc .. => False
  | binary s _ s' => s.NoPost ∧ s'.NoPost

end Surface

/-! ## §2 Tokens of operators -/

theorem infixOpOf_some {type : TokenType} {op : BinOp} (h : infixOpOf type = some op) :
    binaryOpOf type = some op ∧ op ≠ .custom ∧ type ≠ .pipe := by
  cases type <;> cases h <;> exact ⟨rfl, by decide, by decide⟩

/-- The tokens after which an expression can go on, or end: not `++`, `--`
or a newline, and no call. -/
def Ordinary (type : TokenType) : Prop :=
  type ≠ .plusPlus ∧ type ≠ .minusMinus ∧ type ≠ .newline ∧
    (tokenPrecedence type).level < Precedence.unary.level

theorem infixOpOf_ordinary {type : TokenType} (h : infixOpOf type ≠ none) :
    Ordinary type ∧ tokenPrecedence type ≠ .min ∧ type ≠ .eof := by
  cases type <;> first | exact absurd rfl h | (refine ⟨⟨?_, ?_, ?_, ?_⟩, ?_, ?_⟩ <;> decide)

theorem bound_pos {s : Surface} (h : s.WF) : 0 < s.bound := by
  cases s with
  | binary s l s' =>
    obtain ⟨_, hmin, _⟩ := infixOpOf_ordinary h.1
    rw [Surface.bound]
    cases htok : tokenPrecedence l.type <;> first | exact absurd htok hmin | decide
  | _ => simp [Surface.bound, Precedence.level]

theorem bound_of_not_binary {s : Surface} (h : s.isBinary = false) :
    s.bound = Precedence.primary.level := by
  cases s <;> first | rfl | cases h

/-! ## §3 The parser gives the tree -/

/-- A prefix expression, and what `parse_expr_prec` does after it. -/
structure Surface.Parses (s : Surface) : Prop where
  ofPrefix : s.isBinary = false → ∀ {p p' : Parser}, p.hasCurrent = true → p.Reads s.lexemes p' →
    Ordinary p'.current.type → ProcReturns procs .prefixExpr p (some s.ast) p'
  ofExpr : ∀ {m : Precedence} {p p' q : Parser} {r : Option AstNode}, m.level ≤ s.bound →
    p.hasCurrent = true → p.Reads s.lexemes p' → Ordinary p'.current.type →
    (tokenPrecedence p'.current.type).level < s.bound →
    ProcReturns procs (.infixLoop m s.ast s.isBinary) p' r q →
    ProcReturns procs (.exprPrec m) p r q

theorem surface_starts {s : Surface} (h : s.WF) :
    ∃ l ls, s.lexemes = l :: ls ∧ l.type ≠ .eof := by
  induction s with
  | leaf l =>
    refine ⟨l, [], rfl, ?_⟩
    rcases h with h | h <;> simp [h]
  | paren lp s rp => exact ⟨lp, _, rfl, by simp [h.1]⟩
  | unary l s =>
    refine ⟨l, _, rfl, fun heof => h.1 ?_⟩
    rw [heof]
    rfl
  | postInc s l ih =>
    obtain ⟨l', ls, hls, hne⟩ := ih h.2.1
    exact ⟨l', ls ++ [l], by simp [Surface.lexemes, hls], hne⟩
  | binary s l s' ih =>
    obtain ⟨l', ls, hls, hne⟩ := ih h.2.1
    exact ⟨l', ls ++ l :: s'.lexemes, by simp [Surface.lexemes, hls], hne⟩

theorem current_ne_eof {s : Surface} (h : s.WF) {p p' : Parser} (hreads : p.Reads s.lexemes p') :
    p.current.type ≠ .eof := by
  obtain ⟨l, ls, hls, hne⟩ := surface_starts h
  rw [hls] at hreads
  rw [← hreads.1] at hne
  exact hne

/-- It is enough to look at prefix expressions. -/
theorem parses_of_prefix {s : Surface} (hwf : s.WF) (hbin : s.isBinary = false)
    (h : ∀ {p p' : Parser}, p.hasCurrent = true → p.Reads s.lexemes p' →
      Ordinary p'.current.type → ProcReturns procs .prefixExpr p (some s.ast) p') : s.Parses where
  ofPrefix := fun _ => h
  ofExpr := by
    intro m p p' q r _ hcur hreads hord _ hloop
    rw [hbin] at hloop
    exact (exprPrec_of_prefixExpr (h hcur hreads hord) hcur (current_ne_eof hwf hreads)
      (hreads.hasCurrent hcur) hord.1 hord.2.1).mpr hloop

/-- The whole of what `parse_expr_prec` does, when the next token stops it. -/
theorem Surface.Parses.returns {s : Surface} (h : s.Parses) {m : Precedence} {p p' : Parser}
    (hm : m.level ≤ s.bound) (hcur : p.hasCurrent = true) (hreads : p.Reads s.lexemes p')
    (hord : Ordinary p'.current.type) (hlt : (tokenPrecedence p'.current.type).level < s.bound)
    (hstops : stops m p'.current.type) : ProcReturns procs (.exprPrec m) p (some s.ast) p' :=
  h.ofExpr hm hcur hreads hord hlt
    (infixLoop_stops (hreads.hasCurrent hcur) hord.2.2.1 hstops)

theorem prefixExpr_lparen {p q : Parser} {r : Option AstNode} (h : p.current.type = .lparen) :
    ProcReturns procs .prefixExpr p r q ↔ Steps procs parseParenthesized p r q := by
  rw [procReturns_iff]
  change Steps procs prefixExpr p r q ↔ _
  simp [prefixExpr, h]

theorem steps_parseUnary {p q : Parser} {op : UnaryOp} {node : AstNode} :
    Steps procs (parseUnary op) p (some (.unaryOp op (some node))) q ↔
      ProcReturns procs (.exprPrec .unary) p.advance (some node) q := by
  simp only [parseUnary, steps_bind, steps_advance, steps_parseExprPrec, steps_pure]
  constructor
  · rintro ⟨_, _, rfl, operand, _, h, hnode, rfl⟩
    obtain rfl : operand = some node := by simpa using hnode
    exact h
  · intro h
    exact ⟨(), _, rfl, _, _, h, rfl, rfl⟩

theorem steps_parseIncDec {p q : Parser} {op : UnaryOp} {node : AstNode} :
    Steps procs (parseIncDec op) p (some (.unaryOp op (some node))) q ↔
      ProcReturns procs .prefixExpr p.advance (some node) q := by
  simp only [parseIncDec, steps_bind, steps_advance, steps_parsePrefix]
  constructor
  · rintro ⟨_, _, rfl, operand, _, h, hnode⟩
    cases operand with
    | none => simp at hnode
    | some operand =>
      obtain ⟨hnode, rfl⟩ := steps_pure.mp hnode
      obtain rfl : operand = node := by simpa using hnode
      exact h
  · intro h
    exact ⟨(), _, rfl, _, _, h, steps_pure.mpr ⟨rfl, rfl⟩⟩

/-- Prefix `++` and `--` take a prefix expression, the others an
expression of unary precedence. -/
theorem prefixExpr_unary {p q : Parser} {op : UnaryOp} {node : AstNode}
    (h : unaryOpOf p.current.type = some op) :
    ProcReturns procs .prefixExpr p (some (.unaryOp op (some node))) q ↔
      if p.current.type = .plusPlus ∨ p.current.type = .minusMinus then
        ProcReturns procs .prefixExpr p.advance (some node) q
      else ProcReturns procs (.exprPrec .unary) p.advance (some node) q := by
  rw [procReturns_iff, ← @steps_parseUnary p q op node, ← @steps_parseIncDec p q op node]
  change Steps procs prefixExpr p _ q ↔ _
  cases htype : p.current.type <;> rw [htype] at h <;> cases h <;> simp [prefixExpr, htype]

theorem parses_leaf {l : Lexeme} (hwf : (Surface.leaf l).WF) : (Surface.leaf l).Parses := by
  refine parses_of_prefix hwf rfl fun {p p'} hcur hreads _ => ?_
  obtain ⟨rfl, rfl⟩ := hreads
  rcases hwf with htype | htype
  · have hleft := steps_parsePrefix.mp (prefixExpr_ident (p := p) htype)
    have htext : (Surface.leaf p.current.lexeme).ast = .ident p.current.text := if_pos htype
    rwa [htext]
  · rw [procReturns_iff]
    change Steps procs prefixExpr p _ _
    have htype' : p.current.type = .intLiteral := htype
    simp [prefixExpr, leaf, Surface.ast, Token.lexeme, htype']

theorem parses_paren {lp rp : Lexeme} {s : Surface} (hwf : (Surface.paren lp s rp).WF)
    (hs : s.Parses) : (Surface.paren lp s rp).Parses := by
  refine parses_of_prefix hwf rfl fun {p p'} hcur hreads _ => ?_
  obtain ⟨hlp, hreads⟩ := hreads
  obtain ⟨p₁, hinner, hrp, rfl⟩ := reads_append.mp hreads
  have htype : p.current.type = .lparen := by rw [← hwf.1, ← hlp]; rfl
  have htype₁ : p₁.current.type = .rparen := by rw [← hwf.2.2, ← hrp]; rfl
  have hord : Ordinary p₁.current.type := by
    rw [htype₁]
    refine ⟨?_, ?_, ?_, ?_⟩ <;> decide
  have hexpr : ProcReturns procs (.exprPrec .min) p.advance (some s.ast) p₁ :=
    hs.returns (Nat.zero_le _) rfl hinner hord (by rw [htype₁]; exact bound_pos hwf.2.1)
      (.inl (by rw [htype₁]; rfl))
  have hens : p₁.ensure = p₁ := ensure_of_hasCurrent (hinner.hasCurrent rfl)
  rw [prefixExpr_lparen htype]
  simp only [parseParenthesized, steps_bind, steps_advance, steps_parseExpr, expect]
  refine ⟨(), _, rfl, some s.ast, p₁, hexpr, (), p₁.advance, ?_, ?_⟩
  · simp [hens, htype₁]
  · simp [Surface.ast]

theorem parses_unary {l : Lexeme} {s : Surface} (hwf : (Surface.unary l s).WF) (hs : s.Parses) :
    (Surface.unary l s).Parses := by
  refine parses_of_prefix hwf rfl fun {p p'} hcur hreads hord => ?_
  obtain ⟨rfl, hreads⟩ := hreads
  obtain ⟨hop, _, hbin⟩ := hwf
  obtain ⟨op, hop⟩ := Option.ne_none_iff_exists'.mp hop
  have hast : (Surface.unary p.current.lexeme s).ast = .unaryOp op (some s.ast) := by
    simp [Surface.ast, hop]
  rw [hast, prefixExpr_unary hop]
  have hbound := bound_of_not_binary hbin
  split
  · exact hs.ofPrefix hbin rfl hreads hord
  · refine hs.returns (by rw [hbound]; decide) rfl hreads hord ?_ (.inr hord.2.2.2)
    rw [hbound]
    exact Nat.lt_trans hord.2.2.2 (by decide)

theorem parses_binary {s s' : Surface} {l : Lexeme} (hwf : (Surface.binary s l s').WF)
    (hs : s.Parses) (hs' : s'.Parses) : (Surface.binary s l s').Parses where
  ofPrefix := by simp [Surface.isBinary]
  ofExpr := by
    intro m p p' q r hm hcur hreads hord hlt hloop
    obtain ⟨hop, _, _, hleft, hright⟩ := hwf
    obtain ⟨p₁, hreads₁, rfl, hreads₂⟩ := reads_append.mp hreads
    obtain ⟨hord₁, hmin, _⟩ := infixOpOf_ordinary hop
    obtain ⟨op, hop⟩ := Option.ne_none_iff_exists'.mp hop
    obtain ⟨hbinary, hcustom, hpipe⟩ := infixOpOf_some hop
    have hcur₁ := hreads₁.hasCurrent hcur
    have hm₁ : m.level ≤ (tokenPrecedence p₁.current.type).level := hm
    refine hs.ofExpr (Nat.le_trans hm (Nat.le_of_lt hleft)) hcur hreads₁ hord₁ hleft ?_
    have hstops : ¬ stops m p₁.current.type := by
      intro h
      rcases h with h | h
      · exact hmin h
      · omega
    rw [infixLoop_operator hcur₁ hbinary hcustom hpipe hstops]
    have hoperand : ProcReturns procs (.exprPrec (tokenPrecedence p₁.current.type)) p₁.advance
        (some s'.ast) p' :=
      hs'.returns hright rfl hreads₂ hord (Nat.lt_of_lt_of_le hlt hright) (.inr hlt)
    refine ⟨_, _, hoperand, ?_⟩
    have hast : (Surface.binary s p₁.current.lexeme s').ast =
        .binaryOp op (some s.ast) (some s'.ast) [] := by
      simp [Surface.ast, hop]
    rwa [hast] at hloop

/-- The parser gives the tree of a well-formed expression. -/
theorem surface_parses {s : Surface} (hwf : s.WF) (hpost : s.NoPost) : s.Parses := by
  induction s with
  | leaf l => exact parses_leaf hwf
  | paren lp s rp ih => exact parses_paren hwf (ih hwf.2.1 hpost)
  | unary l s ih => exact parses_unary hwf (ih hwf.2.1 hpost)
  | postInc s l => exact hpost.elim
  | binary s l s' ih ih' =>
    exact parses_binary hwf (ih hwf.2.1 hpost.1) (ih' hwf.2.2.1 hpost.2)

end Aether
