/-
Aether.Parser.Soundness — what the parser accepts as an operator
expression.

If `parse_expr_prec` gives an operator tree without an error, the tokens it
moved over are a well-formed surface expression of that tree
(`exprPrec_sound`). Calls, indices, lambdas and the like are not operator
trees, so nothing is said about them; neither are string literals, whose
interpolations give trees of their own, and newlines, over which only some
loops move.
-/
import Aether.Parser.Surface

namespace Aether

open Lib.Procedures

/-! ## §1 Operator trees -/

def treeUnaryOps : List UnaryOp := [.neg, .not, .bitNot, .arrayLen, .inc, .dec]

inductive IsTree : AstNode → Prop where
  | ident (name : Bytes) : IsTree (.ident name)
  | int (value : UInt64) : IsTree (.literalInt value false)
  | unary {op : UnaryOp} {t : AstNode} :
    op ∈ treeUnaryOps → IsTree t → IsTree (.unaryOp op (some t))
  | binary {op : BinOp} {l r : AstNode} :
    op ≠ .custom → op ≠ .errorContext → IsTree l → IsTree r →
      IsTree (.binaryOp op (some l) (some r) [])

theorem isTree_right {op : BinOp} {left : AstNode} {right : Option AstNode} {custom : Bytes}
    (h : IsTree (.binaryOp op (some left) right custom)) :
    op ≠ .custom ∧ ∃ node, right = some node ∧ IsTree node := by
  cases h with
  | binary hcustom _ _ hright => exact ⟨hcustom, _, rfl, hright⟩

theorem infixOpOf_of_binary {type : TokenType} {op : BinOp} (h : binaryOpOf type = some op)
    (hcustom : op ≠ .custom) (hpipe : type ≠ .pipe) : infixOpOf type = some op := by
  cases type <;> first | exact h | exact absurd rfl hpipe |
    exact absurd (Option.some.inj h).symm hcustom

/-- The tokens about which soundness says nothing. -/
def excludedTypes : List TokenType := [.newline, .stringLiteral, .kwSelf]

/-- From `p` to `p'` without an error, over plain tokens. -/
structure Clean (p p' : Parser) : Prop where
  plain : ∀ tok ∈ p.ahead, tok.type ∉ excludedTypes
  hasCurrent : p.hasCurrent = true
  errors_le : p'.errors.length ≤ p.errors.length

theorem Clean.part {p a b p' : Parser} (h : Clean p p') (h₁ : Later p a) (h₂ : Later b p') :
    Clean a b where
  plain := fun tok htok => h.plain tok (h₁.ahead_subset htok)
  hasCurrent := h₁.hasCurrent h.hasCurrent
  errors_le := Nat.le_trans h₂.errors_le (Nat.le_trans h.errors_le h₁.errors_le)

theorem Clean.no_error {p q p' : Parser} {token : Token} {message : String} (h : Clean p p')
    (h₁ : Later p q) (h₂ : Later (q.error token message) p') : False := by
  have hle := h₂.errors_le
  have hle' := Nat.le_trans h.errors_le h₁.errors_le
  simp only [Parser.error, List.length_append, List.length_singleton] at hle
  omega

theorem Clean.current {p p' : Parser} (h : Clean p p') : p.current.type ∉ excludedTypes :=
  h.plain p.current (by simp [Parser.ahead])

theorem Clean.ensure {p p' : Parser} (h : Clean p p') : p.ensure = p :=
  ensure_of_hasCurrent h.hasCurrent

/-- The next operator binds less tightly than the root of `s`. -/
def Surface.Next (s : Surface) (type : TokenType) : Prop :=
  infixOpOf type ≠ none → (tokenPrecedence type).level < s.bound

theorem next_of_not_binary {s : Surface} (h : s.isBinary = false) (type : TokenType) :
    s.Next type := by
  intro hop
  rw [bound_of_not_binary h]
  exact Nat.lt_trans (infixOpOf_ordinary hop).1.2.2.2 (by decide)

theorem not_binary_of_bound {s : Surface} (h : s.WF) (hbound : Precedence.unary.level ≤ s.bound) :
    s.isBinary = false := by
  cases s with
  | binary s l s' => exact absurd hbound (Nat.not_le.mpr (infixOpOf_ordinary h.1).1.2.2.2)
  | _ => rfl

theorem next_of_stops {s s' : Surface} {l : Lexeme} {type : TokenType}
    (h : stops (tokenPrecedence l.type) type) : (Surface.binary s l s').Next type := by
  intro hop
  rcases h with hmin | hlt
  · exact absurd hmin (infixOpOf_ordinary hop).2.1
  · exact hlt

/-! ## §2 What the expression procedures accept -/

/-- The surface expressions of the operator trees that the calls give. The
postfix loop gives nothing at a `--`. -/
def Sound : ∀ c : Proc × Parser, c.1.Result × Parser → Prop
  | (.prefixExpr, p), rs => ∀ t, rs.1 = some t → Clean p rs.2 → IsTree t →
    ∃ s : Surface, s.isBinary = false ∧ s.WF ∧ s.ast = t ∧ p.Reads s.lexemes rs.2
  | (.postfixLoop left, p), rs => p.ensure.current.type ≠ .minusMinus ∧ (Clean p rs.2 →
    IsTree rs.1 → IsTree left ∧ ∃ ls, p.Reads ls rs.2 ∧
      ∀ s : Surface, s.isBinary = false → s.WF → s.ast = left →
        ∃ s' : Surface, s'.isBinary = false ∧ s'.WF ∧ s'.ast = rs.1 ∧
          s'.lexemes = s.lexemes ++ ls)
  | (.exprPrec m, p), rs => ∀ t, rs.1 = some t → Clean p rs.2 → IsTree t →
    stops m rs.2.current.type ∧
      ∃ s : Surface, s.WF ∧ s.ast = t ∧ m.level ≤ s.bound ∧ p.Reads s.lexemes rs.2
  | (.infixExpr left, p), rs => ∀ t, rs.1 = some t → Clean p rs.2 → IsTree t →
    (t = left ∧ rs.2 = p) ∨
      ∃ op s, infixOpOf p.current.type = some op ∧ Surface.WF s ∧
        t = .binaryOp op (some left) (some s.ast) [] ∧
        (tokenPrecedence p.current.type).level ≤ s.bound ∧ p.advance.Reads s.lexemes rs.2 ∧
        stops (tokenPrecedence p.current.type) rs.2.current.type
  | (.infixLoop m left _, p), rs => ∀ t, rs.1 = some t → Clean p rs.2 → IsTree t →
    IsTree left ∧ stops m rs.2.current.type ∧ ∃ ls, p.Reads ls rs.2 ∧
      ∀ s : Surface, s.WF → s.ast = left → m.level ≤ s.bound → s.Next p.current.type →
        ∃ s' : Surface, s'.WF ∧ s'.ast = t ∧ m.level ≤ s'.bound ∧
          s'.lexemes = s.lexemes ++ ls
  | _, _ => True

def soundPost (c : Proc × Parser) (rs : c.1.Result × Parser) : Prop := callPost c rs ∧ Sound c rs

/-- A computation in the body of `c`, as far as its result is concerned. -/
abbrev Accepts {α : Type} (x : ParseM α) (p : Parser) (Q : α → Parser → Prop) : Prop :=
  Spec (fun _ => True) soundPost x p Q

variable {α : Type} {p : Parser}

theorem accepts_recur {proc : Proc} {f : proc.Result → ParseM α} {Q : α → Parser → Prop}
    (h : ∀ r p', soundPost (proc, p) (r, p') → Accepts (f r) p' Q) :
    Accepts (recur proc >>= f) p Q :=
  spec_bind.mpr (spec_callProc.mpr ⟨trivial, h⟩)

theorem accepts_exprPrec {m : Precedence} {f : Option AstNode → ParseM α} {Q : α → Parser → Prop}
    (h : ∀ r p', soundPost (.exprPrec m, p) (r, p') → Accepts (f r) p' Q) :
    Accepts (parseExprPrec m >>= f) p Q := accepts_recur h

theorem accepts_prefixExpr {f : Option AstNode → ParseM α} {Q : α → Parser → Prop}
    (h : ∀ r p', soundPost (.prefixExpr, p) (r, p') → Accepts (f r) p' Q) :
    Accepts (parsePrefix >>= f) p Q := accepts_recur h

theorem accepts_advance {f : Unit → ParseM α} {Q : α → Parser → Prop}
    (h : Accepts (f ()) p.advance Q) : Accepts (advance >>= f) p Q := h

theorem accepts_infix {left : AstNode} {f : Option AstNode → ParseM α} {Q : α → Parser → Prop}
    (h : ∀ r p', soundPost (.infixExpr left, p) (r, p') → Accepts (f r) p' Q) :
    Accepts (parseInfix left >>= f) p Q := accepts_recur h

theorem accepts_skipNewlinesIf {b : Bool} {f : Unit → ParseM α} {Q : α → Parser → Prop}
    (h : Accepts (f ()) (if b then p.skipAll [.newline] else p) Q) :
    Accepts (skipNewlinesIf b >>= f) p Q := h

theorem accepts_check {type : TokenType} {x y : ParseM α} {Q : α → Parser → Prop}
    (hx : p.ensure.current.type = type → Accepts x p.ensure Q)
    (hy : p.ensure.current.type ≠ type → Accepts y p.ensure Q) :
    Accepts (check type >>= fun b => if b = true then x else y) p Q := by
  change Accepts (if decide (p.ensure.current.type = type) = true then x else y) p.ensure Q
  split_ifs with h
  · exact hx (of_decide_eq_true h)
  · exact hy (fun heq => h (decide_eq_true heq))

theorem accepts_checkAny {types : List TokenType} {x y : ParseM α} {Q : α → Parser → Prop}
    (hx : p.ensure.current.type ∈ types → Accepts x p.ensure Q)
    (hy : p.ensure.current.type ∉ types → Accepts y p.ensure Q) :
    Accepts (checkAny types >>= fun b => if b = true then x else y) p Q := by
  change Accepts (if types.contains p.ensure.current.type = true then x else y) p.ensure Q
  split_ifs with h
  · exact hx (List.contains_iff_mem.mp h)
  · exact hy (fun hmem => h (List.contains_iff_mem.mpr hmem))

theorem accepts_matchTok {type : TokenType} {f : Bool → ParseM α} {Q : α → Parser → Prop}
    (ht : p.ensure.current.type = type → Accepts (f true) p.ensure.advance Q)
    (hf : p.ensure.current.type ≠ type → Accepts (f false) p.ensure Q) :
    Accepts (matchTok type >>= f) p Q := by
  by_cases h : p.ensure.current.type = type
  · simpa [Accepts, matchTok, check, advance, h] using ht h
  · simpa [Accepts, matchTok, check, advance, h] using hf h

theorem accepts_tail {proc : Proc} {Q : proc.Result → Parser → Prop}
    (h : ∀ r p', soundPost (proc, p) (r, p') → Q r p') : Accepts (recur proc) p Q :=
  spec_callProc.mpr ⟨trivial, h⟩

theorem accepts_expect {type : TokenType} {f : Unit → ParseM α} {Q : α → Parser → Prop}
    (hread : p.ensure.current.type = type → Accepts (f ()) p.ensure.advance Q)
    (herror : Accepts (f ()) (p.ensure.error p.ensure.current "expected token") Q) :
    Accepts (expect type >>= f) p Q := by
  by_cases h : p.ensure.current.type = type
  · simpa [Accepts, expect, check, advance, h] using hread h
  · simpa [Accepts, expect, check, parserError, h] using herror

/-! ## §3 Prefix expressions -/

/-- The result of a prefix expression in state `p`. -/
abbrev PrefixSound (p : Parser) (r : Option AstNode) (p' : Parser) : Prop :=
  Sound (.prefixExpr, p) (r, p')

theorem accepts_leaf {node : AstNode}
    (h : IsTree node → ∃ l, (Surface.leaf l).WF ∧ (Surface.leaf l).ast = node ∧
      p.current.lexeme = l) : Accepts (leaf node) p (PrefixSound p) := by
  rintro t ⟨⟩ _ htree
  obtain ⟨l, hwf, hast, hlex⟩ := h htree
  exact ⟨.leaf l, rfl, hwf, hast, hlex, rfl⟩

theorem accepts_unary {op : UnaryOp} (hop : op ∈ treeUnaryOps → unaryOpOf p.current.type = some op) :
    Accepts (parseUnary op) p (PrefixSound p) := by
  unfold parseUnary
  refine accepts_advance (accepts_exprPrec fun operand p' h => ?_)
  rintro t ⟨⟩ hclean htree
  cases htree with
  | @unary _ node hmem htree =>
    have hop := hop hmem
    have hclean' := hclean.part (later_advance p) (Later.refl _)
    obtain ⟨_, s, hwf, rfl, hbound, hreads⟩ := h.2 node rfl hclean' htree
    refine ⟨.unary p.current.lexeme s, rfl, ⟨?_, hwf, not_binary_of_bound hwf hbound⟩, ?_, rfl,
      hreads⟩
    · simp [Token.lexeme, hop]
    · simp [Surface.ast, Token.lexeme, hop]

theorem accepts_incDec {op : UnaryOp} (hop : unaryOpOf p.current.type = some op) :
    Accepts (parseIncDec op) p (PrefixSound p) := by
  unfold parseIncDec
  refine accepts_advance (accepts_prefixExpr fun operand p' h => ?_)
  cases operand with
  | none =>
    rintro t ⟨⟩
  | some node =>
    rintro t ⟨⟩ hclean htree
    cases htree with
    | unary _ htree =>
      have hclean' := hclean.part (later_advance p) (Later.refl _)
      obtain ⟨s, hbin, hwf, rfl, hreads⟩ := h.2 node rfl hclean' htree
      refine ⟨.unary p.current.lexeme s, rfl, ⟨?_, hwf, hbin⟩, ?_, rfl, hreads⟩
      · simp [Token.lexeme, hop]
      · simp [Surface.ast, Token.lexeme, hop]

theorem accepts_parenthesized (htype : p.current.type = .lparen) :
    Accepts parseParenthesized p (PrefixSound p) := by
  unfold parseParenthesized
  refine accepts_advance (accepts_exprPrec fun r p₁ h => ?_)
  have hcur : p₁.ensure = p₁ := ensure_of_hasCurrent (h.1.1.hasCurrent rfl)
  refine accepts_expect (fun hrp => ?_) ?_
  · rw [hcur] at hrp ⊢
    intro t ht hclean htree
    have hclean' := hclean.part (later_advance p) (later_advance p₁)
    obtain ⟨_, s, hwf, rfl, _, hreads⟩ := h.2 t ht hclean' htree
    refine ⟨.paren p.current.lexeme s p₁.current.lexeme, rfl, ⟨htype, hwf, hrp⟩, rfl, rfl, ?_⟩
    exact reads_append.mpr ⟨p₁, hreads, rfl, rfl⟩
  · rw [hcur]
    intro t _ hclean _
    exact (hclean.no_error ((later_advance p).trans h.1.1) (Later.refl _)).elim

/-- Nothing is said about other results. -/
theorem accepts_other {x : ParseM (Option AstNode)} {Q : Option AstNode → Parser → Prop}
    (hQ : ∀ r p', (∀ t, r = some t → ¬ IsTree t) → Q r p')
    (h : Accepts x p fun r _ => ∀ t, r = some t → ¬ IsTree t) : Accepts x p Q :=
  spec_mono (fun r p' hr => hQ r p' hr) h

theorem prefixExpr_sound (p : Parser) : Accepts prefixExpr p (PrefixSound p) := by
  have hother : ∀ {x : ParseM (Option AstNode)},
      (Accepts x p fun r _ => ∀ t, r = some t → ¬ IsTree t) → Accepts x p (PrefixSound p) :=
    accepts_other fun r p' hr t ht _ htree => (hr t ht htree).elim
  have hleaf : ∀ {node : AstNode}, ¬ IsTree node → Accepts (leaf node) p (PrefixSound p) :=
    fun hnode => accepts_leaf fun htree => (hnode htree).elim
  have hexcluded : ∀ {x : ParseM (Option AstNode)}, p.current.type ∈ excludedTypes →
      Accepts x p (PrefixSound p) := fun {x} hmem =>
    spec_mono (fun r p' _ t _ hclean _ => absurd hmem hclean.current) (spec_true x p)
  unfold prefixExpr
  refine spec_bind.mpr (spec_get.mpr ?_)
  dsimp only
  split
  case h_1 htype =>
    refine accepts_leaf fun _ => ⟨_, .inr htype, ?_, rfl⟩
    simp [Surface.ast, Token.lexeme, htype]
  case h_3 htype | h_8 htype => exact hexcluded (by rw [htype]; decide)
  case h_10 htype =>
    refine accepts_leaf fun _ => ⟨_, .inl htype, ?_, rfl⟩
    simp [Surface.ast, Token.lexeme, htype]
  case h_11 htype => exact accepts_parenthesized htype
  case h_12 htype | h_13 htype => exact accepts_incDec (by rw [htype]; rfl)
  case h_2 | h_4 | h_5 | h_6 | h_7 => exact hleaf fun htree => by cases htree
  case h_9 =>
    refine hother (spec_any fun _ _ => spec_bind.mpr ?_)
    unfold parseMatch
    refine spec_any fun value _ => spec_any fun b _ => ?_
    split
    · refine spec_any fun arms _ => spec_any fun _ _ => ?_
      rintro t ⟨⟩ htree
      cases htree
    · rintro t ⟨⟩ htree
      cases htree
  case h_14 =>
    refine hother (spec_any fun _ _ => spec_any fun elements _ => spec_any fun _ _ => ?_)
    rintro t ⟨⟩ htree
    cases htree
  case h_21 =>
    refine hother (spec_any fun _ _ => spec_any fun params _ => spec_any fun _ _ =>
      spec_any fun _ _ => spec_any fun b _ => ?_)
    split
    · refine spec_any fun body _ => ?_
      rintro t ⟨⟩ htree
      cases htree
    · refine spec_any fun body _ => ?_
      rintro t ⟨⟩ htree
      cases htree
  case h_26 =>
    refine hother (spec_any fun _ _ => spec_any fun _ _ => ?_)
    rintro t ⟨⟩
  all_goals next htype =>
    refine accepts_unary fun hmem => ?_
    rw [htype]
    first | rfl | simp [treeUnaryOps] at hmem

/-! ## §4 The loops -/

theorem postfixLoop_sound (left : AstNode) (p : Parser) :
    Accepts (postfixLoop left) p fun r p' => Sound (.postfixLoop left, p) (r, p') := by
  unfold postfixLoop
  refine accepts_checkAny (fun h => ?_) fun _ => ?_
  · refine accepts_matchTok (fun hplus => accepts_tail fun t p' h => ?_) fun hplus => ?_
    · rw [ensure_ensure] at hplus h
      refine ⟨by simp [hplus], fun hclean htree => ?_⟩
      rw [hclean.ensure] at hplus h
      have hclean' := hclean.part (later_advance p) (Later.refl p')
      obtain ⟨htree', ls, hreads, hloop⟩ := h.2.2 hclean' htree
      cases htree' with
      | unary _ htree₁ =>
        refine ⟨htree₁, p.current.lexeme :: ls, ⟨rfl, hreads⟩, fun s hbin hwf hast => ?_⟩
        obtain ⟨s', hbin', hwf', hast', hlex'⟩ :=
          hloop (.postInc s p.current.lexeme) rfl ⟨hplus, hwf, hbin⟩ (by simp [Surface.ast, hast])
        exact ⟨s', hbin', hwf', hast', by simp [hlex', Surface.lexemes]⟩
    · -- the `--` stays: the call there gives nothing
      refine accepts_tail fun t p' h' => ?_
      rw [ensure_ensure] at hplus
      have hminus : p.ensure.current.type = .minusMinus := by simpa [hplus] using h
      have hnot := h'.2.1
      simp only [ensure_ensure] at hnot
      exact absurd hminus hnot
  · next h =>
    refine ⟨fun hminus => h (by simp [hminus]), fun hclean htree => ?_⟩
    rw [hclean.ensure]
    exact ⟨htree, [], rfl, fun s hbin hwf hast => ⟨s, hbin, hwf, hast, by simp⟩⟩

theorem exprPrec_body_sound (m : Precedence) (p : Parser) :
    Accepts (exprPrec m) p fun r p' => Sound (.exprPrec m, p) (r, p') := by
  unfold exprPrec
  refine accepts_check (fun _ => ?_) fun _ => accepts_prefixExpr fun l p₁ hl => ?_
  · rintro t ⟨⟩
  cases l with
  | none =>
    rintro t ⟨⟩
  | some left =>
    refine accepts_recur fun left' p₂ hpost => accepts_tail fun r p' hloop => ?_
    intro t ht hclean htree
    rw [hclean.ensure] at hl
    have hclean₁ := hclean.part (Later.refl p) (hpost.1.1.trans hloop.1.1)
    have hclean₂ := hclean.part hl.1.1 hloop.1.1
    have hclean₃ := hclean.part (hl.1.1.trans hpost.1.1) (Later.refl p')
    obtain ⟨htree', hstops, ls₃, hreads₃, hloop⟩ := hloop.2 t ht hclean₃ htree
    obtain ⟨htree₁, ls₂, hreads₂, hpost⟩ := hpost.2.2 hclean₂ htree'
    obtain ⟨s, hbin, hwf, hast, hreads₁⟩ := hl.2 left rfl hclean₁ htree₁
    obtain ⟨s₂, hbin₂, hwf₂, hast₂, hlex₂⟩ := hpost s hbin hwf hast
    have hm : m.level ≤ s₂.bound := by
      rw [bound_of_not_binary hbin₂]
      cases m <;> decide
    obtain ⟨s₃, hwf₃, hast₃, hbound, hlex₃⟩ :=
      hloop s₂ hwf₂ hast₂ hm (next_of_not_binary hbin₂ _)
    refine ⟨hstops, s₃, hwf₃, hast₃, hbound, ?_⟩
    rw [hlex₃, hlex₂]
    exact reads_append.mpr ⟨p₂, reads_append.mpr ⟨p₁, hreads₁, hreads₂⟩, hreads₃⟩

theorem infixLoop_sound (m : Precedence) (left : AstNode) (b : Bool) (p : Parser) :
    Accepts (infixLoop m left b) p fun r p' => Sound (.infixLoop m left b, p) (r, p') := by
  unfold infixLoop
  refine accepts_skipNewlinesIf ?_
  obtain ⟨q, hq⟩ : ∃ q, q = if b then p.skipAll [.newline] else p := ⟨_, rfl⟩
  rw [← hq]
  have hstate : ∀ {p' : Parser}, Clean p p' → q.ensure = p := by
    intro p' hclean
    rw [hq]
    exact infixState_of_ne hclean.hasCurrent fun h => hclean.current (by simp [h, excludedTypes])
  have hleave : stops m q.ensure.current.type →
      Accepts (pure (some left) : ParseM (Option AstNode)) q.ensure
        fun r p' => Sound (.infixLoop m left b, p) (r, p') := by
    intro hstops
    rintro t ⟨⟩ hclean htree
    rw [hstate hclean] at hstops ⊢
    exact ⟨htree, hstops, [], rfl, fun s hwf hast hm _ => ⟨s, hwf, hast, hm, by simp⟩⟩
  refine accepts_checkAny (fun h => hleave (.inl (tokenPrecedence_of_mem_exprEnd h))) fun _ => ?_
  refine spec_bind.mpr (spec_get.mpr ?_)
  dsimp only
  split
  · next h => exact hleave (.inr h)
  next hprec =>
  split
  · next h => exact hleave (.inl h)
  next hmin =>
  refine accepts_infix fun l p₁ h => ?_
  cases l with
  | none =>
    rintro t ⟨⟩
  | some left' =>
    refine accepts_tail fun r p' hloop t ht hclean htree => ?_
    rw [hstate hclean] at hprec h
    have hclean₁ := hclean.part (Later.refl p) hloop.1.1
    have hclean₂ := hclean.part h.1.1 (Later.refl p')
    obtain ⟨htree', hstops, ls, hreads, hloop⟩ := hloop.2 t ht hclean₂ htree
    rcases h.2 left' rfl hclean₁ htree' with ⟨rfl, hsame⟩ | ⟨op, s', hop, hwf', rfl, hle, hreads', hstops'⟩
    · obtain rfl : p₁ = p := hsame
      exact ⟨htree', hstops, ls, hreads, hloop⟩
    · cases htree' with
      | binary _ _ htree₁ _ =>
        refine ⟨htree₁, hstops, p.current.lexeme :: (s'.lexemes ++ ls),
          ⟨rfl, reads_append.mpr ⟨p₁, hreads', hreads⟩⟩, fun s hwf hast hm hnext => ?_⟩
        have hne : infixOpOf p.current.type ≠ none := by simp [hop]
        have hast' : (Surface.binary s p.current.lexeme s').ast =
            .binaryOp op (some left) (some s'.ast) [] := by
          simp [Surface.ast, Token.lexeme, hop, hast]
        obtain ⟨s₂, hwf₂, hast₂, hbound₂, hlex₂⟩ := hloop (.binary s p.current.lexeme s')
          ⟨hne, hwf, hwf', hnext hne, hle⟩ hast' (Nat.not_lt.mp hprec) (next_of_stops hstops')
        exact ⟨s₂, hwf₂, hast₂, hbound₂, by simp [hlex₂, Surface.lexemes]⟩

theorem infixExpr_sound (left : AstNode) (p : Parser) :
    Accepts (infixExpr left) p fun r p' => Sound (.infixExpr left, p) (r, p') := by
  have hother : ∀ {x : ParseM (Option AstNode)},
      (Accepts x p fun r _ => ∀ t, r = some t → ¬ IsTree t) →
        Accepts x p fun r p' => Sound (.infixExpr left, p) (r, p') :=
    accepts_other fun r p' hr t ht _ htree => (hr t ht htree).elim
  have hself : Accepts (pure (some left) : ParseM (Option AstNode)) p
      fun r p' => Sound (.infixExpr left, p) (r, p') := by
    rintro t ⟨⟩ _ _
    exact .inl ⟨rfl, rfl⟩
  unfold infixExpr
  refine spec_bind.mpr (spec_get.mpr ?_)
  dsimp only
  split
  case h_1 =>
    refine hother (spec_any fun _ _ => spec_any fun args _ => spec_any fun _ _ => ?_)
    rintro t ⟨⟩
    nofun
  case h_2 =>
    refine hother (spec_any fun _ _ => spec_any fun index _ => spec_any fun b _ => ?_)
    split
    · refine spec_any fun stop _ => spec_any fun _ _ => ?_
      rintro t ⟨⟩
      nofun
    · refine spec_any fun _ _ => ?_
      rintro t ⟨⟩
      nofun
  case h_3 | h_4 =>
    refine accepts_advance (accepts_check (fun _ => ?_) fun _ => ?_)
    · refine spec_any fun field p₁ => ?_
      rintro t ⟨⟩ _ htree
      cases htree
    · rintro t ⟨⟩ hclean _
      exact (hclean.no_error ((later_advance p).trans (later_ensure _)) (Later.refl _)).elim
  case h_5 => exact hself
  case h_6 =>
    refine accepts_advance (accepts_recur fun type p₁ h => ?_)
    cases type with
    | none =>
      rintro t ⟨⟩ hclean _
      exact (hclean.no_error ((later_advance p).trans h.1.1) (Later.refl _)).elim
    | some type =>
      rintro t ⟨⟩ _ htree
      cases htree
  case h_7 =>
    refine hother (spec_any fun p₁ _ => ?_)
    split
    · refine spec_any fun _ _ => spec_any fun right _ => ?_
      rintro t ⟨⟩ htree
      cases htree
      contradiction
    · refine spec_any fun _ _ => spec_any fun middle _ => spec_any fun _ _ =>
        spec_any fun right _ => ?_
      rintro t ⟨⟩
      nofun
  case h_8 hpipe _ _ =>
    unfold parseBinary
    split
    · exact hself
    next op hop =>
    refine accepts_advance (accepts_exprPrec fun right p' h => ?_)
    rintro t ⟨⟩ hclean htree
    obtain ⟨hcustom, node, hnode, htree⟩ := isTree_right htree
    obtain ⟨hstops, s, hwf, rfl, hbound, hreads⟩ :=
      h.2 node hnode (hclean.part (later_advance p) (Later.refl p')) htree
    refine .inr ⟨op, s, infixOpOf_of_binary hop hcustom hpipe, hwf, ?_, hbound, hreads, hstops⟩
    have hright : right = some s.ast := hnode
    rw [if_neg hcustom, hright]

/-- What an operator tree from `parse_expr_prec` was read from. -/
theorem exprPrec_sound {m : Precedence} {p p' : Parser} {t : AstNode}
    (h : ProcReturns procs (.exprPrec m) p (some t) p') (hclean : Clean p p') (htree : IsTree t) :
    ∃ s : Surface, s.WF ∧ s.ast = t ∧ p.Reads s.lexemes p' := by
  have hbody : ∀ c : Proc × Parser, ∃ pre, Meets pre soundPost (bodies procs c) (soundPost c) := by
    intro c
    have hlater := meets_post (fun c rs (h : soundPost c rs) => h.1) (procs_ok c)
    refine ⟨fun _ => True, meets_and hlater ?_⟩
    obtain ⟨proc, p⟩ := c
    cases proc with
    | exprPrec m => exact exprPrec_body_sound m p
    | prefixExpr => exact prefixExpr_sound p
    | postfixLoop left => exact postfixLoop_sound left p
    | infixLoop m left b => exact infixLoop_sound m left b p
    | infixExpr left => exact infixExpr_sound left p
    | _ => exact meets_true _
  obtain ⟨_, s, hwf, hast, _, hreads⟩ := (returns_of_meets hbody h).2 t rfl hclean htree
  exact ⟨s, hwf, hast, hreads⟩

end Aether
