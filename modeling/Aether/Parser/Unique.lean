/-
Aether.Parser.Unique — the parentheses of a surface expression.

`Surface.flat` lists the operators and leaves with the number of
parentheses around each. The lexemes give this list (`annotate_lexemes`),
and it determines, for a given tree, where the parentheses are: two surface
expressions of one tree and one list of lexemes are parenthesised alike, so
both are well formed if one is (`wf_of_lexemes`).
-/
import Aether.Parser.Surface

namespace Aether

namespace Surface

/-! ## §1 Operators, leaves and their depths -/

/-- Operators and leaves from left to right, each with its depth. -/
def flat (d : Nat) : Surface → List (Nat × Lexeme)
  | leaf l => [(d, l)]
  | paren _ s _ => s.flat (d + 1)
  | unary l s => (d, l) :: s.flat d
  | postInc s l => s.flat d ++ [(d, l)]
  | binary s l s' => s.flat d ++ (d, l) :: s'.flat d

/-- The depth of the root. -/
def rootDepth (d : Nat) : Surface → Nat
  | paren _ s _ => s.rootDepth (d + 1)
  | _ => d

def isParen : Surface → Bool
  | paren .. => true
  | _ => false

/-- The tokens are of the right kinds. -/
def Typed : Surface → Prop
  | leaf l => l.type = .ident ∨ l.type = .intLiteral
  | paren lp s rp => lp.type = .lparen ∧ s.Typed ∧ rp.type = .rparen
  | unary l s => unaryOpOf l.type ≠ none ∧ s.Typed ∧ s.isBinary = false
  | postInc s l => l.type = .plusPlus ∧ s.Typed ∧ s.isBinary = false
  | binary s l s' => infixOpOf l.type ≠ none ∧ s.Typed ∧ s'.Typed

end Surface

open Surface

/-- The depths of the tokens that are not parentheses. -/
def annotate (d : Nat) : List Lexeme → List (Nat × Lexeme)
  | [] => []
  | l :: ls =>
    if l.type = .lparen then annotate (d + 1) ls
    else if l.type = .rparen then annotate (d - 1) ls
    else (d, l) :: annotate d ls

-- the equations, before the proofs that share them
section
attribute [local simp] annotate
end

theorem typed_of_wf {s : Surface} (h : s.WF) : s.Typed := by
  induction s with
  | leaf l => exact h
  | paren lp s rp ih => exact ⟨h.1, ih h.2.1, h.2.2⟩
  | unary l s ih => exact ⟨h.1, ih h.2.1, h.2.2⟩
  | postInc s l ih => exact ⟨h.1, ih h.2.1, h.2.2⟩
  | binary s l s' ih ih' => exact ⟨h.1, ih h.2.1, ih' h.2.2.1⟩

theorem annotate_cons {d : Nat} {l : Lexeme} {ls : List Lexeme} (hlp : l.type ≠ .lparen)
    (hrp : l.type ≠ .rparen) : annotate d (l :: ls) = (d, l) :: annotate d ls := by
  rw [annotate, if_neg hlp, if_neg hrp]

theorem unaryOpOf_ne_paren {type : TokenType} (h : unaryOpOf type ≠ none) :
    type ≠ .lparen ∧ type ≠ .rparen := by
  constructor <;> rintro rfl <;> exact h rfl

theorem infixOpOf_ne_paren {type : TokenType} (h : infixOpOf type ≠ none) :
    type ≠ .lparen ∧ type ≠ .rparen := by
  constructor <;> rintro rfl <;> exact h rfl

theorem annotate_lexemes {s : Surface} (h : s.Typed) : ∀ (d : Nat) (ls : List Lexeme),
    annotate d (s.lexemes ++ ls) = s.flat d ++ annotate d ls := by
  induction s with
  | leaf l =>
    intro d ls
    have hne : l.type ≠ .lparen ∧ l.type ≠ .rparen := by
      rcases h with h | h <;> simp [h]
    exact annotate_cons hne.1 hne.2
  | paren lp s rp ih =>
    intro d ls
    obtain ⟨hlp, hs, hrp⟩ := h
    have hopen : annotate d ((paren lp s rp).lexemes ++ ls) =
        annotate (d + 1) (s.lexemes ++ rp :: ls) := by
      simp [Surface.lexemes, annotate, hlp]
    rw [hopen, ih hs, annotate, if_neg (by simp [hrp]), if_pos hrp]
    rfl
  | unary l s ih =>
    intro d ls
    obtain ⟨hlp, hrp⟩ := unaryOpOf_ne_paren h.1
    rw [Surface.lexemes, List.cons_append, annotate_cons hlp hrp, ih h.2.1]
    rfl
  | postInc s l ih =>
    intro d ls
    have hne : l.type ≠ .lparen ∧ l.type ≠ .rparen := by simp [h.1]
    rw [Surface.lexemes, List.append_assoc, ih h.2.1, List.singleton_append,
      annotate_cons hne.1 hne.2, Surface.flat, List.append_assoc, List.singleton_append]
  | binary s l s' ih ih' =>
    intro d ls
    obtain ⟨hlp, hrp⟩ := infixOpOf_ne_paren h.1
    rw [Surface.lexemes, List.append_assoc, ih h.2.1, List.cons_append, annotate_cons hlp hrp,
      ih' h.2.2, Surface.flat, List.append_assoc, List.cons_append]

/-! ## §2 The tree fixes the lengths -/

/-- The number of operators and leaves of an operator tree. -/
def AstNode.opSize : AstNode → Nat
  | .binaryOp _ (some l) (some r) _ => l.opSize + r.opSize + 1
  | .unaryOp _ (some t) => t.opSize + 1
  | _ => 1

-- the equations, before the proofs that share them
section
attribute [local simp] AstNode.opSize
end

theorem length_flat (s : Surface) : ∀ d, (s.flat d).length = s.ast.opSize := by
  induction s with
  | leaf l =>
    intro d
    rw [Surface.ast]
    split <;> rfl
  | paren lp s rp ih => exact fun d => ih (d + 1)
  | unary l s ih =>
    intro d
    simp [Surface.flat, Surface.ast, AstNode.opSize, ih]
  | postInc s l ih =>
    intro d
    simp [Surface.flat, Surface.ast, AstNode.opSize, ih]
  | binary s l s' ih ih' =>
    intro d
    simp only [Surface.flat, Surface.ast, AstNode.opSize, List.length_append, List.length_cons, ih,
      ih']
    omega

/-- Without a postfix `++`, a leaf comes last. -/
theorem flat_last {s : Surface} (h : s.Typed) (hpost : s.NoPost) : ∀ d, ∃ xs x,
    s.flat d = xs ++ [x] ∧ x.2.type ≠ .plusPlus := by
  induction s with
  | leaf l => exact fun d => ⟨[], (d, l), rfl, by rcases h with h | h <;> simp [h]⟩
  | paren lp s rp ih => exact fun d => ih h.2.1 hpost (d + 1)
  | unary l s ih =>
    intro d
    obtain ⟨xs, x, hxs, hx⟩ := ih h.2.1 hpost d
    exact ⟨(d, l) :: xs, x, by simp [Surface.flat, hxs], hx⟩
  | postInc s l => exact hpost.elim
  | binary s l s' _ ih' =>
    intro d
    obtain ⟨xs, x, hxs, hx⟩ := ih' h.2.2 hpost.2 d
    exact ⟨s.flat d ++ (d, l) :: xs, x, by simp [Surface.flat, hxs], hx⟩

/-! ## §3 The tree and the depths fix the parentheses -/

theorem le_rootDepth (s : Surface) : ∀ d, d ≤ s.rootDepth d := by
  induction s with
  | paren lp s rp ih => exact fun d => Nat.le_trans (Nat.le_succ d) (ih (d + 1))
  | _ => exact fun d => Nat.le_refl d

theorem isParen_iff {s : Surface} {d : Nat} : s.isParen = true ↔ d < s.rootDepth d := by
  cases s with
  | paren lp s rp =>
    simp only [Surface.isParen, true_iff]
    exact le_rootDepth s (d + 1)
  | _ => simp [Surface.isParen, Surface.rootDepth]

/-- `s'` at depth `d'` is parenthesised like `s` at depth `d`. -/
structure Agrees (d : Nat) (s : Surface) (d' : Nat) (s' : Surface) : Prop where
  depth : s'.rootDepth d' = s.rootDepth d
  wf : s'.WF
  bound : s.isParen = false → s'.isParen = false → s'.bound = s.bound

/-- Operands at one depth have one bound. -/
theorem Agrees.bound_eq {d : Nat} {s s' : Surface} (h : Agrees d s d s') : s'.bound = s.bound := by
  have hparen : s'.isParen = s.isParen := by
    rw [Bool.eq_iff_iff, isParen_iff (d := d), isParen_iff (d := d), h.depth]
  cases hs : s.isParen with
  | false => exact h.bound hs (hparen.trans hs)
  | true =>
    have hs' : s'.isParen = true := hparen.trans hs
    cases s <;> cases hs
    cases s' <;> cases hs'
    rfl

/-- It is enough to look at expressions without outer parentheses. -/
theorem agrees_of_core {d : Nat} {s : Surface}
    (h : ∀ {d' : Nat} {s' : Surface}, s'.isParen = false → s'.Typed → s'.NoPost →
      s'.ast = s.ast → s'.flat d' = s.flat d → Agrees d s d' s') {d' : Nat} {s' : Surface}
    (htyped : s'.Typed) (hpost : s'.NoPost) (hast : s'.ast = s.ast)
    (hflat : s'.flat d' = s.flat d) : Agrees d s d' s' := by
  induction s' generalizing d' with
  | paren lp t rp ih =>
    have hinner := ih htyped.2.1 hpost hast hflat
    exact ⟨hinner.depth, ⟨htyped.1, hinner.wf, htyped.2.2⟩, fun _ => nofun⟩
  | _ => exact h rfl htyped hpost hast hflat

theorem ast_leaf (l : Lexeme) : (Surface.leaf l).ast = .ident l.text ∨
    (Surface.leaf l).ast = .literalInt l.intValue false := by
  rw [Surface.ast]
  split
  · exact .inl rfl
  · exact .inr rfl

theorem agrees {s : Surface} (hwf : s.WF) : ∀ {d d' : Nat} {s' : Surface}, s'.Typed → s'.NoPost →
    s'.ast = s.ast → s'.flat d' = s.flat d → Agrees d s d' s' := by
  induction s with
  | paren lp s rp ih =>
    intro d d' s' htyped hpost hast hflat
    have hinner := ih hwf.2.1 htyped hpost hast hflat
    exact ⟨hinner.depth, hinner.wf, nofun⟩
  | leaf l =>
    intro d d' s'
    refine agrees_of_core fun {d' s'} hparen htyped _ hast hflat => ?_
    cases s' with
    | leaf l' =>
      obtain ⟨hd, hl⟩ : d' = d ∧ l' = l := by simpa [Surface.flat] using hflat
      exact ⟨hd, htyped, fun _ _ => rfl⟩
    | paren => cases hparen
    | unary | postInc | binary =>
      rcases ast_leaf l with h | h <;> rw [h] at hast <;> cases hast
  | unary l t ih =>
    intro d d' s'
    refine agrees_of_core fun {d' s'} hparen htyped hpost hast hflat => ?_
    cases s' with
    | unary l' t' =>
      obtain ⟨⟨rfl, rfl⟩, hflat'⟩ : (d' = d ∧ l' = l) ∧ t'.flat d' = t.flat d := by
        simpa [Surface.flat] using hflat
      have hast' : t'.ast = t.ast := by
        simp only [Surface.ast, AstNode.unaryOp.injEq, Option.some.injEq] at hast
        exact hast.2
      have hinner := ih hwf.2.1 htyped.2.1 hpost hast' hflat'
      exact ⟨rfl, ⟨htyped.1, hinner.wf, htyped.2.2⟩, fun _ _ => rfl⟩
    | leaf l' => rcases ast_leaf l' with h | h <;> rw [h] at hast <;> cases hast
    | paren => cases hparen
    | postInc => exact hpost.elim
    | binary => cases hast
  | postInc t l ih =>
    intro d d' s' htyped hpost _ hflat
    obtain ⟨xs, x, hxs, hx⟩ := flat_last htyped hpost d'
    rw [hxs] at hflat
    obtain ⟨_, hx'⟩ := List.append_inj' hflat rfl
    obtain rfl : x = (d, l) := by simpa using hx'
    exact absurd hwf.1 hx
  | binary t l u ih ih' =>
    intro d d' s'
    refine agrees_of_core fun {d' s'} hparen htyped hpost hast hflat => ?_
    cases s' with
    | binary t' l' u' =>
      simp only [Surface.ast, AstNode.binaryOp.injEq, Option.some.injEq] at hast
      obtain ⟨_, hleft, hright, _⟩ := hast
      obtain ⟨hflat₁, hflat₂⟩ := List.append_inj hflat (by rw [length_flat, length_flat, hleft])
      simp only [List.cons.injEq, Prod.mk.injEq] at hflat₂
      obtain ⟨⟨rfl, rfl⟩, hflat₂⟩ := hflat₂
      obtain ⟨_, hwf₁, hwf₂, hlt, hle⟩ := hwf
      have h₁ := ih hwf₁ htyped.2.1 hpost.1 hleft hflat₁
      have h₂ := ih' hwf₂ htyped.2.2 hpost.2 hright hflat₂
      refine ⟨rfl, ⟨htyped.1, h₁.wf, h₂.wf, ?_, ?_⟩, fun _ _ => rfl⟩
      · rw [h₁.bound_eq]
        exact hlt
      · rw [h₂.bound_eq]
        exact hle
    | paren => cases hparen
    | postInc => exact hpost.elim
    | leaf l' => rcases ast_leaf l' with h | h <;> rw [h] at hast <;> cases hast
    | unary => cases hast

/-- The lexemes and the tree fix the parentheses. -/
theorem wf_of_lexemes {s s' : Surface} (hwf : s.WF) (htyped : s'.Typed) (hpost : s'.NoPost)
    (hast : s'.ast = s.ast) (hlex : s'.lexemes = s.lexemes) : s'.WF := by
  have hflat : s'.flat 0 = s.flat 0 := by
    have h := annotate_lexemes htyped 0 []
    have h' := annotate_lexemes (typed_of_wf hwf) 0 []
    simp only [List.append_nil, annotate] at h h'
    rw [← h, ← h', hlex]
  exact (agrees hwf htyped hpost hast hflat).wf

end Aether
