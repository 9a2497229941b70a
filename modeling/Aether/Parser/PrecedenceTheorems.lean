/-
Aether.Parser.PrecedenceTheorems — printing and parsing operator trees.

The table of the specification puts the ranges between `|` and the
comparisons, `token_precedence` between the shifts and the additive
operators. `print_parse_iff`: a tree with at most one operator of each
level on any path is given back by printing and parsing if and only if its
operators are single tokens and no range has a shift, `&` or `^` as an
operand without parentheses.
-/
import Aether.Parser.Print
import Aether.Parser.Soundness
import Aether.Parser.Unique

namespace Aether

open Lib.Procedures

-- the equations, before the proofs that share them
section
attribute [local simp] parens Word.lexemes Tree.words excludedTypes Parser.advance Lexer.advance
  SpecOp.level
end

/-! ## §1 Round trips -/

/-- Printing and parsing gives the tree back: `parse_expr` gives its syntax
tree without an error and is at the end of the text. -/
def RoundTrips (t : Tree) : Prop :=
  ∃ node q, t.ast = some node ∧
    ProcReturns procs (.exprPrec .min) (parserCreate t.print) (some node) q ∧
    q.errors = [] ∧ q.current.type = .eof

namespace Tree

/-- The binary operators of a tree. -/
def ops : Tree → List SpecOp
  | leaf _ => []
  | paren t => t.ops
  | unary _ t => t.ops
  | binary op l r => op :: (l.ops ++ r.ops)

/-- Ranges come after the shifts, `&` and `^` in the table, but bind more
tightly in the parser. -/
def RangeOk (op : SpecOp) (operand : Tree) : Prop := op.level = 9 → operand.level ∉ [5, 6, 7]

/-- No range has a shift, `&` or `^` as an operand without parentheses. -/
def RangesOk : Tree → Prop
  | leaf _ => True
  | paren t => t.RangesOk
  | unary _ t => t.RangesOk
  | binary op l r => RangeOk op l ∧ RangeOk op r ∧ l.RangesOk ∧ r.RangesOk

/-- The trees that the parser reads as the table does. -/
def Parsable (t : Tree) : Prop := (∀ op ∈ t.ops, op.single ≠ none) ∧ t.RangesOk

end Tree

/-! ## §2 The surface expression of a tree -/

def SpecOp.lexeme (op : SpecOp) : Lexeme := ⟨op.single.getD .error, bytes op.text, 0⟩

/-- Parentheses, if `b` holds. -/
def wrap (b : Bool) (s : Surface) : Surface :=
  if b then .paren ⟨.lparen, bytes "(", 0⟩ s ⟨.rparen, bytes ")", 0⟩ else s

def Tree.surface : Tree → Surface
  | .leaf l => .leaf l.lexeme
  | .paren t => wrap true t.surface
  | .unary op t => .unary ⟨op.type, bytes op.text, 0⟩ (wrap (2 < t.level) t.surface)
  | .binary op l r =>
    .binary (wrap (op.level < l.level) l.surface) op.lexeme (wrap (op.level < r.level) r.surface)

-- the equations, before the proofs that share them
section
attribute [local simp] SpecOp.lexeme wrap Tree.surface
end

theorem lexemes_wrap {b : Bool} {s : Surface} {ws : List Word}
    (h : s.lexemes = ws.flatMap Word.lexemes) :
    (wrap b s).lexemes = (parens b ws).flatMap Word.lexemes := by
  cases b with
  | false => exact h
  | true => simp [wrap, parens, Surface.lexemes, Word.lexemes, h]

theorem ast_wrap (b : Bool) (s : Surface) : (wrap b s).ast = s.ast := by cases b <;> rfl

theorem typed_wrap {b : Bool} {s : Surface} (h : s.Typed) : (wrap b s).Typed := by
  cases b with
  | false => exact h
  | true => exact ⟨rfl, h, rfl⟩

theorem noPost_wrap {b : Bool} {s : Surface} (h : s.NoPost) : (wrap b s).NoPost := by
  cases b <;> exact h

theorem wf_wrap {b : Bool} {s : Surface} : (wrap b s).WF ↔ s.WF := by
  cases b with
  | false => exact Iff.rfl
  | true => exact ⟨fun h => h.2.1, fun h => ⟨rfl, h, rfl⟩⟩

theorem lexemes_surface {t : Tree} (h : ∀ op ∈ t.ops, op.single ≠ none) :
    t.surface.lexemes = t.words.flatMap Word.lexemes := by
  induction t with
  | leaf l => rfl
  | paren t ih => exact lexemes_wrap (ih h)
  | unary op t ih =>
    simp [Tree.surface, Tree.words, Surface.lexemes, Word.lexemes, lexemes_wrap (ih h)]
  | binary op l r ihl ihr =>
    obtain ⟨type, hsingle⟩ := Option.ne_none_iff_exists'.mp (h op (List.mem_cons_self ..))
    have hl := lexemes_wrap (b := op.level < l.level) (ihl fun op' hop' =>
      h op' (List.mem_cons_of_mem _ (List.mem_append_left _ hop')))
    have hr := lexemes_wrap (b := op.level < r.level) (ihr fun op' hop' =>
      h op' (List.mem_cons_of_mem _ (List.mem_append_right _ hop')))
    simp [Tree.surface, Tree.words, Surface.lexemes, Word.lexemes, hl, hr, SpecOp.lexeme,
      lexemes_of_single hsingle, hsingle]

theorem prefixOp_type (op : PrefixOp) : unaryOpOf op.type = some op.ast := by cases op <;> rfl

theorem infixOpOf_single {op : SpecOp} {type : TokenType} (h : op.single = some type) :
    infixOpOf type = op.ast := by
  cases op <;> cases h <;> rfl

theorem ast_surface {t : Tree} (h : ∀ op ∈ t.ops, op.single ≠ none) :
    t.ast = some t.surface.ast := by
  induction t with
  | leaf l => cases l <;> rfl
  | paren t ih => exact (ih h).trans (by rw [Tree.surface, ast_wrap])
  | unary op t ih => simp [Tree.ast, Tree.surface, Surface.ast, ast_wrap, ih h, prefixOp_type]
  | binary op l r ihl ihr =>
    obtain ⟨type, hsingle⟩ := Option.ne_none_iff_exists'.mp (h op (List.mem_cons_self ..))
    obtain ⟨b, hb, _⟩ := ast_of_single hsingle
    have hl := ihl fun op' hop' => h op' (List.mem_cons_of_mem _ (List.mem_append_left _ hop'))
    have hr := ihr fun op' hop' => h op' (List.mem_cons_of_mem _ (List.mem_append_right _ hop'))
    simp [Tree.ast, Tree.surface, Surface.ast, ast_wrap, hl, hr, hb, SpecOp.lexeme, hsingle,
      infixOpOf_single hsingle]

theorem noPost_surface (t : Tree) : t.surface.NoPost := by
  induction t with
  | leaf l => trivial
  | paren t ih => exact ih
  | unary op t ih => exact noPost_wrap ih
  | binary op l r ihl ihr => exact ⟨noPost_wrap ihl, noPost_wrap ihr⟩

/-- The operand of a prefix operator is in parentheses if it is binary. -/
theorem not_binary_wrap (t : Tree) : (wrap (2 < t.level) t.surface).isBinary = false := by
  cases t with
  | binary op l r =>
    have hlevel : 2 < op.level := by cases op <;> decide
    simp [wrap, Tree.level, hlevel, Surface.isBinary]
  | _ => simp [wrap, Tree.level, Tree.surface, Surface.isBinary]

theorem typed_surface {t : Tree} (h : ∀ op ∈ t.ops, op.single ≠ none) : t.surface.Typed := by
  induction t with
  | leaf l =>
    cases l with
    | ident => exact .inl rfl
    | int => exact .inr rfl
  | paren t ih => exact typed_wrap (ih h)
  | unary op t ih => exact ⟨by simp [prefixOp_type], typed_wrap (ih h), not_binary_wrap t⟩
  | binary op l r ihl ihr =>
    obtain ⟨type, hsingle⟩ := Option.ne_none_iff_exists'.mp (h op (List.mem_cons_self ..))
    obtain ⟨b, hb, _⟩ := ast_of_single hsingle
    have hl := ihl fun op' hop' => h op' (List.mem_cons_of_mem _ (List.mem_append_left _ hop'))
    have hr := ihr fun op' hop' => h op' (List.mem_cons_of_mem _ (List.mem_append_right _ hop'))
    exact ⟨by simp [SpecOp.lexeme, hsingle, infixOpOf_single hsingle, hb], typed_wrap hl,
      typed_wrap hr⟩

/-! ## §3 Levels and precedences -/

/-- The precedence of a level of the table; no single token is on level 8. -/
theorem precedence_of_level {op : SpecOp} {type : TokenType} (h : op.single = some type) :
    op.level ≠ 8 ∧ 3 ≤ op.level ∧ op.level ≤ 13 ∧ (tokenPrecedence type).level =
      if op.level = 9 then 11
      else if op.level ≤ 4 then 16 - op.level
      else if op.level = 13 then 1
      else 15 - op.level := by
  cases op <;> cases h <;> decide

/-- An operand binds more tightly for the parser, if no range is in the way. -/
theorem bound_operand {op : SpecOp} {type : TokenType} {above : List Nat} {t : Tree}
    (h : op.single = some type) (hs : ∀ op' ∈ t.ops, op'.single ≠ none)
    (hd : t.Distinct (op.level :: above)) :
    ((tokenPrecedence type).level < (wrap (op.level < t.level) t.surface).bound ↔
        Tree.RangeOk op t) ∧
      ((tokenPrecedence type).level ≤ (wrap (op.level < t.level) t.surface).bound ↔
        Tree.RangeOk op t) := by
  obtain ⟨hpipe, hlow, hhigh, hprec⟩ := precedence_of_level h
  have hprec_lt : (tokenPrecedence type).level < 16 := by
    rw [hprec]
    split_ifs <;> omega
  cases t with
  | binary op' l r =>
    obtain ⟨type', h'⟩ := Option.ne_none_iff_exists'.mp (hs op' (List.mem_cons_self ..))
    obtain ⟨hpipe', hlow', hhigh', hprec'⟩ := precedence_of_level h'
    have hne : op'.level ≠ op.level := fun heq => hd.1 (heq ▸ List.mem_cons_self ..)
    have htype' : op'.lexeme.type = type' := by simp [SpecOp.lexeme, h']
    have hrange : Tree.RangeOk op (.binary op' l r) ↔
        (op.level = 9 → ¬(op'.level = 5 ∨ op'.level = 6 ∨ op'.level = 7)) := by
      simp [Tree.RangeOk, Tree.level]
    rw [hrange]
    cases hlt : decide (op.level < (Tree.binary op' l r).level) with
    | true =>
      have hlevel : op.level < op'.level := of_decide_eq_true hlt
      have hbound : (wrap true (Tree.binary op' l r).surface).bound = 16 := rfl
      rw [hbound]
      constructor <;> constructor <;> intro _ <;> omega
    | false =>
      have hlevel : ¬ op.level < op'.level := of_decide_eq_false hlt
      have hbound : (wrap false (Tree.binary op' l r).surface).bound =
          (tokenPrecedence type').level := by
        rw [← htype']
        rfl
      rw [hbound, hprec, hprec']
      constructor <;> split_ifs <;> omega
  | leaf _ | paren t | unary _ t =>
    have hbound : ∀ {s : Surface} {b : Bool}, s.bound = 16 → (wrap b s).bound = 16 := by
      intro s b hs
      cases b with
      | false => exact hs
      | true => rfl
    rw [hbound rfl]
    simp [Tree.RangeOk, Tree.level, hprec_lt, Nat.le_of_lt hprec_lt]

/-- The printed parentheses are enough for the parser if no range is in the
way. -/
theorem surface_wf_iff {t : Tree} (hs : ∀ op ∈ t.ops, op.single ≠ none) :
    ∀ {above : List Nat}, t.Distinct above → (t.surface.WF ↔ t.RangesOk) := by
  induction t with
  | leaf l =>
    intro _ _
    cases l with
    | ident => exact iff_of_true (.inl rfl) trivial
    | int => exact iff_of_true (.inr rfl) trivial
  | paren t ih => exact fun hd => wf_wrap.trans (ih hs hd)
  | unary op t ih =>
    intro above hd
    simp only [Tree.surface, Surface.WF, wf_wrap, ih hs hd.2, not_binary_wrap, prefixOp_type,
      Tree.RangesOk]
    simp
  | binary op l r ihl ihr =>
    intro above hd
    obtain ⟨type, hsingle⟩ := Option.ne_none_iff_exists'.mp (hs op (List.mem_cons_self ..))
    have hsl : ∀ op' ∈ l.ops, op'.single ≠ none := fun op' hop' =>
      hs op' (List.mem_cons_of_mem _ (List.mem_append_left _ hop'))
    have hsr : ∀ op' ∈ r.ops, op'.single ≠ none := fun op' hop' =>
      hs op' (List.mem_cons_of_mem _ (List.mem_append_right _ hop'))
    obtain ⟨b, hb, _⟩ := ast_of_single hsingle
    have htype : op.lexeme.type = type := by simp [SpecOp.lexeme, hsingle]
    have hop : infixOpOf type ≠ none := by simp [infixOpOf_single hsingle, hb]
    simp only [Tree.surface, Surface.WF, wf_wrap, htype, ihl hsl hd.2.1, ihr hsr hd.2.2,
      (bound_operand hsingle hsl hd.2.1).1, (bound_operand hsingle hsr hd.2.2).2, Tree.RangesOk]
    constructor
    · intro h
      exact ⟨h.2.2.2.1, h.2.2.2.2, h.2.1, h.2.2.1⟩
    · intro h
      exact ⟨hop, h.2.2.1, h.2.2.2, h.1, h.2.1⟩

/-! ## §4 The operators of a tree and of its text -/

theorem operator_mem_words {t : Tree} {op : SpecOp} : .operator op ∈ t.words ↔ op ∈ t.ops := by
  have hparens : ∀ {b : Bool} {ws : List Word}, .operator op ∈ parens b ws ↔ .operator op ∈ ws := by
    intro b ws
    cases b <;> simp [parens]
  induction t with
  | leaf l => simp [Tree.words, Tree.ops]
  | paren t ih => exact hparens.trans ih
  | unary op' t ih => simp [Tree.words, Tree.ops, hparens, ih]
  | binary op' l r ihl ihr =>
    simp only [Tree.words, Tree.ops, List.mem_append, List.mem_cons, hparens, ihl, ihr,
      Word.operator.injEq]
    tauto

/-- The binary operators of an operator tree. -/
def AstNode.binOps : AstNode → List BinOp
  | .binaryOp op (some l) (some r) _ => op :: (l.binOps ++ r.binOps)
  | .unaryOp _ (some t) => t.binOps
  | _ => []

-- the equations, before the proofs that share them
section
attribute [local simp] AstNode.binOps
end

/-- A tree has the operators that it was made with. -/
theorem ops_ast {t : Tree} : ∀ {node : AstNode}, t.ast = some node →
    ∀ op ∈ t.ops, ∃ b, op.ast = some b ∧ b ∈ node.binOps := by
  induction t with
  | leaf l => exact fun _ _ => nofun
  | paren t ih => exact ih
  | unary op t ih =>
    intro node h op hop
    obtain ⟨operand, hast, hnode⟩ := Option.bind_eq_some_iff.mp h
    cases hnode
    exact ih hast op hop
  | binary op l r ihl ihr =>
    intro node h op' hop'
    obtain ⟨b, hb, h⟩ := Option.bind_eq_some_iff.mp h
    obtain ⟨left, hleft, h⟩ := Option.bind_eq_some_iff.mp h
    obtain ⟨right, hright, h⟩ := Option.bind_eq_some_iff.mp h
    cases h
    simp only [Tree.ops, List.mem_cons, List.mem_append] at hop'
    simp only [AstNode.binOps, List.mem_cons, List.mem_append]
    rcases hop' with rfl | hop' | hop'
    · exact ⟨b, hb, .inl rfl⟩
    · obtain ⟨b', hb', hmem⟩ := ihl hleft op' hop'
      exact ⟨b', hb', .inr (.inl hmem)⟩
    · obtain ⟨b', hb', hmem⟩ := ihr hright op' hop'
      exact ⟨b', hb', .inr (.inr hmem)⟩

theorem isTree_ast {t : Tree} : ∀ {node : AstNode}, t.ast = some node → IsTree node := by
  induction t with
  | leaf l =>
    intro node h
    cases l <;> cases h <;> constructor
  | paren t ih => exact ih
  | unary op t ih =>
    intro node h
    obtain ⟨operand, hast, hnode⟩ := Option.bind_eq_some_iff.mp h
    cases hnode
    exact .unary (by cases op <;> decide) (ih hast)
  | binary op l r ihl ihr =>
    intro node h
    obtain ⟨b, hb, h⟩ := Option.bind_eq_some_iff.mp h
    obtain ⟨left, hleft, h⟩ := Option.bind_eq_some_iff.mp h
    obtain ⟨right, hright, h⟩ := Option.bind_eq_some_iff.mp h
    cases h
    have hop : b ≠ .custom ∧ b ≠ .errorContext := by
      cases op <;> cases hb <;> decide
    exact .binary hop.1 hop.2 (ihl hleft) (ihr hright)

/-- Every operator of the tree of a surface expression has its token. -/
theorem binOps_surface {s : Surface} (hwf : s.WF) :
    ∀ b ∈ s.ast.binOps, ∃ l ∈ s.lexemes, infixOpOf l.type = some b := by
  induction s with
  | leaf l =>
    intro b hb
    rcases ast_leaf l with h | h <;> rw [h] at hb <;> cases hb
  | paren lp s rp ih =>
    intro b hb
    obtain ⟨l, hl, hop⟩ := ih hwf.2.1 b hb
    exact ⟨l, by simp [Surface.lexemes, hl], hop⟩
  | unary l' s ih =>
    intro b hb
    obtain ⟨l, hl, hop⟩ := ih hwf.2.1 b hb
    exact ⟨l, by simp [Surface.lexemes, hl], hop⟩
  | postInc s l' ih =>
    intro b hb
    obtain ⟨l, hl, hop⟩ := ih hwf.2.1 b hb
    exact ⟨l, by simp [Surface.lexemes, hl], hop⟩
  | binary s l' s' ih ih' =>
    intro b hb
    obtain ⟨op, hop⟩ := Option.ne_none_iff_exists'.mp hwf.1
    simp only [Surface.ast, AstNode.binOps, hop, Option.getD_some, List.mem_cons,
      List.mem_append] at hb
    rcases hb with rfl | hb | hb
    · exact ⟨l', by simp [Surface.lexemes], hop⟩
    · obtain ⟨l, hl, hop⟩ := ih hwf.2.1 b hb
      exact ⟨l, by simp [Surface.lexemes, hl], hop⟩
    · obtain ⟨l, hl, hop⟩ := ih' hwf.2.2.1 b hb
      exact ⟨l, by simp [Surface.lexemes, hl], hop⟩

/-- No bar and no end of file is in a surface expression. -/
theorem lexemes_wf {s : Surface} (hwf : s.WF) :
    ∀ l ∈ s.lexemes, l.type ≠ .pipe ∧ l.type ≠ .eof := by
  have hunary : ∀ {type : TokenType}, unaryOpOf type ≠ none → type ≠ .pipe ∧ type ≠ .eof := by
    intro type h
    constructor <;> rintro rfl <;> exact h rfl
  have hloop : ∀ {type : TokenType}, infixOpOf type ≠ none → type ≠ .pipe ∧ type ≠ .eof := by
    intro type h
    constructor <;> rintro rfl <;> exact h rfl
  induction s with
  | leaf l =>
    simp only [Surface.lexemes, List.mem_singleton, forall_eq]
    rcases hwf with h | h <;> simp [h]
  | paren lp s rp ih =>
    simp only [Surface.lexemes, List.mem_cons, List.mem_append, List.not_mem_nil, or_false]
    rintro l ((rfl | hl) | rfl)
    · simp [hwf.1]
    · exact ih hwf.2.1 l hl
    · simp [hwf.2.2]
  | unary l' s ih =>
    simp only [Surface.lexemes, List.mem_cons]
    rintro l (rfl | hl)
    · exact hunary hwf.1
    · exact ih hwf.2.1 l hl
  | postInc s l' ih =>
    simp only [Surface.lexemes, List.mem_append, List.mem_singleton]
    rintro l (hl | rfl)
    · exact ih hwf.2.1 l hl
    · simp [hwf.1]
  | binary s l' s' ih ih' =>
    simp only [Surface.lexemes, List.mem_append, List.mem_cons]
    rintro l (hl | rfl | hl)
    · exact ih hwf.2.1 l hl
    · exact hloop hwf.1
    · exact ih' hwf.2.2.1 l hl

/-- What the tokens of a word are not. -/
theorem lexemes_word {w : Word} (hast : w.HasAst) :
    ∀ l ∈ w.lexemes, l.type ∉ excludedTypes ∧ l.type ≠ .eof ∧ l.type ≠ .slashEq := by
  cases w with
  | leaf l => cases l <;> simp [Word.lexemes, Leaf.lexeme, excludedTypes]
  | unary op => cases op <;> simp [Word.lexemes, PrefixOp.type, excludedTypes]
  | lparen | rparen => simp [Word.lexemes, excludedTypes]
  | operator op =>
    cases hsingle : op.single with
    | some type =>
      simp only [Word.lexemes, lexemes_of_single hsingle, List.mem_singleton, forall_eq]
      cases op <;> cases hsingle <;> decide
    | none =>
      rcases not_single_cases hsingle hast with rfl | rfl | rfl <;> simp only [Word.lexemes]
      · rw [lexemes_pipes.1]
        decide
      · rw [lexemes_pipes.2]
        decide
      · rw [lexemes_slashEq]
        decide

/-! ## §5 The tokens of the text -/

/-- The parser moves over all tokens to the end. -/
theorem reads_pending (toks : List Token) : ∀ {p : Parser}, p.lexer.pending = toks →
    ∃ q, p.advance.Reads (toks.map Token.lexeme) q ∧ q.current.type = .eof := by
  induction toks with
  | nil =>
    intro p hpend
    refine ⟨p.advance, rfl, ?_⟩
    simp [Parser.advance, Lexer.advance, hpend, p.lexer.eof_type]
  | cons tok toks ih =>
    intro p hpend
    have hnext : p.advance.lexer.pending = toks := by simp [Parser.advance, Lexer.advance, hpend]
    obtain ⟨q, hreads, hq⟩ := ih hnext
    refine ⟨q, ⟨?_, hreads⟩, hq⟩
    simp [Parser.advance, Lexer.advance, hpend]

/-- There is one way to the end. -/
theorem reads_eof {ls ls' : List Lexeme} {q q' : Parser} (hls : ∀ l ∈ ls, l.type ≠ .eof)
    (hls' : ∀ l ∈ ls', l.type ≠ .eof) (hq : q.current.type = .eof) (hq' : q'.current.type = .eof) :
    ∀ {p : Parser}, p.Reads ls q → p.Reads ls' q' → ls = ls' := by
  induction ls generalizing ls' with
  | nil =>
    intro p hreads hreads'
    cases ls' with
    | nil => rfl
    | cons l' ls' =>
      obtain rfl : p = q := hreads
      refine absurd hq ?_
      rw [← hreads'.1] at hls'
      exact hls' _ (List.mem_cons_self ..)
  | cons l ls ih =>
    intro p hreads hreads'
    cases ls' with
    | nil =>
      obtain rfl : p = q' := hreads'
      refine absurd hq' ?_
      rw [← hreads.1] at hls
      exact hls _ (List.mem_cons_self ..)
    | cons l' ls' =>
      have htail := ih (fun x hx => hls x (List.mem_cons_of_mem _ hx))
        (fun x hx => hls' x (List.mem_cons_of_mem _ hx)) hreads.2 hreads'.2
      rw [← hreads.1, ← hreads'.1, htail]

/-- The parser of a printed tree, over the tokens of its words. -/
theorem reads_print {t : Tree} (hast : ∀ w ∈ t.words, w.HasAst) :
    ∃ q, (parserCreate t.print).ensure.Reads (t.words.flatMap Word.lexemes) q ∧
      q.current.type = .eof := by
  obtain ⟨q, hreads, hq⟩ := reads_pending (tokensOf t.print).1 (p := parserCreate t.print) rfl
  rw [Tree.print, tokens_printWords hast] at hreads
  exact ⟨q, hreads, hq⟩

theorem hasAst_words {t : Tree} (h : ∀ op ∈ t.ops, op.ast ≠ none) : ∀ w ∈ t.words, w.HasAst := by
  intro w hw
  cases w with
  | operator op => exact h op (operator_mem_words.mp hw)
  | _ => trivial

/-! ## §6 Printing and parsing -/

theorem roundTrips_of_parsable {t : Tree} (hd : t.Distinct []) (h : t.Parsable) :
    RoundTrips t := by
  obtain ⟨hs, hranges⟩ := h
  have hast : ∀ op ∈ t.ops, op.ast ≠ none := by
    intro op hop
    obtain ⟨type, hsingle⟩ := Option.ne_none_iff_exists'.mp (hs op hop)
    obtain ⟨b, hb, _⟩ := ast_of_single hsingle
    simp [hb]
  obtain ⟨q, hreads, hq⟩ := reads_print (hasAst_words hast)
  have hwf := (surface_wf_iff hs hd).mpr hranges
  rw [← lexemes_surface hs] at hreads
  have hmin : tokenPrecedence q.current.type = .min := by rw [hq]; rfl
  have hord : Ordinary q.current.type := by
    rw [hq]
    refine ⟨?_, ?_, ?_, ?_⟩ <;> decide
  have hparse := (surface_parses hwf (noPost_surface t)).returns (m := .min) (Nat.zero_le _)
    rfl hreads hord (by rw [hmin]; exact bound_pos hwf) (.inl hmin)
  refine ⟨t.surface.ast, q, ast_surface hs, exprPrec_ensure.mpr hparse, ?_, hq⟩
  rw [hreads.errors]
  rfl

theorem parsable_of_roundTrips {t : Tree} (hd : t.Distinct []) (h : RoundTrips t) :
    t.Parsable := by
  obtain ⟨node, q, hast, hparse, herrors, hq⟩ := h
  have hops : ∀ op ∈ t.ops, op.ast ≠ none := by
    intro op hop
    obtain ⟨b, hb, _⟩ := ops_ast hast op hop
    simp [hb]
  have hwords := hasAst_words hops
  have hlex : ∀ l ∈ t.words.flatMap Word.lexemes,
      l.type ∉ excludedTypes ∧ l.type ≠ .eof ∧ l.type ≠ .slashEq := by
    intro l hl
    obtain ⟨w, hw, hl⟩ := List.mem_flatMap.mp hl
    exact lexemes_word (hwords w hw) l hl
  obtain ⟨q', hreads', hq'⟩ := reads_print hwords
  have hclean : Clean (parserCreate t.print).ensure q := by
    refine ⟨fun tok htok => ?_, rfl, by simp [herrors]⟩
    have htok : tok ∈ Token.zero :: (tokensOf t.print).1 ++ [(tokensOf t.print).2] :=
      ahead_advance (parserCreate t.print) htok
    simp only [List.cons_append, List.mem_cons, List.mem_append, List.not_mem_nil, or_false] at htok
    rcases htok with rfl | htok | rfl
    · decide
    · refine (hlex tok.lexeme ?_).1
      rw [← tokens_printWords hwords]
      exact List.mem_map_of_mem htok
    · have heof : (tokensOf t.print).2.type = .eof := (lexerCreate t.print).eof_type
      rw [heof]
      decide
  obtain ⟨s, hwf, hsast, hreads⟩ :=
    exprPrec_sound (exprPrec_ensure.mp hparse) hclean (isTree_ast hast)
  -- both ways over the text end at the end of file
  have hlexemes : s.lexemes = t.words.flatMap Word.lexemes :=
    reads_eof (fun l hl => (lexemes_wf hwf l hl).2) (fun l hl => (hlex l hl).2.1) hq hq' hreads
      hreads'
  have hs : ∀ op ∈ t.ops, op.single ≠ none := by
    intro op hop hnone
    have hword : ∀ l ∈ op.lexemes, l ∈ s.lexemes := by
      intro l hl
      rw [hlexemes]
      exact List.mem_flatMap.mpr ⟨.operator op, operator_mem_words.mpr hop, hl⟩
    rcases not_single_cases hnone (hops op hop) with rfl | rfl | rfl
    · rw [lexemes_pipes.1] at hword
      exact (lexemes_wf hwf _ (hword _ (List.mem_cons_self ..))).1 rfl
    · rw [lexemes_pipes.2] at hword
      exact (lexemes_wf hwf _ (hword _ (List.mem_cons_self ..))).1 rfl
    · obtain ⟨b, hb, hmem⟩ := ops_ast hast _ hop
      cases hb
      rw [← hsast] at hmem
      obtain ⟨l, hl, hop⟩ := binOps_surface hwf _ hmem
      rw [hlexemes] at hl
      have htype : l.type = .slashEq := by
        cases h : l.type <;> rw [h] at hop <;> first | rfl | cases hop
      exact (hlex l hl).2.2 htype
  have hsurface : t.surface.ast = s.ast :=
    Option.some.inj ((ast_surface hs).symm.trans (hast.trans (congrArg some hsast.symm)))
  have hwf' := wf_of_lexemes hwf (typed_surface hs) (noPost_surface t) hsurface
    ((lexemes_surface hs).trans hlexemes.symm)
  exact ⟨hs, (surface_wf_iff hs hd).mp hwf'⟩

/-- Printing with the fewest parentheses and parsing gives a tree back if and
only if its operators are single tokens and no range has a shift, `&` or
`^` as an operand without parentheses. -/
theorem print_parse_iff {t : Tree} (h : t.Distinct []) : RoundTrips t ↔ t.Parsable :=
  ⟨parsable_of_roundTrips h, roundTrips_of_parsable h⟩

/-- An identifier of one letter. -/
def letter (name : String) (h : isIdentifier (bytes name) = true) : Tree := .leaf (.ident _ h)

/-- `a = - b * (c + d) .. e`. -/
def sampleTree : Tree :=
  .binary .eq (letter "a" (by decide))
    (.binary .dotDot
      (.binary .star (.unary .minus (letter "b" (by decide)))
        (.binary .plus (letter "c" (by decide)) (letter "d" (by decide))))
      (letter "e" (by decide)))

-- the equations, before the proofs that share them
section
attribute [local simp] letter sampleTree
end

theorem print_parse_iff_sample :
    sampleTree.print = bytes "a = - b * ( c + d ) .. e " ∧ RoundTrips sampleTree := by
  refine ⟨by decide, (print_parse_iff ?_).mpr ⟨?_, ?_⟩⟩
  · simp [sampleTree, letter, Tree.Distinct, SpecOp.level]
  · simp [sampleTree, letter, Tree.ops, SpecOp.single]
  · simp [sampleTree, letter, Tree.RangesOk, Tree.RangeOk, SpecOp.level, Tree.level]

/-- `a .. b << c`, the range of `a` and `b << c`. -/
def rangeOfShift : Tree :=
  .binary .dotDot (letter "a" (by decide))
    (.binary .ltLt (letter "b" (by decide)) (letter "c" (by decide)))

/-- The table needs no parentheses for a shift under a range, the parser
does. -/
theorem rangeOfShift_not_roundTrips : rangeOfShift.Distinct [] ∧
    rangeOfShift.print = bytes "a .. b << c " ∧ ¬ RoundTrips rangeOfShift := by
  have hd : rangeOfShift.Distinct [] := by
    simp [rangeOfShift, letter, Tree.Distinct, SpecOp.level]
  refine ⟨hd, by decide, fun h => ?_⟩
  obtain ⟨_, _, hrange, _⟩ := parsable_of_roundTrips hd h
  exact hrange rfl (by decide)

end Aether
