/-
Aether.Parser.TypeTheorems — the round trip of types.

`parse_type_base` takes every identifier as a name before it looks for
`ptr`, so `ptr T` is the type named `ptr`, and the parser is left at `T`.
Every other form comes back: `type_parses` goes over the written type with
the tokens that may stand behind it. With the word, the parser stops in the
middle of the type with a tree of fewer nodes (`type_cutShort`).
-/
import Aether.Parser.PrecedenceTheorems
import Aether.Parser.TypeSyntax

namespace Aether

open Lib.Procedures

/-! ## §1 Steps of the type parser -/

variable {p q : Parser}

@[simp] theorem steps_parseType {r : Option AstNode} :
    Steps procs parseType p r q ↔ ProcReturns procs .type p r q := steps_recur

theorem steps_skip {α : Type} {type : TokenType} {f : Bool → ParseM α} {a : α}
    (hcur : p.hasCurrent = true) (hne : p.current.type ≠ type) (h : Steps procs (f false) p a q) :
    Steps procs (matchTok type >>= f) p a q := by
  have hens : p.ensure = p := ensure_of_hasCurrent hcur
  exact steps_bind.mpr ⟨false, p, (steps_matchTok_false (by rwa [hens])).mpr ⟨rfl, hens⟩, h⟩

theorem steps_take {α : Type} {type : TokenType} {f : Bool → ParseM α} {a : α}
    (hcur : p.hasCurrent = true) (heq : p.current.type = type)
    (h : Steps procs (f true) p.advance a q) : Steps procs (matchTok type >>= f) p a q := by
  have hens : p.ensure = p := ensure_of_hasCurrent hcur
  exact steps_bind.mpr ⟨true, p.advance,
    (steps_matchTok_true (by rwa [hens])).mpr ⟨rfl, by rw [hens]⟩, h⟩

theorem steps_check_then {α : Type} {type : TokenType} {f : Bool → ParseM α} {a : α}
    (hcur : p.hasCurrent = true) (h : Steps procs (f (decide (p.current.type = type))) p a q) :
    Steps procs (check type >>= f) p a q := by
  have hens : p.ensure = p := ensure_of_hasCurrent hcur
  exact steps_bind.mpr ⟨_, p, steps_check.mpr ⟨by rw [hens], hens⟩, h⟩

theorem steps_checkAny_then {α : Type} {types : List TokenType} {f : Bool → ParseM α} {a : α}
    (hcur : p.hasCurrent = true) (h : Steps procs (f (types.contains p.current.type)) p a q) :
    Steps procs (checkAny types >>= f) p a q := by
  have hens : p.ensure = p := ensure_of_hasCurrent hcur
  exact steps_bind.mpr ⟨_, p, steps_checkAny.mpr ⟨by rw [hens], hens⟩, h⟩

/-- The test for a word, where no identifier is. -/
theorem steps_skip_word {α : Type} {word : String} {x y : ParseM α} {a : α}
    (hcur : p.hasCurrent = true) (hne : p.current.type ≠ .ident) (h : Steps procs y p a q) :
    Steps procs (check .ident >>= fun b => get >>= fun p' =>
      if (b && svEqCstr p'.current.text word) = true then x else y) p a q := by
  refine steps_check_then hcur (steps_get_bind.mpr ?_)
  simpa [hne] using h

/-- The state after `parser_expect`. -/
def afterExpect (type : TokenType) (p : Parser) : Parser :=
  if p.current.type = type then p.advance else p.error p.current "expected token"

theorem steps_expect (type : TokenType) (hcur : p.hasCurrent = true) :
    Steps procs (expect type) p () (afterExpect type p) := by
  have hens : p.ensure = p := ensure_of_hasCurrent hcur
  by_cases h : p.current.type = type
  · simp [expect, afterExpect, hens, h]
  · simp [expect, afterExpect, hens, h, parserError]

theorem steps_expect_then {α : Type} {type : TokenType} {f : Unit → ParseM α} {a : α}
    (hcur : p.hasCurrent = true) (h : Steps procs (f ()) (afterExpect type p) a q) :
    Steps procs (expect type >>= f) p a q :=
  steps_bind.mpr ⟨(), _, steps_expect type hcur, h⟩

theorem steps_type_then {α : Type} {f : Option AstNode → ParseM α} {a : α} {r : Option AstNode}
    {p₁ : Parser} (hret : ProcReturns procs .type p r p₁) (h : Steps procs (f r) p₁ a q) :
    Steps procs (parseType >>= f) p a q :=
  steps_bind.mpr ⟨r, p₁, steps_parseType.mpr hret, h⟩

/-! ## §2 One form of a type -/

/-- The tokens that a written type starts with. -/
def typeStart : List TokenType :=
  [.ident, .kwFunc, .star, .lbracket, .kwRef, .kwOwned, .kwRc, .lparen]

variable {r : Option AstNode} {t : AstNode}

theorem typeBase_iff : ProcReturns procs .typeBase p r q ↔ Steps procs typeBase p r q :=
  procReturns_iff

theorem type_of_base {q' : Parser} (hbase : ProcReturns procs .typeBase p r q)
    (h : Steps procs (typePostfix r) q r q') : ProcReturns procs .type p r q' := by
  rw [procReturns_iff]
  exact steps_bind.mpr ⟨r, q, steps_recur.mpr hbase, h⟩

/-- A base type that no mark follows. -/
theorem type_of_base_unmarked (hbase : ProcReturns procs .typeBase p r q)
    (hcur : q.hasCurrent = true) (hne : q.current.type ≠ .question) :
    ProcReturns procs .type p r q := by
  refine type_of_base hbase (steps_check_then hcur ?_)
  simp [hne]

/-- A base type and a mark that makes it optional. -/
theorem type_of_base_marked (hbase : ProcReturns procs .typeBase p r q)
    (hcur : q.hasCurrent = true) (hmark : q.current.type = .question)
    (hend : q.advance.current.type ∈ optionalEnd) :
    ProcReturns procs .type p (some (.typeOptional r)) q.advance := by
  rw [procReturns_iff]
  refine steps_bind.mpr ⟨r, q, steps_recur.mpr hbase, steps_check_then hcur ?_⟩
  simp only [hmark, decide_true, if_true]
  refine steps_get_bind.mpr ?_
  have hpeek : q.lexer.peekNext = q.advance.current := by
    unfold Lexer.peekNext Parser.advance Lexer.advance
    cases q.lexer.pending <;> rfl
  rw [if_pos (by rw [hpeek]; simpa using hend)]
  exact steps_advance_bind.mpr (steps_pure.mpr ⟨rfl, rfl⟩)

section Forms

variable (hcur : p.hasCurrent = true)

include hcur

theorem typeBase_ident (h : p.current.type = .ident) :
    ProcReturns procs .typeBase p (some (namedType p.current.text)) p.advance := by
  rw [typeBase_iff]
  refine steps_skip hcur (by rw [h]; decide) (steps_check_then hcur ?_)
  simp only [h, decide_true, if_true]
  exact steps_takeTok_bind.mpr (steps_pure.mpr ⟨rfl, rfl⟩)

/-- The tests for a name pass over any other token. -/
theorem typeBase_other (hfunc : p.current.type ≠ .kwFunc) (hident : p.current.type ≠ .ident)
    (hdyn : p.current.type ≠ .kwDyn)
    (h : Steps procs (do
      if ← matchTok .star then parsePtrType
      else if ← matchTok .lbracket then parseArrayType
      else if ← matchTok .kwRef then parseRefType {}
      else if ← matchTok .kwOwned then parseRefType { isOwned := true }
      else if ← matchTok .kwRc then parseRefType { isRc := true }
      else if ← matchTok .kwFunc then parseFnType
      else if ← matchTok .lparen then parseTupleType
      else
        parserError "expected type"
        advance
        return none) p r q) : ProcReturns procs .typeBase p r q := by
  rw [typeBase_iff]
  refine steps_skip hcur hfunc (steps_check_then hcur ?_)
  rw [decide_eq_false hident]
  exact steps_skip hcur hdyn (steps_skip_word hcur hident h)

theorem typeBase_star (h : p.current.type = .star) (helem : ProcReturns procs .type p.advance r q) :
    ProcReturns procs .typeBase p (some (.typePtr r)) q := by
  refine typeBase_other hcur (by simp [h]) (by simp [h]) (by simp [h]) (steps_take hcur h ?_)
  exact steps_type_then helem (steps_pure.mpr ⟨rfl, rfl⟩)

theorem typeBase_lbracket (h : p.current.type = .lbracket)
    (hrest : Steps procs parseArrayType p.advance r q) : ProcReturns procs .typeBase p r q := by
  refine typeBase_other hcur (by simp [h]) (by simp [h]) (by simp [h]) ?_
  exact steps_skip hcur (by simp [h]) (steps_take hcur h hrest)

theorem typeBase_ref {word : RefWord} (h : p.current.type = word.lexeme.type)
    (helem : ProcReturns procs .type p.advance r q) :
    ProcReturns procs .typeBase p (some (.typeRef r word.kind)) q := by
  have hgo : ∀ kind, Steps procs (parseRefType kind) p.advance (some (.typeRef r kind)) q :=
    fun kind => steps_type_then helem (steps_pure.mpr ⟨rfl, rfl⟩)
  have hne : ∀ type, word.lexeme.type ≠ type → p.current.type ≠ type := fun _ hne => h ▸ hne
  cases word
  all_goals
    refine typeBase_other hcur (hne _ (by decide)) (hne _ (by decide)) (hne _ (by decide)) ?_
    refine steps_skip hcur (hne _ (by decide)) (steps_skip hcur (hne _ (by decide)) ?_)
  · exact steps_take hcur h (hgo _)
  · exact steps_skip hcur (hne _ (by decide)) (steps_take hcur h (hgo _))
  · refine steps_skip hcur (hne _ (by decide)) (steps_skip hcur (hne _ (by decide)) ?_)
    exact steps_take hcur h (hgo _)

theorem typeBase_lparen (h : p.current.type = .lparen)
    (hrest : Steps procs parseTupleType p.advance r q) : ProcReturns procs .typeBase p r q := by
  refine typeBase_other hcur (by simp [h]) (by simp [h]) (by simp [h]) ?_
  refine steps_skip hcur (by simp [h]) (steps_skip hcur (by simp [h]) ?_)
  refine steps_skip hcur (by simp [h]) (steps_skip hcur (by simp [h]) ?_)
  refine steps_skip hcur (by simp [h]) (steps_skip hcur (by simp [h]) ?_)
  exact steps_take hcur h hrest

theorem typeBase_func (h : p.current.type = .kwFunc)
    (hrest : Steps procs parseFnType p.advance r q) : ProcReturns procs .typeBase p r q := by
  rw [typeBase_iff]
  exact steps_take hcur h hrest

end Forms

/-- `[T]`, or what is left of a longer form. -/
theorem slice_steps (helem : ProcReturns procs .type p r q) (hcur : q.hasCurrent = true)
    (hcomma : q.current.type ≠ .comma) (hsemi : q.current.type ≠ .semicolon) :
    Steps procs parseArrayType p (some (.typeSlice r)) (afterExpect .rbracket q) := by
  refine steps_type_then helem (steps_bind.mpr ⟨false, q, ?_, ?_⟩)
  · exact steps_checkAny_then hcur (by simp [hcomma, hsemi])
  · exact steps_expect_then hcur (steps_pure.mpr ⟨rfl, rfl⟩)

/-- `[T; N]`. -/
theorem array_steps (helem : ProcReturns procs .type p r q) (hcur : q.hasCurrent = true)
    (hsemi : q.current.type = .semicolon) (hsize : q.advance.current.type = .intLiteral) :
    Steps procs parseArrayType p
      (some (.typeArray r (castInt q.advance.current.intValue)))
      (afterExpect .rbracket q.advance.advance) := by
  refine steps_type_then helem (steps_bind.mpr ⟨true, q.advance, ?_, ?_⟩)
  · refine steps_checkAny_then hcur ?_
    simp [hsemi]
  · refine steps_takeTok_bind.mpr (steps_expect_then rfl ?_)
    rw [if_pos hsize]
    exact steps_pure.mpr ⟨rfl, rfl⟩

/-- One type in parentheses, or what is left of a tuple. -/
theorem paren_steps (helem : ProcReturns procs .type p r q) (hcur : q.hasCurrent = true)
    (hcomma : q.current.type ≠ .comma) :
    Steps procs parseTupleType p r (afterExpect .rparen q) :=
  steps_type_then helem (steps_skip hcur hcomma (steps_expect_then hcur (steps_pure.mpr ⟨rfl, rfl⟩)))

theorem tuple_steps {types : List AstNode} {q' : Parser} (helem : ProcReturns procs .type p (some t) q)
    (hcur : q.hasCurrent = true) (hcomma : q.current.type = .comma)
    (hlist : ProcReturns procs (.typeList [t]) q.advance types q') (hcur' : q'.hasCurrent = true) :
    Steps procs parseTupleType p (some (.typeTuple types)) (afterExpect .rparen q') := by
  refine steps_type_then helem (steps_take hcur hcomma ?_)
  exact steps_bind.mpr ⟨types, q', steps_recur.mpr hlist,
    steps_expect_then hcur' (steps_pure.mpr ⟨rfl, rfl⟩)⟩

/-- The parameter types of a function type. -/
theorem typeList_steps {types : List AstNode} (hcur : p.hasCurrent = true)
    (hopen : p.current.type = .lparen) (hlist : ProcReturns procs (.typeList []) p.advance types q)
    (hcur' : q.hasCurrent = true) :
    Steps procs parseTypeList p types (afterExpect .rparen q) := by
  refine steps_take hcur hopen ?_
  exact steps_bind.mpr ⟨types, q, steps_recur.mpr hlist,
    steps_expect_then hcur' (steps_pure.mpr ⟨rfl, rfl⟩)⟩

theorem fn_steps {types : List AstNode} (hparams : Steps procs parseTypeList p types q)
    (hcur : q.hasCurrent = true) (hcolon : q.current.type ≠ .colon) :
    Steps procs parseFnType p (some (.typeFn types none)) q := by
  have hens : q.ensure = q := ensure_of_hasCurrent hcur
  refine steps_bind.mpr ⟨types, q, hparams, steps_bind.mpr ⟨none, q, ?_, steps_pure.mpr ⟨rfl, rfl⟩⟩⟩
  exact steps_skip hcur hcolon (steps_pure.mpr ⟨rfl, rfl⟩)

theorem fnTo_steps {types : List AstNode} {q' : Parser} (hparams : Steps procs parseTypeList p types q)
    (hcur : q.hasCurrent = true) (hcolon : q.current.type = .colon)
    (hresult : ProcReturns procs .type q.advance r q') :
    Steps procs parseFnType p (some (.typeFn types r)) q' := by
  refine steps_bind.mpr ⟨types, q, hparams, steps_bind.mpr ⟨r, q', ?_, steps_pure.mpr ⟨rfl, rfl⟩⟩⟩
  exact steps_take hcur hcolon (steps_parseType.mpr hresult)

section Lists

variable {types types' : List AstNode}

/-- A type starts with neither a parenthesis that closes nor the end. -/
theorem not_end_of_start {type : TokenType} (h : type ∈ typeStart) :
    ¬ [TokenType.rparen, .eof].contains type = true := by
  cases type <;> simp_all [typeStart]

theorem typeList_end (hcur : p.hasCurrent = true) (hclose : p.current.type = .rparen) :
    ProcReturns procs (.typeList types) p types p := by
  rw [procReturns_iff]
  refine steps_checkAny_then hcur ?_
  simp [hclose]

theorem typeList_more {q' : Parser} (hcur : p.hasCurrent = true)
    (hstart : p.current.type ∈ typeStart) (helem : ProcReturns procs .type p (some t) q)
    (hcur' : q.hasCurrent = true) (hcomma : q.current.type = .comma)
    (hrest : ProcReturns procs (.typeList (types ++ [t])) q.advance types' q') :
    ProcReturns procs (.typeList types) p types' q' := by
  rw [procReturns_iff]
  refine steps_checkAny_then hcur ?_
  rw [if_neg (not_end_of_start hstart)]
  refine steps_type_then helem (steps_take hcur' hcomma ?_)
  exact steps_recur.mpr hrest

theorem typeList_last (hcur : p.hasCurrent = true)
    (hstart : p.current.type ∈ typeStart) (helem : ProcReturns procs .type p (some t) q)
    (hcur' : q.hasCurrent = true) (hcomma : q.current.type ≠ .comma) :
    ProcReturns procs (.typeList types) p (types ++ [t]) q := by
  rw [procReturns_iff]
  refine steps_checkAny_then hcur ?_
  rw [if_neg (not_end_of_start hstart)]
  refine steps_type_then helem (steps_skip hcur' hcomma ?_)
  exact steps_pure.mpr ⟨rfl, rfl⟩

end Lists

/-! ## §3 Types without the word -/

/-- The tokens behind a written type. -/
def typeEnd : List TokenType := [.rbracket, .semicolon, .comma, .rparen, .eof]

theorem typeEnd_facts {type : TokenType} (h : type ∈ typeEnd) :
    type ≠ .question ∧ type ≠ .colon ∧ type ∈ optionalEnd := by
  cases type <;> simp_all [typeEnd, optionalEnd]

theorem afterExpect_of_eq {type : TokenType} (h : p.current.type = type) :
    afterExpect type p = p.advance := if_pos h

def TypeSyntax.isOptional : TypeSyntax → Bool
  | .optional _ => true
  | _ => false

mutual
theorem lexemes_start : (s : TypeSyntax) → ∃ l ls, s.lexemes = l :: ls ∧ l.type ∈ typeStart
  | .prim _ => ⟨_, _, rfl, by simp [typeStart, identWord]⟩
  | .named .. => ⟨_, _, rfl, by simp [typeStart, identWord]⟩
  | .ptrWord _ => ⟨_, _, rfl, by simp [typeStart, identWord]⟩
  | .star _ => ⟨_, _, rfl, by simp [typeStart, symbol]⟩
  | .ref word _ => ⟨_, _, rfl, by cases word <;> simp [typeStart, RefWord.lexeme]⟩
  | .slice _ => ⟨_, _, rfl, by simp [typeStart, symbol]⟩
  | .array .. => ⟨_, _, rfl, by simp [typeStart, symbol]⟩
  | .tuple .. => ⟨_, _, rfl, by simp [typeStart, symbol]⟩
  | .fn _ => ⟨_, _, rfl, by simp [typeStart, symbol]⟩
  | .fnTo .. => ⟨_, _, rfl, by simp [typeStart, symbol]⟩
  | .optional elem => by
    obtain ⟨l, ls, hls, hl⟩ := lexemes_start elem
    simp only [TypeSyntax.lexemes, parenthesized]
    split
    · exact ⟨_, _, rfl, by simp [typeStart, symbol]⟩
    · exact ⟨l, ls ++ [symbol .question "?"], by rw [hls]; rfl, hl⟩
end

theorem start_of_reads {s : TypeSyntax} {p' : Parser} (h : p.Reads s.lexemes p') :
    p.current.type ∈ typeStart := by
  obtain ⟨l, ls, hls, hl⟩ := lexemes_start s
  rw [hls] at h
  rw [← h.1] at hl
  exact hl

/-- The base of a type that is not optional, and the whole type. -/
structure TypeSyntax.Parses (s : TypeSyntax) : Prop where
  base : s.isOptional = false → ∀ {p p' : Parser}, p.hasCurrent = true → p.Reads s.lexemes p' →
    s.isOpen = false ∨ p'.current.type ∈ typeEnd → ProcReturns procs .typeBase p (some s.ast) p'
  whole : ∀ {p p' : Parser}, p.hasCurrent = true → p.Reads s.lexemes p' →
    p'.current.type ∈ typeEnd → ProcReturns procs .type p (some s.ast) p'

def TypeSyntaxes.Parses (ts : TypeSyntaxes) : Prop :=
  ∀ (types : List AstNode) {p p' : Parser}, p.hasCurrent = true → p.Reads ts.lexemes p' →
    p'.current.type = .rparen → ProcReturns procs (.typeList types) p (types ++ ts.asts) p'

theorem parses_of_base {s : TypeSyntax} (h : ∀ {p p' : Parser}, p.hasCurrent = true →
    p.Reads s.lexemes p' → s.isOpen = false ∨ p'.current.type ∈ typeEnd →
    ProcReturns procs .typeBase p (some s.ast) p') : s.Parses where
  base := fun _ => h
  whole := fun hcur hreads hend => type_of_base_unmarked (h hcur hreads (.inr hend))
    (hreads.hasCurrent hcur) (typeEnd_facts hend).1

theorem namedType_prim (prim : PrimType) : namedType prim.name = .typePrimitive prim := by
  cases prim <;> rfl

theorem namedType_named {name : Bytes} (h : isTypeName name = true) :
    namedType name = .typeNamed name := by
  simp only [isTypeName, Bool.and_eq_true, Option.isNone_iff_eq_none, bne_iff_ne] at h
  rw [namedType, h.1.1.2]
  simp [h.1.2, h.2]

theorem toNat_size {n : Nat} (h : n < 2 ^ 31) : (UInt64.ofNat n).toNat = n := by
  refine UInt64.toNat_ofNat_of_lt' ?_
  change n < 18446744073709551616
  omega

theorem bmod_size {n : Nat} (h : n < 2 ^ 31) : Int.bmod n 4294967296 = n := by
  rw [Int.bmod_eq_of_le] <;> omega

theorem castInt_size {n : Nat} (h : n < 2 ^ 31) : castInt (UInt64.ofNat n) = n :=
  (congrArg (fun m : Nat => Int.bmod m 4294967296) (toNat_size h)).trans (bmod_size h)

theorem parses_ident {name : Bytes} {s : TypeSyntax} (hlex : s.lexemes = [identWord name])
    (hast : namedType name = s.ast) : s.Parses := by
  refine parses_of_base fun {p p'} hcur hreads _ => ?_
  rw [hlex] at hreads
  obtain ⟨hword, rfl⟩ := hreads
  have hname := typeBase_ident hcur (congrArg Lexeme.type hword)
  rw [show p.current.text = name from congrArg Lexeme.text hword, hast] at hname
  exact hname

theorem parses_slice {elem : TypeSyntax} (ih : elem.Parses) : (TypeSyntax.slice elem).Parses := by
  refine parses_of_base fun {p p'} hcur hreads _ => ?_
  obtain ⟨hopen, hreads⟩ := hreads
  obtain ⟨q, helem, hclose, rfl⟩ := reads_append.mp hreads
  have htype : q.current.type = .rbracket := congrArg Lexeme.type hclose
  have hq : q.hasCurrent = true := helem.hasCurrent rfl
  have hsteps := slice_steps (ih.whole rfl helem (by simp [htype, typeEnd])) hq (by simp [htype])
    (by simp [htype])
  rw [afterExpect_of_eq htype] at hsteps
  exact typeBase_lbracket hcur (congrArg Lexeme.type hopen) hsteps

theorem parses_array {elem : TypeSyntax} {size : Nat} (h : size < 2 ^ 31) (ih : elem.Parses) :
    (TypeSyntax.array elem size h).Parses := by
  refine parses_of_base fun {p p'} hcur hreads _ => ?_
  obtain ⟨hopen, hreads⟩ := hreads
  obtain ⟨q, helem, hsemi, hsize, hclose, rfl⟩ := reads_append.mp hreads
  have htype : q.current.type = .semicolon := congrArg Lexeme.type hsemi
  have hq : q.hasCurrent = true := helem.hasCurrent rfl
  have hsteps := array_steps (ih.whole rfl helem (by simp [htype, typeEnd])) hq htype
    (congrArg Lexeme.type hsize)
  have hend : q.advance.advance.current.type = .rbracket := congrArg Lexeme.type hclose
  have hvalue : q.advance.current.intValue = UInt64.ofNat size := congrArg Lexeme.intValue hsize
  rw [afterExpect_of_eq hend, hvalue, castInt_size h] at hsteps
  exact typeBase_lbracket hcur (congrArg Lexeme.type hopen) hsteps

theorem parses_star {elem : TypeSyntax} (ih : elem.Parses) : (TypeSyntax.star elem).Parses := by
  refine parses_of_base fun {p p'} hcur hreads hend => ?_
  have helem := ih.whole (p := p.advance) rfl hreads.2 (hend.resolve_left (by simp [TypeSyntax.isOpen]))
  exact typeBase_star hcur (congrArg Lexeme.type hreads.1) helem

theorem parses_ref {word : RefWord} {elem : TypeSyntax} (ih : elem.Parses) :
    (TypeSyntax.ref word elem).Parses := by
  refine parses_of_base fun {p p'} hcur hreads hend => ?_
  have helem := ih.whole (p := p.advance) rfl hreads.2 (hend.resolve_left (by simp [TypeSyntax.isOpen]))
  exact typeBase_ref hcur (congrArg Lexeme.type hreads.1) helem

theorem parses_tuple {first : TypeSyntax} {rest : TypeSyntaxes} (ih : first.Parses)
    (ihs : rest.Parses) : (TypeSyntax.tuple first rest).Parses := by
  refine parses_of_base fun {p p'} hcur hreads _ => ?_
  obtain ⟨hopen, hreads⟩ := hreads
  obtain ⟨q, hfirst, hcomma, hreads⟩ := reads_append.mp hreads
  obtain ⟨q', hrest, hclose, rfl⟩ := reads_append.mp hreads
  have hsep : q.current.type = .comma := congrArg Lexeme.type hcomma
  have htype : q'.current.type = .rparen := congrArg Lexeme.type hclose
  have hsteps := tuple_steps (ih.whole rfl hfirst (by simp [hsep, typeEnd])) (hfirst.hasCurrent rfl)
    hsep (ihs [first.ast] rfl hrest htype) (hrest.hasCurrent rfl)
  rw [afterExpect_of_eq htype] at hsteps
  exact typeBase_lparen hcur (congrArg Lexeme.type hopen) hsteps

/-- `func` and the parameter types. -/
theorem reads_params {params : TypeSyntaxes} {ls : List Lexeme} {p' : Parser} (ihs : params.Parses)
    (hreads : p.Reads (symbol .lparen "(" :: (params.lexemes ++ symbol .rparen ")" :: ls)) p')
    (hcur : p.hasCurrent = true) : ∃ q, Steps procs parseTypeList p params.asts q ∧ q.Reads ls p' ∧
      q.hasCurrent = true := by
  obtain ⟨hopen, hreads⟩ := hreads
  obtain ⟨q, hparams, hclose, hreads⟩ := reads_append.mp hreads
  have htype : q.current.type = .rparen := congrArg Lexeme.type hclose
  have hsteps := typeList_steps hcur (congrArg Lexeme.type hopen) (ihs [] rfl hparams htype)
    (hparams.hasCurrent rfl)
  rw [afterExpect_of_eq htype] at hsteps
  exact ⟨q.advance, hsteps, hreads, rfl⟩

theorem parses_fn {params : TypeSyntaxes} (ihs : params.Parses) : (TypeSyntax.fn params).Parses := by
  refine parses_of_base fun {p p'} hcur hreads hend => ?_
  have hlist : p.advance.Reads (symbol .lparen "(" :: (params.lexemes ++ [symbol .rparen ")"])) p' :=
    hreads.2
  obtain ⟨q, hparams, rfl, hq⟩ := reads_params ihs hlist rfl
  have hcolon := (typeEnd_facts (hend.resolve_left (by simp [TypeSyntax.isOpen]))).2.1
  exact typeBase_func hcur (congrArg Lexeme.type hreads.1) (fn_steps hparams hq hcolon)

theorem parses_fnTo {params : TypeSyntaxes} {result : TypeSyntax} (ihs : params.Parses)
    (ih : result.Parses) : (TypeSyntax.fnTo params result).Parses := by
  refine parses_of_base fun {p p'} hcur hreads hend => ?_
  obtain ⟨q, hparams, ⟨hcolon, hresult⟩, hq⟩ := reads_params ihs hreads.2 rfl
  have hwhole := ih.whole (p := q.advance) rfl hresult
    (hend.resolve_left (by simp [TypeSyntax.isOpen]))
  exact typeBase_func hcur (congrArg Lexeme.type hreads.1)
    (fnTo_steps hparams hq (congrArg Lexeme.type hcolon) hwhole)

theorem parses_optional {elem : TypeSyntax} (ih : elem.Parses) :
    (TypeSyntax.optional elem).Parses where
  base := by simp [TypeSyntax.isOptional]
  whole := by
    intro p p' hcur hreads hend
    have hmarked : ∀ q, ProcReturns procs .typeBase p (some elem.ast) q → q.hasCurrent = true →
        q.Reads [symbol .question "?"] p' →
        ProcReturns procs .type p (some (TypeSyntax.optional elem).ast) p' := by
      rintro q hbase hq ⟨hmark, rfl⟩
      exact type_of_base_marked hbase hq (congrArg Lexeme.type hmark) (typeEnd_facts hend).2.2
    obtain ⟨q, helem, hmark⟩ := reads_append.mp hreads
    cases hopen : elem.isOpen with
    | false =>
      rw [parenthesized, hopen] at helem
      have hopt : elem.isOptional = false := by
        cases elem <;> simp_all [TypeSyntax.isOpen, TypeSyntax.isOptional]
      exact hmarked q (ih.base hopt hcur helem (.inl hopen)) (helem.hasCurrent hcur) hmark
    | true =>
      rw [parenthesized, hopen] at helem
      obtain ⟨hlparen, helem⟩ := helem
      obtain ⟨q', hinner, hclose, rfl⟩ := reads_append.mp helem
      have htype : q'.current.type = .rparen := congrArg Lexeme.type hclose
      have hsteps := paren_steps (ih.whole rfl hinner (by simp [htype, typeEnd]))
        (hinner.hasCurrent rfl) (by simp [htype])
      rw [afterExpect_of_eq htype] at hsteps
      exact hmarked _ (typeBase_lparen hcur (congrArg Lexeme.type hlparen) hsteps) rfl hmark

theorem parses_nil : TypeSyntaxes.nil.Parses := by
  intro types p p' hcur hreads hclose
  obtain rfl : p = p' := hreads
  rw [TypeSyntaxes.asts, List.append_nil]
  exact typeList_end hcur hclose

theorem parses_cons {type : TypeSyntax} {types : TypeSyntaxes} (ih : type.Parses)
    (ihs : types.Parses) : (TypeSyntaxes.cons type types).Parses := by
  intro before p p' hcur hreads hclose
  cases types with
  | nil =>
    have hstart := start_of_reads hreads
    exact typeList_last hcur hstart (ih.whole hcur hreads (by simp [hclose, typeEnd]))
      (hreads.hasCurrent hcur) (by simp [hclose])
  | cons next types =>
    obtain ⟨q, htype, hcomma, hrest⟩ := reads_append.mp hreads
    have hsep : q.current.type = .comma := congrArg Lexeme.type hcomma
    have hlist := ihs (before ++ [type.ast]) rfl hrest hclose
    rw [List.append_assoc] at hlist
    exact typeList_more hcur (start_of_reads htype) (ih.whole hcur htype (by simp [hsep, typeEnd]))
      (htype.hasCurrent hcur) hsep hlist

mutual
/-- Without the word `ptr`, the parser gives the tree of a written type. -/
theorem type_parses : (s : TypeSyntax) → s.NoPtrWord → s.Parses
  | .prim prim, _ => parses_ident rfl (namedType_prim prim)
  | .named _ h, _ => parses_ident rfl (namedType_named h)
  | .ptrWord _, h => h.elim
  | .star elem, h => parses_star (type_parses elem h)
  | .ref _ elem, h => parses_ref (type_parses elem h)
  | .slice elem, h => parses_slice (type_parses elem h)
  | .array elem _ hsize, h => parses_array hsize (type_parses elem h)
  | .tuple first rest, h => parses_tuple (type_parses first h.1) (types_parse rest h.2)
  | .fn params, h => parses_fn (types_parse params h)
  | .fnTo params result, h => parses_fnTo (types_parse params h.1) (type_parses result h.2)
  | .optional elem, h => parses_optional (type_parses elem h)

theorem types_parse : (ts : TypeSyntaxes) → ts.NoPtrWord → ts.Parses
  | .nil, _ => parses_nil
  | .cons type types, h => parses_cons (type_parses type h.1) (types_parse types h.2)
end

/-! ## §4 Types with the word -/

mutual
/-- The type nodes of a tree. -/
def typeNodes : AstNode → Nat
  | .typePrimitive _ | .typeNamed _ => 1
  | .typePtr elem => 1 + optNodes elem
  | .typeRef elem _ => 1 + optNodes elem
  | .typeSlice elem => 1 + optNodes elem
  | .typeArray elem _ => 1 + optNodes elem
  | .typeTuple types => 1 + listNodes types
  | .typeFn params result => 1 + listNodes params + optNodes result
  | .typeOptional elem => 1 + optNodes elem
  | _ => 0

def optNodes : Option AstNode → Nat
  | none => 0
  | some t => typeNodes t

def listNodes : List AstNode → Nat
  | [] => 0
  | t :: ts => typeNodes t + listNodes ts
end

@[simp] theorem typeNodes_ptr : typeNodes (.typePtr (some t)) = 1 + typeNodes t := rfl

@[simp] theorem typeNodes_ref {kind : RefKind} :
    typeNodes (.typeRef (some t) kind) = 1 + typeNodes t := rfl

@[simp] theorem typeNodes_slice : typeNodes (.typeSlice (some t)) = 1 + typeNodes t := rfl

@[simp] theorem typeNodes_array {size : Int} :
    typeNodes (.typeArray (some t) size) = 1 + typeNodes t := rfl

@[simp] theorem typeNodes_tuple {types : List AstNode} :
    typeNodes (.typeTuple types) = 1 + listNodes types := rfl

@[simp] theorem typeNodes_fn {params : List AstNode} :
    typeNodes (.typeFn params r) = 1 + listNodes params + optNodes r := rfl

@[simp] theorem typeNodes_optional : typeNodes (.typeOptional (some t)) = 1 + typeNodes t := rfl

@[simp] theorem optNodes_none : optNodes none = 0 := rfl

@[simp] theorem optNodes_some : optNodes (some t) = typeNodes t := rfl

@[simp] theorem listNodes_nil : listNodes [] = 0 := rfl

@[simp] theorem listNodes_cons {types : List AstNode} :
    listNodes (t :: types) = typeNodes t + listNodes types := rfl

theorem listNodes_append (ts ts' : List AstNode) :
    listNodes (ts ++ ts') = listNodes ts + listNodes ts' := by
  induction ts with
  | nil => simp
  | cons t ts ih => simp [ih, Nat.add_assoc]

/-- The parser is at the start of a type, where no form of a type goes on. -/
def Stopped (p : Parser) : Prop := p.hasCurrent = true ∧ p.current.type ∈ typeStart

theorem Stopped.ne {type : TokenType} (h : Stopped p) (htype : type ∉ typeStart) :
    p.current.type ≠ type := fun heq => htype (heq ▸ h.2)

theorem Stopped.afterExpect {type : TokenType} (h : Stopped p) (htype : type ∉ typeStart) :
    Stopped (afterExpect type p) := by
  rw [Aether.afterExpect, if_neg (h.ne htype)]
  exact h

/-- The parser gives a smaller tree and is stopped in the middle of the
type. -/
def TypeSyntax.CutShort (s : TypeSyntax) : Prop :=
  ∀ {p p' : Parser}, p.hasCurrent = true → p.Reads s.lexemes p' → ∃ t q,
    ProcReturns procs .typeBase p (some t) q ∧ Stopped q ∧ typeNodes t < typeNodes s.ast

def TypeSyntaxes.CutShort (ts : TypeSyntaxes) : Prop :=
  ∀ (before : List AstNode) {p p' : Parser}, p.hasCurrent = true → p.Reads ts.lexemes p' →
    ∃ types q, ProcReturns procs (.typeList before) p (before ++ types) q ∧ Stopped q ∧
      listNodes types < listNodes ts.asts

/-- Then the whole type is no more than its base. -/
theorem whole_of_stopped {t : AstNode} (hbase : ProcReturns procs .typeBase p (some t) q)
    (hq : Stopped q) : ProcReturns procs .type p (some t) q :=
  type_of_base_unmarked hbase hq.1 (hq.ne (by decide))

theorem typeNodes_pos (s : TypeSyntax) : 0 < typeNodes s.ast := by
  have hone : ∀ n m, 0 < 1 + n + m := fun n m => by omega
  cases s with
  | prim | named => exact Nat.one_pos
  | fn params => exact hone _ 0
  | fnTo params result => exact hone (listNodes params.asts) _
  | _ => exact hone _ 0

theorem cutShort_ptrWord (elem : TypeSyntax) : (TypeSyntax.ptrWord elem).CutShort := by
  intro p p' hcur hreads
  have hname := typeBase_ident hcur (congrArg Lexeme.type hreads.1)
  rw [show p.current.text = bytes "ptr" from congrArg Lexeme.text hreads.1,
    show namedType (bytes "ptr") = .typeNamed (bytes "ptr") from rfl] at hname
  refine ⟨_, _, hname, ⟨rfl, start_of_reads hreads.2⟩, ?_⟩
  have hpos := typeNodes_pos elem
  change 1 < typeNodes (.typePtr (some elem.ast))
  rw [typeNodes_ptr]
  omega

theorem cutShort_star {elem : TypeSyntax} (ih : elem.CutShort) :
    (TypeSyntax.star elem).CutShort := by
  intro p p' hcur hreads
  obtain ⟨t, q, hbase, hq, hlt⟩ := ih (p := p.advance) rfl hreads.2
  refine ⟨_, q, typeBase_star hcur (congrArg Lexeme.type hreads.1) (whole_of_stopped hbase hq), hq, ?_⟩
  change typeNodes (.typePtr (some t)) < typeNodes (.typePtr (some elem.ast))
  simpa using hlt

theorem cutShort_ref {word : RefWord} {elem : TypeSyntax} (ih : elem.CutShort) :
    (TypeSyntax.ref word elem).CutShort := by
  intro p p' hcur hreads
  obtain ⟨t, q, hbase, hq, hlt⟩ := ih (p := p.advance) rfl hreads.2
  refine ⟨_, q, typeBase_ref hcur (congrArg Lexeme.type hreads.1) (whole_of_stopped hbase hq), hq, ?_⟩
  change typeNodes (.typeRef (some t) word.kind) < typeNodes (.typeRef (some elem.ast) word.kind)
  simpa using hlt

/-- A slice or an array breaks off as a slice. -/
theorem bracket_cutShort {elem : TypeSyntax} {ls : List Lexeme} {p' : Parser} (ih : elem.CutShort)
    (hcur : p.hasCurrent = true)
    (hreads : p.Reads (symbol .lbracket "[" :: (elem.lexemes ++ ls)) p') :
    ∃ t q, ProcReturns procs .typeBase p (some (.typeSlice (some t))) q ∧ Stopped q ∧
      typeNodes t < typeNodes elem.ast := by
  obtain ⟨q, helem, -⟩ := reads_append.mp hreads.2
  obtain ⟨t, q, hbase, hq, hlt⟩ := ih (p := p.advance) rfl helem
  have hsteps := slice_steps (whole_of_stopped hbase hq) hq.1 (hq.ne (by decide)) (hq.ne (by decide))
  exact ⟨t, _, typeBase_lbracket hcur (congrArg Lexeme.type hreads.1) hsteps,
    hq.afterExpect (by decide), hlt⟩

theorem cutShort_slice {elem : TypeSyntax} (ih : elem.CutShort) :
    (TypeSyntax.slice elem).CutShort := by
  intro p p' hcur hreads
  obtain ⟨t, q, hbase, hq, hlt⟩ := bracket_cutShort ih hcur hreads
  refine ⟨_, q, hbase, hq, ?_⟩
  change typeNodes (.typeSlice (some t)) < typeNodes (.typeSlice (some elem.ast))
  simpa using hlt

theorem cutShort_array {elem : TypeSyntax} {size : Nat} {h : size < 2 ^ 31} (ih : elem.CutShort) :
    (TypeSyntax.array elem size h).CutShort := by
  intro p p' hcur hreads
  obtain ⟨t, q, hbase, hq, hlt⟩ := bracket_cutShort ih hcur hreads
  refine ⟨_, q, hbase, hq, ?_⟩
  change typeNodes (.typeSlice (some t)) < typeNodes (.typeArray (some elem.ast) size)
  simpa using hlt

/-- What is in parentheses breaks off as it does alone. -/
theorem paren_cutShort {elem : TypeSyntax} {ls : List Lexeme} {p' : Parser} (ih : elem.CutShort)
    (hcur : p.hasCurrent = true)
    (hreads : p.Reads (symbol .lparen "(" :: (elem.lexemes ++ ls)) p') :
    ∃ t q, ProcReturns procs .typeBase p (some t) q ∧ Stopped q ∧
      typeNodes t < typeNodes elem.ast := by
  obtain ⟨q, helem, -⟩ := reads_append.mp hreads.2
  obtain ⟨t, q, hbase, hq, hlt⟩ := ih (p := p.advance) rfl helem
  have hsteps := paren_steps (whole_of_stopped hbase hq) hq.1 (hq.ne (by decide))
  exact ⟨t, _, typeBase_lparen hcur (congrArg Lexeme.type hreads.1) hsteps,
    hq.afterExpect (by decide), hlt⟩

theorem cutShort_optional {elem : TypeSyntax} (ih : elem.CutShort) :
    (TypeSyntax.optional elem).CutShort := by
  intro p p' hcur hreads
  obtain ⟨q, helem, -⟩ := reads_append.mp hreads
  have hbase : ∃ t q, ProcReturns procs .typeBase p (some t) q ∧ Stopped q ∧
      typeNodes t < typeNodes elem.ast := by
    unfold parenthesized at helem
    split at helem
    · exact paren_cutShort ih hcur helem
    · exact ih hcur helem
  obtain ⟨t, q, hbase, hq, hlt⟩ := hbase
  refine ⟨t, q, hbase, hq, ?_⟩
  change typeNodes t < typeNodes (.typeOptional (some elem.ast))
  rw [typeNodes_optional]
  omega

theorem cutShort_tuple_first {first : TypeSyntax} {rest : TypeSyntaxes} (ih : first.CutShort) :
    (TypeSyntax.tuple first rest).CutShort := by
  intro p p' hcur hreads
  obtain ⟨t, q, hbase, hq, hlt⟩ := paren_cutShort ih hcur hreads
  refine ⟨t, q, hbase, hq, ?_⟩
  change typeNodes t < typeNodes (.typeTuple (first.ast :: rest.asts))
  rw [typeNodes_tuple, listNodes_cons]
  omega

theorem cutShort_tuple_rest {first : TypeSyntax} {rest : TypeSyntaxes} (hfirst : first.Parses)
    (ihs : rest.CutShort) : (TypeSyntax.tuple first rest).CutShort := by
  intro p p' hcur hreads
  obtain ⟨hopen, hreads⟩ := hreads
  obtain ⟨q, hreadsFirst, hcomma, hreads⟩ := reads_append.mp hreads
  obtain ⟨q₁, hreadsRest, -⟩ := reads_append.mp hreads
  have hsep : q.current.type = .comma := congrArg Lexeme.type hcomma
  obtain ⟨types, q', hlist, hq', hlt⟩ := ihs [first.ast] rfl hreadsRest
  have hsteps := tuple_steps (hfirst.whole rfl hreadsFirst (by simp [hsep, typeEnd]))
    (hreadsFirst.hasCurrent rfl) hsep hlist hq'.1
  refine ⟨_, _, typeBase_lparen hcur (congrArg Lexeme.type hopen) hsteps,
    hq'.afterExpect (by decide), ?_⟩
  change typeNodes (.typeTuple ([first.ast] ++ types)) <
    typeNodes (.typeTuple (first.ast :: rest.asts))
  simpa using hlt

/-- A function type breaks off in its parameters. -/
theorem params_cutShort {params : TypeSyntaxes} {ls : List Lexeme} {p' : Parser}
    (ihs : params.CutShort) (hcur : p.hasCurrent = true) (hreads : p.Reads (symbol .kwFunc "func" ::
      symbol .lparen "(" :: (params.lexemes ++ ls)) p') :
    ∃ types q, ProcReturns procs .typeBase p (some (.typeFn types none)) q ∧ Stopped q ∧
      listNodes types < listNodes params.asts := by
  obtain ⟨hfunc, hopen, hreads⟩ := hreads
  obtain ⟨q₁, hparams, -⟩ := reads_append.mp hreads
  obtain ⟨types, q, hlist, hq, hlt⟩ := ihs [] rfl hparams
  have hstop : Stopped (afterExpect .rparen q) := hq.afterExpect (by decide)
  have hsteps := fn_steps (typeList_steps rfl (congrArg Lexeme.type hopen) hlist hq.1) hstop.1
    (hstop.ne (by decide))
  exact ⟨types, _, typeBase_func hcur (congrArg Lexeme.type hfunc) hsteps, hstop, hlt⟩

theorem cutShort_fn {params : TypeSyntaxes} (ihs : params.CutShort) :
    (TypeSyntax.fn params).CutShort := by
  intro p p' hcur hreads
  obtain ⟨types, q, hbase, hq, hlt⟩ := params_cutShort ihs hcur hreads
  refine ⟨_, q, hbase, hq, ?_⟩
  change typeNodes (.typeFn types none) < typeNodes (.typeFn params.asts none)
  simpa using hlt

theorem cutShort_fnTo_params {params : TypeSyntaxes} {result : TypeSyntax} (ihs : params.CutShort) :
    (TypeSyntax.fnTo params result).CutShort := by
  intro p p' hcur hreads
  obtain ⟨types, q, hbase, hq, hlt⟩ := params_cutShort ihs hcur hreads
  refine ⟨_, q, hbase, hq, ?_⟩
  change typeNodes (.typeFn types none) < typeNodes (.typeFn params.asts (some result.ast))
  rw [typeNodes_fn, typeNodes_fn, optNodes_none, optNodes_some]
  omega

theorem cutShort_fnTo_result {params : TypeSyntaxes} {result : TypeSyntax} (hparams : params.Parses)
    (ih : result.CutShort) : (TypeSyntax.fnTo params result).CutShort := by
  intro p p' hcur hreads
  obtain ⟨q, hsteps, ⟨hcolon, hresult⟩, hq⟩ := reads_params hparams hreads.2 rfl
  obtain ⟨t, q', hbase, hq', hlt⟩ := ih (p := q.advance) rfl hresult
  refine ⟨_, q', typeBase_func hcur (congrArg Lexeme.type hreads.1)
    (fnTo_steps hsteps hq (congrArg Lexeme.type hcolon) (whole_of_stopped hbase hq')), hq', ?_⟩
  change typeNodes (.typeFn params.asts (some t)) < typeNodes (.typeFn params.asts (some result.ast))
  simpa using hlt

theorem cutShort_cons_first {type : TypeSyntax} {types : TypeSyntaxes} (ih : type.CutShort) :
    (TypeSyntaxes.cons type types).CutShort := by
  intro before p p' hcur hreads
  have hfirst : ∃ q, p.Reads type.lexemes q := by
    cases types with
    | nil => exact ⟨p', hreads⟩
    | cons next types =>
      obtain ⟨q, htype, -⟩ := reads_append.mp hreads
      exact ⟨q, htype⟩
  obtain ⟨p₁, hfirst⟩ := hfirst
  obtain ⟨t, q, hbase, hq, hlt⟩ := ih hcur hfirst
  refine ⟨[t], q, typeList_last hcur (start_of_reads hfirst) (whole_of_stopped hbase hq) hq.1
    (hq.ne (by decide)), hq, ?_⟩
  change listNodes [t] < listNodes (type.ast :: types.asts)
  rw [listNodes_cons, listNodes_cons, listNodes_nil]
  omega

theorem cutShort_cons_rest {type : TypeSyntax} {types : TypeSyntaxes} (htype : type.Parses)
    (ihs : types.CutShort) (hne : types ≠ .nil) : (TypeSyntaxes.cons type types).CutShort := by
  intro before p p' hcur hreads
  cases types with
  | nil => exact absurd rfl hne
  | cons next types =>
    obtain ⟨q, hfirst, hcomma, hrest⟩ := reads_append.mp hreads
    have hsep : q.current.type = .comma := congrArg Lexeme.type hcomma
    obtain ⟨cut, q', hlist, hq', hlt⟩ := ihs (before ++ [type.ast]) rfl hrest
    rw [List.append_assoc] at hlist
    refine ⟨_, q', typeList_more hcur (start_of_reads hfirst)
      (htype.whole hcur hfirst (by simp [hsep, typeEnd])) (hfirst.hasCurrent hcur) hsep hlist, hq', ?_⟩
    change listNodes ([type.ast] ++ cut) < listNodes (type.ast :: (TypeSyntaxes.cons next types).asts)
    simpa using hlt

open Classical in
mutual
/-- With the word `ptr`, the parser is stopped behind it. -/
theorem type_cutShort : (s : TypeSyntax) → ¬ s.NoPtrWord → s.CutShort
  | .prim _, h => absurd trivial h
  | .named .., h => absurd trivial h
  | .ptrWord elem, _ => cutShort_ptrWord elem
  | .star elem, h => cutShort_star (type_cutShort elem h)
  | .ref _ elem, h => cutShort_ref (type_cutShort elem h)
  | .slice elem, h => cutShort_slice (type_cutShort elem h)
  | .array elem _ _, h => cutShort_array (type_cutShort elem h)
  | .tuple first rest, h =>
    if hfirst : first.NoPtrWord then
      cutShort_tuple_rest (type_parses first hfirst) (types_cutShort rest fun hrest => h ⟨hfirst, hrest⟩)
    else cutShort_tuple_first (type_cutShort first hfirst)
  | .fn params, h => cutShort_fn (types_cutShort params h)
  | .fnTo params result, h =>
    if hparams : params.NoPtrWord then
      cutShort_fnTo_result (types_parse params hparams)
        (type_cutShort result fun hresult => h ⟨hparams, hresult⟩)
    else cutShort_fnTo_params (types_cutShort params hparams)
  | .optional elem, h => cutShort_optional (type_cutShort elem h)

theorem types_cutShort : (ts : TypeSyntaxes) → ¬ ts.NoPtrWord → ts.CutShort
  | .nil, h => absurd trivial h
  | .cons type types, h =>
    if htype : type.NoPtrWord then
      cutShort_cons_rest (type_parses type htype) (types_cutShort types fun htypes => h ⟨htype, htypes⟩)
        fun hnil => h ⟨htype, hnil ▸ trivial⟩
    else cutShort_cons_first (type_cutShort type htype)
end

/-! ## §5 Printing and parsing -/

/-- Printing a type and parsing the text with `parse_type` gives its tree
back. -/
def TypeSyntax.RoundTrips (s : TypeSyntax) : Prop :=
  ∃ q, ProcReturns procs .type (parserCreate s.print) (some s.ast) q

/-- `parse_type` reads its first token. -/
theorem type_ensure : ProcReturns procs .type p r q ↔ ProcReturns procs .type p.ensure r q := by
  have hbase : ∀ r' q', Steps procs (recur .typeBase) p r' q' ↔
      Steps procs (recur .typeBase) p.ensure r' q' := by
    intro r' q'
    refine steps_recur.trans (.trans ?_ steps_recur.symm)
    rw [typeBase_iff, typeBase_iff]
    simp [typeBase, matchTok]
  rw [procReturns_iff, procReturns_iff]
  change Steps procs type p r q ↔ Steps procs type p.ensure r q
  simp only [type, steps_bind]
  exact exists_congr fun r' => exists_congr fun q' => and_congr_left' (hbase r' q')

theorem reads_type (s : TypeSyntax) :
    ∃ q, (parserCreate s.print).ensure.Reads s.lexemes q ∧ q.current.type = .eof := by
  obtain ⟨q, hreads, hq⟩ := reads_pending (tokensOf s.print).1 (p := parserCreate s.print) rfl
  rw [tokens_print] at hreads
  exact ⟨q, hreads, hq⟩

/-- The parser then is at the end of the text and has reported nothing. -/
theorem parses_print {s : TypeSyntax} (h : s.NoPtrWord) :
    ∃ q, ProcReturns procs .type (parserCreate s.print) (some s.ast) q ∧ q.errors = [] ∧
      q.current.type = .eof := by
  obtain ⟨q, hreads, hq⟩ := reads_type s
  have hret := (type_parses s h).whole (ensure_hasCurrent _) hreads (by simp [hq, typeEnd])
  refine ⟨q, type_ensure.mpr hret, ?_, hq⟩
  rw [hreads.errors]
  rfl

theorem roundTrips_of_noPtrWord {s : TypeSyntax} (h : s.NoPtrWord) : s.RoundTrips := by
  obtain ⟨q, hret, _, _⟩ := parses_print h
  exact ⟨q, hret⟩

theorem not_roundTrips_of_ptrWord {s : TypeSyntax} (h : ¬ s.NoPtrWord) : ¬ s.RoundTrips := by
  intro ⟨q, hret⟩
  obtain ⟨q', hreads, _⟩ := reads_type s
  obtain ⟨t, q₁, hbase, hstop, hlt⟩ := type_cutShort s h (ensure_hasCurrent _) hreads
  obtain ⟨ht, rfl⟩ := Prod.mk.inj
    (returns_det (type_ensure.mp hret) (whole_of_stopped hbase hstop))
  rw [Option.some.inj ht] at hlt
  exact Nat.lt_irrefl _ hlt

/-- A type comes back from its text exactly if no pointer is written with the
word `ptr`. -/
theorem type_round_trip_iff (s : TypeSyntax) : s.RoundTrips ↔ s.NoPtrWord :=
  ⟨fun h => not_not.mp fun hnot => not_roundTrips_of_ptrWord hnot h, roundTrips_of_noPtrWord⟩

/-- `ptr u8` does not come back. -/
theorem not_always_round_trips : ¬ ∀ s : TypeSyntax, s.RoundTrips := fun h =>
  not_roundTrips_of_ptrWord (s := .ptrWord (.prim .u8)) (fun hptr => hptr) (h _)

end Aether
