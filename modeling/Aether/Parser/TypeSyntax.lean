/-
Aether.Parser.TypeSyntax — types as they are written, their trees, and the
tokens of the text.

`TypeSyntax` has one constructor for each form of a type; `lexemes` writes
it, with parentheses where an optional mark would bind inside. The forms
`ptr T` and `*T` have the same tree. `tokens_print`: the tokenizer gives the
words of the type.
-/
import Aether.Lexing.NumberTheorems
import Aether.Parser.Print

namespace Aether

open Lib Lexing

/-! ## §1 Written types -/

/-- The names of the primitive types, one for each. -/
def PrimType.name : PrimType → Bytes
  | .void => bytes "void" | .bool => bytes "bool" | .byte => bytes "byte"
  | .u8 => bytes "u8" | .u16 => bytes "u16" | .u32 => bytes "u32" | .u64 => bytes "u64"
  | .u128 => bytes "u128"
  | .i8 => bytes "i8" | .i16 => bytes "i16" | .i32 => bytes "i32" | .i64 => bytes "i64"
  | .f32 => bytes "f32" | .f64 => bytes "f64"
  | .string => bytes "string"

/-- The names that stand for a declared type. -/
def isTypeName (name : Bytes) : Bool :=
  isIdentifier name && (primTypeOf name).isNone && name != bytes "_" && name != bytes "auto"

/-- `ref`, `owned` and `rc`. -/
inductive RefWord where
  | ref | owned | rc
  deriving DecidableEq, Repr

def RefWord.lexeme : RefWord → Lexeme
  | .ref => ⟨.kwRef, bytes "ref", 0⟩
  | .owned => ⟨.kwOwned, bytes "owned", 0⟩
  | .rc => ⟨.kwRc, bytes "rc", 0⟩

def RefWord.kind : RefWord → RefKind
  | .ref => {}
  | .owned => { isOwned := true }
  | .rc => { isRc := true }

mutual
/-- A written type. A tuple has its first type apart, an array a size that
fits in an `int`. -/
inductive TypeSyntax where
  | prim (prim : PrimType)
  | named (name : Bytes) (h : isTypeName name = true)
  | ptrWord (elem : TypeSyntax)
  | star (elem : TypeSyntax)
  | ref (word : RefWord) (elem : TypeSyntax)
  | slice (elem : TypeSyntax)
  | array (elem : TypeSyntax) (size : Nat) (h : size < 2 ^ 31)
  | tuple (first : TypeSyntax) (rest : TypeSyntaxes)
  | fn (params : TypeSyntaxes)
  | fnTo (params : TypeSyntaxes) (result : TypeSyntax)
  | optional (elem : TypeSyntax)

inductive TypeSyntaxes where
  | nil
  | cons (type : TypeSyntax) (types : TypeSyntaxes)
end

mutual
/-- The tree of a written type. -/
def TypeSyntax.ast : TypeSyntax → AstNode
  | .prim prim => .typePrimitive prim
  | .named name _ => .typeNamed name
  | .ptrWord elem => .typePtr (some elem.ast)
  | .star elem => .typePtr (some elem.ast)
  | .ref word elem => .typeRef (some elem.ast) word.kind
  | .slice elem => .typeSlice (some elem.ast)
  | .array elem size _ => .typeArray (some elem.ast) size
  | .tuple first rest => .typeTuple (first.ast :: rest.asts)
  | .fn params => .typeFn params.asts none
  | .fnTo params result => .typeFn params.asts (some result.ast)
  | .optional elem => .typeOptional (some elem.ast)

def TypeSyntaxes.asts : TypeSyntaxes → List AstNode
  | .nil => []
  | .cons type types => type.ast :: types.asts
end

namespace TypeSyntax

/-- Types that end with a type of their own, and optional types: a mark
behind them needs parentheses. -/
def isOpen : TypeSyntax → Bool
  | prim _ | named .. | slice _ | array .. | tuple .. => false
  | _ => true

end TypeSyntax

def identWord (name : Bytes) : Lexeme := ⟨.ident, name, 0⟩

def numeralWord (n : Nat) : Lexeme :=
  ⟨.intLiteral, Numerals.decimal n, UInt64.ofNat n⟩

def symbol (type : TokenType) (text : String) : Lexeme := ⟨type, bytes text, 0⟩

/-- The words in parentheses. -/
def parenthesized (b : Bool) (ls : List Lexeme) : List Lexeme :=
  if b then symbol .lparen "(" :: (ls ++ [symbol .rparen ")"]) else ls

mutual
/-- The words of a written type. -/
def TypeSyntax.lexemes : TypeSyntax → List Lexeme
  | .prim prim => [identWord prim.name]
  | .named name _ => [identWord name]
  | .ptrWord elem => identWord (bytes "ptr") :: elem.lexemes
  | .star elem => symbol .star "*" :: elem.lexemes
  | .ref word elem => word.lexeme :: elem.lexemes
  | .slice elem => symbol .lbracket "[" :: (elem.lexemes ++ [symbol .rbracket "]"])
  | .array elem size _ => symbol .lbracket "[" ::
      (elem.lexemes ++ [symbol .semicolon ";", numeralWord size, symbol .rbracket "]"])
  | .tuple first rest => symbol .lparen "(" ::
      (first.lexemes ++ symbol .comma "," :: (rest.lexemes ++ [symbol .rparen ")"]))
  | .fn params => symbol .kwFunc "func" :: symbol .lparen "(" ::
      (params.lexemes ++ [symbol .rparen ")"])
  | .fnTo params result => symbol .kwFunc "func" :: symbol .lparen "(" ::
      (params.lexemes ++ symbol .rparen ")" :: symbol .colon ":" :: result.lexemes)
  | .optional elem => parenthesized elem.isOpen elem.lexemes ++ [symbol .question "?"]

def TypeSyntaxes.lexemes : TypeSyntaxes → List Lexeme
  | .nil => []
  | .cons type .nil => type.lexemes
  | .cons type types => type.lexemes ++ symbol .comma "," :: types.lexemes
end

/-- The words with a blank behind each. -/
def spaced (ls : List Lexeme) : Bytes := ls.flatMap fun l => l.text ++ [ch ' ']

/-- A type in the language's syntax. -/
def TypeSyntax.print (s : TypeSyntax) : Bytes := spaced s.lexemes

mutual
/-- No pointer is written with the word `ptr`. -/
def TypeSyntax.NoPtrWord : TypeSyntax → Prop
  | .prim _ | .named .. => True
  | .ptrWord _ => False
  | .star elem | .ref _ elem | .slice elem | .array elem .. | .optional elem => elem.NoPtrWord
  | .tuple first rest => first.NoPtrWord ∧ rest.NoPtrWord
  | .fn params => params.NoPtrWord
  | .fnTo params result => params.NoPtrWord ∧ result.NoPtrWord

def TypeSyntaxes.NoPtrWord : TypeSyntaxes → Prop
  | .nil => True
  | .cons type types => type.NoPtrWord ∧ types.NoPtrWord
end

/-! ## §2 Words that are one token -/

/-- A word that the tokenizer takes as one token, before a blank. -/
structure Lexeme.Scannable (l : Lexeme) : Prop where
  scans : ∀ rest, ScansTo l.text (ch ' ' :: rest) l
  ne_eof : l.type ≠ .eof
  starts : ∃ c cs, l.text = c :: cs ∧ c ≠ ch ' ' ∧ c ≠ ch '\t'

theorem scannable_ident {name : Bytes} (h : isIdentifier name = true) :
    (identWord name).Scannable := by
  obtain ⟨c, cs, rfl⟩ : ∃ c cs, name = c :: cs := by
    cases name with
    | nil => cases h
    | cons c cs => exact ⟨c, cs, rfl⟩
  simp only [isIdentifier, Bool.and_eq_true, beq_iff_eq] at h
  have hstart : ∀ d, isIdentStart d = false → c ≠ d := by
    intro d hd hcd
    rw [← hcd, h.1.1] at hd
    cases hd
  refine ⟨fun rest => ?_, by simp [identWord], c, cs, rfl, hstart _ (by decide), hstart _ (by decide)⟩
  have hscan : ScansTo (c :: cs) (ch ' ' :: rest) ⟨keywordType (c :: cs), c :: cs, 0⟩ :=
    scansTo_word h.1.1 h.1.2 fun _ => h.2
  rw [h.2] at hscan
  exact hscan

theorem scannable_keyword (c : UInt8) (cs : Bytes) (hstart : isIdentStart c = true)
    (hall : cs.all isIdentContinue = true) (hne : keywordType (c :: cs) ≠ .eof)
    (ho : c ≠ ch 'o' ∨ cs.head? ≠ some (ch 'p')) :
    Lexeme.Scannable ⟨keywordType (c :: cs), c :: cs, 0⟩ := by
  have hblank : ∀ d, isIdentStart d = false → c ≠ d := by
    intro d hd hcd
    rw [← hcd, hstart] at hd
    cases hd
  refine ⟨fun rest => scansTo_word hstart hall fun hop => ?_, hne, c, cs, rfl,
    hblank _ (by decide), hblank _ (by decide)⟩
  obtain ⟨cs', rfl⟩ := operatorName_cases hop.2
  exact absurd rfl (ho.resolve_left fun h => h hop.1)

theorem scannable_ref (word : RefWord) : word.lexeme.Scannable := by
  cases word
  · exact scannable_keyword (ch 'r') (bytes "ef") rfl rfl (by decide) (.inl (by decide))
  · exact scannable_keyword (ch 'o') (bytes "wned") rfl rfl (by decide) (.inr (by decide))
  · exact scannable_keyword (ch 'r') (bytes "c") rfl rfl (by decide) (.inl (by decide))

theorem cleanDigits_decimal {n : Nat} (h : n < 2 ^ 31) :
    cleanDigits (Numerals.decimal n) = Numerals.decimal n := by
  have hfilter : (Numerals.decimal n).filter (· != ch '_') = Numerals.decimal n := by
    rw [List.filter_eq_self]
    intro c hc
    obtain ⟨m, hm, rfl⟩ := Numerals.digit_of_mem_decimal hc
    simpa using Base.ne_underscore .decimal (digit_facts_of_lt m hm).2
  have hlength := Numerals.length_decimal_le (n := n) (k := 29) (by omega)
  rw [cleanDigits, hfilter, List.take_of_length_le hlength]

theorem strtoull_decimal {n : Nat} (h : n < 2 ^ 31) :
    strtoull (cleanDigits (Numerals.decimal n)) 10 = UInt64.ofNat n := by
  apply UInt64.toNat_inj.mp
  rw [toNat_strtoull, cleanDigits_decimal h, digitsValue_decimal, UInt64.toNat_ofNat']
  omega

theorem isNumeral_decimal (n : Nat) : isNumeral (Numerals.decimal n) = true := by
  simp only [isNumeral, Bool.and_eq_true, bne_iff_ne, List.all_eq_true]
  refine ⟨Numerals.decimal_ne_nil n, fun c hc => ?_⟩
  obtain ⟨m, hm, rfl⟩ := Numerals.digit_of_mem_decimal hc
  exact (digit_facts_of_lt m hm).2

theorem scannable_numeral {n : Nat} (h : n < 2 ^ 31) : (numeralWord n).Scannable := by
  refine ⟨fun rest => ?_, by simp [numeralWord], ?_⟩
  · have hscan : ScansTo _ (ch ' ' :: rest) _ := scansTo_numeral (isNumeral_decimal n)
    rw [strtoull_decimal h] at hscan
    exact hscan
  · cases hdigits : Numerals.decimal n with
    | nil => exact absurd hdigits (Numerals.decimal_ne_nil n)
    | cons c cs =>
      obtain ⟨m, hm, rfl⟩ := Numerals.digit_of_mem_decimal (n := n) (c := c) (by simp [hdigits])
      have hblank : ∀ m < 10, Numerals.digit m ≠ ch ' ' ∧ Numerals.digit m ≠ ch '\t' := by decide
      exact ⟨_, cs, hdigits, hblank m hm⟩

/-! ## §3 The tokens of the printed text -/

theorem skip_spaced {ls : List Lexeme} (h : ∀ l ∈ ls, l.Scannable) (col : Nat) :
    (skipWhitespaceInline col (spaced ls)).2 = spaced ls := by
  cases ls with
  | nil => rfl
  | cons l ls =>
    obtain ⟨c, cs, htext, hspace, htab⟩ := (h l (List.mem_cons_self ..)).starts
    rw [spaced, List.flatMap_cons, htext]
    exact skip_of_ne hspace htab col

theorem tokensLoop_spaced {ls : List Lexeme} : ∀ {fuel : Nat} {t : Tokenizer},
    (∀ l ∈ ls, l.Scannable) → (skipWhitespaceInline t.col t.pos).2 = spaced ls →
      (spaced ls).length ≤ fuel → (tokensLoop fuel t).1.map Token.lexeme = ls := by
  induction ls with
  | nil =>
    intro fuel t _ hskip _
    rw [tokensLoop_end hskip]
    rfl
  | cons l ls ih =>
    intro fuel t h hskip hfuel
    have hl := h l (List.mem_cons_self ..)
    have hls : ∀ l' ∈ ls, l'.Scannable := fun l' hl' => h l' (List.mem_cons_of_mem _ hl')
    have hprint : spaced (l :: ls) = l.text ++ ch ' ' :: spaced ls := by simp [spaced]
    obtain ⟨t', hyields, hpos⟩ := yields_of_scans (hl.scans _) hl.ne_eof (hskip.trans hprint)
    rw [hprint, List.length_append, List.length_cons] at hfuel
    obtain ⟨fuel', rfl⟩ : ∃ fuel', fuel = fuel' + 1 := ⟨fuel - 1, by omega⟩
    have hskip' : (skipWhitespaceInline t'.col t'.pos).2 = spaced ls := by
      rw [hpos, skipWhitespaceInline, if_pos rfl, skip_spaced hls]
    have hloop : (tokensLoop (fuel' + 1) t).1.map Token.lexeme =
        [l] ++ (tokensLoop fuel' t').1.map Token.lexeme := tokensLoop_yields hyields
    rw [hloop, ih hls hskip' (by omega)]
    rfl

theorem tokens_spaced {ls : List Lexeme} (h : ∀ l ∈ ls, l.Scannable) :
    (tokensOf (spaced ls)).1.map Token.lexeme = ls :=
  tokensLoop_spaced h (skip_spaced h 1) (Nat.le_succ _)

/-- The symbols of types and `func`. -/
def typeMarks : List Lexeme :=
  [symbol .star "*", symbol .lbracket "[", symbol .rbracket "]", symbol .lparen "(",
    symbol .rparen ")", symbol .comma ",", symbol .colon ":", symbol .semicolon ";",
    symbol .question "?", symbol .kwFunc "func"]

theorem scannable_mark {l : Lexeme} (h : l ∈ typeMarks) : l.Scannable := by
  have hsymbol : ∀ (c : UInt8) (type : TokenType), c ∉ [ch '/', ch ' ', ch '\t'] → type ≠ .eof →
      (∀ rest line col, ∃ col', scanToken ⟨c :: ch ' ' :: rest, c :: ch ' ' :: rest, line, col⟩ c
        (ch ' ' :: rest) = (⟨c :: ch ' ' :: rest, ch ' ' :: rest, line, col'⟩ : Tokenizer).emit type) →
      Lexeme.Scannable ⟨type, [c], 0⟩ := by
    intro c type hc hne hscan
    simp only [List.mem_cons, List.not_mem_nil, or_false, not_or] at hc
    exact ⟨fun rest => scansTo_symbol (startsToken_of_ne hc.1 _) (hscan rest), hne, c, [], rfl, hc.2⟩
  simp only [typeMarks, List.mem_cons, List.not_mem_nil, or_false] at h
  rcases h with rfl | rfl | rfl | rfl | rfl | rfl | rfl | rfl | rfl | rfl
  case inr.inr.inr.inr.inr.inr.inr.inr.inr =>
    exact scannable_keyword (ch 'f') (bytes "unc") rfl rfl (by decide) (.inl (by decide))
  all_goals exact hsymbol _ _ (by decide) (by decide) fun _ _ _ => ⟨_, rfl⟩

theorem scannable_name {name : Bytes} (h : isTypeName name = true) : (identWord name).Scannable := by
  simp only [isTypeName, Bool.and_eq_true] at h
  exact scannable_ident h.1.1.1

theorem scannable_prim (prim : PrimType) : (identWord prim.name).Scannable :=
  scannable_ident (by cases prim <;> decide)

theorem scannable_parenthesized {b : Bool} {ls : List Lexeme} (h : ∀ l ∈ ls, l.Scannable) :
    ∀ l ∈ parenthesized b ls, l.Scannable := by
  intro l hl
  cases b with
  | false => exact h l hl
  | true =>
    simp only [parenthesized, if_true, List.mem_cons, List.mem_append, List.not_mem_nil,
      or_false] at hl
    rcases hl with rfl | hl | rfl
    · exact scannable_mark (by simp [typeMarks])
    · exact h l hl
    · exact scannable_mark (by simp [typeMarks])

mutual
theorem scannable_type : (s : TypeSyntax) → ∀ l ∈ s.lexemes, l.Scannable
  | .prim prim, l, hl => by
    obtain rfl : l = identWord prim.name := by simpa [TypeSyntax.lexemes] using hl
    exact scannable_prim prim
  | .named name h, l, hl => by
    obtain rfl : l = identWord name := by simpa [TypeSyntax.lexemes] using hl
    exact scannable_name h
  | .ptrWord elem, l, hl => by
    obtain rfl | hl : l = identWord (bytes "ptr") ∨ l ∈ elem.lexemes := by
      simpa [TypeSyntax.lexemes] using hl
    · exact scannable_ident (by decide)
    · exact scannable_type elem l hl
  | .star elem, l, hl => by
    obtain rfl | hl : l = symbol .star "*" ∨ l ∈ elem.lexemes := by
      simpa [TypeSyntax.lexemes] using hl
    · exact scannable_mark (by simp [typeMarks])
    · exact scannable_type elem l hl
  | .ref word elem, l, hl => by
    obtain rfl | hl : l = word.lexeme ∨ l ∈ elem.lexemes := by
      simpa [TypeSyntax.lexemes] using hl
    · exact scannable_ref word
    · exact scannable_type elem l hl
  | .slice elem, l, hl => by
    obtain hl | hl : l ∈ elem.lexemes ∨ l ∈ typeMarks := by
      simp only [TypeSyntax.lexemes, List.mem_cons, List.mem_append, List.not_mem_nil] at hl
      simp only [typeMarks, List.mem_cons]
      tauto
    · exact scannable_type elem l hl
    · exact scannable_mark hl
  | .array elem size h, l, hl => by
    obtain hl | rfl | hl : l ∈ elem.lexemes ∨ l = numeralWord size ∨ l ∈ typeMarks := by
      simp only [TypeSyntax.lexemes, List.mem_cons, List.mem_append, List.not_mem_nil] at hl
      simp only [typeMarks, List.mem_cons]
      tauto
    · exact scannable_type elem l hl
    · exact scannable_numeral h
    · exact scannable_mark hl
  | .tuple first rest, l, hl => by
    obtain hl | hl | hl : l ∈ first.lexemes ∨ l ∈ rest.lexemes ∨ l ∈ typeMarks := by
      simp only [TypeSyntax.lexemes, List.mem_cons, List.mem_append, List.not_mem_nil] at hl
      simp only [typeMarks, List.mem_cons]
      tauto
    · exact scannable_type first l hl
    · exact scannable_types rest l hl
    · exact scannable_mark hl
  | .fn params, l, hl => by
    obtain hl | hl : l ∈ params.lexemes ∨ l ∈ typeMarks := by
      simp only [TypeSyntax.lexemes, List.mem_cons, List.mem_append, List.not_mem_nil] at hl
      simp only [typeMarks, List.mem_cons]
      tauto
    · exact scannable_types params l hl
    · exact scannable_mark hl
  | .fnTo params result, l, hl => by
    obtain hl | hl | hl : l ∈ params.lexemes ∨ l ∈ result.lexemes ∨ l ∈ typeMarks := by
      simp only [TypeSyntax.lexemes, List.mem_cons, List.mem_append] at hl
      simp only [typeMarks, List.mem_cons]
      tauto
    · exact scannable_types params l hl
    · exact scannable_type result l hl
    · exact scannable_mark hl
  | .optional elem, l, hl => by
    rcases List.mem_append.mp hl with hl | hl
    · exact scannable_parenthesized (scannable_type elem) l hl
    · obtain rfl := List.mem_singleton.mp hl
      exact scannable_mark (by simp [typeMarks])

theorem scannable_types : (ts : TypeSyntaxes) → ∀ l ∈ ts.lexemes, l.Scannable
  | .nil, l, hl => by simp [TypeSyntaxes.lexemes] at hl
  | .cons type .nil, l, hl => scannable_type type l hl
  | .cons type (.cons next types), l, hl => by
    rcases List.mem_append.mp hl with hl | hl
    · exact scannable_type type l hl
    · rcases List.mem_cons.mp hl with rfl | hl
      · exact scannable_mark (by simp [typeMarks])
      · exact scannable_types (.cons next types) l hl
end

/-- The tokenizer gives the words of a written type. -/
theorem tokens_print (s : TypeSyntax) : (tokensOf s.print).1.map Token.lexeme = s.lexemes :=
  tokens_spaced (scannable_type s)

end Aether
