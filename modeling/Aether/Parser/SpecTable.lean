/-
Aether.Parser.SpecTable — the operator precedence table of
`SPECIFICATION.md` §3.5: the binary operators of levels 3 to 13 and the
prefix operators of level 2, their symbols and levels, the tree's operator
for each, and the tokens the tokenizer makes of the symbol.
-/
import Aether.Parser.ExprSteps

namespace Aether

/-! ## §1 Binary operators -/

inductive SpecOp where
  | star | slash | percent
  | plus | minus
  | ltLt | gtGt
  | ampersand
  | caret
  | pipe
  | dotDot | dotDotEq
  | eqEq | bangEq | lt | gt | ltEq | gtEq
  | andAnd | kwAnd
  | pipePipe | kwOr
  | eq | plusEq | minusEq | starEq | slashEq | percentEq
  | ampersandEq | pipeEq | caretEq | ltLtEq | gtGtEq
  deriving DecidableEq, Repr

/-- The symbol of the table. -/
def SpecOp.text : SpecOp → String
  | .star => "*" | .slash => "/" | .percent => "%"
  | .plus => "+" | .minus => "-"
  | .ltLt => "<<" | .gtGt => ">>"
  | .ampersand => "&"
  | .caret => "^"
  | .pipe => "|"
  | .dotDot => ".." | .dotDotEq => "..="
  | .eqEq => "==" | .bangEq => "!=" | .lt => "<" | .gt => ">" | .ltEq => "<=" | .gtEq => ">="
  | .andAnd => "&&" | .kwAnd => "and"
  | .pipePipe => "||" | .kwOr => "or"
  | .eq => "=" | .plusEq => "+=" | .minusEq => "-=" | .starEq => "*=" | .slashEq => "/="
  | .percentEq => "%=" | .ampersandEq => "&=" | .pipeEq => "|=" | .caretEq => "^="
  | .ltLtEq => "<<=" | .gtGtEq => ">>="

/-- The level of the table; a lower level binds more tightly. -/
def SpecOp.level : SpecOp → Nat
  | .star | .slash | .percent => 3
  | .plus | .minus => 4
  | .ltLt | .gtGt => 5
  | .ampersand => 6
  | .caret => 7
  | .pipe => 8
  | .dotDot | .dotDotEq => 9
  | .eqEq | .bangEq | .lt | .gt | .ltEq | .gtEq => 10
  | .andAnd | .kwAnd => 11
  | .pipePipe | .kwOr => 12
  | _ => 13

/-- The operator of the syntax tree; the tree has none for six of the
assignments. -/
def SpecOp.ast : SpecOp → Option BinOp
  | .star => some .mul | .slash => some .div | .percent => some .mod
  | .plus => some .add | .minus => some .sub
  | .ltLt => some .shl | .gtGt => some .shr
  | .ampersand => some .bitAnd
  | .caret => some .bitXor
  | .pipe => some .bitOr
  | .dotDot => some .range | .dotDotEq => some .rangeInclusive
  | .eqEq => some .eq | .bangEq => some .neq | .lt => some .lt | .gt => some .gt
  | .ltEq => some .le | .gtEq => some .ge
  | .andAnd | .kwAnd => some .and
  | .pipePipe | .kwOr => some .or
  | .eq => some .assign | .plusEq => some .addAssign | .minusEq => some .subAssign
  | .starEq => some .mulAssign | .slashEq => some .divAssign
  | _ => none

/-- What the tokenizer makes of the symbol before a space. -/
def SpecOp.lexemes (op : SpecOp) : List Lexeme :=
  (tokensOf (bytes (op.text ++ " "))).1.map Token.lexeme

/-- The operators whose symbol is one token that `parse_infix` takes for
the operator. -/
def SpecOp.single : SpecOp → Option TokenType
  | .star => some .star | .slash => some .slash | .percent => some .percent
  | .plus => some .plus | .minus => some .minus
  | .ltLt => some .ltLt | .gtGt => some .gtGt
  | .ampersand => some .ampersand
  | .caret => some .caret
  | .dotDot => some .dotDot | .dotDotEq => some .dotDotEq
  | .eqEq => some .eqEq | .bangEq => some .bangEq | .lt => some .lt | .gt => some .gt
  | .ltEq => some .ltEq | .gtEq => some .gtEq
  | .andAnd => some .andAnd | .kwAnd => some .kwAnd
  | .kwOr => some .kwOr
  | .eq => some .eq | .plusEq => some .plusEq | .minusEq => some .minusEq | .starEq => some .starEq
  | _ => none

theorem lexemes_of_single {op : SpecOp} {type : TokenType} (h : op.single = some type) :
    op.lexemes = [⟨type, bytes op.text, 0⟩] := by
  cases op <;> cases h <;> decide

theorem ast_of_single {op : SpecOp} {type : TokenType} (h : op.single = some type) :
    ∃ b, op.ast = some b ∧ binaryOpOf type = some b ∧ b ≠ .custom := by
  cases op <;> cases h <;> exact ⟨_, rfl, rfl, by decide⟩

/-- A token of an operator is none of the tokens that the loops of
`parse_expr_prec` treat apart. -/
theorem single_ordinary {op : SpecOp} {type : TokenType} (h : op.single = some type) :
    type ≠ .pipe ∧ type ≠ .plusPlus ∧ type ≠ .minusMinus ∧ type ≠ .newline ∧
      tokenPrecedence type ≠ .min := by
  cases op <;> cases h <;> decide

/-- Both bars are pipes for the tokenizer, which compares a character with
a two-character constant. -/
theorem lexemes_pipes : SpecOp.lexemes .pipe = [⟨.pipe, bytes "|", 0⟩] ∧
    SpecOp.lexemes .pipePipe = [⟨.pipe, bytes "|", 0⟩, ⟨.pipe, bytes "|", 0⟩] := by
  decide

/-- The symbol of `DIV_ASSIGN` is two tokens. -/
theorem lexemes_slashEq :
    SpecOp.lexemes .slashEq = [⟨.slash, bytes "/", 0⟩, ⟨.eq, bytes "=", 0⟩] := by
  decide

/-- Below the assignments, only the bars are not parsed as one operator. -/
theorem single_of_level {op : SpecOp} (hlevel : op.level ≤ 12) (hpipe : op ≠ .pipe)
    (hpipes : op ≠ .pipePipe) : ∃ type, op.single = some type := by
  cases op <;> first | exact ⟨_, rfl⟩ | contradiction

/-- Operators of one level of the table have one precedence in the parser. -/
theorem tokenPrecedence_of_level {op op' : SpecOp} {type type' : TokenType}
    (h : op.single = some type) (h' : op'.single = some type') (hlevel : op.level = op'.level) :
    tokenPrecedence type = tokenPrecedence type' := by
  cases op <;> cases h <;> cases op' <;> cases h' <;> first | rfl | simp [SpecOp.level] at hlevel

end Aether
