/-
Aether.Asm.DataTheorems — what becomes of the values of a data directive.

`DataLine` is a `db`, `dw`, `dd` or `dq` line as it can be written. The
directive has three places, the operand of a string has no length, and two
backends print nothing for a string (`data_kept_iff`).
-/
import Aether.Asm.Backends
import Aether.Asm.Parser
import Aether.Asm.X86Backend
import Aether.Lexing.Steps
import Aether.Lib.Scanner

namespace Aether.Asm

open Aether.Lib.Scanner Aether.Lib.Numerals Aether.Lib.TextLines

/-! ## §1 Data lines -/

structure Blanks where
  text : Bytes
  ok : ∀ c ∈ text, isBlank c = true

structure Digits (accept : UInt8 → Bool) where
  text : Bytes
  ne_nil : text ≠ []
  ok : ∀ c ∈ text, accept c = true

inductive AsmInteger where
  | decimal (digits : Digits isDigit)
  | hexadecimal (upper : Bool) (digits : Digits isHexChar)
  | binary (upper : Bool) (digits : Digits isBinDigit)

namespace AsmInteger

def text : AsmInteger → Bytes
  | decimal digits => digits.text
  | hexadecimal upper digits => ch '0' :: (if upper then ch 'X' else ch 'x') :: digits.text
  | binary upper digits => ch '0' :: (if upper then ch 'B' else ch 'b') :: digits.text

def value : AsmInteger → Nat
  | decimal digits => digitsValue 10 digits.text
  | hexadecimal _ digits => digitsValue 16 digits.text
  | binary _ digits => digitsValue 2 digits.text

/-- A decimal number with a zero in front of other digits. -/
def zeroLed : AsmInteger → Prop
  | decimal digits => ∃ c cs, digits.text = ch '0' :: c :: cs
  | _ => False

end AsmInteger

def quoteChar (apostrophe : Bool) : UInt8 := if apostrophe then ch '\'' else ch '"'

/-- A character between the quotes, or an escaped one. -/
inductive QuotedUnit (quote : UInt8) where
  | plain (c : UInt8) (h : c ≠ quote ∧ c ≠ ch '\\')
  | escape (c : UInt8)

def QuotedUnit.text {quote : UInt8} : QuotedUnit quote → Bytes
  | plain c _ => [c]
  | escape c => [ch '\\', c]

inductive DataValue where
  | integer (negative : Bool) (i : AsmInteger)
  | string (apostrophe : Bool) (units : List (QuotedUnit (quoteChar apostrophe)))

namespace DataValue

def text : DataValue → Bytes
  | integer negative i => if negative then ch '-' :: i.text else i.text
  | string apostrophe units =>
    quoteChar apostrophe :: (units.flatMap QuotedUnit.text ++ [quoteChar apostrophe])

def isString : DataValue → Bool
  | string .. => true
  | integer .. => false

/-- The operand holds the value. -/
def HeldBy : DataValue → AsmOperand → Prop
  | integer negative i, op =>
    op.type = .immediate ∧ op.immediate.toInt = if negative then - (i.value : Int) else i.value
  | string _ units, op => op.type = .expr ∧ op.expr = units.flatMap QuotedUnit.text

/-- The text shows the value: the numeral of an integer, or something with
the characters of the string in it. -/
def ShownBy : DataValue → Bytes → Prop
  | integer negative i, piece =>
    piece = intDecimal (if negative then - (i.value : Int) else i.value)
  | string _ units, piece => piece ≠ [] ∧ units.flatMap QuotedUnit.text <:+: piece

end DataValue

structure DataItem where
  before : Blanks
  value : DataValue
  after : Blanks

def DataItem.text (item : DataItem) : Bytes :=
  item.before.text ++ (item.value.text ++ item.after.text)

/-- The values with commas between them. -/
def itemsText : List DataItem → Bytes
  | [] => []
  | item :: items => item.text ++ items.flatMap fun item => ch ',' :: item.text

inductive DataKind where
  | db | dw | dd | dq
  deriving DecidableEq, Repr

def DataKind.word : DataKind → Bytes
  | db => bytes "db"
  | dw => bytes "dw"
  | dd => bytes "dd"
  | dq => bytes "dq"

def DataKind.type : DataKind → AsmDirectiveType
  | db => .db
  | dw => .dw
  | dd => .dd
  | dq => .dq

/-- A data directive and any number of values. -/
structure DataLine where
  indent : Blanks
  kind : DataKind
  items : List DataItem
  /-- A number does not stand at the word. -/
  gap : ∀ item ∈ items.head?, item.before.text ≠ []

namespace DataLine

def text (line : DataLine) : Bytes := line.indent.text ++ (line.kind.word ++ itemsText line.items)

def values (line : DataLine) : List DataValue := line.items.map DataItem.value

end DataLine

/-- Nothing of the line follows: its end, a comment or the end of the text. -/
def EndsLine (rest : Bytes) : Prop := ∀ c ∈ rest.head?, c = ch '\n' ∨ c = ch ';'

instance : (rest : Bytes) → Decidable (EndsLine rest)
  | [] => .isTrue (by simp [EndsLine])
  | c :: _ => decidable_of_iff (c = ch '\n' ∨ c = ch ';') (by simp [EndsLine])

/-! ## §2 What is asked and when it holds -/

/-- The directive holds the values. -/
def Holds (line : DataLine) (dir : AsmDirective) : Prop :=
  dir.type = line.kind.type ∧ List.Forall₂ DataValue.HeldBy line.values dir.dataOperands

/-- The backend's line has a piece for each value. -/
def Emits (line : DataLine) (name text : Bytes) : Prop :=
  ∃ pieces, List.Forall₂ DataValue.ShownBy line.values pieces ∧
    text = name ++ X86Backend.joinComma pieces ++ bytes "\n"

/-- The three backends emit every value. -/
structure EmittedByAll (line : DataLine) (dir : AsmDirective) : Prop where
  x86_64 : Emits line (bytes (X86Backend.dataName dir.type)) (X86Backend.emitDir dir)
  arm64 : Emits line (bytes (Arm64.dataNames dir.type)) (emitDir Arm64.backend dir)
  riscv64 : Emits line (bytes (Riscv64.dataNames dir.type)) (emitDir Riscv64.backend dir)

/-- The parser reports an error, or the directive holds all the values and
each backend emits them. -/
def KeepsData (stale : AsmOperand) (line : DataLine) (rest : Bytes) : Prop :=
  ∃ dir p, asmParseDirective stale { rest := line.text ++ rest } = (dir, p) ∧
    (p.hasError = true ∨ ∃ dir', dir = some dir' ∧ Holds line dir' ∧ EmittedByAll line dir')

/-- The parser comes to a negative number: it reads at most `room` values,
and a number with a zero in front ends the list. -/
def ReachesMinus : Nat → List DataValue → Prop
  | 0, _ => False
  | _, [] => False
  | _ + 1, .integer true _ :: _ => True
  | room + 1, .integer false i :: values => ¬ i.zeroLed ∧ ReachesMinus room values
  | room + 1, .string .. :: values => ReachesMinus room values

/-- At most `room` numbers below 2^63, none with a zero in front, but that a
last one may be made of zeros. -/
def Fits : Nat → List DataValue → Prop
  | _, [] => True
  | 0, _ :: _ => False
  | room + 1, value :: values =>
    (∃ i, value = .integer false i ∧ i.value < 2 ^ 63 ∧ (i.zeroLed → i.value = 0 ∧ values = [])) ∧
      Fits room values

/-! ## §3 The lexer -/

-- the equations, before the proofs that share them
section
attribute [local simp] asmLexNext lexAt lexZero stringLoop asmParseOperand asmParseDataValues
end

theorem asmLexNext_blanks (blanks : Blanks) {c : UInt8} {cs : Bytes} (hc : isBlank c = false)
    (hcomment : c ≠ ch ';') : asmLexNext (blanks.text ++ c :: cs) = lexAt c cs := by
  have hdrop : (blanks.text ++ c :: cs).dropWhile isBlank = c :: cs := by
    rw [List.dropWhile_append_of_pos blanks.ok, List.dropWhile_cons_of_neg (by simp [hc])]
  simp [asmLexNext, hdrop, hcomment]

theorem ne_of_isDigit {c : UInt8} (h : isDigit c = true) {k : UInt8} (hk : isDigit k = false) :
    c ≠ k := by
  intro heq
  rw [heq, hk] at h
  cases h

/-- A digit is not one of the characters with a meaning of their own. -/
theorem lexAt_digit {c : UInt8} (h : isDigit c = true) (cs : Bytes) :
    lexAt c cs = if c = ch '0' then lexZero (c :: cs) cs else lexDigits 10 isDigit (c :: cs) := by
  have hquote : ¬ (c = ch '"' ∨ c = ch '\'') := by
    simp [ne_of_isDigit h (k := ch '"') (by decide), ne_of_isDigit h (k := ch '\'') (by decide)]
  rw [lexAt, if_neg (ne_of_isDigit h (by decide)), if_neg hquote, if_pos h]

theorem int64_step (n d : Nat) (base : Nat) :
    Int64.ofNat n * Int64.ofNat base + Int64.ofNat d = Int64.ofNat (base * n + d) := by
  rw [Int64.ofNat_add, Int64.ofNat_mul, Int64.mul_comm]

theorem accumulate_eq (base : Nat) (digits : Bytes) :
    accumulate (Int64.ofNat base) digits = Int64.ofNat (digitsValue base digits) := by
  have hfold : ∀ n : Nat, digits.foldl
      (fun v c => v * Int64.ofNat base + Int64.ofNat (digitValue c)) (Int64.ofNat n) =
        Int64.ofNat (digits.foldl (fun n c => base * n + digitValue c) n) := by
    induction digits with
    | nil => exact fun _ => rfl
    | cons c cs ih =>
      intro n
      rw [List.foldl_cons, List.foldl_cons, int64_step]
      exact ih _
  exact hfold 0

/-- What may stand behind a value. -/
def Follows (rest : Bytes) : Prop :=
  ∀ c ∈ rest.head?, c = ch ' ' ∨ c = ch '\t' ∨ c = ch ',' ∨ c = ch '\n' ∨ c = ch ';'

theorem Follows.stops {rest : Bytes} (h : Follows rest) {accept : UInt8 → Bool}
    (hfalse : [ch ' ', ch '\t', ch ',', ch '\n', ch ';'].all (fun c => !accept c) = true) :
    Stops accept rest := by
  intro c hc
  simp only [List.all_cons, List.all_nil, Bool.and_true, Bool.and_eq_true, Bool.not_eq_true'] at hfalse
  obtain ⟨hspace, htab, hcomma, hnl, hcomment⟩ := hfalse
  obtain rfl | rfl | rfl | rfl | rfl := h c hc
  · exact hspace
  · exact htab
  · exact hcomma
  · exact hnl
  · exact hcomment

theorem lexDigits_eq {b : Nat} {accept : UInt8 → Bool} (digits : Digits accept) {rest : Bytes}
    (h : Stops accept rest) :
    lexDigits (Int64.ofNat b) accept (digits.text ++ rest) =
      ({ type := .number, start := digits.text ++ rest, len := digits.text.length,
         intValue := Int64.ofNat (digitsValue b digits.text) }, rest) := by
  have hdrop : (digits.text ++ rest).dropWhile accept = rest :=
    dropWhile_append_eq_iff.mpr ⟨List.all_eq_true.mpr digits.ok, h⟩
  have htake := List.takeWhile_append_dropWhile (p := accept) (l := digits.text ++ rest)
  rw [hdrop] at htake
  simp only [lexDigits, List.append_cancel_right htake, hdrop, accumulate_eq]

/-- A number that nothing goes on with is read as a whole. -/
theorem lex_integer (blanks : Blanks) (i : AsmInteger) (hzero : ¬ i.zeroLed) {rest : Bytes}
    (hrest : Follows rest) : ∃ tok, asmLexNext (blanks.text ++ (i.text ++ rest)) = (tok, rest) ∧
      tok.type = .number ∧ tok.intValue = Int64.ofNat i.value := by
  have hdigit0 : isDigit (ch '0') = true := by decide
  have hzeroed : ∀ (cs : Bytes), asmLexNext (blanks.text ++ ch '0' :: cs) =
      lexZero (ch '0' :: cs) cs := by
    intro cs
    rw [asmLexNext_blanks blanks (by decide) (by decide), lexAt_digit hdigit0, if_pos rfl]
  cases i with
  | decimal digits =>
    obtain ⟨text, hne, hok⟩ := digits
    cases text with
    | nil => exact absurd rfl hne
    | cons c cs =>
      have hc : isDigit c = true := hok c (by simp)
      by_cases hc0 : c = ch '0'
      · subst hc0
        have hcs : cs = [] := by
          cases cs with
          | nil => rfl
          | cons d ds => exact absurd ⟨d, ds, rfl⟩ hzero
        subst hcs
        have hlex : lexZero (ch '0' :: rest) rest =
            ({ type := .number, start := ch '0' :: rest, len := 1 }, rest) := by
          cases rest with
          | nil => rfl
          | cons d ds =>
            have hd := hrest d rfl
            have hx : ¬ (d = ch 'x' ∨ d = ch 'X') := by
              obtain rfl | rfl | rfl | rfl | rfl := hd <;> decide
            have hb : ¬ (d = ch 'b' ∨ d = ch 'B') := by
              obtain rfl | rfl | rfl | rfl | rfl := hd <;> decide
            rw [lexZero, if_neg hx, if_neg hb]
        exact ⟨_, (hzeroed rest).trans hlex, rfl, rfl⟩
      · have hlex := lexDigits_eq (b := 10) ⟨c :: cs, hne, hok⟩ (hrest.stops (by decide))
        have hblank : isBlank c = false := by
          by_contra hblank
          simp only [Bool.not_eq_false, isBlank, Bool.or_eq_true, beq_iff_eq] at hblank
          obtain rfl | rfl := hblank <;> exact absurd hc (by decide)
        have hcomment : c ≠ ch ';' := by
          intro heq
          rw [heq] at hc
          exact absurd hc (by decide)
        have hnext : asmLexNext (blanks.text ++ c :: (cs ++ rest)) =
            lexDigits 10 isDigit (c :: (cs ++ rest)) := by
          rw [asmLexNext_blanks blanks hblank hcomment, lexAt_digit hc, if_neg hc0]
        exact ⟨_, hnext.trans hlex, rfl, rfl⟩
  | hexadecimal upper digits =>
    have hlex := lexDigits_eq (b := 16) digits (hrest.stops (by decide))
    cases upper
    · exact ⟨_, (hzeroed _).trans hlex, rfl, rfl⟩
    · exact ⟨_, (hzeroed _).trans hlex, rfl, rfl⟩
  | binary upper digits =>
    have hlex := lexDigits_eq (b := 2) digits (hrest.stops (by decide))
    cases upper
    · exact ⟨_, (hzeroed _).trans hlex, rfl, rfl⟩
    · exact ⟨_, (hzeroed _).trans hlex, rfl, rfl⟩

/-- Of a number with a zero in front the zero is read. -/
theorem lex_zeroLed (blanks : Blanks) {c : UInt8} {cs : Bytes} (hc : isDigit c = true) :
    asmLexNext (blanks.text ++ ch '0' :: c :: cs) =
      ({ type := .number, start := ch '0' :: c :: cs, len := 1 }, c :: cs) := by
  have hne : ∀ k, isDigit k = false → c ≠ k := fun k => ne_of_isDigit hc
  rw [asmLexNext_blanks blanks (by decide) (by decide), lexAt_digit (by decide), if_pos rfl, lexZero,
    if_neg (by simp [hne (ch 'x') (by decide), hne (ch 'X') (by decide)]),
    if_neg (by simp [hne (ch 'b') (by decide), hne (ch 'B') (by decide)])]

/-- At a digit there is a number. -/
theorem lex_digit_type {c : UInt8} (hc : isDigit c = true) (cs : Bytes) :
    (asmLexNext (c :: cs)).1.type = .number := by
  have hne : ∀ k, isDigit k = false → c ≠ k := fun k => ne_of_isDigit hc
  have hblank : isBlank c = false := by
    simp [isBlank, hne (ch ' ') (by decide), hne (ch '\t') (by decide)]
  have hlex := @asmLexNext_blanks ⟨[], by simp⟩ c cs hblank (hne (ch ';') (by decide))
  have hzero : ∀ text cs, (lexZero text cs).1.type = .number := by
    intro text cs
    cases cs with
    | nil => rfl
    | cons d ds =>
      rw [lexZero]
      split
      · rfl
      · split <;> rfl
  rw [show (⟨[], by simp⟩ : Blanks).text ++ c :: cs = c :: cs from rfl] at hlex
  rw [hlex, lexAt_digit hc]
  split
  · exact hzero _ _
  · rfl

theorem stringLoop_quote (quote : UInt8) (cs : Bytes) : stringLoop quote (quote :: cs) = (0, cs) := by
  unfold stringLoop
  rw [if_pos rfl]

theorem stringLoop_plain {quote c : UInt8} (cs : Bytes) (h : c ≠ quote ∧ c ≠ ch '\\') :
    stringLoop quote (c :: cs) = ((stringLoop quote cs).1 + 1, (stringLoop quote cs).2) := by
  conv_lhs => unfold stringLoop
  rw [if_neg h.1, if_neg h.2]

theorem stringLoop_escape {quote : UInt8} (h : ch '\\' ≠ quote) (c : UInt8) (cs : Bytes) :
    stringLoop quote (ch '\\' :: c :: cs) =
      ((stringLoop quote cs).1 + 1, (stringLoop quote cs).2) := by
  conv_lhs => unfold stringLoop
  rw [if_neg h, if_pos rfl]

theorem stringLoop_units (apostrophe : Bool) (units : List (QuotedUnit (quoteChar apostrophe)))
    (rest : Bytes) :
    stringLoop (quoteChar apostrophe)
      (units.flatMap QuotedUnit.text ++ quoteChar apostrophe :: rest) = (units.length, rest) := by
  have hquote : ch '\\' ≠ quoteChar apostrophe := by cases apostrophe <;> decide
  induction units with
  | nil => exact stringLoop_quote _ _
  | cons unit units ih =>
    cases unit with
    | plain c h => simp [QuotedUnit.text, stringLoop_plain _ h, ih]
    | escape c => simp [QuotedUnit.text, stringLoop_escape hquote, ih]

theorem lex_string (blanks : Blanks) (apostrophe : Bool)
    (units : List (QuotedUnit (quoteChar apostrophe))) (rest : Bytes) :
    asmLexNext (blanks.text ++ ((DataValue.string apostrophe units).text ++ rest)) =
      ({ type := .string, start := units.flatMap QuotedUnit.text ++ quoteChar apostrophe :: rest,
         len := units.length }, rest) := by
  have htext : (DataValue.string apostrophe units).text ++ rest = quoteChar apostrophe ::
      (units.flatMap QuotedUnit.text ++ quoteChar apostrophe :: rest) := by
    simp [DataValue.text]
  have hlex : ∀ cs, lexAt (quoteChar apostrophe) cs =
      ({ type := .string, start := cs, len := (stringLoop (quoteChar apostrophe) cs).1 },
        (stringLoop (quoteChar apostrophe) cs).2) := by
    intro cs
    cases apostrophe <;> rfl
  rw [htext, asmLexNext_blanks blanks (by cases apostrophe <;> decide)
    (by cases apostrophe <;> decide), hlex, stringLoop_units]

/-- At the end of a line there is no token of the line. -/
theorem lex_end (blanks : Blanks) {rest : Bytes} (hrest : EndsLine rest) :
    (asmLexNext (blanks.text ++ rest)).1.type = .newline ∨
      (asmLexNext (blanks.text ++ rest)).1.type = .eof := by
  have hdrop : (blanks.text ++ rest).dropWhile isBlank = rest := by
    refine dropWhile_append_eq_iff.mpr ⟨List.all_eq_true.mpr blanks.ok, fun c hc => ?_⟩
    obtain rfl | rfl := hrest c hc <;> decide
  have hline : ∀ cs : Bytes, (∀ c ∈ cs.head?, c = ch '\n') →
      (match cs with
        | [] => (({ type := .eof } : AsmToken), ([] : Bytes))
        | c :: cs => lexAt c cs).1.type = .newline ∨
      (match cs with
        | [] => (({ type := .eof } : AsmToken), ([] : Bytes))
        | c :: cs => lexAt c cs).1.type = .eof := by
    intro cs hcs
    cases cs with
    | nil => exact .inr rfl
    | cons c cs =>
      obtain rfl := hcs c rfl
      exact .inl rfl
  simp only [asmLexNext, hdrop]
  refine hline _ fun c hc => ?_
  split at hc
  · have hstop := stops_dropWhile (· != ch '\n') rest c hc
    simpa using hstop
  · next hcomment =>
    obtain h | rfl := hrest c hc
    · exact h
    · exact absurd hc hcomment

/-! ## §4 The values -/

/-- An operand at a token that is one by itself. -/
theorem operand_number (stale : AsmOperand) {p : AsmParser} (h : p.peek.type = .number) :
    asmParseOperand p stale = (true, asmOpImm p.peek.intValue, p.next) := by
  simp only [asmParseOperand, h]

theorem operand_string (stale : AsmOperand) {p : AsmParser} (h : p.peek.type = .string) :
    asmParseOperand p stale = (true, asmOpExpr (labelField p.peek.start), p.next) := by
  simp only [asmParseOperand, h]

theorem operand_minus (stale : AsmOperand) {p : AsmParser} (h : p.peek.type = .minus) :
    asmParseOperand p stale = (false, stale, p.error "expected operand") := by
  simp only [asmParseOperand, h]

section Values

variable {stale : AsmOperand}

/-- An operand was read, and what follows is not a comma. -/
theorem values_last {room : Nat} {p q : AsmParser} {op : AsmOperand}
    (hop : asmParseOperand p stale = (true, op, q)) (hcomma : q.peek.type ≠ .comma) :
    asmParseDataValues stale (room + 1) p = ([op], q) := by
  simp [asmParseDataValues, hop, AsmParser.accept, hcomma]

theorem values_comma {room : Nat} {p q : AsmParser} {op : AsmOperand}
    (hop : asmParseOperand p stale = (true, op, q)) (hcomma : q.peek.type = .comma) :
    asmParseDataValues stale (room + 1) p =
      (op :: (asmParseDataValues stale room q.next).1, (asmParseDataValues stale room q.next).2) := by
  simp [asmParseDataValues, hop, AsmParser.accept, hcomma]

theorem lex_comma (blanks : Blanks) (cs : Bytes) :
    asmLexNext (blanks.text ++ ch ',' :: cs) =
      ({ type := .comma, start := ch ',' :: cs, len := 1 }, cs) :=
  asmLexNext_blanks blanks (by decide) (by decide)

theorem lex_minus (blanks : Blanks) (cs : Bytes) :
    asmLexNext (blanks.text ++ ch '-' :: cs) =
      ({ type := .minus, start := ch '-' :: cs, len := 1 }, cs) :=
  asmLexNext_blanks blanks (by decide) (by decide)

/-- The text behind a value: blanks, the other values and the rest. -/
def moreText (item : DataItem) (items : List DataItem) (rest : Bytes) : Bytes :=
  item.after.text ++ (items.flatMap (fun item => ch ',' :: item.text) ++ rest)

theorem itemsText_cons (item : DataItem) (items : List DataItem) (rest : Bytes) :
    itemsText (item :: items) ++ rest =
      item.before.text ++ (item.value.text ++ moreText item items rest) := by
  simp [itemsText, DataItem.text, moreText]

theorem moreText_cons (item next : DataItem) (items : List DataItem) (rest : Bytes) :
    moreText item (next :: items) rest =
      item.after.text ++ ch ',' :: (itemsText (next :: items) ++ rest) := by
  simp [itemsText, moreText]

theorem follows_moreText (item : DataItem) (items : List DataItem) {rest : Bytes}
    (hrest : EndsLine rest) : Follows (moreText item items rest) := by
  intro c hc
  cases hafter : item.after.text with
  | cons b bs =>
    have hb := item.after.ok b (by simp [hafter])
    obtain rfl : b = c := by simpa [moreText, hafter] using hc
    simp only [isBlank, Bool.or_eq_true, beq_iff_eq] at hb
    obtain rfl | rfl := hb
    · exact .inl rfl
    · exact .inr (.inl rfl)
  | nil =>
    cases items with
    | nil =>
      have hc' : c ∈ rest.head? := by simpa [moreText, hafter] using hc
      obtain rfl | rfl := hrest c hc'
      · exact .inr (.inr (.inr (.inl rfl)))
      · exact .inr (.inr (.inr (.inr rfl)))
    | cons next items =>
      obtain rfl : ch ',' = c := by simpa [moreText, hafter] using hc
      exact .inr (.inr (.inl rfl))

/-- The values behind one that was read: there are none, or a comma leads to
the next. -/
theorem after_value {item : DataItem} {items : List DataItem} {rest : Bytes} (hrest : EndsLine rest)
    {q : AsmParser} (hq : q.rest = moreText item items rest) :
    (items = [] ∧ q.peek.type ≠ .comma) ∨
      ∃ next more, items = next :: more ∧ q.peek.type = .comma ∧
        q.next.rest = itemsText (next :: more) ++ rest := by
  cases items with
  | nil =>
    left
    have hend := lex_end item.after hrest
    rw [show item.after.text ++ rest = q.rest by rw [hq]; simp [moreText]] at hend
    refine ⟨rfl, ?_⟩
    obtain h | h := hend
    · simp [AsmParser.peek, h]
    · simp [AsmParser.peek, h]
  | cons next more =>
    right
    rw [moreText_cons] at hq
    refine ⟨next, more, rfl, ?_, ?_⟩
    · rw [AsmParser.peek, hq, lex_comma]
    · rw [AsmParser.next, hq, lex_comma]

/-- What the loop makes of the values: an error if it comes to a negative
number, and otherwise operands that hold them if they fit. -/
structure Reads (room : Nat) (values : List DataValue) (ops : List AsmOperand)
    (p : AsmParser) : Prop where
  error : ReachesMinus room values → p.hasError = true
  ok : ¬ ReachesMinus room values → p.hasError = false
  held : ¬ ReachesMinus room values →
    (List.Forall₂ DataValue.HeldBy values ops ∧ (∀ v ∈ values, v.isString = false) ↔
      Fits room values)

theorem toInt_ofNat_iff (n : Nat) : (Int64.ofNat n).toInt = n ↔ n < 2 ^ 63 := by
  constructor
  · intro h
    have hlt := Int64.toInt_lt (Int64.ofNat n)
    omega
  · exact Int64.toInt_ofNat_of_lt

theorem heldBy_number (i : AsmInteger) :
    (DataValue.integer false i).HeldBy (asmOpImm (Int64.ofNat i.value)) ↔ i.value < 2 ^ 63 := by
  simpa [DataValue.HeldBy, asmOpImm] using toInt_ofNat_iff i.value

/-- A value was read, and the ones behind it are read as the loop does. -/
theorem reads_cons {room : Nat} {value : DataValue} {values : List DataValue} {op : AsmOperand}
    {ops : List AsmOperand} {p : AsmParser} (hrec : Reads room values ops p)
    (hminus : ReachesMinus (room + 1) (value :: values) ↔ ReachesMinus room values)
    (hvalue : (value.HeldBy op ∧ value.isString = false) ↔
      ∃ i, value = .integer false i ∧ i.value < 2 ^ 63 ∧ (i.zeroLed → i.value = 0 ∧ values = [])) :
    Reads (room + 1) (value :: values) (op :: ops) p where
  error h := hrec.error (hminus.mp h)
  ok h := hrec.ok (mt hminus.mpr h)
  held h := by
    rw [Fits, ← hvalue, ← hrec.held (mt hminus.mpr h)]
    simp only [List.forall₂_cons, List.forall_mem_cons]
    tauto

/-- No value is left. -/
theorem reads_nil (room : Nat) {p : AsmParser} (h : p.hasError = false) : Reads room [] [] p where
  error h := by cases room <;> exact h.elim
  ok _ := h
  held _ := by simp [Fits]

/-- There is no place for a value. -/
theorem reads_full (value : DataValue) (values : List DataValue) {p : AsmParser}
    (h : p.hasError = false) : Reads 0 (value :: values) [] p where
  error h := h.elim
  ok _ := h
  held _ := by
    constructor
    · intro ⟨hheld, _⟩
      cases hheld
    · exact False.elim

/-- The loop over a value that is read, and what follows it. -/
theorem reads_step {room : Nat} {p q : AsmParser} {op : AsmOperand} {item : DataItem}
    {items : List DataItem} {rest : Bytes} (hrest : EndsLine rest)
    (hop : asmParseOperand p stale = (true, op, q)) (hq : q.rest = moreText item items rest)
    (hqerror : q.hasError = false)
    (hrec : ∀ q' : AsmParser, items ≠ [] → q'.rest = itemsText items ++ rest →
      q'.hasError = false → Reads room (items.map DataItem.value)
        (asmParseDataValues stale room q').1 (asmParseDataValues stale room q').2)
    (hminus : ReachesMinus (room + 1) (item.value :: items.map DataItem.value) ↔
      ReachesMinus room (items.map DataItem.value))
    (hvalue : (item.value.HeldBy op ∧ item.value.isString = false) ↔
      ∃ i, item.value = .integer false i ∧ i.value < 2 ^ 63 ∧
        (i.zeroLed → i.value = 0 ∧ items.map DataItem.value = [])) :
    Reads (room + 1) (item.value :: items.map DataItem.value)
      (asmParseDataValues stale (room + 1) p).1 (asmParseDataValues stale (room + 1) p).2 := by
  obtain ⟨rfl, hcomma⟩ | ⟨next, more, rfl, hcomma, hnext⟩ := after_value hrest hq
  · rw [values_last hop hcomma]
    exact reads_cons (reads_nil room hqerror) hminus hvalue
  · rw [values_comma hop hcomma]
    exact reads_cons (hrec q.next (by simp) hnext hqerror) hminus hvalue

/-- A minus is no operand. -/
theorem reads_negative {room : Nat} {p : AsmParser} {item : DataItem} {items : List DataItem}
    {rest : Bytes} {i : AsmInteger} (hvalue : item.value = .integer true i)
    (hp : p.rest = item.before.text ++
      ((DataValue.integer true i).text ++ moreText item items rest)) :
    Reads (room + 1) ((item :: items).map DataItem.value)
      (asmParseDataValues stale (room + 1) p).1 (asmParseDataValues stale (room + 1) p).2 := by
  have hlex := lex_minus item.before (i.text ++ moreText item items rest)
  rw [show item.before.text ++ ch '-' :: (i.text ++ moreText item items rest) = p.rest from hp.symm]
    at hlex
  have hop := operand_minus stale (p := p) (by rw [AsmParser.peek, hlex])
  have hvalues : asmParseDataValues stale (room + 1) p = ([], p.error "expected operand") := by
    simp [asmParseDataValues, hop]
  have hreach : ReachesMinus (room + 1) ((item :: items).map DataItem.value) := by
    simp [hvalue, ReachesMinus]
  rw [hvalues]
  exact ⟨fun _ => rfl, fun h => absurd hreach h, fun h => absurd hreach h⟩

theorem nil_of_forall₂ {values : List DataValue} (h : List.Forall₂ DataValue.HeldBy values []) :
    values = [] := by
  cases h
  rfl

/-- Behind a zero there is no comma, and the digits are skipped. -/
theorem reads_zeroLed {room : Nat} {p : AsmParser} {item : DataItem} {items : List DataItem}
    {rest : Bytes} {i : AsmInteger} (hvalue : item.value = .integer false i) (hzero : i.zeroLed)
    (hp : p.rest = item.before.text ++
      ((DataValue.integer false i).text ++ moreText item items rest)) (herror : p.hasError = false) :
    Reads (room + 1) ((item :: items).map DataItem.value)
      (asmParseDataValues stale (room + 1) p).1 (asmParseDataValues stale (room + 1) p).2 := by
  cases i with
  | hexadecimal upper digits => exact hzero.elim
  | binary upper digits => exact hzero.elim
  | decimal digits =>
    have hled := hzero
    obtain ⟨c, cs, hdigits⟩ := hzero
    have hc : isDigit c = true := digits.ok c (by simp [hdigits])
    have hp' : p.rest = item.before.text ++ ch '0' :: c :: (cs ++ moreText item items rest) := by
      rw [hp]
      simp [DataValue.text, AsmInteger.text, hdigits]
    have hlex := @lex_zeroLed item.before c (cs ++ moreText item items rest) hc
    rw [← hp'] at hlex
    have hop := operand_number stale (p := p) (by rw [AsmParser.peek, hlex])
    rw [AsmParser.peek, hlex] at hop
    have hnumber : p.next.peek.type ≠ .comma := by
      have htype := lex_digit_type hc (cs ++ moreText item items rest)
      rw [AsmParser.peek, AsmParser.next, hlex, htype]
      decide
    rw [values_last hop hnumber]
    refine ⟨?_, fun _ => herror, fun _ => ?_⟩
    · simp [hvalue, ReachesMinus, hled]
    · rw [List.map_cons, hvalue, Fits, List.forall₂_cons]
      constructor
      · rintro ⟨⟨hheld, hnil⟩, _⟩
        have hitems : items.map DataItem.value = [] := nil_of_forall₂ hnil
        have hzero : (AsmInteger.decimal digits).value = 0 := by
          have hint : (0 : Int) = (AsmInteger.decimal digits).value := hheld.2
          omega
        refine ⟨⟨_, rfl, by omega, fun _ => ⟨hzero, hitems⟩⟩, ?_⟩
        rw [hitems]
        cases room <;> trivial
      · rintro ⟨⟨j, hj, _, hlast⟩, _⟩
        obtain rfl := (DataValue.integer.inj hj).2
        obtain ⟨hzero, hitems⟩ := hlast hled
        refine ⟨⟨⟨rfl, ?_⟩, ?_⟩, ?_⟩
        · rw [hzero]
          rfl
        · rw [hitems]
          exact .nil
        · simp [hitems, DataValue.isString]

variable (stale) in
/-- What the loop makes of a list of values. -/
theorem reads_values {rest : Bytes} (hrest : EndsLine rest) (items : List DataItem) :
    ∀ (room : Nat) (p : AsmParser), items ≠ [] → p.rest = itemsText items ++ rest →
      p.hasError = false → Reads room (items.map DataItem.value)
        (asmParseDataValues stale room p).1 (asmParseDataValues stale room p).2 := by
  induction items with
  | nil => exact fun _ _ hne => absurd rfl hne
  | cons item items ih =>
    intro room p _ hp herror
    rw [itemsText_cons] at hp
    have hfollows := follows_moreText item items hrest
    cases room with
    | zero => exact reads_full _ _ herror
    | succ room =>
      cases hvalue : item.value with
      | string apostrophe units =>
        rw [hvalue] at hp
        have hlex := lex_string item.before apostrophe units (moreText item items rest)
        rw [← hp] at hlex
        have hop := operand_string stale (p := p) (by rw [AsmParser.peek, hlex])
        have hq : p.next.rest = moreText item items rest := by rw [AsmParser.next, hlex]
        refine reads_step hrest hop hq herror (ih room) ?_ ?_
        · simp [hvalue, ReachesMinus]
        · simp [hvalue, DataValue.isString]
      | integer negative i =>
        rw [hvalue] at hp
        cases negative with
        | true => exact reads_negative hvalue hp
        | false =>
          by_cases hzero : i.zeroLed
          · exact reads_zeroLed hvalue hzero hp herror
          · obtain ⟨tok, hlex, htype, hint⟩ := lex_integer item.before i hzero hfollows
            have hp' : p.rest = item.before.text ++ (i.text ++ moreText item items rest) := hp
            rw [← hp'] at hlex
            have hop := operand_number stale (p := p) (by rw [AsmParser.peek, hlex, htype])
            rw [AsmParser.peek, hlex, hint] at hop
            have hq : p.next.rest = moreText item items rest := by rw [AsmParser.next, hlex]
            refine reads_step hrest hop hq herror (ih room) ?_ ?_
            · simp [hvalue, ReachesMinus, hzero]
            · simp [hvalue, heldBy_number, DataValue.isString, hzero]

end Values

/-! ## §5 The line -/

theorem kind_facts (kind : DataKind) : kind.word.all isWordChar = true ∧
    wordType kind.word = .directive ∧ directiveKind kind.word = (kind.type, .data) ∧
    ∃ c cs, kind.word = c :: cs ∧ isBlank c = false ∧ c ≠ ch ';' ∧
      ∀ ds, lexAt c ds =
        (({ type := wordType ((c :: ds).takeWhile isWordChar), start := c :: ds,
            len := ((c :: ds).takeWhile isWordChar).length } : AsmToken),
          (c :: ds).dropWhile isWordChar) := by
  cases kind
  all_goals
    exact ⟨by decide, by decide, rfl, _, _, rfl, by decide, by decide, fun ds => rfl⟩

/-- Nothing goes on with the word. -/
theorem stops_itemsText (line : DataLine) {rest : Bytes} (hrest : EndsLine rest) :
    Stops isWordChar (itemsText line.items ++ rest) := by
  intro c hc
  cases hitems : line.items with
  | nil =>
    rw [hitems] at hc
    obtain rfl | rfl := hrest c hc <;> decide
  | cons item items =>
    have hgap := line.gap item (by simp [hitems])
    obtain ⟨b, bs, hbefore⟩ := List.exists_cons_of_ne_nil hgap
    have hb := item.before.ok b (by simp [hbefore])
    rw [hitems, itemsText_cons, hbefore] at hc
    obtain rfl : b = c := by simpa using hc
    simp only [isBlank, Bool.or_eq_true, beq_iff_eq] at hb
    obtain rfl | rfl := hb <;> decide

/-- The word of the directive is read. -/
theorem lex_word (line : DataLine) {rest : Bytes} (hrest : EndsLine rest) :
    ∃ tok, asmLexNext (line.text ++ rest) = (tok, itemsText line.items ++ rest) ∧
      tok.type = .directive ∧ tok.text = line.kind.word := by
  obtain ⟨hword, htype, -, c, cs, hcons, hblank, hcomment, hlex⟩ := kind_facts line.kind
  have hstops := stops_itemsText line hrest
  have hdrop : (line.kind.word ++ (itemsText line.items ++ rest)).dropWhile isWordChar =
      itemsText line.items ++ rest := dropWhile_append_eq_iff.mpr ⟨hword, hstops⟩
  have htake := List.takeWhile_append_dropWhile (p := isWordChar)
    (l := line.kind.word ++ (itemsText line.items ++ rest))
  rw [hdrop] at htake
  have htake' := List.append_cancel_right htake
  have htext : line.text ++ rest =
      line.indent.text ++ c :: (cs ++ (itemsText line.items ++ rest)) := by
    simp [DataLine.text, hcons]
  have hcons' : c :: (cs ++ (itemsText line.items ++ rest)) =
      line.kind.word ++ (itemsText line.items ++ rest) := by rw [hcons]; rfl
  have hnext : asmLexNext (line.text ++ rest) =
      ({ type := wordType line.kind.word, start := line.kind.word ++ (itemsText line.items ++ rest),
         len := line.kind.word.length }, itemsText line.items ++ rest) := by
    rw [htext, asmLexNext_blanks line.indent hblank hcomment, hlex, hcons', htake', hdrop]
  exact ⟨_, hnext, htype, by simp [AsmToken.text]⟩

/-- The directive that the line gives. -/
theorem asmParseDirective_line (stale : AsmOperand) (line : DataLine) {rest : Bytes}
    (hrest : EndsLine rest) : ∃ name p, p.rest = itemsText line.items ++ rest ∧ p.hasError = false ∧
      asmParseDirective stale { rest := line.text ++ rest } =
        (some { type := line.kind.type, name,
                dataOperands := (asmParseDataValues stale ASM_MAX_OPERANDS p).1 },
          (asmParseDataValues stale ASM_MAX_OPERANDS p).2) := by
  obtain ⟨tok, hlex, htype, htext⟩ := lex_word line hrest
  obtain ⟨-, -, hkind, -⟩ := kind_facts line.kind
  refine ⟨tokCopy tok, { rest := itemsText line.items ++ rest }, rfl, rfl, ?_⟩
  simp [asmParseDirective, AsmParser.peek, AsmParser.next, hlex, htype, htext, hkind]

/-! ## §6 The texts -/

/-- The text of a value in the two other backends. -/
theorem emitData_eq (ops : List AsmOperand) :
    emitData ops = X86Backend.joinComma (ops.map emitData.value) := by
  cases ops with
  | nil => rfl
  | cons op ops => simp [emitData, X86Backend.joinComma, List.flatMap_map]

theorem emitDir_data (b : Backend) (line : DataLine) {dir : AsmDirective}
    (h : dir.type = line.kind.type) : emitDir b dir =
      bytes (b.dataNames dir.type) ++ X86Backend.joinComma (dir.dataOperands.map emitData.value) ++
        bytes "\n" := by
  cases hkind : line.kind with
  | _ => simp [emitDir, h, hkind, DataKind.type, emitData_eq]

theorem x86_emitDir_data (line : DataLine) {dir : AsmDirective} (h : dir.type = line.kind.type) :
    X86Backend.emitDir dir = bytes (X86Backend.dataName dir.type) ++
      X86Backend.joinComma (dir.dataOperands.map X86Backend.emitOp) ++ bytes "\n" := by
  cases hkind : line.kind with
  | _ => simp [X86Backend.emitDir, h, hkind, DataKind.type]

/-- The numeral of a number that an operand holds. -/
theorem shown_number {v : DataValue} {op : AsmOperand} (h : v.HeldBy op) (hv : v.isString = false) :
    v.ShownBy (X86Backend.emitOp op) ∧ v.ShownBy (emitData.value op) := by
  cases v with
  | string apostrophe units => cases hv
  | integer negative i =>
    obtain ⟨htype, himm⟩ := h
    simp [DataValue.ShownBy, X86Backend.emitOp, emitData.value, htype, himm]

theorem shown_numbers {values : List DataValue} {ops : List AsmOperand}
    (h : List.Forall₂ DataValue.HeldBy values ops) (hv : ∀ v ∈ values, v.isString = false) :
    List.Forall₂ DataValue.ShownBy values (ops.map X86Backend.emitOp) ∧
      List.Forall₂ DataValue.ShownBy values (ops.map emitData.value) := by
  induction h with
  | nil => simp
  | cons hop _ ih =>
    obtain ⟨hx86, hother⟩ := shown_number hop (hv _ (by simp))
    obtain ⟨ihx86, ihother⟩ := ih fun v hmem => hv v (by simp [hmem])
    simp [hx86, hother, ihx86, ihother]

theorem emitted_of_numbers {line : DataLine} {dir : AsmDirective} (h : Holds line dir)
    (hv : ∀ v ∈ line.values, v.isString = false) : EmittedByAll line dir := by
  obtain ⟨htype, hheld⟩ := h
  obtain ⟨hx86, hother⟩ := shown_numbers hheld hv
  exact ⟨⟨_, hx86, x86_emitDir_data line htype⟩, ⟨_, hother, emitDir_data _ line htype⟩,
    ⟨_, hother, emitDir_data _ line htype⟩⟩

/-- Every piece behind a comma. -/
def behindCommas (pieces : List Bytes) : Bytes := pieces.flatMap fun piece => bytes ", " ++ piece

/-- A value has no longer text in the two other backends than it needs, and a
string a shorter one. -/
theorem value_length {v : DataValue} {op : AsmOperand} {piece : Bytes} (h : v.HeldBy op)
    (hshown : v.ShownBy piece) :
    (emitData.value op).length + (if v.isString then 1 else 0) ≤ piece.length := by
  cases v with
  | integer negative i =>
    obtain ⟨htype, himm⟩ := h
    simp [emitData.value, htype, himm, show piece = _ from hshown, DataValue.isString]
  | string apostrophe units =>
    have hpos := List.length_pos_of_ne_nil hshown.1
    simp [emitData.value, h.1, DataValue.isString]
    omega

theorem length_behindCommas_le {values : List DataValue} {ops : List AsmOperand}
    {pieces : List Bytes} (h : List.Forall₂ DataValue.HeldBy values ops)
    (hshown : List.Forall₂ DataValue.ShownBy values pieces) :
    (behindCommas (ops.map emitData.value)).length ≤ (behindCommas pieces).length := by
  induction h generalizing pieces with
  | nil =>
    cases hshown
    exact le_rfl
  | cons hop _ ih =>
    obtain _ | ⟨hpiece, hpieces⟩ := hshown
    have hvalue := value_length hop hpiece
    have hrest := ih hpieces
    simp only [behindCommas, List.map_cons, List.flatMap_cons, List.length_append] at hrest ⊢
    omega

/-- Where the text has room for nothing else, no value is a string. -/
theorem numbers_of_length {values : List DataValue} {ops : List AsmOperand} {pieces : List Bytes}
    (h : List.Forall₂ DataValue.HeldBy values ops)
    (hshown : List.Forall₂ DataValue.ShownBy values pieces)
    (heq : (behindCommas (ops.map emitData.value)).length = (behindCommas pieces).length) :
    ∀ v ∈ values, v.isString = false := by
  induction h generalizing pieces with
  | nil => simp
  | @cons v op _ _ hop hops ih =>
    obtain _ | ⟨hpiece, hpieces⟩ := hshown
    have hvalue := value_length hop hpiece
    have hrest := length_behindCommas_le hops hpieces
    simp only [behindCommas, List.map_cons, List.flatMap_cons, List.length_append] at hrest heq
    have hv : v.isString = false := by
      cases hstring : v.isString with
      | false => rfl
      | true =>
        simp only [hstring, if_true] at hvalue
        omega
    have hih := ih hpieces (by simp only [behindCommas]; omega)
    simp [hv]
    exact hih

theorem behindCommas_cons (piece : Bytes) (pieces : List Bytes) :
    behindCommas (piece :: pieces) = bytes ", " ++ X86Backend.joinComma (piece :: pieces) := by
  simp [behindCommas, X86Backend.joinComma]

/-- A string has no text in the ARM64 backend. -/
theorem numbers_of_emitted {line : DataLine} {dir : AsmDirective} (h : Holds line dir)
    (hemits : Emits line (bytes (Arm64.dataNames dir.type)) (emitDir Arm64.backend dir)) :
    ∀ v ∈ line.values, v.isString = false := by
  obtain ⟨htype, hheld⟩ := h
  obtain ⟨pieces, hshown, htext⟩ := hemits
  rw [emitDir_data _ line htype] at htext
  have hjoin : X86Backend.joinComma (dir.dataOperands.map emitData.value) =
      X86Backend.joinComma pieces :=
    List.append_cancel_left (List.append_cancel_right htext)
  refine numbers_of_length hheld hshown ?_
  generalize line.values = values at hheld hshown
  generalize dir.dataOperands = ops at hheld hjoin ⊢
  cases hheld with
  | nil =>
    cases hshown
    rfl
  | cons hop hops =>
    obtain _ | ⟨hpiece, hpieces⟩ := hshown
    rw [List.map_cons] at hjoin ⊢
    rw [behindCommas_cons, behindCommas_cons, hjoin]

/-! ## §7 What the code keeps -/

/-- Without a value the parser has an error. -/
theorem no_value_error (stale : AsmOperand) (line : DataLine) {rest : Bytes} (hrest : EndsLine rest)
    (hitems : line.items = []) : KeepsData stale line rest := by
  obtain ⟨name, p, hp, herror, hparse⟩ := asmParseDirective_line stale line hrest
  have hend := lex_end ⟨[], by simp⟩ hrest
  rw [show (⟨[], by simp⟩ : Blanks).text ++ rest = p.rest by rw [hp, hitems]; rfl] at hend
  have hvalues : asmParseDataValues stale ASM_MAX_OPERANDS p = ([], p.error "expected operand") := by
    obtain h | h := hend
    · simp [ASM_MAX_OPERANDS, asmParseDataValues, asmParseOperand, AsmParser.peek, h]
    · simp [ASM_MAX_OPERANDS, asmParseDataValues, asmParseOperand, AsmParser.peek, h]
  rw [hvalues] at hparse
  exact ⟨_, _, hparse, .inl rfl⟩

theorem keepsData_iff_fits (stale : AsmOperand) {line : DataLine} {rest : Bytes}
    (hrest : EndsLine rest) :
    KeepsData stale line rest ↔
      ReachesMinus ASM_MAX_OPERANDS line.values ∨ Fits ASM_MAX_OPERANDS line.values := by
  by_cases hitems : line.items = []
  · simp [no_value_error stale line hrest hitems, DataLine.values, hitems, Fits]
  obtain ⟨name, p, hp, herror, hparse⟩ := asmParseDirective_line stale line hrest
  obtain ⟨hminus, hok, hheld⟩ :=
    reads_values stale hrest line.items ASM_MAX_OPERANDS p hitems hp herror
  by_cases hreach : ReachesMinus ASM_MAX_OPERANDS line.values
  · exact iff_of_true ⟨_, _, hparse, .inl (hminus hreach)⟩ (.inl hreach)
  simp only [hreach, false_or]
  rw [← show _ ↔ Fits ASM_MAX_OPERANDS line.values from hheld hreach]
  constructor
  · intro ⟨dir, q, hdir, hkept⟩
    obtain ⟨rfl, rfl⟩ := Prod.mk.inj (hparse.symm.trans hdir)
    obtain herr | ⟨dir', hsome, hholds, hemitted⟩ := hkept
    · rw [hok hreach] at herr
      cases herr
    · obtain rfl := Option.some.inj hsome
      exact ⟨hholds.2, numbers_of_emitted hholds hemitted.arm64⟩
  · intro ⟨hvalues, hnumbers⟩
    have hholds : Holds line
        { type := line.kind.type, name,
          dataOperands := (asmParseDataValues stale ASM_MAX_OPERANDS p).1 } := ⟨rfl, hvalues⟩
    exact ⟨_, _, hparse, .inr ⟨_, rfl, hholds, emitted_of_numbers hholds hnumbers⟩⟩

/-- A data line keeps its data, or is an error, just when the parser comes to
a minus or the values are numbers for which there is room. -/
theorem data_kept_iff (stale : AsmOperand) (line : DataLine) (rest : Bytes) (hrest : EndsLine rest) :
    KeepsData stale line rest ↔
      ReachesMinus ASM_MAX_OPERANDS line.values ∨ Fits ASM_MAX_OPERANDS line.values :=
  keepsData_iff_fits stale hrest

/-- ` 7` -/
def seven : DataItem where
  before := ⟨bytes " ", List.all_eq_true.mp rfl⟩
  value := .integer false (.decimal ⟨bytes "7", by decide, List.all_eq_true.mp rfl⟩)
  after := ⟨[], by simp⟩

/-- ` "A"` -/
def quotedLetter : DataItem where
  before := ⟨bytes " ", List.all_eq_true.mp rfl⟩
  value := .string false [.plain (ch 'A') (by decide)]
  after := ⟨[], by simp⟩

theorem data_kept_iff_seven :
    KeepsData {} ⟨⟨[], by simp⟩, .db, [seven], by decide⟩ (bytes "\n") :=
  (data_kept_iff {} ⟨⟨[], by simp⟩, .db, [seven], by decide⟩ (bytes "\n") (by decide)).mpr
    (.inr ⟨⟨_, rfl, by decide, by simp [AsmInteger.zeroLed, bytes]⟩, trivial⟩)

/-- `db "A"` is no error and its letter is lost. -/
theorem quoted_letter_lost :
    ¬ KeepsData {} ⟨⟨[], by simp⟩, .db, [quotedLetter], by decide⟩ (bytes "\n") := by
  intro h
  obtain hminus | hfits := (keepsData_iff_fits {} (by decide)).mp h
  · simp [DataLine.values, quotedLetter, ASM_MAX_OPERANDS, ReachesMinus] at hminus
  · simp [DataLine.values, quotedLetter, ASM_MAX_OPERANDS, Fits] at hfits

end Aether.Asm
