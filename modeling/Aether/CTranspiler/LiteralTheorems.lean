/-
Aether.CTranspiler.LiteralTheorems — which string literals keep their bytes
in the emitted C.

A literal is taken as the language has it: bytes that stand for themselves,
escapes of one character, and `\xNN` (`LiteralUnit`). The emitter knows no
`\xNN`, its buffer holds 4095 bytes, and C reads a hexadecimal digit behind
an emitted `\x..` into that escape. `literal_survives_iff` puts the three
together.
-/
import Aether.CTranspiler.StringLiteral

namespace Aether.CTranspiler

open Aether.Lib

/-! ## §1 Literals of the language -/

/-- What a backslash and the character stand for in the language. -/
def escapeMeaning (c : UInt8) : Option UInt8 :=
  if c = ch 'n' then some (ch '\n')
  else if c = ch 't' then some (ch '\t')
  else if c = ch 'r' then some (ch '\r')
  else if c = ch '0' then some 0
  else if c = ch '\\' ∨ c = ch '"' ∨ c = ch '\'' ∨ c = ch '{' ∨ c = ch '}' then some c
  else none

inductive LiteralUnit where
  | plain (c : UInt8) (ordinary : c ≠ ch '"' ∧ c ≠ ch '\\')
  | escape (c meaning : UInt8) (known : escapeMeaning c = some meaning)
  | hex (high low : UInt8) (h l : Nat) (high_digit : CStringLiteral.hexDigit high = some h)
      (low_digit : CStringLiteral.hexDigit low = some l)

def LiteralUnit.text : LiteralUnit → Bytes
  | .plain c _ => [c]
  | .escape c _ _ => [ch '\\', c]
  | .hex high low _ _ _ _ => [ch '\\', ch 'x', high, low]

/-- The byte that it stands for. -/
def LiteralUnit.byte : LiteralUnit → UInt8
  | .plain c _ => c
  | .escape _ meaning _ => meaning
  | .hex _ _ h l _ _ => UInt8.ofNat (16 * h + l)

def LiteralUnit.isHex : LiteralUnit → Bool
  | .hex .. => true
  | _ => false

/-- The token of the literal. -/
def literalToken (units : List LiteralUnit) : Bytes :=
  ch '"' :: (units.flatMap LiteralUnit.text ++ [ch '"'])

def literalBytes (units : List LiteralUnit) : Bytes := units.map LiteralUnit.byte

/-! ## §2 What the emitter makes of them -/

/-- The emitter reads `\xNN` as three characters. -/
def LiteralUnit.decoded : LiteralUnit → Bytes
  | .hex high low _ _ _ _ => [ch 'x', high, low]
  | unit => [unit.byte]

theorem stringContent_quoted (content : Bytes) :
    stringContent (ch '"' :: (content ++ [ch '"'])) = content := by
  have hlast : (ch '"' :: (content ++ [ch '"'])).getLast? = some (ch '"') := by
    rw [← List.cons_append, List.getLast?_append]
    rfl
  simp [stringContent, hlast]

theorem processEscapes_plain {c : UInt8} (hc : c ≠ ch '\\') (cs : Bytes) :
    processEscapes (c :: cs) = c :: processEscapes cs := by
  cases cs <;> simp [processEscapes, hc]

theorem processEscapes_backslash (c : UInt8) (cs : Bytes) :
    processEscapes (ch '\\' :: c :: cs) = processEscape c :: processEscapes cs := by
  rw [processEscapes]
  simp

theorem escapeMeaning_cases (c : UInt8) :
    escapeMeaning c = none ∨ escapeMeaning c = some (processEscape c) := by
  unfold escapeMeaning processEscape
  split_ifs <;> simp

theorem processEscape_meaning {c meaning : UInt8} (h : escapeMeaning c = some meaning) :
    processEscape c = meaning := by
  rcases escapeMeaning_cases c with hnone | hsome
  · simp [hnone] at h
  · exact Option.some.inj (hsome.symm.trans h)

theorem hexDigit_ne_backslash {c : UInt8} {d : Nat} (h : CStringLiteral.hexDigit c = some d) :
    c ≠ ch '\\' := by
  intro hc
  have hnone : CStringLiteral.hexDigit (ch '\\') = none := rfl
  rw [hc, hnone] at h
  cases h

theorem processEscapes_unit (unit : LiteralUnit) (cs : Bytes) :
    processEscapes (unit.text ++ cs) = unit.decoded ++ processEscapes cs := by
  cases unit with
  | plain c ordinary => exact processEscapes_plain ordinary.2 cs
  | escape c meaning known =>
    have hstep := processEscapes_backslash c cs
    rw [processEscape_meaning known] at hstep
    exact hstep
  | hex high low h l high_digit low_digit =>
    have hhigh := processEscapes_plain (hexDigit_ne_backslash high_digit) (low :: cs)
    have hlow := processEscapes_plain (hexDigit_ne_backslash low_digit) cs
    have hx : processEscape (ch 'x') = ch 'x' := rfl
    have hstep := processEscapes_backslash (ch 'x') (high :: low :: cs)
    rw [hx, hhigh, hlow] at hstep
    exact hstep

theorem processEscapes_units (units : List LiteralUnit) :
    processEscapes (units.flatMap LiteralUnit.text) = units.flatMap LiteralUnit.decoded := by
  induction units with
  | nil => rfl
  | cons unit units ih => rw [List.flatMap_cons, List.flatMap_cons, processEscapes_unit, ih]

/-- A `\xNN` is two bytes too long. -/
theorem length_decoded (units : List LiteralUnit) :
    (units.flatMap LiteralUnit.decoded).length =
      units.length + 2 * units.countP LiteralUnit.isHex := by
  induction units with
  | nil => rfl
  | cons unit units ih =>
    rw [List.flatMap_cons, List.length_append, ih, List.countP_cons, List.length_cons]
    cases unit <;> simp [LiteralUnit.decoded, LiteralUnit.isHex] <;> omega

theorem decoded_of_no_hex {units : List LiteralUnit} (h : ∀ unit ∈ units, unit.isHex = false) :
    units.flatMap LiteralUnit.decoded = literalBytes units := by
  induction units with
  | nil => rfl
  | cons unit units ih =>
    obtain ⟨hunit, hunits⟩ := List.forall_mem_cons.mp h
    rw [List.flatMap_cons, ih hunits]
    cases unit with
    | plain | escape => rfl
    | hex => simp [LiteralUnit.isHex] at hunit

/-! ## §3 Literals that survive -/

/-- The buffer holds the bytes of the literal: it has no `\xNN` and no more
than 4095 bytes, or just 4095 bytes, with which the text also begins that has
`xNN` for each `\xNN`. -/
def FitsBuffer (units : List LiteralUnit) : Prop :=
  ((∀ unit ∈ units, unit.isHex = false) ∧ units.length ≤ processedMax) ∨
    (units.length = processedMax ∧ literalBytes units <+: units.flatMap LiteralUnit.decoded)

theorem take_decoded_iff (units : List LiteralUnit) :
    (units.flatMap LiteralUnit.decoded).take processedMax = literalBytes units ↔
      FitsBuffer units := by
  have hbytes : (literalBytes units).length = units.length := by simp [literalBytes]
  constructor
  · intro h
    have hlength := congrArg List.length h
    rw [List.length_take, length_decoded, hbytes] at hlength
    by_cases hhex : units.countP LiteralUnit.isHex = 0
    · refine .inl ⟨?_, by omega⟩
      intro unit hunit
      simpa using List.countP_eq_zero.mp hhex unit hunit
    · exact .inr ⟨by omega, h ▸ List.take_prefix _ _⟩
  · intro h
    rcases h with ⟨hhex, hle⟩ | ⟨hlength, hprefix⟩
    · rw [decoded_of_no_hex hhex, List.take_of_length_le (by omega)]
    · rw [List.prefix_iff_eq_take, hbytes, hlength] at hprefix
      exact hprefix.symm

theorem value_eq_iff (units : List LiteralUnit) :
    (cEmitLiteralString (literalToken units)).value = some (literalBytes units) ↔
      FitsBuffer units ∧ separated (literalBytes units) = true := by
  rw [cEmitLiteralString, literalToken, stringContent_quoted, processEscapes_units,
    emitProcessed_value, ← take_decoded_iff]
  constructor
  · intro h
    split at h
    · next hsep =>
      have heq := Option.some.inj h
      exact ⟨heq, heq ▸ hsep⟩
    · cases h
  · intro ⟨heq, hsep⟩
    rw [heq, if_pos hsep]

/-- The emitted initializer denotes the bytes of the literal, with their
number, exactly where they are in the buffer and none that is written as
`\x..` stands before a hexadecimal digit. -/
theorem literal_survives_iff (units : List LiteralUnit) :
    (cEmitLiteralString (literalToken units)).value = some (literalBytes units) ↔
      FitsBuffer units ∧ separated (literalBytes units) = true :=
  value_eq_iff units

/-- `"\x41"`. -/
def hexLiteral : List LiteralUnit := [.hex (ch '4') (ch '1') 4 1 rfl rfl]

/-- It is emitted as `x41`. -/
theorem hexLiteral_lost :
    ¬ (cEmitLiteralString (literalToken hexLiteral)).value = some (literalBytes hexLiteral) := by
  rw [value_eq_iff]
  intro h
  rcases h.1 with ⟨hhex, -⟩ | ⟨hlength, -⟩
  · exact absurd (hhex _ List.mem_cons_self) (by simp [LiteralUnit.isHex])
  · exact absurd hlength (by decide)

end Aether.CTranspiler
