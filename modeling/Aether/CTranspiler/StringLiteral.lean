/-
Aether.CTranspiler.StringLiteral — `c_emit_literal_string` of
`src/c_transpiler/c_expr.c`: the escapes of the source are decoded into a
buffer of 4096 bytes, and the buffer is written as a `string` initializer.

`value` is what the initializer means to the C compiler.
-/
import Aether.Parser.Expr
import Aether.Lib.CStringLiteral

namespace Aether.CTranspiler

open Aether.Lib

/-! ## §1 Decoding -/

/-- What `\` and this byte decode to. -/
def processEscape (c : UInt8) : UInt8 :=
  if c = ch 'n' then ch '\n'
  else if c = ch 't' then ch '\t'
  else if c = ch 'r' then ch '\r'
  else if c = ch '0' then 0
  else c

def processEscapes : Bytes → Bytes
  | [] => []
  | c :: cs =>
    match cs with
    | [] => [c]
    | e :: cs' =>
      if c = ch '\\' then processEscape e :: processEscapes cs'
      else c :: processEscapes (e :: cs')

-- the equations, before the proofs that share them
section
attribute [local simp] processEscapes
end

/-- `plen < 4095`. -/
def processedMax : Nat := 4095

/-! ## §2 Emitting -/

/-- A digit of `%02x`. -/
def lowerHex (n : Nat) : UInt8 :=
  if n < 10 then UInt8.ofNat ((ch '0').toNat + n) else UInt8.ofNat ((ch 'a').toNat + (n - 10))

/-- Written as `\x` and two digits. -/
def printsAsHex (c : UInt8) : Bool :=
  !(c == ch '"' || c == ch '\\' || c == ch '\n' || c == ch '\t' || (32 ≤ c && c < 127))

def emitChar (c : UInt8) : Bytes :=
  if c = ch '"' then [ch '\\', ch '"']
  else if c = ch '\\' then [ch '\\', ch '\\']
  else if c = ch '\n' then [ch '\\', ch 'n']
  else if c = ch '\t' then [ch '\\', ch 't']
  else if 32 ≤ c ∧ c < 127 then [c]
  else [ch '\\', ch 'x', lowerHex (c.toNat / 16), lowerHex (c.toNat % 16)]

/-- `(string){ len, "text" }`. -/
structure StringInit where
  len : Nat
  text : Bytes
  deriving DecidableEq, Repr

def emitProcessed (processed : Bytes) : StringInit where
  len := processed.length
  text := processed.flatMap emitChar

def cEmitLiteralString (stringVal : Bytes) : StringInit :=
  emitProcessed ((processEscapes (stringContent stringVal)).take processedMax)

/-- The string the initializer denotes; none when the C literal is not `len`
characters long. -/
def StringInit.value (init : StringInit) : Option Bytes :=
  (CStringLiteral.read .text init.text).bind fun chars =>
    if chars.length = init.len then some chars else none

/-! ## §3 What the initializer denotes -/

/-- No `\x` escape is written right before a hexadecimal digit. -/
def separated : Bytes → Bool
  | c :: d :: cs =>
    !(printsAsHex c && (CStringLiteral.hexDigit d).isSome) && separated (d :: cs)
  | _ => true

-- the equations, before the proofs that share them
section
attribute [local simp] printsAsHex emitChar separated
end

variable {c : UInt8} {cs : Bytes}

theorem separated_tail (h : separated (c :: cs) = true) : separated cs = true := by
  cases cs with
  | nil => rfl
  | cons d ds =>
    simp only [separated, Bool.and_eq_true] at h
    exact h.2

theorem separated_of_not_hex (hc : printsAsHex c = false) :
    separated (c :: cs) = separated cs := by
  cases cs with
  | nil => rfl
  | cons d ds => simp [separated, hc]

/-- The bytes that are not written as `\x` are read back one by one. -/
theorem read_emitChar (hc : printsAsHex c = false) (rest : Bytes) :
    CStringLiteral.read .text (emitChar c ++ rest) =
      (CStringLiteral.read .text rest).map (c :: ·) := by
  unfold emitChar
  split
  · next h => subst h; exact CStringLiteral.read_escape rfl
  · next hquote =>
    split
    · next h => subst h; exact CStringLiteral.read_escape rfl
    · next hslash =>
      split
      · next h => subst h; exact CStringLiteral.read_escape rfl
      · next hnl =>
        split
        · next h => subst h; exact CStringLiteral.read_escape rfl
        · next htab =>
          split
          · apply CStringLiteral.read_text
            have hslash' : c ≠ CStringLiteral.char '\\' := hslash
            have hquote' : c ≠ CStringLiteral.char '"' := hquote
            have hnl' : c ≠ CStringLiteral.char '\n' := hnl
            simp [CStringLiteral.textStep, hslash', hquote', hnl']
          · next hrange => simp [printsAsHex, hquote, hslash, hnl, htab, hrange] at hc

theorem emitChar_hex : ∀ c : UInt8, printsAsHex c = true →
    emitChar c = [ch '\\', ch 'x', lowerHex (c.toNat / 16), lowerHex (c.toNat % 16)] ∧
      CStringLiteral.hexDigit (lowerHex (c.toNat / 16)) = some (c.toNat / 16) ∧
      CStringLiteral.hexDigit (lowerHex (c.toNat % 16)) = some (c.toNat % 16) := by
  refine forall_uint8 ?_
  decide +kernel

theorem read_emitChar_hex (hc : printsAsHex c = true) (rest : Bytes) :
    CStringLiteral.read .text (emitChar c ++ rest) =
      CStringLiteral.read (.hex (some c.toNat)) rest := by
  obtain ⟨hemit, hhigh, hlow⟩ := emitChar_hex c hc
  have hvalue : c.toNat / 16 * 16 + c.toNat % 16 = c.toNat := Nat.div_add_mod' ..
  have hread := @CStringLiteral.read_hex rest _ _ _ _ hhigh hlow
  rw [hvalue] at hread
  rw [hemit]
  exact hread

theorem plain_of_hexDigit (c : UInt8) : (CStringLiteral.hexDigit c).isSome = true →
    c ≠ ch '"' ∧ c ≠ ch '\\' ∧ c ≠ ch '\n' ∧ c ≠ ch '\t' ∧ 32 ≤ c ∧ c < 127 := by
  revert c
  exact forall_uint8 (by decide +kernel)

/-- What is written for a byte is the byte itself, or starts with a backslash. -/
theorem emitChar_cases (c : UInt8) :
    emitChar c = [c] ∨ (emitChar c).head? = some (ch '\\') := by
  rw [emitChar]
  split_ifs
  · exact .inr rfl
  · exact .inr rfl
  · exact .inr rfl
  · exact .inr rfl
  · exact .inl rfl
  · exact .inr rfl

/-- A byte that is a digit is written as itself, and no other byte is written
with a digit in front. -/
theorem emitChar_digit (c : UInt8) :
    ((CStringLiteral.hexDigit c).isSome = true → emitChar c = [c] ∧ printsAsHex c = false) ∧
      ((CStringLiteral.hexDigit c).isSome = false →
        ∀ d ∈ (emitChar c).head?, CStringLiteral.hexDigit d = none) := by
  constructor
  · intro hc
    obtain ⟨hq, hb, hn, ht, hlow, hhigh⟩ := plain_of_hexDigit c hc
    have hemit : emitChar c = [c] := by simp [emitChar, hq, hb, hn, ht, hlow, hhigh]
    exact ⟨hemit, by simp [printsAsHex, hlow, hhigh]⟩
  · intro hc d hd
    rcases emitChar_cases c with hemit | hemit
    · rw [hemit] at hd
      obtain rfl : c = d := Option.some.inj hd
      simpa using hc
    · rw [hemit] at hd
      obtain rfl : ch '\\' = d := Option.some.inj hd
      decide

theorem emitChar_ne_nil (c : UInt8) : emitChar c ≠ [] := by
  rcases emitChar_cases c with hemit | hemit
  · simp [hemit]
  · intro hnil
    simp [hnil] at hemit

/-- Nothing is taken from the text after an escape. -/
theorem read_flatMap_hex {value : Nat} (h : ∀ d ∈ cs.head?, CStringLiteral.hexDigit d = none) :
    CStringLiteral.read (.hex (some value)) (cs.flatMap emitChar) =
      (CStringLiteral.hexChar (some value)).bind fun b =>
        (CStringLiteral.read .text (cs.flatMap emitChar)).map (b :: ·) := by
  apply CStringLiteral.read_hex_end
  cases cs with
  | nil => simp
  | cons d ds =>
    have hd : (CStringLiteral.hexDigit d).isSome = false := by simp [h d rfl]
    have hne : emitChar d ≠ [] := emitChar_ne_nil d
    obtain ⟨e, es, hemit⟩ := List.exists_cons_of_ne_nil hne
    have hhead := (emitChar_digit d).2 hd
    rw [hemit] at hhead
    simpa [hemit] using hhead

theorem read_of_separated : ∀ cs : Bytes, separated cs = true →
    CStringLiteral.read .text (cs.flatMap emitChar) = some cs
  | [], _ => rfl
  | c :: cs, h => by
    have ih := read_of_separated cs (separated_tail h)
    rw [List.flatMap_cons]
    cases hc : printsAsHex c with
    | false => rw [read_emitChar hc, ih, Option.map_some]
    | true =>
      have hdigit : ∀ d ∈ cs.head?, CStringLiteral.hexDigit d = none := by
        cases cs with
        | nil => simp
        | cons d ds =>
          simp only [separated, hc, Bool.true_and, Bool.and_eq_true] at h
          simpa using h.1
      have hchar : CStringLiteral.hexChar (some c.toNat) = some c := by
        simp [CStringLiteral.hexChar, c.toNat_lt]
      rw [read_emitChar_hex hc, read_flatMap_hex hdigit, hchar, ih, Option.bind_some,
        Option.map_some]

/-- A literal that is as long as it says lost no digit to an escape. -/
theorem separated_of_read : ∀ cs : Bytes,
    (∀ out, CStringLiteral.read .text (cs.flatMap emitChar) = some out →
      out.length ≤ cs.length ∧ (out.length = cs.length → separated cs = true)) ∧
    (∀ value out, CStringLiteral.read (.hex (some value)) (cs.flatMap emitChar) = some out →
      out.length ≤ cs.length + 1 ∧ (out.length = cs.length + 1 →
        separated cs = true ∧ ∀ d ∈ cs.head?, CStringLiteral.hexDigit d = none))
  | [] => by
    constructor
    · intro out h
      cases h
      simp [separated]
    · intro value out h
      obtain ⟨b, -, hout⟩ := Option.map_eq_some_iff.mp h
      simp [← hout, separated]
  | c :: cs => by
    obtain ⟨ihtext, ihhex⟩ := separated_of_read cs
    have htext : ∀ out, CStringLiteral.read .text ((c :: cs).flatMap emitChar) = some out →
        out.length ≤ cs.length + 1 ∧ (out.length = cs.length + 1 →
          separated (c :: cs) = true) := by
      intro out h
      rw [List.flatMap_cons] at h
      cases hc : printsAsHex c with
      | false =>
        rw [read_emitChar hc] at h
        obtain ⟨rest, hrest, hout⟩ := Option.map_eq_some_iff.mp h
        rw [separated_of_not_hex hc, ← hout, List.length_cons]
        have := ihtext rest hrest
        exact ⟨by omega, fun hlen => this.2 (by omega)⟩
      | true =>
        rw [read_emitChar_hex hc] at h
        obtain ⟨hle, heq⟩ := ihhex c.toNat out h
        refine ⟨hle, fun hlen => ?_⟩
        obtain ⟨hsep, hdigit⟩ := heq hlen
        cases cs with
        | nil => rfl
        | cons d ds => simpa [separated, hdigit d rfl] using hsep
    refine ⟨htext, ?_⟩
    intro value out h
    cases hd : CStringLiteral.hexDigit c with
    | some digit =>
      -- the digit is taken, and one character is missing
      obtain ⟨hemit, -⟩ := (emitChar_digit c).1 (by simp [hd])
      rw [List.flatMap_cons, hemit, List.singleton_append, CStringLiteral.read_hex_digit hd] at h
      have := (ihhex _ out h).1
      simp only [List.length_cons]
      exact ⟨by omega, fun hlen => absurd hlen (by omega)⟩
    | none =>
      have hhead : ∀ d ∈ (c :: cs).head?, CStringLiteral.hexDigit d = none := by
        intro d hdc
        cases hdc
        exact hd
      rw [read_flatMap_hex hhead] at h
      obtain ⟨b, -, hrest⟩ := Option.bind_eq_some_iff.mp h
      obtain ⟨rest, hread, hout⟩ := Option.map_eq_some_iff.mp hrest
      have := htext rest hread
      simp only [← hout, List.length_cons]
      exact ⟨by omega, fun hlen => ⟨this.2 (by omega), hhead⟩⟩

/-- The initializer denotes the processed bytes, unless an escape is written
before a digit. -/
theorem emitProcessed_value (processed : Bytes) :
    (emitProcessed processed).value = if separated processed then some processed else none := by
  unfold StringInit.value emitProcessed
  cases hsep : separated processed with
  | true => simp [read_of_separated processed hsep]
  | false =>
    cases hread : CStringLiteral.read .text (processed.flatMap emitChar) with
    | none => simp
    | some out =>
      have hlen : out.length ≠ processed.length := by
        intro h
        rw [((separated_of_read processed).1 out hread).2 h] at hsep
        cases hsep
      simp [hlen]

end Aether.CTranspiler
