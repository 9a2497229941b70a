/-
Aether.EscapeTheorems — where the two backends decode a string literal alike.

`process_string_literal` knows `\n`, `\r`, `\t`, `\\`, `\"` and `\xNN`, and
decodes any other escape to a backslash. `c_emit_literal_string` knows `\0`
and `\'` besides, but no `\xNN`, and decodes any other escape to its second
character. A token is the text that `scan_string` takes, with or without its
closing quote.
-/
import Aether.Codegen.StringTable
import Aether.CTranspiler.LiteralTheorems
import Aether.Lexing.Lookahead

namespace Aether.StringEscape

open Aether.Lib CTranspiler Codegen.StringTable

-- the equations, before the proofs that share them
section
attribute [local simp] processLoop ch processedMax maxLen
end

/-! ## §1 Tokens -/

/-- What `scan_string` takes at once. -/
inductive TokenUnit where
  | plain (c : UInt8) (ordinary : c ≠ ch '"' ∧ c ≠ ch '\\')
  | escape (c : UInt8)

def TokenUnit.text : TokenUnit → Bytes
  | .plain c _ => [c]
  | .escape c => [ch '\\', c]

/-- The quote, or the end of the file, before which a backslash may stand. -/
inductive Ending where
  | closed | endOfFile | backslash
  deriving DecidableEq, Repr

def Ending.text : Ending → Bytes
  | .closed => [ch '"']
  | .endOfFile => []
  | .backslash => [ch '\\']

structure StringToken where
  units : List TokenUnit
  ending : Ending

/-- Behind the opening quote. -/
def StringToken.rest (t : StringToken) : Bytes := t.units.flatMap TokenUnit.text ++ t.ending.text

def StringToken.text (t : StringToken) : Bytes := ch '"' :: t.rest

-- the equations, before the proofs that share them
section
attribute [local simp] TokenUnit.text Ending.text StringToken.rest StringToken.text
end

/-- Every text that `scan_string` takes is one of these. -/
theorem exists_stringToken (line col : Nat) (cs : Bytes) :
    ∃ t : StringToken, cs = t.rest ++ (scanStringLoop line col cs).2.2 := by
  fun_induction scanStringLoop line col cs with
  | case1 => exact ⟨⟨[], .endOfFile⟩, rfl⟩
  | case2 => exact ⟨⟨[], .closed⟩, rfl⟩
  | case3 => exact ⟨⟨[], .backslash⟩, rfl⟩
  | case4 line col c' cs' hslash ih =>
    obtain ⟨t, ht⟩ := ih
    refine ⟨⟨.escape c' :: t.units, t.ending⟩, ?_⟩
    calc ch '\\' :: c' :: cs' = ch '\\' :: c' :: (t.rest ++ _) := by rw [← ht]
      _ = _ := rfl
  | case5 line col c cs hq hb ih =>
    obtain ⟨t, ht⟩ := ih
    refine ⟨⟨.plain c ⟨hq, hb⟩ :: t.units, t.ending⟩, ?_⟩
    calc c :: cs = c :: (t.rest ++ _) := by rw [← ht]
      _ = _ := rfl

/-! ## §2 The decoder of the NASM backend -/

theorem processLoop_plain {c : UInt8} (hc : c ≠ ch '"' ∧ c ≠ ch '\\') (room : Nat) (cs : Bytes) :
    processLoop (room + 1) (c :: cs) = c :: processLoop room cs := by
  rcases cs with _ | ⟨e, _ | ⟨d, _ | ⟨b, cs⟩⟩⟩ <;> simp [processLoop, hc.1, hc.2]

theorem backslash_ne_quote : ch '\\' ≠ ch '"' := by decide

theorem processLoop_escape {c : UInt8} (hc : c ≠ ch 'x') (room : Nat) (cs : Bytes) :
    processLoop (room + 1) (ch '\\' :: c :: cs) = escape c :: processLoop room cs := by
  rcases cs with _ | ⟨d, _ | ⟨b, cs⟩⟩ <;> simp [processLoop, backslash_ne_quote, hc]

/-- Behind `\x` two digits are a byte, and anything else is read again. -/
theorem processLoop_x (room : Nat) (cs : Bytes) :
    (∃ high low cs' b, cs = high :: low :: cs' ∧ Codegen.StringTable.hexByte high low = some b ∧
        processLoop (room + 1) (ch '\\' :: ch 'x' :: cs) = b :: processLoop room cs') ∨
      processLoop (room + 1) (ch '\\' :: ch 'x' :: cs) = processLoop (room + 1) cs := by
  rcases cs with _ | ⟨d, _ | ⟨e, cs⟩⟩
  · exact .inr (by simp [processLoop, backslash_ne_quote])
  · exact .inr (by simp [processLoop, backslash_ne_quote])
  · cases hbyte : Codegen.StringTable.hexByte d e with
    | none => exact .inr (by simp [processLoop, backslash_ne_quote, hbyte])
    | some b =>
      exact .inl ⟨d, e, cs, b, rfl, hbyte, by simp [processLoop, backslash_ne_quote, hbyte]⟩

theorem processLoop_zero (cs : Bytes) : processLoop 0 cs = [] := by
  rcases cs with _ | ⟨c, _ | ⟨e, _ | ⟨d, _ | ⟨b, cs⟩⟩⟩⟩ <;> simp [processLoop]

def Ending.bytes : Ending → Bytes
  | .backslash => [ch '\\']
  | .closed | .endOfFile => []

-- the equations, before the proofs that share them
section
attribute [local simp] Ending.bytes
end

theorem processLoop_ending (room : Nat) (e : Ending) :
    processLoop (room + 1) e.text = e.bytes := by
  cases e with
  | closed => simp [Ending.text, processLoop, Ending.bytes]
  | endOfFile => rfl
  | backslash => simp [Ending.text, processLoop, Ending.bytes, backslash_ne_quote]

theorem length_processLoop_ending (room : Nat) (e : Ending) :
    (processLoop room e.text).length ≤ e.bytes.length := by
  cases room with
  | zero => simp [processLoop_zero]
  | succ room => rw [processLoop_ending]

theorem hexByte_ordinary {high low b : UInt8} (h : Codegen.StringTable.hexByte high low = some b) :
    (high ≠ ch '"' ∧ high ≠ ch '\\') ∧ low ≠ ch '"' ∧ low ≠ ch '\\' := by
  have hdigit : ∀ c : UInt8, (CStringLiteral.hexDigit c).isSome = true →
      c ≠ ch '"' ∧ c ≠ ch '\\' := by
    refine forall_uint8 ?_
    decide +kernel
  unfold Codegen.StringTable.hexByte at h
  split at h
  · next hhigh hlow => exact ⟨hdigit high (by simp [hhigh]), hdigit low (by simp [hlow])⟩
  · cases h

/-- Two ordinary characters at the front of a token's text are two units. -/
theorem units_of_ordinary {c : UInt8} {cs : Bytes} {units : List TokenUnit} {e : Ending}
    (hc : c ≠ ch '"' ∧ c ≠ ch '\\')
    (h : units.flatMap TokenUnit.text ++ e.text = c :: cs) :
    ∃ units', units = .plain c hc :: units' ∧ units'.flatMap TokenUnit.text ++ e.text = cs := by
  cases units with
  | nil =>
    cases e with
    | closed => exact absurd (List.cons.inj h).1.symm hc.1
    | endOfFile => cases h
    | backslash => exact absurd (List.cons.inj h).1.symm hc.2
  | cons unit units =>
    cases unit with
    | plain d ordinary =>
      obtain ⟨hd, hrest⟩ := List.cons.inj h
      subst hd
      exact ⟨units, rfl, hrest⟩
    | escape d => exact absurd (List.cons.inj h).1.symm hc.2

def TokenUnit.isX : TokenUnit → Bool
  | .escape c => c == ch 'x'
  | .plain .. => false

-- the equations, before the proofs that share them
section
attribute [local simp] TokenUnit.isX
end

/-- Each unit decodes to a byte at most, and `\x` makes the text shorter. -/
theorem length_processLoop (n : Nat) (units : List TokenUnit) (hn : units.length = n) (e : Ending)
    (room : Nat) :
    (processLoop room (units.flatMap TokenUnit.text ++ e.text)).length +
        (if units.any TokenUnit.isX then 1 else 0) ≤ units.length + e.bytes.length := by
  induction n using Nat.strongRecOn generalizing units room with
  | _ n ih =>
    cases room with
    | zero =>
      rw [processLoop_zero]
      cases units <;> simp
      split <;> omega
    | succ room =>
      cases units with
      | nil => simpa using length_processLoop_ending (room + 1) e
      | cons unit units =>
        subst hn
        rw [List.flatMap_cons, List.append_assoc]
        cases unit with
        | plain c ordinary =>
          have hrest := ih units.length (by simp) units rfl room
          have hstep := processLoop_plain ordinary room (units.flatMap TokenUnit.text ++ e.text)
          rw [TokenUnit.text, List.singleton_append, hstep]
          simp only [List.any_cons, TokenUnit.isX, Bool.false_or, List.length_cons]
          omega
        | escape c =>
          by_cases hx : c = ch 'x'
          · subst hx
            have hany : (TokenUnit.escape (ch 'x') :: units).any TokenUnit.isX = true := by
              simp [TokenUnit.isX]
            rw [hany, if_pos rfl]
            rcases processLoop_x room (units.flatMap TokenUnit.text ++ e.text) with
              ⟨high, low, cs', b, hcs, hbyte, hstep⟩ | hstep
            · -- the two digits are two units that are not decoded
              obtain ⟨hhigh, hlow⟩ := hexByte_ordinary hbyte
              obtain ⟨units', rfl, hrest'⟩ := units_of_ordinary hhigh hcs
              obtain ⟨units'', rfl, rfl⟩ := units_of_ordinary hlow hrest'
              have hrest := ih units''.length (by simp; omega) units'' rfl room
              have hlength := congrArg List.length hstep
              simp only [TokenUnit.text, List.cons_append, List.nil_append, List.length_cons]
                at hlength ⊢
              rw [hlength]
              omega
            · have hrest := ih units.length (by simp) units rfl (room + 1)
              have hlength := congrArg List.length hstep
              simp only [TokenUnit.text, List.cons_append, List.nil_append, List.length_cons]
                at hlength ⊢
              rw [hlength]
              omega
          · have hrest := ih units.length (by simp) units rfl room
            have hstep := processLoop_escape hx room (units.flatMap TokenUnit.text ++ e.text)
            have hnot : (c == ch 'x') = false := by simpa using hx
            simp only [TokenUnit.text, List.cons_append, List.nil_append, hstep, List.any_cons,
              TokenUnit.isX, hnot, Bool.false_or, List.length_cons]
            omega

def TokenUnit.nasmByte : TokenUnit → UInt8
  | .plain c _ => c
  | .escape c => Codegen.StringTable.escape c

def TokenUnit.cByte : TokenUnit → UInt8
  | .plain c _ => c
  | .escape c => processEscape c

/-- Without `\x`, a byte for each unit. -/
theorem processLoop_units (units : List TokenUnit) (hx : units.any TokenUnit.isX = false)
    (e : Ending) (room : Nat) (hroom : units.length < room) :
    processLoop room (units.flatMap TokenUnit.text ++ e.text) =
      units.map TokenUnit.nasmByte ++ e.bytes := by
  induction units generalizing room with
  | nil =>
    obtain ⟨room, rfl⟩ : ∃ r, room = r + 1 := ⟨room - 1, by simp at hroom; omega⟩
    exact processLoop_ending room e
  | cons unit units ih =>
    obtain ⟨room, rfl⟩ : ∃ r, room = r + 1 := ⟨room - 1, by omega⟩
    simp only [List.any_cons, Bool.or_eq_false_iff] at hx
    have hrest := ih hx.2 room (by simpa using hroom)
    rw [List.flatMap_cons, List.append_assoc]
    cases unit with
    | plain c ordinary =>
      rw [TokenUnit.text, List.singleton_append, processLoop_plain ordinary, hrest]
      rfl
    | escape c =>
      have hc : c ≠ ch 'x' := by simpa [TokenUnit.isX] using hx.1
      simp only [TokenUnit.text, List.cons_append, List.nil_append, processLoop_escape hc, hrest]
      rfl

/-! ## §3 The decoder of the C backend -/

theorem processEscapes_tokenUnits (units : List TokenUnit) (cs : Bytes) :
    processEscapes (units.flatMap TokenUnit.text ++ cs) =
      units.map TokenUnit.cByte ++ processEscapes cs := by
  induction units with
  | nil => rfl
  | cons unit units ih =>
    rw [List.flatMap_cons, List.append_assoc]
    cases unit with
    | plain c ordinary =>
      rw [TokenUnit.text, List.singleton_append, processEscapes_plain ordinary.2, ih]
      rfl
    | escape c =>
      simp only [TokenUnit.text, List.cons_append, List.nil_append, processEscapes_backslash, ih]
      rfl

/-- What the C backend decodes of a token. -/
def cDecoded (raw : Bytes) : Bytes := (processEscapes (stringContent raw)).take processedMax

theorem length_units_le (t : StringToken) :
    t.units.length + t.ending.bytes.length ≤ t.rest.length := by
  have hunits : ∀ units : List TokenUnit,
      units.length ≤ (units.flatMap TokenUnit.text).length := by
    intro units
    induction units with
    | nil => simp
    | cons unit units ih =>
      rw [List.flatMap_cons, List.length_append, List.length_cons]
      cases unit <;> simp only [TokenUnit.text, List.length_cons, List.length_nil] <;> omega
  have hending : t.ending.bytes.length ≤ t.ending.text.length := by
    cases t.ending <;> simp [Ending.bytes, Ending.text]
  have := hunits t.units
  simp only [StringToken.rest, List.length_append]
  omega

theorem processEscapes_ending (e : Ending) (he : e ≠ .closed) : processEscapes e.text = e.bytes := by
  cases e with
  | closed => exact absurd rfl he
  | endOfFile | backslash => rfl

/-- The closing quote is not decoded. -/
theorem processEscapes_content (t : StringToken) (hclosed : t.ending = .closed) :
    processEscapes (stringContent t.text) = t.units.map TokenUnit.cByte := by
  have hnil := processEscapes_tokenUnits t.units []
  rw [List.append_nil] at hnil
  rw [StringToken.text, StringToken.rest, hclosed, Ending.text, stringContent_quoted, hnil]
  simp [processEscapes]

/-- Without a closing quote, the opening one is decoded too, unless an
escaped quote at the end is taken for the closing one. -/
theorem processEscapes_open (t : StringToken) (hopen : t.ending ≠ .closed) :
    (∃ units, t.units = units ++ [.escape (ch '"')] ∧ t.ending = .endOfFile ∧
        processEscapes (stringContent t.text) = units.map TokenUnit.cByte ++ [ch '\\']) ∨
      processEscapes (stringContent t.text) =
        ch '"' :: (t.units.map TokenUnit.cByte ++ t.ending.bytes) := by
  by_cases hlast : t.text.length ≥ 2 ∧ t.text.head? = some (ch '"') ∧
      t.text.getLast? = some (ch '"')
  · obtain ⟨hlength, -, hquote⟩ := hlast
    obtain ⟨units, ending⟩ := t
    cases ending with
    | closed => exact absurd rfl hopen
    | backslash =>
      simp only [StringToken.text, StringToken.rest, Ending.text, ← List.cons_append,
        List.getLast?_append, List.getLast?_singleton, Option.some_or] at hquote
      exact absurd (Option.some.inj hquote) backslash_ne_quote
    | endOfFile =>
      rcases List.eq_nil_or_concat units with rfl | ⟨units, unit, rfl⟩
      · simp [StringToken.text, StringToken.rest, Ending.text] at hlength
      · rw [List.concat_eq_append] at hquote ⊢
        have hend : StringToken.text ⟨units ++ [unit], .endOfFile⟩ =
            (ch '"' :: units.flatMap TokenUnit.text) ++ unit.text := by
          simp [StringToken.text, StringToken.rest, Ending.text]
        rw [hend, List.getLast?_append] at hquote
        cases unit with
        | plain c ordinary =>
          exact absurd (Option.some.inj hquote) ordinary.1
        | escape c =>
          have hlast : c = ch '"' := Option.some.inj hquote
          subst hlast
          refine .inl ⟨units, rfl, rfl, ?_⟩
          have htext : StringToken.text ⟨units ++ [.escape (ch '"')], .endOfFile⟩ =
              ch '"' :: ((units.flatMap TokenUnit.text ++ [ch '\\']) ++ [ch '"']) := by
            simp [StringToken.text, StringToken.rest, Ending.text, TokenUnit.text]
          have hslash : processEscapes [ch '\\'] = [ch '\\'] := rfl
          rw [htext, stringContent_quoted, processEscapes_tokenUnits, hslash]
  · right
    rw [stringContent, if_neg hlast, StringToken.text,
      processEscapes_plain (show ch '"' ≠ ch '\\' by decide), StringToken.rest,
      processEscapes_tokenUnits, processEscapes_ending _ hopen]

/-! ## §4 Agreement -/

/-- The escapes that both backends know. -/
def sharedEscapes : Bytes := [ch 'n', ch 'r', ch 't', ch '\\', ch '"']

-- the equations, before the proofs that share them
section
attribute [local simp] sharedEscapes
end

/-- The token has its closing quote, and no escape but the shared ones. -/
def SharedOnly (t : StringToken) : Prop :=
  t.ending = .closed ∧ ∀ c, .escape c ∈ t.units → c ∈ sharedEscapes

theorem escape_eq_iff (c : UInt8) :
    Codegen.StringTable.escape c = processEscape c ↔ c ∈ sharedEscapes := by
  constructor
  · intro h
    by_contra hnot
    simp only [sharedEscapes, List.mem_cons, List.not_mem_nil, or_false, not_or] at hnot
    obtain ⟨hn, hr, ht, hb, hq⟩ := hnot
    rw [Codegen.StringTable.escape, processEscape, if_neg hn, if_neg hr, if_neg ht, if_neg hb,
      if_neg hq, if_neg hn, if_neg ht, if_neg hr] at h
    split_ifs at h
    · exact absurd h (by decide)
    · exact hb h.symm
  · intro h
    simp only [sharedEscapes, List.mem_cons, List.not_mem_nil, or_false] at h
    rcases h with rfl | rfl | rfl | rfl | rfl <;> rfl

theorem x_not_shared : ch 'x' ∉ sharedEscapes := by decide

theorem map_bytes_eq_iff (units : List TokenUnit) :
    units.map TokenUnit.nasmByte = units.map TokenUnit.cByte ↔
      ∀ c, .escape c ∈ units → c ∈ sharedEscapes := by
  rw [List.map_inj_left]
  constructor
  · intro h c hc
    exact (escape_eq_iff c).mp (h _ hc)
  · intro h unit hunit
    cases unit with
    | plain c ordinary => rfl
    | escape c =>
      exact (escape_eq_iff c).mpr (h c hunit)

theorem processStringLiteral_text (t : StringToken) :
    processStringLiteral t.text = processLoop maxLen t.rest := by
  simp [processStringLiteral, StringToken.text]

section

variable (t : StringToken) (hshort : t.text.length < 4096)

include hshort

/-- The buffer of the C backend holds all of a short token. -/
theorem cDecoded_eq : cDecoded t.text = processEscapes (stringContent t.text) := by
  have hunits := length_units_le t
  have htext : t.text.length = t.rest.length + 1 := by simp [StringToken.text]
  refine List.take_of_length_le ?_
  by_cases hclosed : t.ending = .closed
  · rw [processEscapes_content t hclosed]
    simp [processedMax]
    omega
  · rcases processEscapes_open t hclosed with ⟨units, hsplit, -, hc⟩ | hc
    · have hlength := congrArg List.length hsplit
      rw [hc]
      simp [processedMax] at hlength ⊢
      omega
    · rw [hc]
      simp [processedMax]
      omega

/-- The C backend decodes a byte for each unit at least. -/
theorem length_cDecoded : t.units.length + t.ending.bytes.length ≤ (cDecoded t.text).length := by
  rw [cDecoded_eq t hshort]
  by_cases hclosed : t.ending = .closed
  · rw [processEscapes_content t hclosed, hclosed]
    simp [Ending.bytes]
  · rcases processEscapes_open t hclosed with ⟨units, hsplit, hending, hc⟩ | hc
    · rw [hc, hsplit, hending]
      simp [Ending.bytes]
    · rw [hc]
      simp

theorem decoded_eq_iff_sharedOnly :
    processStringLiteral t.text = cDecoded t.text ↔ SharedOnly t := by
  have hlength := length_cDecoded t hshort
  rw [processStringLiteral_text]
  cases hx : t.units.any TokenUnit.isX with
  | true =>
    -- `\x` makes the one text shorter than the other
    have hshorter := length_processLoop t.units.length t.units rfl t.ending maxLen
    rw [if_pos hx] at hshorter
    refine iff_of_false ?_ ?_
    · intro heq
      have := congrArg List.length heq
      simp only [StringToken.rest] at this
      omega
    · intro h
      obtain ⟨unit, hunit, hisX⟩ := List.any_eq_true.mp hx
      cases unit with
      | plain => simp [TokenUnit.isX] at hisX
      | escape c =>
        have hc : c = ch 'x' := by simpa [TokenUnit.isX] using hisX
        exact x_not_shared (hc ▸ h.2 c hunit)
  | false =>
    have hroom : t.units.length < maxLen := by
      have hunits := length_units_le t
      have htext : t.text.length = t.rest.length + 1 := by simp [StringToken.text]
      simp only [maxLen]
      omega
    rw [StringToken.rest, processLoop_units t.units hx t.ending maxLen hroom,
      cDecoded_eq t hshort]
    by_cases hclosed : t.ending = .closed
    · rw [processEscapes_content t hclosed, hclosed, Ending.bytes, List.append_nil,
        map_bytes_eq_iff t.units]
      exact (and_iff_right hclosed).symm
    · refine iff_of_false ?_ fun h => hclosed h.1
      rcases processEscapes_open t hclosed with ⟨units, hsplit, hending, hc⟩ | hc
      · rw [hc, hsplit, hending, Ending.bytes, List.append_nil, List.map_append]
        intro heq
        obtain ⟨-, hlast⟩ := List.append_inj' heq rfl
        exact absurd (List.cons.inj hlast).1 (by decide)
      · rw [hc]
        intro heq
        have := congrArg List.length heq
        simp at this

end

/-- The backends decode a token of less than 4096 characters alike exactly
where it has its closing quote and none but the shared escapes. -/
theorem decoded_eq_iff (t : StringToken) (hshort : t.text.length < 4096) :
    processStringLiteral t.text = cDecoded t.text ↔ SharedOnly t :=
  decoded_eq_iff_sharedOnly t hshort

/-- `"\0"`. -/
def zeroToken : StringToken := ⟨[.escape (ch '0')], .closed⟩

theorem zeroToken_iff :
    zeroToken.text.length < 4096 ∧
      (processStringLiteral zeroToken.text = cDecoded zeroToken.text ↔ SharedOnly zeroToken) := by
  have hshort : zeroToken.text.length < 4096 := by decide
  exact ⟨hshort, decoded_eq_iff zeroToken hshort⟩

/-- It is a backslash for the one backend, and a zero byte for the other. -/
theorem zeroToken_decoded_apart :
    ¬ ∀ t : StringToken, t.text.length < 4096 →
      processStringLiteral t.text = cDecoded t.text := by
  intro h
  have hshort : zeroToken.text.length < 4096 := by decide
  have hshared := (decoded_eq_iff_sharedOnly zeroToken hshort).mp (h zeroToken hshort)
  exact absurd (hshared.2 (ch '0') List.mem_cons_self) (by decide)

end Aether.StringEscape
