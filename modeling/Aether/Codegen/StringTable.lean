/-
Aether.Codegen.StringTable — the string table of the NASM generator.

`process_string_literal` decodes the text of a token, and `codegen_generate`
writes what it decoded as a `db` line. The writer escapes quotes and
backslashes with a backslash, which a string in double quotes does not have
in NASM: `dbLine_iff` says that the line denotes the decoded bytes where
there is nothing to escape, and only there.
-/
import Aether.Tokenizer
import Aether.Lib.CStringLiteral
import Aether.Lib.DbLine

namespace Aether.Codegen.StringTable

open Aether.Lib

/-! ## §1 Decoding -/

/-- What a backslash and any character but `x` decode to. -/
def escape (c : UInt8) : UInt8 :=
  if c = ch 'n' then ch '\n'
  else if c = ch 'r' then ch '\r'
  else if c = ch 't' then ch '\t'
  else if c = ch '\\' then ch '\\'
  else if c = ch '"' then ch '"'
  else ch '\\'

/-- `isxdigit` and `strtoul`, on two characters. -/
def hexByte (high low : UInt8) : Option UInt8 :=
  match CStringLiteral.hexDigit high, CStringLiteral.hexDigit low with
  | some h, some l => some (UInt8.ofNat (16 * h + l))
  | _, _ => none

/-- The loop of `process_string_literal`, with `room` bytes left. -/
def processLoop (room : Nat) : Bytes → Bytes
  | [] => []
  | [c] => if room = 0 ∨ c = ch '"' then [] else [c]
  | c :: e :: cs =>
    if room = 0 ∨ c = ch '"' then []
    else if c ≠ ch '\\' then c :: processLoop (room - 1) (e :: cs)
    else if e ≠ ch 'x' then escape e :: processLoop (room - 1) cs
    else
      match cs with
      | high :: low :: cs' =>
        match hexByte high low with
        | some b => b :: processLoop (room - 1) cs'
        | none => processLoop room (high :: low :: cs')
      | [d] => processLoop room [d]
      | [] => []

-- the equations, before the proofs that share them
section
attribute [local simp] processLoop
end

/-- `sizeof(processed) - 1`. -/
def maxLen : Nat := 8191

def processStringLiteral (raw : Bytes) : Bytes :=
  processLoop maxLen (if raw.head? = some (ch '"') then raw.tail else raw)

/-! ## §2 Writing -/

def emitByte (c : UInt8) : Bytes :=
  if c = ch '"' then [ch '\\', ch '"']
  else if c = ch '\\' then [ch '\\', ch '\\']
  else if 32 ≤ c ∧ c < 127 then [c]
  else bytes "\", " ++ Numerals.decimal c.toNat ++ bytes ", \""

/-- The operands of the `db` line of an entry. -/
def dbOperands (processed : Bytes) : Bytes :=
  ch '"' :: processed.flatMap emitByte ++ bytes "\", 0"

/-- The length that `print` passes to the system call. -/
def printLength (raw : Bytes) : Nat := (processStringLiteral raw).length

/-! ## §3 What the line denotes -/

open DbLine (State read run Outside)

/-- No character that the writer escapes. -/
def Unescaped (processed : Bytes) : Prop := ∀ c ∈ processed, c ≠ ch '"' ∧ c ≠ ch '\\'

theorem decimal_ne_quote {n : Nat} {c : UInt8} (h : c ∈ Numerals.decimal n) :
    c ≠ ch '"' ∧ c ≠ ch '\'' := by
  obtain ⟨m, hm, rfl⟩ := Numerals.digit_of_mem_decimal h
  exact (DbLine.digit_ne_quote m hm).2

/-- In the string, a byte is read as itself, a backslash as two. -/
theorem run_emitByte {c : UInt8} (hquote : c ≠ ch '"') :
    run (.str (ch '"')) (emitByte c) =
      some (if c = ch '\\' then [c, c] else [c], .str (ch '"')) := by
  unfold emitByte
  rw [if_neg hquote]
  split
  · next hslash =>
    rw [hslash]
    exact DbLine.run_str _ (by decide +kernel)
  · next hslash =>
    split
    · exact DbLine.run_str [c] (by simpa using hquote)
    · have hclose : run (.str (ch '"')) (bytes "\", ") = some ([], .operand) := rfl
      have hopen : run (.number c.toNat) (bytes ", \"") = some ([c], .str (ch '"')) := by
        have hbytes : bytes ", \"" = [DbLine.char ',', DbLine.char ' ', ch '"'] := rfl
        have hcomma : DbLine.step (.number c.toNat) (DbLine.char ',') = some ([c], .operand) := by
          have hdigit : DbLine.digitValue (DbLine.char ',') = none := rfl
          have hafter : DbLine.afterStep (DbLine.char ',') = some .operand := rfl
          simp [DbLine.step, hdigit, hafter, DbLine.numberByte, c.toNat_lt]
        have hrest : run .operand [DbLine.char ' ', ch '"'] = some ([], .str (ch '"')) := rfl
        rw [hbytes, run, hcomma, Option.bind_some, hrest]
        rfl
      rw [DbLine.run_append, DbLine.run_append, hclose]
      simp only [Option.bind_some, Option.map_some, DbLine.run_decimal, hopen]
      simp

/-- Out of the string, no byte leads into it. -/
theorem run_emitByte_outside {s s' : State} {out : Bytes} {c : UInt8} (h : Outside s)
    (hrun : run s (emitByte c) = some (out, s')) : Outside s' := by
  unfold emitByte at hrun
  split at hrun
  · -- the backslash is read in single quotes only, and so is the quote
    obtain ⟨a, hstep, hrest⟩ := Option.bind_eq_some_iff.mp hrun
    have hsingle := DbLine.step_backslash h hstep
    obtain ⟨b, hb, heq⟩ := Option.map_eq_some_iff.mp hrest
    rw [hsingle] at hb
    have hkept : run (.str (DbLine.char '\'')) [ch '"'] =
        some ([ch '"'], .str (DbLine.char '\'')) := rfl
    cases heq
    cases hkept.symm.trans hb
    rfl
  · next hquote =>
    split at hrun
    · exact DbLine.run_outside h (by decide +kernel) hrun
    · split at hrun
      · refine DbLine.run_outside h ?_ hrun
        intro d hd
        obtain rfl := List.mem_singleton.mp hd
        exact hquote
      · let inner := bytes ", " ++ Numerals.decimal c.toNat ++ bytes ", "
        have htext : bytes "\", " ++ Numerals.decimal c.toNat ++ bytes ", \"" =
            [ch '"'] ++ inner ++ [ch '"'] := by
          have hlast : bytes ", \"" = bytes ", " ++ [ch '"'] := rfl
          have hfirst : bytes "\", " = [ch '"'] ++ bytes ", " := rfl
          rw [hlast, hfirst]
          simp [inner]
        have hinner : ∀ d ∈ inner, d ≠ ch '"' ∧ d ≠ ch '\'' := by
          have hcomma : ∀ d ∈ bytes ", ", d ≠ ch '"' ∧ d ≠ ch '\'' := by decide +kernel
          intro d hd
          simp only [inner, List.mem_append] at hd
          rcases hd with (hd | hd) | hd
          · exact hcomma d hd
          · exact decimal_ne_quote hd
          · exact hcomma d hd
        exact DbLine.run_quoted h hinner (htext ▸ hrun)

/-- A line that is out of the string stays out of it, and is not read. -/
theorem read_outside {s : State} (h : Outside s) (cs : Bytes) :
    DbLine.read s (cs.flatMap emitByte ++ bytes "\", 0") = none := by
  induction cs generalizing s with
  | nil => exact DbLine.read_last_quote h (bytes ", 0") (by decide +kernel)
  | cons c cs ih =>
    rw [List.flatMap_cons, List.append_assoc, DbLine.read_append]
    cases hrun : run s (emitByte c) with
    | none => rfl
    | some a =>
      have hout : Outside a.2 := run_emitByte_outside h hrun
      rw [Option.bind_some, ih hout]
      rfl

theorem read_inside (cs : Bytes) :
    DbLine.read (.str (ch '"')) (cs.flatMap emitByte ++ bytes "\", 0") =
      if ch '"' ∈ cs then none
      else some (cs.flatMap (fun c => if c = ch '\\' then [c, c] else [c]) ++ [0]) := by
  induction cs with
  | nil => rfl
  | cons c cs ih =>
    rw [List.flatMap_cons, List.append_assoc]
    by_cases hquote : c = ch '"'
    · -- the quote closes the string
      rw [if_pos (by simp [hquote]), hquote]
      have hclosed : run (.str (ch '"')) (emitByte (ch '"')) = some ([ch '\\'], .after) := rfl
      have hafter : Outside .after := trivial
      rw [DbLine.read_append, hclosed, Option.bind_some, read_outside hafter cs]
      rfl
    · rw [DbLine.read_append, run_emitByte hquote, Option.bind_some, ih]
      have hmem : ch '"' ∈ c :: cs ↔ ch '"' ∈ cs := by simp [Ne.symm hquote]
      by_cases hcs : ch '"' ∈ cs <;> simp [hmem, hcs]

/-- The decoded bytes, with each backslash twice. -/
theorem doubled_eq_iff (cs : Bytes) :
    cs.flatMap (fun c => if c = ch '\\' then [c, c] else [c]) = cs ↔ ch '\\' ∉ cs := by
  have hlength : (cs.flatMap (fun c => if c = ch '\\' then [c, c] else [c])).length =
      cs.length + cs.count (ch '\\') := by
    induction cs with
    | nil => rfl
    | cons c cs ih =>
      rw [List.flatMap_cons, List.length_append, ih, List.count_cons, List.length_cons]
      by_cases hc : c = ch '\\' <;> simp [hc] <;> omega
  constructor
  · intro h
    rw [h] at hlength
    exact List.count_eq_zero.mp (by omega)
  · intro h
    have hsingle : ∀ c ∈ cs, (if c = ch '\\' then [c, c] else [c]) = [c] := by
      intro c hc
      exact if_neg fun (heq : c = ch '\\') => h (heq ▸ hc)
    rw [List.flatMap_congr hsingle, List.flatMap_singleton']

theorem denotes_iff (raw : Bytes) :
    (DbLine.read .operand (dbOperands (processStringLiteral raw)) =
        some (processStringLiteral raw ++ [0]) ∧
      printLength raw = (processStringLiteral raw).length) ↔
      Unescaped (processStringLiteral raw) := by
  have hopen : DbLine.step .operand (ch '"') = some ([], .str (ch '"')) := rfl
  rw [dbOperands, List.cons_append, DbLine.read_silent hopen, read_inside,
    and_iff_left (show printLength raw = (processStringLiteral raw).length from rfl)]
  have hunescaped : Unescaped (processStringLiteral raw) ↔
      ch '"' ∉ processStringLiteral raw ∧ ch '\\' ∉ processStringLiteral raw := by
    constructor
    · intro h
      exact ⟨fun hmem => (h _ hmem).1 rfl, fun hmem => (h _ hmem).2 rfl⟩
    · intro ⟨hquote, hslash⟩ c hc
      exact ⟨fun heq => hquote (heq ▸ hc), fun heq => hslash (heq ▸ hc)⟩
  rw [hunescaped]
  by_cases hquote : ch '"' ∈ processStringLiteral raw
  · simp [hquote]
  · rw [if_neg hquote, Option.some.injEq, List.append_left_inj, doubled_eq_iff]
    exact (and_iff_right hquote).symm

/-- The `db` line of a literal denotes the decoded bytes and a zero byte, and
`print` passes their number, exactly where no quote and no backslash is among
them. -/
theorem dbLine_iff (raw : Bytes) :
    (DbLine.read .operand (dbOperands (processStringLiteral raw)) =
        some (processStringLiteral raw ++ [0]) ∧
      printLength raw = (processStringLiteral raw).length) ↔
      Unescaped (processStringLiteral raw) :=
  denotes_iff raw

/-- `"a\\b"`, with one backslash between `a` and `b`. -/
def backslashToken : Bytes := [ch '"', ch 'a', ch '\\', ch '\\', ch 'b', ch '"']

/-- The line has two. -/
theorem backslashToken_doubled :
    ¬ (DbLine.read .operand (dbOperands (processStringLiteral backslashToken)) =
        some (processStringLiteral backslashToken ++ [0]) ∧
      printLength backslashToken = (processStringLiteral backslashToken).length) := by
  rw [denotes_iff]
  intro h
  have hmem : ch '\\' ∈ processStringLiteral backslashToken := by decide
  exact (h _ hmem).2 rfl

end Aether.Codegen.StringTable
