/-
Aether.Lib.CStringLiteral — what the text between the quotes of a C string
literal denotes.

The reader is a machine over the characters of the text. A `\x` escape
takes every hexadecimal digit that follows it, so it may take more than
the two digits it was written with. Octal and universal escapes are not
read.
-/
import Mathlib.Data.List.Basic
import Mathlib.Tactic.Common

namespace Aether.Lib.CStringLiteral

def char (c : Char) : UInt8 := UInt8.ofNat c.toNat

/-- The value of a hexadecimal digit. -/
def hexDigit (c : UInt8) : Option Nat :=
  if char '0' ≤ c ∧ c ≤ char '9' then some (c.toNat - (char '0').toNat)
  else if char 'a' ≤ c ∧ c ≤ char 'f' then some (c.toNat - (char 'a').toNat + 10)
  else if char 'A' ≤ c ∧ c ≤ char 'F' then some (c.toNat - (char 'A').toNat + 10)
  else none

/-- What the character after a backslash stands for. -/
def simpleEscape (c : UInt8) : Option UInt8 :=
  if c = char 'n' then some (char '\n')
  else if c = char 't' then some (char '\t')
  else if c = char 'r' then some (char '\r')
  else if c = char '\\' then some (char '\\')
  else if c = char '"' then some (char '"')
  else if c = char '\'' then some (char '\'')
  else none

inductive State where
  | text
  | escape
  | hex (value : Option Nat)

/-- A character outside of escapes. -/
def textStep (c : UInt8) : Option (List UInt8 × State) :=
  if c = char '\\' then some ([], .escape)
  else if c = char '"' ∨ c = char '\n' then none
  else some ([c], .text)

/-- The character a `\x` escape with this value denotes: it needs a digit
and may not exceed a character. -/
def hexChar : Option Nat → Option UInt8
  | some value => if value < 256 then some (UInt8.ofNat value) else none
  | none => none

def step : State → UInt8 → Option (List UInt8 × State)
  | .text, c => textStep c
  | .escape, c =>
    if c = char 'x' then some ([], .hex none)
    else (simpleEscape c).map fun b => ([b], .text)
  | .hex value, c =>
    match hexDigit c with
    | some digit => some ([], .hex (some (value.getD 0 * 16 + digit)))
    | none => (hexChar value).bind fun b => (textStep c).map fun out => (b :: out.1, out.2)

/-- The characters of the array, without the final zero. -/
def read : State → List UInt8 → Option (List UInt8)
  | .text, [] => some []
  | .escape, [] => none
  | .hex value, [] => (hexChar value).map fun b => [b]
  | s, c :: cs => (step s c).bind fun out => (read out.2 cs).map (out.1 ++ ·)

-- the equations, before the proofs that share them
section
attribute [local simp] step read
end

/-! ## Reading on -/

variable {c : UInt8} {cs : List UInt8}

theorem read_step {s s' : State} {out : List UInt8} (h : step s c = some (out, s')) :
    read s (c :: cs) = (read s' cs).map (out ++ ·) := by
  simp [read, h]

/-- A step that gives nothing. -/
theorem read_silent {s s' : State} (h : step s c = some ([], s')) :
    read s (c :: cs) = read s' cs := by
  rw [read_step h]
  exact Option.map_id' ..

theorem read_text (h : textStep c = some ([c], .text)) :
    read .text (c :: cs) = (read .text cs).map (c :: ·) := by
  have hstep : step .text c = some ([c], .text) := h
  exact read_step hstep

theorem read_escape {e : UInt8} (h : step .escape e = some ([c], .text)) :
    read .text (char '\\' :: e :: cs) = (read .text cs).map (c :: ·) := by
  have hslash : step .text (char '\\') = some ([], .escape) := rfl
  rw [read_silent hslash]
  exact read_step h

theorem read_hex {h l : UInt8} {high low : Nat} (hhigh : hexDigit h = some high)
    (hlow : hexDigit l = some low) :
    read .text (char '\\' :: char 'x' :: h :: l :: cs) =
      read (.hex (some (high * 16 + low))) cs := by
  have hfirst : step (.hex none) h = some ([], .hex (some high)) := by simp [step, hhigh]
  have hsecond : step (.hex (some high)) l = some ([], .hex (some (high * 16 + low))) := by
    simp [step, hlow]
  have hx : step .escape (char 'x') = some ([], .hex none) := rfl
  have hslash : step .text (char '\\') = some ([], .escape) := rfl
  rw [read_silent hslash, read_silent hx, read_silent hfirst, read_silent hsecond]

/-- A digit after a `\x` escape belongs to it. -/
theorem read_hex_digit {value digit : Nat} (h : hexDigit c = some digit) :
    read (.hex (some value)) (c :: cs) = read (.hex (some (value * 16 + digit))) cs :=
  read_silent (by simp [step, h])

/-- Any other character ends it. -/
theorem read_hex_end {value : Nat} (h : ∀ d ∈ cs.head?, hexDigit d = none) :
    read (.hex (some value)) cs =
      (hexChar (some value)).bind fun b => (read .text cs).map (b :: ·) := by
  cases cs with
  | nil => cases hv : hexChar (some value) <;> simp [read, hv]
  | cons d ds =>
    have hd : hexDigit d = none := h d rfl
    cases hv : hexChar (some value) with
    | none => simp [read, step, hd, hv]
    | some b => cases ht : textStep d <;> simp [read, step, hd, hv, ht, Function.comp_def]

end Aether.Lib.CStringLiteral
