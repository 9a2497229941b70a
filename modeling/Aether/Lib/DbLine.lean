/-
Aether.Lib.DbLine — the bytes that the operands of a NASM `db` line denote.

An operand is a string in double or single quotes, in which no character is
special, or a decimal number; a comma stands between two operands. Strings
in backquotes and expressions are not read.
-/
import Mathlib.Data.List.Basic
import Aether.Lib.Numerals

namespace Aether.Lib.DbLine

def char (c : Char) : UInt8 := UInt8.ofNat c.toNat

def digitValue (c : UInt8) : Option Nat :=
  if char '0' ≤ c ∧ c ≤ char '9' then some (c.toNat - (char '0').toNat) else none

inductive State where
  | operand
  | str (quote : UInt8)
  | number (value : Nat)
  | after
  deriving DecidableEq, Repr

/-- The byte of a number. -/
def numberByte (n : Nat) : Option UInt8 := if n < 256 then some (UInt8.ofNat n) else none

/-- Between two operands. -/
def afterStep (c : UInt8) : Option State :=
  if c = char ' ' then some .after else if c = char ',' then some .operand else none

def step : State → UInt8 → Option (List UInt8 × State)
  | .operand, c =>
    if c = char ' ' then some ([], .operand)
    else if c = char '"' ∨ c = char '\'' then some ([], .str c)
    else (digitValue c).map fun d => ([], .number d)
  | .str quote, c => some (if c = quote then ([], .after) else ([c], .str quote))
  | .number value, c =>
    match digitValue c with
    | some d => some ([], .number (value * 10 + d))
    | none => (numberByte value).bind fun b => (afterStep c).map fun s => ([b], s)
  | .after, c => (afterStep c).map fun s => ([], s)

/-- The bytes of the rest of the line. -/
def read : State → List UInt8 → Option (List UInt8)
  | .after, [] => some []
  | .number value, [] => (numberByte value).map fun b => [b]
  | .operand, [] => none
  | .str _, [] => none
  | s, c :: cs => (step s c).bind fun out => (read out.2 cs).map (out.1 ++ ·)

-- the equations, before the proofs that share them
section
attribute [local simp] step read
end

/-! ## Reading on -/

variable {c : UInt8} {cs : List UInt8}

theorem read_step {s s' : State} {out : List UInt8} (h : step s c = some (out, s')) :
    read s (c :: cs) = (read s' cs).map (out ++ ·) := by
  simp [read, h]

theorem read_silent {s s' : State} (h : step s c = some ([], s')) :
    read s (c :: cs) = read s' cs := by
  rw [read_step h]
  exact Option.map_id' ..

theorem read_refused {s : State} (h : step s c = none) : read s (c :: cs) = none := by
  simp [read, h]

/-- A character of a string. -/
theorem read_str {quote : UInt8} (h : c ≠ quote) :
    read (.str quote) (c :: cs) = (read (.str quote) cs).map (c :: ·) := by
  have hstep : step (.str quote) c = some ([c], .str quote) := by simp [step, h]
  exact read_step hstep

/-! ## Pieces of a line -/

/-- What a piece of the line gives, and where it leaves the reader. -/
def run : State → List UInt8 → Option (List UInt8 × State)
  | s, [] => some ([], s)
  | s, c :: cs => (step s c).bind fun a => (run a.2 cs).map fun b => (a.1 ++ b.1, b.2)

-- the equations, before the proofs that share them
section
attribute [local simp] run
end

theorem read_append (s : State) (cs ds : List UInt8) :
    read s (cs ++ ds) = (run s cs).bind fun a => (read a.2 ds).map (a.1 ++ ·) := by
  induction cs generalizing s with
  | nil => simp [run]
  | cons c cs ih =>
    rw [List.cons_append]
    cases hstep : step s c with
    | none => simp [read_refused hstep, run, hstep]
    | some a =>
      obtain ⟨out, s'⟩ := a
      rw [read_step hstep, ih]
      cases hrun : run s' cs with
      | none => simp [run, hstep, hrun]
      | some b => simp [run, hstep, hrun, Function.comp_def]

theorem run_append (s : State) (cs ds : List UInt8) :
    run s (cs ++ ds) = (run s cs).bind fun a => (run a.2 ds).map fun b => (a.1 ++ b.1, b.2) := by
  induction cs generalizing s with
  | nil => simp [run]
  | cons c cs ih =>
    rw [List.cons_append]
    cases hstep : step s c with
    | none => simp [run, hstep]
    | some a =>
      cases hrun : run a.2 cs with
      | none => simp [run, hstep, hrun, ih]
      | some b => simp [run, hstep, hrun, ih, Function.comp_def]

theorem digitValue_digit : ∀ d < 10, digitValue (Numerals.digit d) = some d := by
  decide

theorem digit_ne_quote : ∀ d < 10, Numerals.digit d ≠ char ' ' ∧ Numerals.digit d ≠ char '"' ∧
    Numerals.digit d ≠ char '\'' := by
  decide

/-- A decimal numeral is read as its number. -/
theorem run_decimal (n : Nat) : run .operand (Numerals.decimal n) = some ([], .number n) := by
  induction n using Nat.strongRecOn with
  | _ n ih =>
    rw [Numerals.decimal]
    split
    · next hlt =>
      obtain ⟨hspace, hquote, hsingle⟩ := digit_ne_quote n hlt
      simp [run, step, hspace, hquote, hsingle, digitValue_digit n hlt]
    · next hge =>
      have hmod : n % 10 < 10 := Nat.mod_lt _ (by omega)
      have hdiv : n / 10 * 10 + n % 10 = n := by omega
      rw [run_append, ih (n / 10) (by omega)]
      simp [run, step, digitValue_digit _ hmod, hdiv]

/-! ## Out of the double quotes -/

/-- Not in a string in double quotes. -/
def Outside : State → Prop
  | .str quote => quote = char '\''
  | _ => True

theorem afterStep_outside {s : State} (h : afterStep c = some s) : Outside s := by
  unfold afterStep at h
  split at h
  · exact Option.some.inj h ▸ trivial
  · split at h
    · exact Option.some.inj h ▸ trivial
    · cases h

/-- Only a double quote opens such a string. -/
theorem step_outside {s s' : State} {out : List UInt8} (h : Outside s) (hc : c ≠ char '"')
    (hstep : step s c = some (out, s')) : Outside s' := by
  cases s with
  | operand =>
    simp only [step, hc, false_or] at hstep
    split at hstep
    · cases hstep
      trivial
    · split at hstep
      · next hsingle =>
        cases hstep
        exact hsingle
      · obtain ⟨d, -, heq⟩ := Option.map_eq_some_iff.mp hstep
        cases heq
        trivial
  | str quote =>
    simp only [step, Option.some.injEq] at hstep
    split at hstep
    · cases hstep
      trivial
    · cases hstep
      exact h
  | number value =>
    simp only [step] at hstep
    cases hdigit : digitValue c with
    | some d =>
      rw [hdigit] at hstep
      cases hstep
      trivial
    | none =>
      rw [hdigit] at hstep
      obtain ⟨b, -, hb⟩ := Option.bind_eq_some_iff.mp hstep
      obtain ⟨s'', hafter, heq⟩ := Option.map_eq_some_iff.mp hb
      cases heq
      exact afterStep_outside hafter
  | after =>
    obtain ⟨s'', hafter, heq⟩ := Option.map_eq_some_iff.mp hstep
    cases heq
    exact afterStep_outside hafter

theorem run_outside {s s' : State} {out cs : List UInt8} (h : Outside s)
    (hcs : ∀ c ∈ cs, c ≠ char '"') (hrun : run s cs = some (out, s')) : Outside s' := by
  induction cs generalizing s out with
  | nil =>
    cases hrun
    exact h
  | cons c cs ih =>
    obtain ⟨hc, hcs'⟩ := List.forall_mem_cons.mp hcs
    obtain ⟨a, hstep, hrest⟩ := Option.bind_eq_some_iff.mp hrun
    obtain ⟨b, hb, heq⟩ := Option.map_eq_some_iff.mp hrest
    cases heq
    exact ih (step_outside h hc hstep) hcs' hb

theorem run_str {quote : UInt8} (cs : List UInt8) (h : ∀ c ∈ cs, c ≠ quote) :
    run (.str quote) cs = some (cs, .str quote) := by
  induction cs with
  | nil => rfl
  | cons c cs ih =>
    obtain ⟨hc, hcs⟩ := List.forall_mem_cons.mp h
    simp [run, step, hc, ih hcs]

/-- A double quote is read only between operands and in single quotes. -/
theorem step_quote {s s' : State} {out : List UInt8} (h : Outside s)
    (hstep : step s (char '"') = some (out, s')) :
    (s = .operand ∧ s' = .str (char '"') ∧ out = []) ∨
      (s = .str (char '\'') ∧ s' = s ∧ out = [char '"']) := by
  cases s with
  | operand =>
    have hopen : step .operand (char '"') = some ([], .str (char '"')) := rfl
    cases hopen.symm.trans hstep
    exact .inl ⟨rfl, rfl, rfl⟩
  | str quote =>
    obtain rfl : quote = char '\'' := h
    have hkept : step (.str (char '\'')) (char '"') = some ([char '"'], .str (char '\'')) := rfl
    cases hkept.symm.trans hstep
    exact .inr ⟨rfl, rfl, rfl⟩
  | number value =>
    have hdigit : digitValue (char '"') = none := rfl
    have hafter : afterStep (char '"') = none := rfl
    simp [step, hdigit, hafter] at hstep
  | after =>
    have hafter : afterStep (char '"') = none := rfl
    simp [step, hafter] at hstep

/-- A backslash is read in single quotes only. -/
theorem step_backslash {s s' : State} {out : List UInt8} (h : Outside s)
    (hstep : step s (char '\\') = some (out, s')) : s' = .str (char '\'') := by
  cases s with
  | operand => cases hstep
  | str quote =>
    obtain rfl : quote = char '\'' := h
    have hkept : step (.str (char '\'')) (char '\\') = some ([char '\\'], .str (char '\'')) := rfl
    cases hkept.symm.trans hstep
    rfl
  | number value =>
    have hdigit : digitValue (char '\\') = none := rfl
    have hafter : afterStep (char '\\') = none := rfl
    simp [step, hdigit, hafter] at hstep
  | after => cases hstep

/-- A text in double quotes is read as a string, or in single quotes. -/
theorem run_quoted {s s' : State} {out inner : List UInt8} (h : Outside s)
    (hinner : ∀ c ∈ inner, c ≠ char '"' ∧ c ≠ char '\'')
    (hrun : run s ([char '"'] ++ inner ++ [char '"']) = some (out, s')) : Outside s' := by
  rw [List.append_assoc, List.singleton_append] at hrun
  obtain ⟨a, hstep, hrest⟩ := Option.bind_eq_some_iff.mp hrun
  obtain ⟨b, hb, heq⟩ := Option.map_eq_some_iff.mp hrest
  cases heq
  rw [run_append] at hb
  rcases step_quote h hstep with ⟨-, hs', -⟩ | ⟨hs, hs', -⟩
  · have hclose : run (.str (char '"')) [char '"'] = some ([], .after) := rfl
    rw [hs', run_str inner fun c hc => (hinner c hc).1, Option.bind_some, hclose] at hb
    cases hb
    trivial
  · have hkept : run (.str (char '\'')) [char '"'] = some ([char '"'], .str (char '\'')) := rfl
    rw [hs', hs, run_str inner fun c hc => (hinner c hc).2, Option.bind_some, hkept] at hb
    cases hb
    rfl

/-- A string that is opened at the end of the line is not closed. -/
theorem read_open {quote : UInt8} (cs : List UInt8) (h : ∀ c ∈ cs, c ≠ quote) :
    read (.str quote) cs = none := by
  induction cs with
  | nil => rfl
  | cons c cs ih =>
    obtain ⟨hc, hcs⟩ := List.forall_mem_cons.mp h
    rw [read_str hc, ih hcs]
    rfl

theorem read_last_quote {s : State} (h : Outside s) (rest : List UInt8)
    (hrest : ∀ c ∈ rest, c ≠ char '"' ∧ c ≠ char '\'') : read s (char '"' :: rest) = none := by
  cases hstep : step s (char '"') with
  | none => exact read_refused hstep
  | some a =>
    obtain ⟨out, s'⟩ := a
    rw [read_step hstep]
    rcases step_quote h hstep with ⟨-, rfl, -⟩ | ⟨rfl, rfl, -⟩
    · rw [read_open rest fun c hc => (hrest c hc).1]
      rfl
    · rw [read_open rest fun c hc => (hrest c hc).2]
      rfl

end Aether.Lib.DbLine
