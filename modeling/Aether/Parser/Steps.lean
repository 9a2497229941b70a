/-
Aether.Parser.Steps — executing parser computations.

`Steps procs x p a p'` with the parser's primitives: what each of them
gives, and which calls it makes (none).
-/
import Aether.Parser.Decl

namespace Aether

open Lib.Procedures

variable {p p' : Parser} {b : Bool} {c : Proc × Parser}

/-! ## §1 States -/

@[simp] theorem ensure_hasCurrent (p : Parser) : p.ensure.hasCurrent = true := by
  by_cases h : p.hasCurrent <;> simp [Parser.ensure, h, Parser.advance]

theorem ensure_of_hasCurrent {p : Parser} (h : p.hasCurrent = true) : p.ensure = p := by
  simp [Parser.ensure, h]

@[simp] theorem ensure_ensure (p : Parser) : p.ensure.ensure = p.ensure :=
  ensure_of_hasCurrent (ensure_hasCurrent p)

@[simp] theorem ensure_advance (p : Parser) : p.advance.ensure = p.advance :=
  ensure_of_hasCurrent rfl

/-- Nothing to skip. -/
theorem skipAll_of_not_mem {types : List TokenType} {p : Parser}
    (h : p.ensure.current.type ∉ types) : p.skipAll types = p.ensure := by
  rw [Parser.skipAll]
  cases p.ensure.lexer.pending <;> simp [Parser.skipLoop, h]

/-! ## §2 Steps -/

@[simp] theorem steps_check {type : TokenType} :
    Steps procs (check type) p b p' ↔ decide (p.ensure.current.type = type) = b ∧ p.ensure = p' := by
  simp [check, and_comm]

@[simp] theorem steps_checkAny {types : List TokenType} :
    Steps procs (checkAny types) p b p' ↔
      types.contains p.ensure.current.type = b ∧ p.ensure = p' := by
  simp [checkAny, and_comm]

@[simp] theorem steps_advance {a : Unit} : Steps procs advance p a p' ↔ p.advance = p' :=
  steps_modify

theorem steps_advance_bind {α : Type} {f : Unit → ParseM α} {a : α} :
    Steps procs (advance >>= f) p a p' ↔ Steps procs (f ()) p.advance a p' := by
  rw [steps_bind]
  constructor
  · intro ⟨_, _, hadv, h⟩
    rwa [steps_advance.mp hadv]
  · intro h
    exact ⟨(), _, steps_advance.mpr rfl, h⟩

theorem steps_takeTok_bind {α : Type} {f : Token → ParseM α} {a : α} :
    Steps procs (takeTok >>= f) p a p' ↔ Steps procs (f p.current) p.advance a p' := by
  rw [steps_bind]
  simp only [takeTok, steps_get_bind, steps_advance_bind, steps_pure]
  constructor
  · rintro ⟨_, _, ⟨htok, hadv⟩, h⟩
    rwa [htok, hadv]
  · intro h
    exact ⟨_, _, ⟨rfl, rfl⟩, h⟩

theorem steps_matchTok_true {type : TokenType} (h : p.ensure.current.type = type) :
    Steps procs (matchTok type) p b p' ↔ true = b ∧ p.ensure.advance = p' := by
  simp only [matchTok, steps_bind, steps_check]
  simp [h]

theorem steps_matchTok_false {type : TokenType} (h : p.ensure.current.type ≠ type) :
    Steps procs (matchTok type) p b p' ↔ false = b ∧ p.ensure = p' := by
  simp only [matchTok, steps_bind, steps_check]
  simp [h]

theorem steps_recur {proc : Proc} {r : proc.Result} :
    Steps procs (recur proc) p r p' ↔ ProcReturns procs proc p r p' := steps_callProc

/-! ## §3 Calls -/

@[simp] theorem makesCall_check {type : TokenType} : ¬ MakesCall procs (check type) p c := by
  simp [check]

@[simp] theorem makesCall_checkAny {types : List TokenType} :
    ¬ MakesCall procs (checkAny types) p c := by
  simp [checkAny]

@[simp] theorem makesCall_skipNewlinesIf : ¬ MakesCall procs (skipNewlinesIf b) p c := by
  simp [skipNewlinesIf]

@[simp] theorem makesCall_recur {proc : Proc} :
    MakesCall procs (recur proc) p c ↔ c = (proc, p) := makesCall_callProc

end Aether
