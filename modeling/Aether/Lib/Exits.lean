/-
Aether.Lib.Exits — where the control paths of a statement come out.

A path comes out at the end of the statement, or at a break of the loop around
it. The other paths leave the function, go to the next turn of the loop, or
stay inside for ever. Names nothing of the compiler.
-/
import Mathlib.Data.Bool.Basic

namespace Aether.Lib

/-- Whether some path comes out at the end, and whether some comes out at a
break of the loop around. -/
structure Exits where
  falls : Bool
  breaks : Bool
  deriving DecidableEq, Repr

namespace Exits

def skip : Exits := ⟨true, false⟩

/-- A statement after which nothing is reached. -/
def leave : Exits := ⟨false, false⟩

def brk : Exits := ⟨false, true⟩

def seq (a b : Exits) : Exits := ⟨a.falls && b.falls, a.breaks || (a.falls && b.breaks)⟩

/-- A choice, which a known condition decides. -/
def branch (cond : Option Bool) (a b : Exits) : Exits :=
  match cond with
  | some true => a
  | some false => b
  | none => ⟨a.falls || b.falls, a.breaks || b.breaks⟩

/-- A loop, which comes out where its condition can fail and at its breaks. -/
def loop (cond : Option Bool) (body : Exits) : Exits := ⟨cond != some true || body.breaks, false⟩

variable (a b c : Exits)

@[simp] theorem skip_seq : skip.seq a = a := by
  simp [seq, skip]

@[simp] theorem seq_skip : a.seq skip = a := by
  simp [seq, skip]

@[simp] theorem leave_seq : leave.seq a = leave := by
  simp [seq, leave]

theorem seq_assoc : (a.seq b).seq c = a.seq (b.seq c) := by
  simp [seq, Bool.and_assoc, Bool.and_or_distrib_left, Bool.or_assoc]

@[simp] theorem falls_seq : (a.seq b).falls = (a.falls && b.falls) := rfl

@[simp] theorem falls_skip : skip.falls = true := rfl

@[simp] theorem falls_leave : leave.falls = false := rfl

end Exits

end Aether.Lib
