/-
Aether.CTranspiler.Exec — runs of the emitted statements.

A run records the expressions that it evaluates, the decisions that it
takes, and the managed variables that it declares and releases. `Policy`
leaves open what happens where the emitter and the language can differ: at a
`defer`, when control leaves a block early, and at the end of a block.
`emitted` is what the C text does; `deferAtExit` and `dropAtExit` are what
the language says.

`exec_le` compares the runs of two policies statement by statement.
-/
import Aether.CTranspiler.Stmt
import Aether.Lib.Recorded

namespace Aether.CTranspiler

open Aether.Lib.Recorded

/-! ## §1 Runs -/

inductive Event where
  | eval (text : CText)
  | branch (taken : Bool)
  | declare (m : Managed)
  | drop (m : Managed)

/-- Evaluating the expressions of the program in a text. -/
def evalText (text : CText) : Run Event :=
  record (if text.nodes.isEmpty then [] else [.eval text])

def evalInit : Option CText → Run Event
  | none => skip
  | some text => evalText text

structure Policy where
  /-- Whether a run may go on at a `defer`: is its body printed, the body,
  and the rest of the block. -/
  permits : Bool → List CStmt → List CStmt → Bool
  /-- A `defer`, from the runs of its body and of the rest. -/
  deferred : Bool → Run Event → Run Event → Run Event
  /-- Leaving a block after the declarations of these variables. -/
  early : List Managed → Run Event
  /-- The end of a block that declares these variables. -/
  finish : List Managed → Run Event

def declares (ms : List Managed) : Run Event := record (ms.map .declare)

def releases (ms : List Managed) : Run Event := record (ms.map .drop)

/-- What the C text does: the body of a `defer` runs where it stands, and
only the end of a block releases its variables. -/
def emitted : Policy where
  permits _ _ _ := true
  deferred printed body rest := andThen (if printed then body else skip) rest
  early _ := skip
  finish ms := releases (ms.map Managed.printed)

/-- The body of a `defer` runs when the block is left, after those of the
later ones. -/
def deferAtExit : Policy where
  permits _ _ _ := true
  deferred _ body rest := afterwards rest body
  early _ := skip
  finish ms := releases (ms.map Managed.printed)

/-- However a block is left, its variables are released. -/
def dropAtExit : Policy where
  permits _ _ _ := true
  deferred printed body rest := andThen (if printed then body else skip) rest
  early := releases
  finish := releases

section

variable (p : Policy) (decide : List Event → Bool) (fuel : Nat)

mutual

/-- A statement; `fuel` bounds the turns of each loop. A `goto` has no label
to go to, and the runs that throw are not followed. -/
def exec : CStmt → Run Event
  | .comment => skip
  | .decl _ init _ => evalInit init
  | .unprinted _ => skip
  | .expr text => evalText text
  | .ret value => andThen (evalInit value) (exitBy .returned)
  | .brk => exitBy .leaveLoop
  | .cont => exitBy .nextTurn
  | .goto _ => fail
  | .longjmp => fail
  | .braces body => execList body
  | .ite none thenBody _ => execList thenBody
  | .ite (some cond) thenBody elseBody =>
    andThen (evalText cond) (choose decide .branch (execList thenBody) (execList elseBody))
  | .while cond body => loop decide .branch (evalText cond) (execList body) fuel
  | .forCounter _ cond body => loop decide .branch (evalText cond) (execList body) fuel
  | .tryCatch body _ => execList body
  | .inlined body => andThen (execBody [] body) (p.finish (body.flatMap managedOf))
  | .deferred printed body => if printed then execList body else skip

def execList : List CStmt → Run Event
  | [] => skip
  | stmt :: stmts => andThen (exec stmt) (execList stmts)

/-- The statements of a block, after the declarations of `declared`. -/
def execBody (declared : List Managed) : List CStmt → Run Event
  | [] => skip
  | .deferred printed body :: stmts =>
    if p.permits printed body stmts then
      p.deferred printed (whenLeft (execList body) (p.early declared)) (execBody declared stmts)
    else fail
  | stmt :: stmts =>
    andThen (whenLeft (exec stmt) (p.early declared))
      (andThen (declares (managedOf stmt)) (execBody (declared ++ managedOf stmt) stmts))

end

end

/-! ## §2 Comparing policies -/

/-- Where `p` has a result, `q` has the same one. -/
structure Policy.Le (p q : Policy) : Prop where
  permits : ∀ {printed : Bool} {body rest : List CStmt},
    p.permits printed body rest = true → q.permits printed body rest = true
  deferred : ∀ {decide : List Event → Bool} {fuel : Nat} {declared : List Managed}
    {printed : Bool} {body rest : List CStmt} {r s : Run Event},
    p.permits printed body rest = true →
    Lib.Recorded.Le r (whenLeft (execList q decide fuel body) (q.early declared)) →
    Lib.Recorded.Le s (execBody q decide fuel declared rest) →
    Lib.Recorded.Le (p.deferred printed r s)
      (q.deferred printed (whenLeft (execList q decide fuel body) (q.early declared))
        (execBody q decide fuel declared rest))
  early : ∀ declared, Lib.Recorded.Le (p.early declared) (q.early declared)
  finish : ∀ declared, Lib.Recorded.Le (p.finish declared) (q.finish declared)

section

variable {p q : Policy} {decide : List Event → Bool} {fuel : Nat}

/-- The statements of a block that are no `defer`. -/
theorem execBody_cons {declared : List Managed} {stmt : CStmt} {stmts : List CStmt}
    (h : ∀ printed body, stmt ≠ .deferred printed body) :
    execBody p decide fuel declared (stmt :: stmts) =
      andThen (whenLeft (exec p decide fuel stmt) (p.early declared))
        (andThen (declares (managedOf stmt))
          (execBody p decide fuel (declared ++ managedOf stmt) stmts)) := by
  cases stmt with
  | deferred printed body => exact absurd rfl (h printed body)
  | _ =>
    rw [execBody]
    exact h

mutual

theorem exec_le (hpq : p.Le q) :
    (stmt : CStmt) → Le (exec p decide fuel stmt) (exec q decide fuel stmt)
  | .comment => by
    rw [exec, exec]
    exact Le.refl _
  | .decl .. => by
    rw [exec, exec]
    exact Le.refl _
  | .unprinted _ => by
    rw [exec, exec]
    exact Le.refl _
  | .expr _ => by
    rw [exec, exec]
    exact Le.refl _
  | .ret _ => by
    rw [exec, exec]
    exact Le.refl _
  | .brk => by
    rw [exec, exec]
    exact Le.refl _
  | .cont => by
    rw [exec, exec]
    exact Le.refl _
  | .goto _ => by
    rw [exec, exec]
    exact Le.refl _
  | .longjmp => by
    rw [exec, exec]
    exact Le.refl _
  | .braces body => by
    rw [exec, exec]
    exact execList_le hpq body
  | .ite none thenBody _ => by
    rw [exec, exec]
    exact execList_le hpq thenBody
  | .ite (some _) thenBody elseBody => by
    rw [exec, exec]
    exact (Le.refl _).andThen ((execList_le hpq thenBody).choose (execList_le hpq elseBody))
  | .while _ body => by
    rw [exec, exec]
    exact Le.loop (execList_le hpq body) fuel
  | .forCounter _ _ body => by
    rw [exec, exec]
    exact Le.loop (execList_le hpq body) fuel
  | .tryCatch body _ => by
    rw [exec, exec]
    exact execList_le hpq body
  | .inlined body => by
    rw [exec, exec]
    exact (execBody_le hpq [] body).andThen (hpq.finish _)
  | .deferred printed body => by
    rw [exec, exec]
    cases printed with
    | false => exact Le.refl _
    | true => exact execList_le hpq body

theorem execList_le (hpq : p.Le q) :
    (stmts : List CStmt) → Le (execList p decide fuel stmts) (execList q decide fuel stmts)
  | [] => by
    rw [execList, execList]
    exact Le.refl _
  | stmt :: stmts => by
    rw [execList, execList]
    exact (exec_le hpq stmt).andThen (execList_le hpq stmts)

theorem execBody_le (hpq : p.Le q) (declared : List Managed) :
    (stmts : List CStmt) →
      Le (execBody p decide fuel declared stmts) (execBody q decide fuel declared stmts)
  | [] => by
    rw [execBody, execBody]
    exact Le.refl _
  | stmt :: stmts => by
    by_cases hdefer : ∃ printed body, stmt = .deferred printed body
    · obtain ⟨printed, body, rfl⟩ := hdefer
      rw [execBody, execBody]
      by_cases hpermits : p.permits printed body stmts = true
      · rw [if_pos hpermits, if_pos (hpq.permits hpermits)]
        exact hpq.deferred hpermits ((execList_le hpq body).whenLeft (hpq.early declared))
          (execBody_le hpq declared stmts)
      · rw [if_neg hpermits]
        exact Le.fail _
    · have hother : ∀ printed body, stmt ≠ .deferred printed body :=
        fun printed body heq => hdefer ⟨printed, body, heq⟩
      rw [execBody_cons hother, execBody_cons hother]
      exact ((exec_le hpq stmt).whenLeft (hpq.early declared)).andThen
        ((Le.refl _).andThen (execBody_le hpq _ stmts))

end

end

end Aether.CTranspiler
