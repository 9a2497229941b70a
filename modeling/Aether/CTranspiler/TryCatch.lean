/-
Aether.CTranspiler.TryCatch — what `c_emit_try` makes of a try statement.

The text runs the body behind a `setjmp`, and the bodies of all arms one after
the other where the jump comes back. The types and the variables of the arms
are not printed. The buffer still holds this `setjmp` in the arms and in the
finally block, so an error that jumps from there comes back to the first arm.

The blocks are taken as they run: a block changes the state and is left in one
of the ways of `Leaving`. A throw jumps, but in a function that throws it is a
`return` (`c_emit_throw`).
-/
import Aether.Ast

namespace Aether.CTranspiler.TryCatch

/-! ## §1 The statement and its text -/

/-- A catch arm as the parser builds it. -/
structure CatchArm where
  type : Option AstNode
  var : Option Bytes
  body : AstNode
  isCatchAll : Bool

structure TryStmt where
  body : AstNode
  catchArms : List CatchArm
  finallyBody : Option AstNode

def CatchArm.node (arm : CatchArm) : AstNode := .catchArm arm.type arm.var (some arm.body) arm.isCatchAll

def TryStmt.node (stmt : TryStmt) : AstNode :=
  .tryNode (some stmt.body) (stmt.catchArms.map CatchArm.node) stmt.finallyBody

/-- `int __aether_try_val = setjmp(__aether_jmp_buf);`
`if (__aether_try_val == 0) { body } else { handlers }`, and the finally block
behind it. -/
structure TryCode where
  body : Option AstNode
  handlers : List AstNode
  after : Option AstNode

def handlerOf : AstNode → Option AstNode
  | .catchArm _ _ body _ => body
  | _ => none

def cEmitTry : AstNode → Option TryCode
  | .tryNode body catchArms finallyBody =>
    some ⟨body, catchArms.filterMap handlerOf, finallyBody⟩
  | _ => none

/-! ## §2 Runs -/

/-- How an error leaves a block in C. -/
inductive Way where
  /-- `longjmp` while the buffer holds the `setjmp` of this statement. -/
  | jump
  /-- `return __err;` of a throw in a function that throws. -/
  | returnError
  /-- `longjmp` while the buffer holds the `setjmp` of another statement. -/
  | astray
  deriving DecidableEq

/-- How a block is left: at its end, by a `return` or another jump out of the
statement, or by an error. -/
inductive Leaving (Err : Type) where
  | falls
  | leaves
  | raises (error : Err) (way : Way)
  deriving DecidableEq

inductive Event (Err : Type) where
  /-- The body of an arm starts, with its variable bound to an error. -/
  | arm (index : Nat) (bound : Option Err)
  | finally
  
section

variable {σ Err : Type}

/-- The blocks of the function, as they run in C. -/
abbrev Blocks (σ Err : Type) := AstNode → σ → σ × Leaving Err

variable (run : Blocks σ Err)

/-- The handlers from the one of index `i`, one after the other. -/
def runHandlers (i : Nat) : List AstNode → σ → List (Event Err) × σ × Leaving Err
  | [], s => ([], s, .falls)
  | body :: rest, s =>
    match run body s with
    | (s, .falls) =>
      let (events, s, l) := runHandlers (i + 1) rest s
      (.arm i none :: events, s, l)
    | (s, l) => ([.arm i none], s, l)

mutual

/-- The text behind the if. -/
def runAfter (code : TryCode) (fuel : Nat) (s : σ) : Option (List (Event Err)) :=
  match code.after with
  | none => some []
  | some body =>
    match run body s with
    | (s, .raises _ .jump) =>
      match fuel with
      | 0 => none
      | fuel + 1 => (runElse code fuel s).map (.finally :: ·)
    | (_, .raises _ .astray) => none
    | _ => some [.finally]

/-- The text from where a jump comes back. -/
def runElse (code : TryCode) (fuel : Nat) (s : σ) : Option (List (Event Err)) :=
  match runHandlers run 0 code.handlers s with
  | (events, s, .falls) => (runAfter code fuel s).map (events ++ ·)
  | (events, s, .raises _ .jump) =>
    match fuel with
    | 0 => none
    | fuel + 1 => (runElse code fuel s).map (events ++ ·)
  | (_, _, .raises _ .astray) => none
  | (events, _, _) => some events

end

/-- The statement as it is printed, with at most `fuel` jumps back. -/
def runCode (code : TryCode) (fuel : Nat) (s : σ) : Option (List (Event Err)) :=
  match code.body.elim (s, .falls) (run · s) with
  | (s, .falls) => runAfter run code fuel s
  | (s, .raises _ .jump) => runElse run code fuel s
  | (_, .raises _ .astray) => none
  | _ => some []

end

/-! ## §3 What is to run -/

section

variable {σ Err : Type} (run : Blocks σ Err)
-- whether an error is of the type of an arm
variable (isOf : AstNode → Err → Bool)

def CatchArm.catches (arm : CatchArm) (error : Err) : Bool :=
  arm.isCatchAll || arm.type.all (isOf · error)

/-- The first arm for an error, with its variable bound to it. -/
def armEvents (error : Err) (i : Nat) : List CatchArm → List (Event Err)
  | [] => []
  | arm :: rest =>
    if arm.catches isOf error then [.arm i (arm.var.map fun _ => error)]
    else armEvents error (i + 1) rest

def finallyEvents (stmt : TryStmt) : List (Event Err) :=
  match stmt.finallyBody with
  | some _ => [.finally]
  | none => []

/-- However the body is left: the arm for its error, and the finally block. -/
def meantEvents (stmt : TryStmt) : Leaving Err → List (Event Err)
  | .raises error _ => armEvents isOf error 0 stmt.catchArms ++ finallyEvents stmt
  | _ => finallyEvents stmt

/-- What is printed for the statement runs what is to run. -/
def RunsOneArm (stmt : TryStmt) (s : σ) : Prop :=
  ∃ code, cEmitTry stmt.node = some code ∧
    ∃ fuel, runCode run code fuel s = some (meantEvents isOf stmt (run stmt.body s).2)

/-- The finally block raises no error that jumps. -/
def FinallyKept (stmt : TryStmt) (s : σ) : Prop :=
  ∀ body, stmt.finallyBody = some body →
    ∀ error way, (run body s).2 = .raises error way → way = .returnError

/-- The block of an arm is left for good, or it ends and nothing follows it but
the finally block. -/
def ArmKept (stmt : TryStmt) (rest : List CatchArm) : σ × Leaving Err → Prop
  | (s, .falls) => rest = [] ∧ FinallyKept run stmt s
  | (_, .leaves) => stmt.finallyBody = none
  | (_, .raises _ way) => way = .returnError ∧ stmt.finallyBody = none

/-- The conditions, by how the body is left. -/
def OneArm (stmt : TryStmt) : σ × Leaving Err → Prop
  | (s, .falls) => FinallyKept run stmt s
  | (_, .leaves) => stmt.finallyBody = none
  | (_, .raises error .returnError) =>
    stmt.finallyBody = none ∧ ∀ arm ∈ stmt.catchArms, arm.catches isOf error = false
  | (_, .raises _ .astray) => False
  | (s, .raises error .jump) =>
    match stmt.catchArms with
    | [] => FinallyKept run stmt s
    | arm :: rest =>
      arm.catches isOf error = true ∧ arm.var = none ∧ ArmKept run stmt rest (run arm.body s)

-- the equations, before the proofs that share them
section
attribute [local simp] armEvents meantEvents ArmKept OneArm
end

end

/-! ## §4 When they are the same -/

section

variable {σ Err : Type} {run : Blocks σ Err} {isOf : AstNode → Err → Bool}

def codeOf (stmt : TryStmt) : TryCode :=
  ⟨some stmt.body, stmt.catchArms.map CatchArm.body, stmt.finallyBody⟩

-- the equations, before the proofs that share them
section
attribute [local simp] codeOf
end

theorem cEmitTry_node (stmt : TryStmt) : cEmitTry stmt.node = some (codeOf stmt) := by
  have hhandlers : (stmt.catchArms.map CatchArm.node).filterMap handlerOf =
      stmt.catchArms.map CatchArm.body := by
    rw [List.filterMap_map, ← List.filterMap_eq_map]
    rfl
  rw [TryStmt.node, cEmitTry, hhandlers, codeOf]

theorem runsOneArm_iff_code (stmt : TryStmt) (s : σ) :
    RunsOneArm run isOf stmt s ↔
      ∃ fuel, runCode run (codeOf stmt) fuel s = some (meantEvents isOf stmt (run stmt.body s).2) := by
  rw [RunsOneArm, cEmitTry_node]
  constructor
  · rintro ⟨code, hcode, h⟩
    obtain rfl := Option.some.inj hcode
    exact h
  · exact fun h => ⟨_, rfl, h⟩

/-- The handlers start with the first one. -/
theorem runHandlers_cons (i : Nat) (body : AstNode) (rest : List AstNode) (s : σ) :
    ∃ events, (runHandlers run i (body :: rest) s).1 = .arm i none :: events := by
  rw [runHandlers]
  split
  · exact ⟨_, rfl⟩
  · exact ⟨_, rfl⟩

/-- What follows a jump back starts with the first handler. -/
theorem runElse_head {code : TryCode} {body : AstNode} {rest : List AstNode}
    (hhandlers : code.handlers = body :: rest) {fuel : Nat} {s : σ} {events : List (Event Err)}
    (h : runElse run code fuel s = some events) : ∃ more, events = .arm 0 none :: more := by
  obtain ⟨first, hfirst⟩ := runHandlers_cons 0 body rest s
  rw [runElse, hhandlers] at h
  split at h
  · next heq =>
    rw [heq] at hfirst
    dsimp only at hfirst
    obtain ⟨_, _, rfl⟩ := Option.map_eq_some_iff.mp h
    exact ⟨_, by rw [hfirst, List.cons_append]⟩
  · next heq =>
    rw [heq] at hfirst
    dsimp only at hfirst
    cases fuel with
    | zero => cases h
    | succ fuel =>
      obtain ⟨_, _, rfl⟩ := Option.map_eq_some_iff.mp h
      exact ⟨_, by rw [hfirst, List.cons_append]⟩
  · cases h
  · next heq =>
    rw [heq] at hfirst
    exact ⟨_, (Option.some.inj h).symm.trans hfirst⟩

theorem nil_eq_finallyEvents_iff (stmt : TryStmt) :
    ([] : List (Event Err)) = finallyEvents stmt ↔ stmt.finallyBody = none := by
  unfold finallyEvents
  cases stmt.finallyBody <;> simp

theorem armEvents_eq_nil_iff (error : Err) (i : Nat) (arms : List CatchArm) :
    armEvents isOf error i arms = [] ↔ ∀ arm ∈ arms, arm.catches isOf error = false := by
  induction arms generalizing i with
  | nil => simp [armEvents]
  | cons arm arms ih =>
    rw [armEvents, List.forall_mem_cons]
    cases hcatches : arm.catches isOf error with
    | true => simp
    | false => simpa using ih (i + 1)

/-- Something runs after a jump back out of the finally block. -/
theorem runElse_ne_nil {code : TryCode} {body : AstNode} (hafter : code.after = some body)
    {fuel : Nat} {s : σ} : runElse run code fuel s ≠ some [] := by
  intro h
  cases hhandlers : code.handlers with
  | cons first rest =>
    obtain ⟨more, hmore⟩ := runElse_head hhandlers h
    cases hmore
  | nil =>
    rw [runElse, hhandlers, runHandlers] at h
    obtain ⟨events, hevents, hnil⟩ := Option.map_eq_some_iff.mp h
    obtain rfl : events = [] := hnil
    rw [runAfter, hafter] at hevents
    dsimp only at hevents
    split at hevents
    · cases fuel with
      | zero => cases hevents
      | succ fuel =>
        obtain ⟨_, _, hcons⟩ := Option.map_eq_some_iff.mp hevents
        cases hcons
    · cases hevents
    · cases hevents

theorem runAfter_iff (stmt : TryStmt) (s : σ) :
    (∃ fuel, runAfter run (codeOf stmt) fuel s = some (finallyEvents stmt)) ↔
      FinallyKept run stmt s := by
  unfold finallyEvents FinallyKept
  cases hfinally : stmt.finallyBody with
  | none =>
    refine iff_of_true ⟨0, ?_⟩ (by simp)
    rw [runAfter, codeOf, hfinally]
  | some body =>
    have hafter : (codeOf stmt).after = some body := hfinally
    simp only [Option.some.injEq, forall_eq']
    cases hrun : run body s with
    | mk s' l =>
      simp only [runAfter, hafter, hrun]
      match l with
      | .falls => simp
      | .leaves => simp
      | .raises error .returnError => simp
      | .raises error .astray => simp
      | .raises error .jump =>
        refine iff_of_false ?_ (by simp)
        rintro ⟨fuel, h⟩
        cases fuel with
        | zero => cases h
        | succ fuel =>
          obtain ⟨events, hevents, hcons⟩ := Option.map_eq_some_iff.mp h
          obtain rfl : events = [] := (List.cons.inj hcons).2
          exact runElse_ne_nil hafter hevents

/-- The arms start with the first one exactly if it catches the error. -/
theorem armEvents_head (stmt : TryStmt) (error : Err) (arm : CatchArm) (rest : List CatchArm)
    (more : List (Event Err)) :
    .arm 0 none :: more = armEvents isOf error 0 (arm :: rest) ++ finallyEvents stmt ↔
      arm.catches isOf error = true ∧ arm.var = none ∧ more = finallyEvents stmt := by
  have hlater : ∀ (arms : List CatchArm) (i : Nat), 0 < i →
      .arm 0 none :: more ≠ armEvents isOf error i arms ++ finallyEvents stmt := by
    intro arms
    induction arms with
    | nil =>
      intro i _ h
      rw [armEvents, List.nil_append, finallyEvents] at h
      split at h <;> cases h
    | cons arm arms ih =>
      intro i hi h
      rw [armEvents] at h
      split at h
      · obtain ⟨hindex, _⟩ := Event.arm.inj (List.cons.inj h).1
        omega
      · exact ih (i + 1) (by omega) h
  rw [armEvents]
  split
  · next hcatches =>
    rw [List.singleton_append, List.cons.injEq, Event.arm.injEq]
    cases arm.var <;> simp [hcatches]
  · next hcatches =>
    refine iff_of_false (hlater rest 1 (by omega)) ?_
    rintro ⟨h, _⟩
    exact hcatches h

/-- After a jump to the handlers, where there are any. -/
theorem runElse_arms_iff {stmt : TryStmt} {arm : CatchArm} {rest : List CatchArm}
    (harms : stmt.catchArms = arm :: rest) (error : Err) (s : σ) :
    (∃ fuel, runElse run (codeOf stmt) fuel s =
        some (armEvents isOf error 0 stmt.catchArms ++ finallyEvents stmt)) ↔
      arm.catches isOf error = true ∧ arm.var = none ∧ ArmKept run stmt rest (run arm.body s) := by
  have hhandlers : (codeOf stmt).handlers = arm.body :: rest.map CatchArm.body := by
    rw [codeOf, harms, List.map_cons]
  rw [harms]
  cases hrun : run arm.body s with
  | mk s' l =>
    match l with
    | .falls =>
      cases rest with
      | nil =>
        have helse (fuel : Nat) : runElse run (codeOf stmt) fuel s =
            (runAfter run (codeOf stmt) fuel s').map (.arm 0 none :: ·) := by
          rw [runElse, hhandlers]
          simp [runHandlers, hrun]
        simp only [helse, Option.map_eq_some_iff, armEvents_head, ArmKept, true_and]
        rw [← runAfter_iff]
        constructor
        · rintro ⟨fuel, events, hevents, hcatches, hvar, rfl⟩
          exact ⟨hcatches, hvar, fuel, hevents⟩
        · rintro ⟨hcatches, hvar, fuel, hevents⟩
          exact ⟨fuel, _, hevents, hcatches, hvar, rfl⟩
      | cons next rest =>
        -- the second arm runs too
        refine iff_of_false ?_ (by simp [ArmKept])
        rintro ⟨fuel, h⟩
        obtain ⟨more, hmore⟩ : ∃ more, (runHandlers run 1 (next.body :: rest.map CatchArm.body) s').1 =
            .arm 1 none :: more := runHandlers_cons 1 next.body _ s'
        have hevents : (runHandlers run 0 (codeOf stmt).handlers s).1 = .arm 0 none :: .arm 1 none :: more := by
          rw [hhandlers, List.map_cons, runHandlers]
          simp only [hrun, hmore]
        obtain ⟨tail, htail⟩ : ∃ tail, armEvents isOf error 0 (arm :: next :: rest) ++ finallyEvents stmt =
            .arm 0 none :: .arm 1 none :: tail := by
          rw [runElse] at h
          split at h
          · next heq =>
            rw [heq] at hevents
            dsimp only at hevents
            obtain ⟨after, _, hafter⟩ := Option.map_eq_some_iff.mp h
            exact ⟨more ++ after, by rw [← hafter, hevents]; rfl⟩
          · next heq =>
            rw [heq] at hevents
            dsimp only at hevents
            cases fuel with
            | zero => cases h
            | succ fuel =>
              obtain ⟨after, _, hafter⟩ := Option.map_eq_some_iff.mp h
              exact ⟨more ++ after, by rw [← hafter, hevents]; rfl⟩
          · cases h
          · next heq =>
            rw [heq] at hevents
            exact ⟨more, (Option.some.inj h).symm.trans hevents⟩
        have hfinally := ((armEvents_head stmt error arm _ _).mp htail.symm).2.2
        rw [finallyEvents] at hfinally
        split at hfinally <;> cases hfinally
    | .leaves =>
      have helse (fuel : Nat) : runElse run (codeOf stmt) fuel s = some [.arm 0 none] := by
        rw [runElse, hhandlers]
        simp [runHandlers, hrun]
      simp only [helse, exists_const, Option.some.injEq, armEvents_head, ArmKept]
      rw [nil_eq_finallyEvents_iff]
    | .raises raised .returnError =>
      have helse (fuel : Nat) : runElse run (codeOf stmt) fuel s = some [.arm 0 none] := by
        rw [runElse, hhandlers]
        simp [runHandlers, hrun]
      simp only [helse, exists_const, Option.some.injEq, armEvents_head, ArmKept, true_and]
      rw [nil_eq_finallyEvents_iff]
    | .raises raised .astray =>
      refine iff_of_false ?_ (by simp [ArmKept])
      rintro ⟨fuel, h⟩
      rw [runElse, hhandlers] at h
      simp [runHandlers, hrun] at h
    | .raises raised .jump =>
      -- the first arm runs again
      refine iff_of_false ?_ (by simp [ArmKept])
      rintro ⟨fuel, h⟩
      rw [runElse, hhandlers] at h
      simp only [runHandlers, hrun] at h
      cases fuel with
      | zero => cases h
      | succ fuel =>
        obtain ⟨events, hevents, heq⟩ := Option.map_eq_some_iff.mp h
        obtain ⟨more, rfl⟩ := runElse_head hhandlers hevents
        have hfinally := ((armEvents_head stmt error arm _ _).mp heq).2.2
        rw [finallyEvents] at hfinally
        split at hfinally <;> cases hfinally

/-- One arm runs and the finally block runs once, if and only if the body does
not leave the statement past its finally block, and the first arm is the one
for the error, binds nothing, and is left in a way that leads to no other. -/
theorem runsOneArm_iff (run : Blocks σ Err) (isOf : AstNode → Err → Bool) (stmt : TryStmt) (s : σ) :
    RunsOneArm run isOf stmt s ↔ OneArm run isOf stmt (run stmt.body s) := by
  rw [runsOneArm_iff_code]
  have hbody : (codeOf stmt).body = some stmt.body := rfl
  cases hrun : run stmt.body s with
  | mk s' l =>
    simp only [runCode, hbody, Option.elim_some, hrun]
    match l with
    | .falls => exact runAfter_iff stmt s'
    | .leaves =>
      simp only [exists_const, Option.some.injEq, meantEvents, OneArm]
      exact nil_eq_finallyEvents_iff stmt
    | .raises error .returnError =>
      simp only [exists_const, Option.some.injEq, meantEvents, OneArm]
      rw [List.nil_eq_append_iff, armEvents_eq_nil_iff, and_comm, ← nil_eq_finallyEvents_iff, eq_comm]
    | .raises error .astray => simp [OneArm]
    | .raises error .jump =>
      simp only [meantEvents, OneArm]
      cases harms : stmt.catchArms with
      | nil =>
        have helse (fuel : Nat) : runElse run (codeOf stmt) fuel s' =
            runAfter run (codeOf stmt) fuel s' := by
          rw [runElse, codeOf, harms]
          simp [runHandlers]
        simp only [helse, armEvents, List.nil_append]
        exact runAfter_iff stmt s'
      | cons arm rest =>
        have harmsIff := @runElse_arms_iff σ Err run isOf stmt arm rest harms error s'
        rw [harms] at harmsIff
        exact harmsIff

end

/-! ## §5 Two arms -/

/-- `try { throw e } catch A { } catch B { }` -/
def twoArms : TryStmt where
  body := .block [.throwNode (some (.ident (bytes "e")))]
  catchArms := [⟨some (.typeNamed (bytes "A")), none, .block [], false⟩,
    ⟨some (.typeNamed (bytes "B")), none, .block [], false⟩]
  finallyBody := none

/-- The body throws, the arms come to their ends. -/
def throwingBlocks : Blocks Unit Bytes
  | .block [], s => (s, .falls)
  | _, s => (s, .raises (bytes "A") .jump)

def namedIs : AstNode → Bytes → Bool
  | .typeNamed name, error => name == error
  | _, _ => false

/-- For an error of type `A` the arms of `A` and of `B` run. -/
theorem bothArms_run :
    (∀ fuel, runCode throwingBlocks (codeOf twoArms) fuel () = some [.arm 0 none, .arm 1 none]) ∧
      ¬ RunsOneArm throwingBlocks namedIs twoArms () := by
  have hrun (fuel : Nat) :
      runCode throwingBlocks (codeOf twoArms) fuel () = some [.arm 0 none, .arm 1 none] := by
    simp [runCode, codeOf, twoArms, throwingBlocks, runElse, runHandlers, runAfter]
  refine ⟨hrun, ?_⟩
  rw [runsOneArm_iff_code]
  rintro ⟨fuel, h⟩
  rw [hrun] at h
  cases h

end Aether.CTranspiler.TryCatch
