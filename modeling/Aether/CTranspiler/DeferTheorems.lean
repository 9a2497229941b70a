/-
Aether.CTranspiler.DeferTheorems — when the C text runs the bodies of
`defer` at the exits of their scopes.

The C text runs a body where the `defer` stands, and loses a body that is
no block. That is as good as running it at the exit of the scope exactly
where nothing is left to do in the scope (`deferComesLast`).
-/
import Aether.CTranspiler.Exec

namespace Aether.CTranspiler

open Aether.Lib.Recorded

/-! ## §1 Statements that evaluate nothing -/

def idleInit : Option CText → Bool
  | none => true
  | some text => text.nodes.isEmpty

mutual

/-- The statement evaluates, declares and releases nothing, and unless
`jumps`, it does not jump. -/
def idle (jumps : Bool) : CStmt → Bool
  | .comment => true
  | .decl _ init managed => idleInit init && managed.isEmpty
  | .unprinted _ => true
  | .expr text => text.nodes.isEmpty
  | .ret value => jumps && idleInit value
  | .brk => jumps
  | .cont => jumps
  | .goto _ => false
  | .longjmp => false
  | .braces body => idleList jumps body
  | .ite none thenBody _ => idleList jumps thenBody
  | .ite (some _) _ _ => false
  | .while _ _ => false
  | .forCounter _ _ _ => false
  | .tryCatch body _ => idleList jumps body
  | .inlined body => idleList jumps body
  | .deferred _ body => idleList jumps body

def idleList (jumps : Bool) : List CStmt → Bool
  | [] => true
  | stmt :: stmts => idle jumps stmt && idleList jumps stmts

end

theorem idle_evalText {jumps : Bool} {text : CText} (h : text.nodes.isEmpty = true) :
    Idle jumps (evalText text) := by
  rw [evalText, if_pos h, record_nil]
  exact idle_skip jumps

theorem idle_evalInit {jumps : Bool} : {init : Option CText} → idleInit init = true →
    Idle jumps (evalInit init)
  | none, _ => idle_skip jumps
  | some _, h => idle_evalText h

theorem managedOf_of_idle {jumps : Bool} {stmt : CStmt} (h : idle jumps stmt = true) :
    managedOf stmt = [] := by
  cases stmt with
  | decl name init managed =>
    rw [idle, Bool.and_eq_true] at h
    exact List.isEmpty_iff.mp h.2
  | _ => rfl

theorem flatMap_managedOf_of_idle {jumps : Bool} : {stmts : List CStmt} →
    idleList jumps stmts = true → stmts.flatMap managedOf = []
  | [], _ => rfl
  | stmt :: stmts, h => by
    rw [idleList, Bool.and_eq_true] at h
    rw [List.flatMap_cons, managedOf_of_idle h.1, flatMap_managedOf_of_idle h.2]
    rfl

section

variable {decide : List Event → Bool} {fuel : Nat}

mutual

theorem exec_idle {jumps : Bool} : {stmt : CStmt} → idle jumps stmt = true →
    Idle jumps (exec deferAtExit decide fuel stmt)
  | .comment, _ => by
    rw [exec]
    exact idle_skip jumps
  | .decl .., h => by
    rw [idle, Bool.and_eq_true] at h
    rw [exec]
    exact idle_evalInit h.1
  | .unprinted _, _ => by
    rw [exec]
    exact idle_skip jumps
  | .expr _, h => by
    rw [idle] at h
    rw [exec]
    exact idle_evalText h
  | .ret _, h => by
    rw [idle, Bool.and_eq_true] at h
    obtain ⟨rfl, h⟩ := h
    rw [exec]
    exact (idle_evalInit h).andThen (idle_exitBy _)
  | .brk, h => by
    rw [idle] at h
    rw [exec, h]
    exact idle_exitBy _
  | .cont, h => by
    rw [idle] at h
    rw [exec, h]
    exact idle_exitBy _
  | .braces _, h => by
    rw [idle] at h
    rw [exec]
    exact execList_idle h
  | .ite none _ _, h => by
    rw [idle] at h
    rw [exec]
    exact execList_idle h
  | .tryCatch _ _, h => by
    rw [idle] at h
    rw [exec]
    exact execList_idle h
  | .inlined _, h => by
    rw [idle] at h
    rw [exec, flatMap_managedOf_of_idle h]
    have hnone : deferAtExit.finish [] = skip := record_nil
    rw [hnone]
    exact (execBody_idle [] h).andThen (idle_skip jumps)
  | .deferred printed _, h => by
    rw [idle] at h
    rw [exec]
    cases printed with
    | false => exact idle_skip jumps
    | true => exact execList_idle h

theorem execList_idle {jumps : Bool} : {stmts : List CStmt} → idleList jumps stmts = true →
    Idle jumps (execList deferAtExit decide fuel stmts)
  | [], _ => by
    rw [execList]
    exact idle_skip jumps
  | _ :: _, h => by
    rw [idleList, Bool.and_eq_true] at h
    rw [execList]
    exact (exec_idle h.1).andThen (execList_idle h.2)

theorem execBody_idle {jumps : Bool} (declared : List Managed) : {stmts : List CStmt} →
    idleList jumps stmts = true → Idle jumps (execBody deferAtExit decide fuel declared stmts)
  | [], _ => by
    rw [execBody]
    exact idle_skip jumps
  | stmt :: stmts, h => by
    rw [idleList, Bool.and_eq_true] at h
    by_cases hdefer : ∃ printed body, stmt = .deferred printed body
    · obtain ⟨printed, body, rfl⟩ := hdefer
      rw [idle] at h
      rw [execBody, if_pos (show deferAtExit.permits printed body stmts = true from rfl)]
      -- the body comes after the rest, and neither records anything
      refine (execBody_idle declared h.2).afterwards ?_
      have hskip : whenLeft (execList deferAtExit decide fuel body) (deferAtExit.early declared) =
          execList deferAtExit decide fuel body := whenLeft_skip _
      rw [hskip]
      exact execList_idle h.1
    · rw [execBody_cons fun printed body heq => hdefer ⟨printed, body, heq⟩,
        managedOf_of_idle h.1, declares, List.map_nil, record_nil, andThen_skip]
      have hskip : whenLeft (exec deferAtExit decide fuel stmt) (deferAtExit.early declared) =
          exec deferAtExit decide fuel stmt := whenLeft_skip _
      rw [hskip]
      exact (exec_idle h.1).andThen (execBody_idle _ h.2)

end

end

/-! ## §2 A `defer` at the end of its scope -/

/-- The body of the `defer` does nothing, or it is printed and nothing is
left to do after it. -/
def deferComesLast (printed : Bool) (body rest : List CStmt) : Bool :=
  idleList false body || (printed && idleList true rest)

/-- What the C text does, as long as each `defer` that is reached comes last. -/
def emittedWhileLast : Policy := { emitted with permits := deferComesLast }

theorem emittedWhileLast_le_emitted : emittedWhileLast.Le emitted where
  permits _ := rfl
  deferred {decide fuel declared printed body rest r s} _ hr hs := by
    refine Le.andThen ?_ hs
    cases printed with
    | false => exact Le.refl _
    | true => exact hr
  early _ := Le.refl _
  finish _ := Le.refl _

theorem emittedWhileLast_le_deferAtExit : emittedWhileLast.Le deferAtExit where
  permits _ := rfl
  deferred {decide fuel declared printed body rest r s} hlast hr hs := by
    rcases Bool.or_eq_true _ _ ▸ hlast with hbody | hrest
    · -- the body is lost or runs at once, and does nothing
      have hskip : whenLeft (execList deferAtExit decide fuel body) (deferAtExit.early declared) =
          skip := (whenLeft_skip _).trans (execList_idle hbody).eq_skip
      rw [hskip] at hr ⊢
      have hrest : Le s (afterwards (execBody deferAtExit decide fuel declared rest) skip) := by
        rw [afterwards_skip]
        exact hs
      cases printed with
      | false => exact hrest
      | true => exact (hr.andThen (Le.refl s)).trans hrest
    · rw [Bool.and_eq_true] at hrest
      obtain ⟨rfl, hrest⟩ := hrest
      exact le_afterwards_of_idle hr hs (execBody_idle declared hrest)
  early _ := Le.refl _
  finish _ := Le.refl _

/-- A run of the function that `c_emit_func_decl` writes for `node`: its
history and how it ends. The decisions that are taken depend on the history
through `decide`, and no loop makes `fuel` turns. -/
def runFunction (p : Policy) (classes : List Bytes) (labels : AstNode → Nat) (node : AstNode)
    (decide : List Event → Bool) (fuel : Nat) : Option (List Event × Exit) :=
  match (cEmitFuncDecl classes labels node 0).1 with
  | none => none
  | some f => execList p decide fuel f.body []

theorem runFunction_le {p q : Policy} (hpq : p.Le q) {classes : List Bytes} {labels : AstNode → Nat}
    {node : AstNode} {decide : List Event → Bool} {fuel : Nat} {run : List Event × Exit}
    (hrun : runFunction p classes labels node decide fuel = some run) :
    runFunction q classes labels node decide fuel = some run := by
  unfold runFunction at hrun ⊢
  split
  · next hnone =>
    rw [hnone] at hrun
    cases hrun
  · next f hsome =>
    rw [hsome] at hrun
    exact execList_le hpq f.body _ _ hrun

/-- In a run in which each `defer` that is reached comes last, every body
runs when its scope is left, the later ones first. -/
theorem defers_run_at_scope_exit (classes : List Bytes) (labels : AstNode → Nat) (node : AstNode)
    (decide : List Event → Bool) (fuel : Nat) (run : List Event × Exit)
    (hrun : runFunction emittedWhileLast classes labels node decide fuel = some run) :
    runFunction emitted classes labels node decide fuel = some run ∧
      runFunction deferAtExit classes labels node decide fuel = some run :=
  ⟨runFunction_le emittedWhileLast_le_emitted hrun,
    runFunction_le emittedWhileLast_le_deferAtExit hrun⟩

/-! ## §3 A `defer` before the end -/

def callOf (name : String) : AstNode := .call (some (.ident (bytes name))) []

def callStmt (name : String) : AstNode := .exprStmt (some (callOf name))

def evalCall (name : String) : Event := .eval { nodes := [callOf name] }

def funcOf (stmts : List AstNode) : AstNode :=
  .funcDecl (bytes "f") [] [] none [] [] (some (.block stmts)) {}

/-- `open_(); defer { close_() }` -/
def deferLast : AstNode :=
  funcOf [callStmt "open_", .deferNode (some (.block [callStmt "close_"]))]

theorem defers_run_at_scope_exit_last :
    runFunction emitted [] (fun _ => 0) deferLast (fun _ => true) 1 =
        some ([evalCall "open_", evalCall "close_"], .fallThrough) ∧
      runFunction deferAtExit [] (fun _ => 0) deferLast (fun _ => true) 1 =
        some ([evalCall "open_", evalCall "close_"], .fallThrough) :=
  defers_run_at_scope_exit [] (fun _ => 0) deferLast (fun _ => true) 1 _ rfl

/-- `defer { close_() } write_()` -/
def deferFirst : AstNode :=
  funcOf [.deferNode (some (.block [callStmt "close_"])), callStmt "write_"]

/-- The deferred call runs before the statements after it. -/
theorem deferred_call_runs_at_once :
    runFunction emitted [] (fun _ => 0) deferFirst (fun _ => true) 1 =
        some ([evalCall "close_", evalCall "write_"], .fallThrough) ∧
      runFunction deferAtExit [] (fun _ => 0) deferFirst (fun _ => true) 1 =
        some ([evalCall "write_", evalCall "close_"], .fallThrough) ∧
      runFunction emitted [] (fun _ => 0) deferFirst (fun _ => true) 1 ≠
        runFunction deferAtExit [] (fun _ => 0) deferFirst (fun _ => true) 1 := by
  refine ⟨rfl, rfl, ?_⟩
  have hname : bytes "close_" ≠ bytes "write_" := by decide
  show some ([evalCall "close_", evalCall "write_"], Exit.fallThrough) ≠
    some ([evalCall "write_", evalCall "close_"], Exit.fallThrough)
  simp [evalCall, callOf, hname]

end Aether.CTranspiler
