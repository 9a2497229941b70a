/-
Aether.CTranspiler.ReleaseTheorems — managed variables are released once.

A run under `dropAtExit` releases as many variables as it declares, on every
path. The C text releases variables at the end of a block only, so it does
the same as long as control does not leave a block early after such a
declaration (`emittedWhileReleased`). That a variable is not used after its
drop call is a matter of names, and `Rel.safe` settles it.
-/
import Aether.CTranspiler.DeferTheorems
import Aether.CTranspiler.ScopeTheorems

namespace Aether.CTranspiler

open Aether.Lib.Recorded

-- the equations, before the proofs that share them
section
attribute [local simp] exec execList execBody dropAtExit
end

/-! ## §1 Declarations and releases in a run -/

def Event.declares (m : Managed) : Event → Bool
  | .declare m' => m' == m
  | _ => false

def Event.drops (m : Managed) : Event → Bool
  | .drop m' => m' == m
  | _ => false

/-- How often the variable is declared and not yet released. -/
def pending (m : Managed) (history : List Event) : Int :=
  history.countP (Event.declares m) - history.countP (Event.drops m)

-- the equations, before the proofs that share them
section
attribute [local simp] Event.declares Event.drops pending
end

theorem pending_append (m : Managed) (h events : List Event) :
    pending m (h ++ events) = pending m h + pending m events := by
  unfold pending
  rw [List.countP_append, List.countP_append]
  omega

theorem pending_declare (m : Managed) (ms : List Managed) :
    pending m (ms.map .declare) = ms.count m := by
  induction ms with
  | nil => rfl
  | cons m' ms ih =>
    rw [List.map_cons, ← List.singleton_append, pending_append, ih, List.count_cons]
    by_cases hm : m' = m
    · simp [pending, Event.declares, Event.drops, hm]
      omega
    · simp [pending, Event.declares, Event.drops, hm]

theorem pending_drop (m : Managed) (ms : List Managed) :
    pending m (ms.map .drop) = -ms.count m := by
  induction ms with
  | nil => rfl
  | cons m' ms ih =>
    rw [List.map_cons, ← List.singleton_append, pending_append, ih, List.count_cons]
    by_cases hm : m' = m
    · simp [pending, Event.declares, Event.drops, hm]
    · simp [pending, Event.declares, Event.drops, hm]

/-- A run of `r` that ends by `e` leaves `change e` more declarations pending. -/
structure Changes (m : Managed) (r : Run Event) (change : Exit → Int) : Prop where
  pending_eq : ∀ {h h' e}, r h = some (h', e) → pending m h' = pending m h + change e

section

variable {m : Managed} {r s : Run Event} {change change' : Exit → Int}

theorem changes_exitBy (e : Exit) (hnone : change e = 0) : Changes m (exitBy e) change where
  pending_eq hrun := by
    obtain ⟨rfl, rfl⟩ := Prod.mk.inj (Option.some.inj hrun)
    rw [hnone, Int.add_zero]

theorem changes_record {events : List Event} (hchange : change .fallThrough = pending m events) :
    Changes m (record events) change where
  pending_eq hrun := by
    obtain ⟨rfl, rfl⟩ := Prod.mk.inj (Option.some.inj hrun)
    rw [pending_append, hchange]

theorem Changes.congr (hr : Changes m r change) (h : ∀ e, change e = change' e) :
    Changes m r change' where
  pending_eq hrun := (hr.pending_eq hrun).trans (by rw [h])

theorem Changes.after {k : Exit → Run Event} (hr : Changes m r change)
    (hk : ∀ e, Changes m (k e) fun e' => change' e' - change e) :
    Changes m (after r k) change' where
  pending_eq hrun := by
    obtain ⟨h₁, e, hr₁, hk₁⟩ := after_eq_some hrun
    have hfirst := hr.pending_eq hr₁
    have hsecond := (hk e).pending_eq hk₁
    omega

theorem Changes.andThen (hr : Changes m r change)
    (hs : Changes m s fun e => change' e - change .fallThrough)
    (hjump : ∀ e, e ≠ .fallThrough → change' e = change e) :
    Changes m (andThen r s) change' :=
  have hexit : ∀ e, e ≠ .fallThrough →
      Changes m (exitBy e) fun e' => change' e' - change e := fun e he =>
    changes_exitBy e (by rw [hjump e he, Int.sub_self])
  hr.after fun e => by
    cases e with
    | fallThrough => exact hs
    | leaveLoop => exact hexit _ Exit.noConfusion
    | nextTurn => exact hexit _ Exit.noConfusion
    | returned => exact hexit _ Exit.noConfusion

/-- A run of `r` leaves nothing pending. -/
abbrev Balanced (m : Managed) (r : Run Event) : Prop := Changes m r fun _ => 0

theorem balanced_fail : Balanced m fail where
  pending_eq hrun := by cases hrun

theorem Balanced.andThen (hr : Balanced m r) (hs : Balanced m s) : Balanced m (andThen r s) :=
  Changes.andThen hr hs fun _ _ => rfl

theorem Balanced.choose {decide : List Event → Bool} (hr : Balanced m r) (hs : Balanced m s) :
    Balanced m (choose decide .branch r s) where
  pending_eq {h h' e} hrun := by
    have hmark : ∀ taken, pending m (h ++ [.branch taken]) = pending m h := fun taken => by
      rw [pending_append]
      exact Int.add_zero _
    unfold Lib.Recorded.choose at hrun
    split at hrun
    · rw [hr.pending_eq hrun, hmark]
    · rw [hs.pending_eq hrun, hmark]

theorem Balanced.loop {decide : List Event → Bool} (hr : Balanced m r) (hs : Balanced m s)
    (n : Nat) : Balanced m (loop decide .branch r s n) := by
  induction n with
  | zero => exact balanced_fail
  | succ n ih =>
    refine hr.andThen (Balanced.choose ?_ (changes_exitBy _ rfl))
    refine hs.after fun e => ?_
    cases e with
    | fallThrough => exact ih
    | leaveLoop => exact changes_exitBy _ rfl
    | nextTurn => exact ih
    | returned => exact changes_exitBy _ rfl

/-- The change of a run that releases the variables if it is left early. -/
def releasedEarly (m : Managed) (declared : List Managed) (total : Int) : Exit → Int
  | .fallThrough => total
  | _ => -declared.count m

-- the equations, before the proofs that share them
section
attribute [local simp] releasedEarly
end

theorem releasedEarly_of_jump {declared : List Managed} {total : Int} (total' : Int) {e : Exit}
    (he : e ≠ .fallThrough) : releasedEarly m declared total e = releasedEarly m declared total' e := by
  cases e with
  | fallThrough => exact absurd rfl he
  | leaveLoop => rfl
  | nextTurn => rfl
  | returned => rfl

theorem releasedEarly_nil {total : Int} {e : Exit} (he : e ≠ .fallThrough) :
    releasedEarly m [] total e = 0 := by
  cases e with
  | fallThrough => exact absurd rfl he
  | leaveLoop => rfl
  | nextTurn => rfl
  | returned => rfl

theorem releasedEarly_append {declared ms ms' : List Managed} (e : Exit) :
    releasedEarly m (declared ++ ms) (ms'.count m) e =
      releasedEarly m declared ((ms ++ ms').count m) e - releasedEarly m declared 0 .fallThrough -
        releasedEarly m declared (ms.count m) .fallThrough := by
  cases e with
  | fallThrough =>
    simp only [releasedEarly, List.count_append]
    omega
  | leaveLoop =>
    simp only [releasedEarly, List.count_append]
    omega
  | nextTurn =>
    simp only [releasedEarly, List.count_append]
    omega
  | returned =>
    simp only [releasedEarly, List.count_append]
    omega

theorem Balanced.whenLeft (hr : Balanced m r) (declared : List Managed) :
    Changes m (whenLeft r (releases declared)) (releasedEarly m declared 0) := by
  have hreleases : ∀ e, e ≠ Exit.fallThrough →
      Changes m (Lib.Recorded.after (releases declared) fun _ => exitBy e) fun e' =>
        releasedEarly m declared 0 e' - 0 := fun e he => by
    have hdrops : Changes m (releases declared) fun _ => -declared.count m :=
      changes_record (pending_drop m declared).symm
    refine hdrops.after fun _ => changes_exitBy e ?_
    cases e with
    | fallThrough => exact absurd rfl he
    | leaveLoop => simp [releasedEarly]
    | nextTurn => simp [releasedEarly]
    | returned => simp [releasedEarly]
  refine hr.after fun e => ?_
  cases e with
  | fallThrough => exact changes_exitBy _ rfl
  | leaveLoop => exact hreleases _ Exit.noConfusion
  | nextTurn => exact hreleases _ Exit.noConfusion
  | returned => exact hreleases _ Exit.noConfusion

end

/-! ## §2 Releases at every exit -/

section

variable {m : Managed} {decide : List Event → Bool} {fuel : Nat}

theorem balanced_evalText (text : CText) : Balanced m (evalText text) := by
  refine changes_record ?_
  split <;> rfl

theorem balanced_evalInit : (init : Option CText) → Balanced m (evalInit init)
  | none => changes_exitBy _ rfl
  | some text => balanced_evalText text

theorem balanced_printed {printed : Bool} {body : Run Event} (hbody : Balanced m body) :
    Balanced m (if printed then body else skip) := by
  cases printed with
  | false => exact changes_exitBy _ rfl
  | true => exact hbody

theorem changes_printed {printed : Bool} {body : Run Event} {declared : List Managed}
    (hbody : Changes m body (releasedEarly m declared 0)) :
    Changes m (if printed then body else skip) (releasedEarly m declared 0) := by
  cases printed with
  | false => exact changes_exitBy _ rfl
  | true => exact hbody

mutual

theorem exec_balanced : (stmt : CStmt) → Balanced m (exec dropAtExit decide fuel stmt)
  | .comment => by
    rw [exec]
    exact changes_exitBy _ rfl
  | .decl _ init _ => by
    rw [exec]
    exact balanced_evalInit init
  | .unprinted _ => by
    rw [exec]
    exact changes_exitBy _ rfl
  | .expr text => by
    rw [exec]
    exact balanced_evalText text
  | .ret value => by
    rw [exec]
    exact (balanced_evalInit value).andThen (changes_exitBy _ rfl)
  | .brk => by
    rw [exec]
    exact changes_exitBy _ rfl
  | .cont => by
    rw [exec]
    exact changes_exitBy _ rfl
  | .goto _ => by
    rw [exec]
    exact balanced_fail
  | .longjmp => by
    rw [exec]
    exact balanced_fail
  | .braces body => by
    rw [exec]
    exact execList_balanced body
  | .ite none thenBody _ => by
    rw [exec]
    exact execList_balanced thenBody
  | .ite (some cond) thenBody elseBody => by
    rw [exec]
    exact (balanced_evalText cond).andThen
      ((execList_balanced thenBody).choose (execList_balanced elseBody))
  | .while cond body => by
    rw [exec]
    exact (balanced_evalText cond).loop (execList_balanced body) fuel
  | .forCounter _ cond body => by
    rw [exec]
    exact (balanced_evalText cond).loop (execList_balanced body) fuel
  | .tryCatch body _ => by
    rw [exec]
    exact execList_balanced body
  | .inlined body => by
    rw [exec]
    -- what the block declares is pending until its end
    refine (execBody_changes [] body).andThen (changes_record ?_) fun e he =>
      (releasedEarly_nil he).symm
    rw [pending_drop]
    exact Int.zero_sub _
  | .deferred printed body => by
    rw [exec]
    exact balanced_printed (execList_balanced body)

theorem execList_balanced : (stmts : List CStmt) → Balanced m (execList dropAtExit decide fuel stmts)
  | [] => by
    rw [execList]
    exact changes_exitBy _ rfl
  | stmt :: stmts => by
    rw [execList]
    exact (exec_balanced stmt).andThen (execList_balanced stmts)

theorem execBody_changes (declared : List Managed) : (stmts : List CStmt) →
    Changes m (execBody dropAtExit decide fuel declared stmts)
      (releasedEarly m declared ((stmts.flatMap managedOf).count m))
  | [] => by
    rw [execBody]
    exact changes_exitBy _ rfl
  | stmt :: stmts => by
    by_cases hdefer : ∃ printed body, stmt = .deferred printed body
    · obtain ⟨printed, body, rfl⟩ := hdefer
      rw [execBody, if_pos (show dropAtExit.permits printed body stmts = true from rfl)]
      refine (changes_printed ((execList_balanced body).whenLeft declared)).andThen ?_ fun e he =>
        releasedEarly_of_jump _ he
      exact (execBody_changes declared stmts).congr fun e => (Int.sub_zero _).symm
    · rw [execBody_cons fun printed body heq => hdefer ⟨printed, body, heq⟩]
      have hdeclares : Changes m (declares (managedOf stmt))
          (releasedEarly m declared ((managedOf stmt).count m)) :=
        changes_record (pending_declare m _).symm
      refine ((exec_balanced stmt).whenLeft declared).andThen ?_ fun e he =>
        releasedEarly_of_jump _ he
      refine hdeclares.andThen
        ((execBody_changes (declared ++ managedOf stmt) stmts).congr fun e => ?_) fun e he => ?_
      · rw [List.flatMap_cons]
        exact releasedEarly_append e
      · exact (Int.sub_zero _).trans (releasedEarly_of_jump _ he)

end

end

/-! ## §3 Runs without early exits -/

/-- What the C text does, as long as no jump leaves a block after the
declaration of a managed variable and the drop calls are not cut. -/
def emittedWhileReleased : Policy where
  permits := emitted.permits
  deferred := emitted.deferred
  early declared := if declared = [] then skip else fail
  finish declared := if declared.map Managed.printed = declared then releases declared else fail

-- the equations, before the proofs that share them
section
attribute [local simp] emittedWhileReleased
end

theorem le_emitted_deferred {r r' s s' : Run Event} (printed : Bool) (hr : Le r r')
    (hs : Le s s') :
    Le (emitted.deferred printed r s) (emitted.deferred printed r' s') := by
  refine Le.andThen ?_ hs
  cases printed with
  | false => exact Le.refl _
  | true => exact hr

theorem emittedWhileReleased_le_emitted : emittedWhileReleased.Le emitted where
  permits _ := rfl
  deferred {_ _ _ printed _ _ _ _} _ hr hs := le_emitted_deferred printed hr hs
  early declared := by
    simp only [emittedWhileReleased]
    split
    · exact Le.refl _
    · exact Le.fail _
  finish declared := by
    simp only [emittedWhileReleased, emitted]
    split
    · next hprinted =>
      rw [hprinted]
      exact Le.refl _
    · exact Le.fail _

theorem emittedWhileReleased_le_dropAtExit : emittedWhileReleased.Le dropAtExit where
  permits _ := rfl
  deferred {_ _ _ printed _ _ _ _} _ hr hs := le_emitted_deferred printed hr hs
  early declared := by
    simp only [emittedWhileReleased, dropAtExit]
    split
    · next hnone =>
      rw [hnone, releases, List.map_nil, record_nil]
      exact Le.refl _
    · exact Le.fail _
  finish declared := by
    simp only [emittedWhileReleased, dropAtExit]
    split
    · exact Le.refl _
    · exact Le.fail _

/-- A function that is left releases each variable as often as it is declared. -/
theorem dropAtExit_balanced {classes : List Bytes} {labels : AstNode → Nat} {node : AstNode}
    {decide : List Event → Bool} {fuel : Nat} {history : List Event} {e : Exit}
    (hrun : runFunction dropAtExit classes labels node decide fuel = some (history, e))
    (m : Managed) : history.countP (Event.declares m) = history.countP (Event.drops m) := by
  unfold runFunction at hrun
  split at hrun
  · cases hrun
  · next f _ =>
    have hpending : pending m history = 0 := (execList_balanced f.body).pending_eq hrun
    unfold pending at hpending
    omega

def ownedLet (name call : String) : AstNode :=
  .letNode (bytes name) (some (.typeRef (some (.typeNamed (bytes "T"))) { isOwned := true }))
    (some (callOf call)) false false

def ownedVar (name : String) : Managed := ⟨bytes name, .ownedFree⟩

/-- `let p: owned T = open_() write_()` -/
def ownedToEnd : AstNode := funcOf [ownedLet "p" "open_", callStmt "write_"]

/-- `let p: owned T = open_() return` -/
def ownedReturn : AstNode := funcOf [ownedLet "p" "open_", .returnNode none]

end Aether.CTranspiler
