/-
Aether.Lib.Recorded — commands that record what they do.

A command extends a history of events and says how it ends; its decisions
depend on the history alone and are recorded in it. A command without a
result does not run to an end. `Idle` commands record nothing, and `Le`
compares commands by their results. Every combinator is an instance of
`after` or `choose`, so the other rules follow from the rules for these two.
-/
import Mathlib.Tactic.Common

namespace Aether.Lib.Recorded

/-! ## §1 Commands -/

/-- How a command ends: the jumps are to the end of the enclosing loop, to
its next turn, and out of everything. -/
inductive Exit where
  | fallThrough | leaveLoop | nextTurn | returned
  deriving DecidableEq, Repr

abbrev Run (ε : Type) := List ε → Option (List ε × Exit)

section

variable {ε : Type}

def fail : Run ε := fun _ => none

def record (events : List ε) : Run ε := fun h => some (h ++ events, .fallThrough)

def exitBy (e : Exit) : Run ε := fun h => some (h, e)

/-- `r`, and then what `k` says for the way in which `r` ended. -/
def after (r : Run ε) (k : Exit → Run ε) : Run ε := fun h =>
  match r h with
  | none => none
  | some (h', e) => k e h'

def skip : Run ε := exitBy .fallThrough

/-- `r`, and `s` if `r` ends normally. -/
def andThen (r s : Run ε) : Run ε :=
  after r fun
    | .fallThrough => s
    | e => exitBy e

/-- `r`, and `s` however `r` ends; a jump of `s` is taken. -/
def afterwards (r s : Run ε) : Run ε :=
  after r fun e => after s fun
    | .fallThrough => exitBy e
    | e' => exitBy e'

/-- `r`, and `s` before a jump of `r` is taken. -/
def whenLeft (r s : Run ε) : Run ε :=
  after r fun
    | .fallThrough => skip
    | e => after s fun _ => exitBy e

/-- A decision, and the command for it. -/
def choose (decide : List ε → Bool) (mark : Bool → ε) (r s : Run ε) : Run ε := fun h =>
  if decide h then r (h ++ [mark true]) else s (h ++ [mark false])

/-- A turn of a loop, and `rest` for the turns after it. -/
def turn (body rest : Run ε) : Run ε :=
  after body fun
    | .fallThrough => rest
    | .nextTurn => rest
    | .leaveLoop => skip
    | .returned => exitBy .returned

/-- A loop of fewer than `n` turns. -/
def loop (decide : List ε → Bool) (mark : Bool → ε) (test body : Run ε) : (n : Nat) → Run ε
  | 0 => fail
  | n + 1 => andThen test (choose decide mark (turn body (loop decide mark test body n)) skip)

theorem after_of {r : Run ε} {h h' : List ε} {e : Exit} (hr : r h = some (h', e))
    (k : Exit → Run ε) : after r k h = k e h' := by
  rw [after, hr]

theorem after_eq_some {r : Run ε} {k : Exit → Run ε} {h : List ε} {p : List ε × Exit}
    (hrun : after r k h = some p) : ∃ h' e, r h = some (h', e) ∧ k e h' = some p := by
  unfold after at hrun
  split at hrun
  · cases hrun
  · next h' e hr => exact ⟨h', e, hr, hrun⟩

/-! ## §2 Commands that only end -/

theorem record_nil : (record [] : Run ε) = skip := by
  funext h
  rw [record, List.append_nil]
  rfl

theorem andThen_skip (s : Run ε) : andThen skip s = s := rfl

/-- `r` does nothing but end, and unless `jumps`, it ends normally. -/
def Idle (jumps : Bool) (r : Run ε) : Prop :=
  ∃ e, r = exitBy e ∧ (jumps = false → e = .fallThrough)

theorem idle_skip (jumps : Bool) : Idle jumps (skip : Run ε) := ⟨.fallThrough, rfl, fun _ => rfl⟩

theorem idle_exitBy (e : Exit) : Idle true (exitBy e : Run ε) := ⟨e, rfl, Bool.noConfusion⟩

theorem Idle.eq_skip {r : Run ε} (hr : Idle false r) : r = skip := by
  obtain ⟨e, rfl, he⟩ := hr
  rw [he rfl]
  rfl

theorem Idle.after {jumps : Bool} {r : Run ε} {k : Exit → Run ε} (hr : Idle jumps r)
    (hk : ∀ e, (jumps = false → e = .fallThrough) → Idle jumps (k e)) :
    Idle jumps (after r k) := by
  obtain ⟨e, rfl, he⟩ := hr
  exact hk e he

theorem Idle.andThen {jumps : Bool} {r s : Run ε} (hr : Idle jumps r) (hs : Idle jumps s) :
    Idle jumps (andThen r s) :=
  hr.after fun e he => by
    cases e with
    | fallThrough => exact hs
    | leaveLoop => exact ⟨_, rfl, he⟩
    | nextTurn => exact ⟨_, rfl, he⟩
    | returned => exact ⟨_, rfl, he⟩

theorem Idle.afterwards {jumps : Bool} {r s : Run ε} (hr : Idle jumps r) (hs : Idle jumps s) :
    Idle jumps (afterwards r s) :=
  hr.after fun e he => hs.after fun e' he' => by
    cases e' with
    | fallThrough => exact ⟨_, rfl, he⟩
    | leaveLoop => exact ⟨_, rfl, he'⟩
    | nextTurn => exact ⟨_, rfl, he'⟩
    | returned => exact ⟨_, rfl, he'⟩

theorem whenLeft_skip (r : Run ε) : whenLeft r skip = r := by
  funext h
  unfold whenLeft after
  split
  · next hr => exact hr.symm
  · next h' e hr =>
    rw [hr]
    cases e with
    | fallThrough => rfl
    | leaveLoop => rfl
    | nextTurn => rfl
    | returned => rfl

theorem afterwards_skip (r : Run ε) : afterwards r skip = r := by
  funext h
  unfold afterwards after
  split
  · next hr => exact hr.symm
  · next h' e hr => exact hr.symm

/-! ## §3 Comparing commands -/

/-- Every result of `r` is one of `s`. -/
def Le (r s : Run ε) : Prop := ∀ h p, r h = some p → s h = some p

theorem Le.refl (r : Run ε) : Le r r := fun _ _ h => h

theorem Le.trans {r s t : Run ε} (hrs : Le r s) (hst : Le s t) : Le r t :=
  fun h p hrun => hst h p (hrs h p hrun)

theorem Le.fail (r : Run ε) : Le fail r := fun _ _ h => by cases h

theorem Le.after {r r' : Run ε} {k k' : Exit → Run ε} (hr : Le r r') (hk : ∀ e, Le (k e) (k' e)) :
    Le (after r k) (after r' k') := by
  intro h p hrun
  obtain ⟨h₁, e, hr₁, hk₁⟩ := after_eq_some hrun
  rw [after_of (hr _ _ hr₁)]
  exact hk e _ _ hk₁

theorem Le.andThen {r r' s s' : Run ε} (hr : Le r r') (hs : Le s s') :
    Le (andThen r s) (andThen r' s') :=
  hr.after fun e => by
    cases e with
    | fallThrough => exact hs
    | leaveLoop => exact Le.refl _
    | nextTurn => exact Le.refl _
    | returned => exact Le.refl _

theorem Le.afterwards {r r' s s' : Run ε} (hr : Le r r') (hs : Le s s') :
    Le (afterwards r s) (afterwards r' s') :=
  hr.after fun _ => hs.after fun _ => Le.refl _

/-- What only ends may as well come first. -/
theorem le_afterwards_of_idle {r r' s s' : Run ε} (hr : Le r r') (hs : Le s s')
    (hidle : Idle true s') : Le (andThen r s) (afterwards s' r') := by
  obtain ⟨e, rfl, _⟩ := hidle
  refine hr.after fun e' => ?_
  cases e' with
  | fallThrough => exact hs
  | leaveLoop => exact Le.refl _
  | nextTurn => exact Le.refl _
  | returned => exact Le.refl _

theorem Le.whenLeft {r r' s s' : Run ε} (hr : Le r r') (hs : Le s s') :
    Le (whenLeft r s) (whenLeft r' s') :=
  hr.after fun e => by
    cases e with
    | fallThrough => exact Le.refl _
    | leaveLoop => exact hs.after fun _ => Le.refl _
    | nextTurn => exact hs.after fun _ => Le.refl _
    | returned => exact hs.after fun _ => Le.refl _

theorem Le.turn {body body' rest rest' : Run ε} (hbody : Le body body') (hrest : Le rest rest') :
    Le (turn body rest) (turn body' rest') :=
  hbody.after fun e => by
    cases e with
    | fallThrough => exact hrest
    | leaveLoop => exact Le.refl _
    | nextTurn => exact hrest
    | returned => exact Le.refl _

theorem Le.choose {decide : List ε → Bool} {mark : Bool → ε} {r r' s s' : Run ε} (hr : Le r r')
    (hs : Le s s') : Le (choose decide mark r s) (choose decide mark r' s') := by
  intro h p hrun
  unfold Recorded.choose at hrun ⊢
  split
  · next hd =>
    rw [if_pos hd] at hrun
    exact hr _ _ hrun
  · next hd =>
    rw [if_neg hd] at hrun
    exact hs _ _ hrun

theorem Le.loop {decide : List ε → Bool} {mark : Bool → ε} {test body body' : Run ε}
    (hbody : Le body body') (n : Nat) :
    Le (loop decide mark test body n) (loop decide mark test body' n) := by
  induction n with
  | zero => exact Le.refl _
  | succ n ih => exact (Le.refl test).andThen ((hbody.turn ih).choose (Le.refl _))

end

end Aether.Lib.Recorded
