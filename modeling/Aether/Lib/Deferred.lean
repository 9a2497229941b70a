/-
Aether.Lib.Deferred — actions that are put off and run again at each flush.

An action is a sequence of events: it puts another action on the pending
list, or flushes the list, which runs every pending action from the last to
the first and keeps them pending. A flush inside an action that is pending
runs that action again, so a run comes to an end only if no action does
this: `isSome_iff` says exactly when, by how deep the actions put off inside
actions are looked into (`Quiet`).
-/
import Mathlib.Data.List.Basic

namespace Aether.Lib.Deferred

inductive Event (α : Type*) where
  | push (a : α)
  | flush

section Definitions

variable {α : Type*}

/-- The pending list after a sequence of events; `flush` may fail to end. -/
def runEvents (flush : List α → Option (List α)) : List (Event α) → List α → Option (List α)
  | [], pending => some pending
  | .push a :: es, pending => runEvents flush es (pending ++ [a])
  | .flush :: es, pending =>
    match flush pending with
    | some pending' => runEvents flush es pending'
    | none => none

/-- The actions one after the other. -/
def runActions (flush : List α → Option (List α)) (events : α → List (Event α)) :
    List α → List α → Option (List α)
  | [], pending => some pending
  | a :: as, pending =>
    match runEvents flush (events a) pending with
    | some pending' => runActions flush events as pending'
    | none => none

/-- A flush: the actions that are pending when it starts, last to first. -/
def flushAll (events : α → List (Event α)) : Nat → List α → Option (List α)
  | 0, _ => none
  | fuel + 1, pending => runActions (flushAll events fuel) events pending.reverse pending

def hasFlush (es : List (Event α)) : Bool := es.any fun e => match e with
  | .flush => true
  | .push _ => false

def flushes (es : List (Event α)) : Nat := es.countP fun e => match e with
  | .flush => true
  | .push _ => false

def pushes (es : List (Event α)) : List α := es.filterMap fun e => match e with
  | .push a => some a
  | .flush => none

/-- Nothing flushes in the action, nor in the actions it puts off, down to
the depth: a pending action is run that many times. -/
def Quiet (events : α → List (Event α)) : Nat → α → Prop
  | 0, _ => True
  | n + 1, a => hasFlush (events a) = false ∧ ∀ b ∈ pushes (events a), Quiet events n b

/-- Each action that a sequence puts off is quiet as deep as the flushes
that follow run it. -/
def Orderly (events : α → List (Event α)) : List (Event α) → Prop
  | [] => True
  | .push a :: es => Quiet events (flushes es) a ∧ Orderly events es
  | .flush :: es => Orderly events es

-- the equations, before the proofs that share them
section
attribute [local simp] runEvents runActions flushAll hasFlush flushes Orderly
end

end Definitions

section Runs

variable {α : Type*} {events : α → List (Event α)}

@[simp] theorem pushes_push (a : α) (es : List (Event α)) :
    pushes (.push a :: es) = a :: pushes es := rfl

@[simp] theorem pushes_flush (es : List (Event α)) : pushes (.flush :: es) = pushes es := rfl

@[simp] theorem flushes_push (a : α) (es : List (Event α)) :
    flushes (.push a :: es) = flushes es := by
  simp [flushes]

@[simp] theorem flushes_flush (es : List (Event α)) :
    flushes (.flush :: es) = flushes es + 1 := by
  simp [flushes]

@[simp] theorem hasFlush_push (a : α) (es : List (Event α)) :
    hasFlush (.push a :: es) = hasFlush es := by
  simp [hasFlush]

@[simp] theorem hasFlush_flush (es : List (Event α)) : hasFlush (.flush :: es) = true := by
  simp [hasFlush]

/-- Without a flush the events only put actions off. -/
theorem runEvents_of_quiet {flush : List α → Option (List α)} {es : List (Event α)}
    (h : hasFlush es = false) (pending : List α) :
    runEvents flush es pending = some (pending ++ pushes es) := by
  induction es generalizing pending with
  | nil => simp [runEvents, pushes]
  | cons e es ih =>
    cases e with
    | push a =>
      rw [runEvents, ih (by simpa using h)]
      simp
    | flush => simp at h

/-- A pending action that flushes. -/
def Restless (events : α → List (Event α)) (pending : List α) : Prop :=
  ∃ a ∈ pending, hasFlush (events a) = true

theorem Restless.append {pending : List α} (h : Restless events pending) (more : List α) :
    Restless events (pending ++ more) := by
  obtain ⟨a, ha, hflush⟩ := h
  exact ⟨a, by simp [ha], hflush⟩

theorem runEvents_of_restless {flush : List α → Option (List α)}
    (hnone : ∀ pending, Restless events pending → flush pending = none) {es : List (Event α)}
    (hes : hasFlush es = true) {pending : List α} (h : Restless events pending) :
    runEvents flush es pending = none := by
  induction es generalizing pending with
  | nil => simp [hasFlush] at hes
  | cons e es ih =>
    cases e with
    | push a => exact ih (by simpa using hes) (h.append [a])
    | flush => rw [runEvents, hnone pending h]

theorem runActions_of_restless {flush : List α → Option (List α)}
    (hnone : ∀ pending, Restless events pending → flush pending = none) {as : List α}
    (has : Restless events as) {pending : List α} (h : Restless events pending) :
    runActions flush events as pending = none := by
  induction as generalizing pending with
  | nil =>
    obtain ⟨a, ha, -⟩ := has
    simp at ha
  | cons b as ih =>
    rw [runActions]
    by_cases hb : hasFlush (events b) = true
    · rw [runEvents_of_restless hnone hb h]
    · rw [runEvents_of_quiet (by simpa using hb)]
      obtain ⟨a, ha, hflush⟩ := has
      have hne : a ≠ b := fun hab => hb (hab ▸ hflush)
      exact ih ⟨a, by simpa [hne] using ha, hflush⟩ (h.append _)

/-- With a restless action pending no flush ends. -/
theorem flushAll_of_restless (fuel : Nat) {pending : List α} (h : Restless events pending) :
    flushAll events fuel pending = none := by
  induction fuel generalizing pending with
  | zero => rfl
  | succ fuel ih =>
    rw [flushAll]
    refine runActions_of_restless (fun p hp => ih hp) ?_ h
    obtain ⟨a, ha, hflush⟩ := h
    exact ⟨a, by simpa using ha, hflush⟩

/-- Without one it puts off what the pending actions put off. -/
theorem flushAll_of_quiet (fuel : Nat) {pending : List α}
    (h : ∀ a ∈ pending, hasFlush (events a) = false) :
    flushAll events (fuel + 1) pending =
      some (pending ++ pending.reverse.flatMap fun a => pushes (events a)) := by
  have hactions : ∀ as : List α, (∀ a ∈ as, hasFlush (events a) = false) → ∀ p,
      runActions (flushAll events fuel) events as p =
        some (p ++ as.flatMap fun a => pushes (events a)) := by
    intro as
    induction as with
    | nil => simp [runActions]
    | cons a as ih =>
      intro has p
      rw [runActions, runEvents_of_quiet (has a (by simp))]
      dsimp only
      rw [ih fun b hb => has b (by simp [hb])]
      simp
  rw [flushAll]
  exact hactions _ (by simpa using h) pending

theorem Quiet.mono {n : Nat} {a : α} (h : Quiet events (n + 1) a) : Quiet events n a := by
  induction n generalizing a with
  | zero => trivial
  | succ n ih => exact ⟨h.1, fun b hb => ih (h.2 b hb)⟩

/-- A run from a pending list ends exactly when the actions on the list and
those it puts off are quiet as deep as they are run. -/
theorem isSome_iff (fuel : Nat) (es : List (Event α)) (pending : List α) :
    (runEvents (flushAll events (fuel + 1)) es pending).isSome ↔
      (∀ a ∈ pending, Quiet events (flushes es) a) ∧ Orderly events es := by
  induction es generalizing pending with
  | nil => simp [runEvents, flushes, Quiet, Orderly]
  | cons e es ih =>
    cases e with
    | push a =>
      rw [runEvents, ih, Orderly, flushes_push]
      constructor
      · intro ⟨hpending, horderly⟩
        exact ⟨fun b hb => hpending b (by simp [hb]), hpending a (by simp), horderly⟩
      · intro ⟨hpending, ha, horderly⟩
        refine ⟨fun b hb => ?_, horderly⟩
        cases List.mem_append.mp hb with
        | inl hb => exact hpending b hb
        | inr hb => exact List.mem_singleton.mp hb ▸ ha
    | flush =>
      rw [runEvents, flushes_flush, Orderly]
      by_cases hrestless : Restless events pending
      · rw [flushAll_of_restless (fuel + 1) hrestless]
        obtain ⟨a, ha, hflush⟩ := hrestless
        constructor
        · intro h
          simp at h
        · intro ⟨hpending, _⟩
          have hquiet := (hpending a ha).1
          rw [hflush] at hquiet
          exact absurd hquiet (by simp)
      · have hquiet : ∀ a ∈ pending, hasFlush (events a) = false := by
          intro a ha
          by_contra hflush
          exact hrestless ⟨a, ha, by simpa using hflush⟩
        rw [flushAll_of_quiet fuel hquiet]
        dsimp only
        rw [ih]
        constructor
        · intro ⟨hpending, horderly⟩
          refine ⟨fun a ha => ⟨hquiet a ha, fun b hb => hpending b ?_⟩, horderly⟩
          exact List.mem_append_right _ (List.mem_flatMap.mpr ⟨a, by simpa using ha, hb⟩)
        · intro ⟨hpending, horderly⟩
          refine ⟨fun b hb => ?_, horderly⟩
          cases List.mem_append.mp hb with
          | inl hb => exact (hpending b hb).mono
          | inr hb =>
            obtain ⟨a, ha, hpush⟩ := List.mem_flatMap.mp hb
            exact (hpending a (by simpa using ha)).2 b hpush

end Runs

end Aether.Lib.Deferred
