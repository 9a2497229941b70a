/-
Aether.Lib.LoopTraces — commands over a state that record their counted
loops.

A command ends in a state, with an exit, and with a trace of the counted
loops that it went through: for every turn the value that it was entered
with and the loops inside. A command without an outcome does not end.

`Compares kept x y` relates two commands. Where `kept` holds, `y` does what
`x` does; and where `y` records what `x` records, it did the same and `kept`
holds. So `kept` is the exact condition for equal traces, and each
combinator has a rule that builds its condition from those of its parts.
-/
import Aether.Lib.Recorded

namespace Aether.Lib.LoopTraces

open Aether.Lib.Recorded (Exit)

/-! ## §1 Commands -/

/-- A counted loop: the values of its turns, each with the loops inside. -/
inductive LoopTrace where
  | mk (turns : List (UInt64 × List LoopTrace))

structure Outcome (S : Type) where
  state : S
  exit : Exit
  loops : List LoopTrace

abbrev Cmd (S : Type) := S → Option (Outcome S)

/-- The exits after which a sequence goes on. -/
def falls : Exit → Bool
  | .fallThrough => true
  | _ => false

/-- The exits after which a loop goes on. -/
def goesOn : Exit → Bool
  | .fallThrough | .nextTurn => true
  | _ => false

/-- How a loop ends when a turn of it ends the loop. -/
def loopExit : Exit → Exit
  | .leaveLoop => .fallThrough
  | e => e

section

variable {S : Type}

/-- The loops of an earlier command come first. -/
def Outcome.after (loops : List LoopTrace) (o : Outcome S) : Outcome S :=
  { o with loops := loops ++ o.loops }

def ended (e : Exit) : Cmd S := fun s => some ⟨s, e, []⟩

def fail : Cmd S := fun _ => none

/-- `x`, and `y` after the exits in `go`; `close` is made of the others. -/
def sequel (go : Exit → Bool) (close : Exit → Exit) (x y : Cmd S) : Cmd S := fun s =>
  (x s).bind fun o =>
    if go o.exit then (y o.state).map (Outcome.after o.loops)
    else some { o with exit := close o.exit }

def andThen (x y : Cmd S) : Cmd S := sequel falls id x y

/-- A turn of a loop, and the turns after it. -/
def turn (body more : Cmd S) : Cmd S := sequel goesOn loopExit body more

/-- A test, and the command for its result. -/
def choose (test : S → Option (S × Bool)) (x y : Cmd S) : Cmd S := fun s =>
  (test s).bind fun
    | (s', true) => x s'
    | (s', false) => y s'

/-- A loop of fewer than `n` turns. -/
def whileTest (test : S → Option (S × Bool)) (body : Cmd S) : (n : Nat) → Cmd S
  | 0 => fail
  | n + 1 => choose test (turn body (whileTest test body n)) (ended .fallThrough)

/-! ## §2 Counted loops -/

/-- A counted loop that ended: its last state, its exit and its turns. -/
structure Walk (S : Type) where
  state : S
  exit : Exit
  turns : List (UInt64 × List LoopTrace)

def Walk.after (v : UInt64) (loops : List LoopTrace) (w : Walk S) : Walk S :=
  { w with turns := (v, loops) :: w.turns }

/-- The outcome of the loop as a command. -/
def Walk.outcome (w : Walk S) : Outcome S := ⟨w.state, w.exit, [.mk w.turns]⟩

/-- A turn with value `v` that ended with `o`, and the turns after it. -/
def walkTurn (v : UInt64) (o : Outcome S) (more : S → Option (Walk S)) : Option (Walk S) :=
  if goesOn o.exit then (more o.state).map (Walk.after v o.loops)
  else some ⟨o.state, loopExit o.exit, [(v, o.loops)]⟩

/-- The body once for each of the values. -/
def forValues (body : UInt64 → Cmd S) : List UInt64 → S → Option (Walk S)
  | [], s => some ⟨s, .fallThrough, []⟩
  | v :: values, s => (body v s).bind fun o => walkTurn v o (forValues body values)

/-- The body as long as `test` holds; `value` is that of the turn. -/
def whileValue (value : S → UInt64) (test : S → Bool) (body : Cmd S) :
    (n : Nat) → S → Option (Walk S)
  | 0, _ => none
  | n + 1, s =>
    if test s then (body s).bind fun o => walkTurn (value s) o (whileValue value test body n)
    else some ⟨s, .fallThrough, []⟩

/-! ## §3 Outcomes -/

theorem sequel_eq_some {go : Exit → Bool} {close : Exit → Exit} {x y : Cmd S} {s : S}
    {o : Outcome S} (h : sequel go close x y s = some o) :
    ∃ o₁, x s = some o₁ ∧
      ((go o₁.exit = true ∧ ∃ o₂, y o₁.state = some o₂ ∧ o = o₂.after o₁.loops) ∨
        (go o₁.exit = false ∧ o = { o₁ with exit := close o₁.exit })) := by
  obtain ⟨o₁, hx, h⟩ := Option.bind_eq_some_iff.mp h
  refine ⟨o₁, hx, ?_⟩
  cases hgo : go o₁.exit with
  | true =>
    rw [hgo, if_pos rfl] at h
    obtain ⟨o₂, hy, rfl⟩ := Option.map_eq_some_iff.mp h
    exact .inl ⟨rfl, o₂, hy, rfl⟩
  | false =>
    rw [hgo, if_neg Bool.false_ne_true] at h
    exact .inr ⟨rfl, (Option.some.inj h).symm⟩

theorem sequel_go {go : Exit → Bool} {close : Exit → Exit} {x y : Cmd S} {s : S} {o : Outcome S}
    (hx : x s = some o) (hgo : go o.exit = true) :
    sequel go close x y s = (y o.state).map (Outcome.after o.loops) := by
  rw [sequel, hx, Option.bind_some, if_pos hgo]

theorem sequel_stop {go : Exit → Bool} {close : Exit → Exit} {x y : Cmd S} {s : S} {o : Outcome S}
    (hx : x s = some o) (hgo : go o.exit = false) :
    sequel go close x y s = some { o with exit := close o.exit } := by
  rw [sequel, hx, Option.bind_some, hgo, if_neg Bool.false_ne_true]

theorem sequel_none {go : Exit → Bool} {close : Exit → Exit} {x y : Cmd S} {s : S}
    (hx : x s = none) : sequel go close x y s = none := by
  rw [sequel, hx, Option.bind_none]

/-- A command that records nothing, and the command after it. -/
theorem andThen_quiet {x y : Cmd S} {s s' : S} (h : x s = some ⟨s', .fallThrough, []⟩) :
    andThen x y s = y s' := by
  refine (sequel_go h rfl).trans ?_
  cases hy : y s' with
  | none => rfl
  | some o => rfl

theorem ended_andThen (x : Cmd S) : andThen (ended .fallThrough) x = x :=
  funext fun _ => andThen_quiet rfl

theorem andThen_assoc (x y z : Cmd S) : andThen (andThen x y) z = andThen x (andThen y z) := by
  funext s
  cases hx : x s with
  | none =>
    have hxy : andThen x y s = none := sequel_none hx
    exact (sequel_none hxy).trans (sequel_none hx).symm
  | some o =>
    cases hfalls : falls o.exit with
    | false =>
      have hxy : andThen x y s = some o := sequel_stop hx hfalls
      exact (sequel_stop hxy hfalls).trans (sequel_stop hx hfalls).symm
    | true =>
      have hxy : andThen x y s = (y o.state).map (Outcome.after o.loops) := sequel_go hx hfalls
      refine Eq.trans ?_ (sequel_go hx hfalls).symm
      cases hy : y o.state with
      | none =>
        have hyz : andThen y z o.state = none := sequel_none hy
        rw [hy] at hxy
        rw [hyz]
        exact sequel_none hxy
      | some o' =>
        rw [hy, Option.map_some] at hxy
        cases hfalls' : falls o'.exit with
        | false =>
          have hyz : andThen y z o.state = some o' := sequel_stop hy hfalls'
          rw [hyz]
          exact sequel_stop hxy hfalls'
        | true =>
          have hyz : andThen y z o.state = (z o'.state).map (Outcome.after o'.loops) :=
            sequel_go hy hfalls'
          rw [hyz, Option.map_map]
          refine (sequel_go hxy hfalls').trans ?_
          refine congrArg (fun f => Option.map f (z o'.state)) ?_
          funext o''
          simp [Outcome.after, List.append_assoc]

theorem andThen_ended (x : Cmd S) : andThen x (ended .fallThrough) = x := by
  funext s
  match hx : x s with
  | none => exact sequel_none hx
  | some ⟨s', .fallThrough, loops⟩ =>
    refine (sequel_go hx rfl).trans ?_
    simp [ended, Outcome.after]
  | some ⟨s', .leaveLoop, loops⟩ => exact sequel_stop hx rfl
  | some ⟨s', .nextTurn, loops⟩ => exact sequel_stop hx rfl
  | some ⟨s', .returned, loops⟩ => exact sequel_stop hx rfl

end

/-! ## §4 Comparing commands -/

section

variable {S : Type}

structure Compares (kept : S → Prop) (x y : Cmd S) : Prop where
  follows : ∀ {s o}, kept s → x s = some o → y s = some o
  /-- The traces may be followed by others, `more` and `more'`. -/
  reveals : ∀ {s o o' more more'}, x s = some o → y s = some o' →
    o.loops ++ more = o'.loops ++ more' → o = o' ∧ kept s

/-- A command and itself. -/
theorem compares_refl (x : Cmd S) : Compares (fun _ => True) x x where
  follows _ h := h
  reveals h h' _ := ⟨Option.some.inj (h.symm.trans h'), trivial⟩

/-- The condition for `x`, and for the command after it where it runs. -/
def KeptSequel (go : Exit → Bool) (x : Cmd S) (kx ky : S → Prop) (s : S) : Prop :=
  kx s ∧ ∀ o, x s = some o → go o.exit = true → ky o.state

theorem Compares.sequel {go : Exit → Bool} {close : Exit → Exit} {kx ky : S → Prop}
    {x x' y y' : Cmd S} (hx : Compares kx x x') (hy : Compares ky y y') :
    Compares (KeptSequel go x kx ky) (sequel go close x y) (sequel go close x' y') where
  follows := by
    intro s o hkept h
    obtain ⟨o₁, hrun, ⟨hgo, o₂, hrest, rfl⟩ | ⟨hgo, rfl⟩⟩ := sequel_eq_some h
    · rw [sequel_go (hx.follows hkept.1 hrun) hgo, hy.follows (hkept.2 o₁ hrun hgo) hrest]
      rfl
    · exact sequel_stop (hx.follows hkept.1 hrun) hgo
  reveals := by
    intro s o o' more more' h h' htrace
    obtain ⟨o₁, hrun, hcase⟩ := sequel_eq_some h
    obtain ⟨o₁', hrun', hcase'⟩ := sequel_eq_some h'
    -- either way the trace of the first command comes first
    have hfirst : ∃ rest rest', o₁.loops ++ rest = o₁'.loops ++ rest' := by
      obtain ⟨-, o₂, -, rfl⟩ | ⟨-, rfl⟩ := hcase
      · obtain ⟨-, o₂', -, rfl⟩ | ⟨-, rfl⟩ := hcase'
        · refine ⟨o₂.loops ++ more, o₂'.loops ++ more', ?_⟩
          simpa only [Outcome.after, List.append_assoc] using htrace
        · refine ⟨o₂.loops ++ more, more', ?_⟩
          simpa only [Outcome.after, List.append_assoc] using htrace
      · obtain ⟨-, o₂', -, rfl⟩ | ⟨-, rfl⟩ := hcase'
        · refine ⟨more, o₂'.loops ++ more', ?_⟩
          simpa only [Outcome.after, List.append_assoc] using htrace
        · exact ⟨more, more', htrace⟩
    obtain ⟨rest, rest', hfront⟩ := hfirst
    obtain ⟨rfl, hkx⟩ := hx.reveals hrun hrun' hfront
    obtain ⟨hgo, o₂, hrest, rfl⟩ | ⟨hgo, rfl⟩ := hcase
    · obtain ⟨-, o₂', hrest', rfl⟩ | ⟨hgo', -⟩ := hcase'
      · simp only [Outcome.after, List.append_assoc] at htrace
        obtain ⟨rfl, hky⟩ := hy.reveals hrest hrest' (List.append_cancel_left htrace)
        refine ⟨rfl, hkx, ?_⟩
        intro o hrun'' _
        rw [hrun] at hrun''
        cases hrun''
        exact hky
      · rw [hgo] at hgo'
        cases hgo'
    · obtain ⟨hgo', -⟩ | ⟨-, rfl⟩ := hcase'
      · rw [hgo] at hgo'
        cases hgo'
      · refine ⟨rfl, hkx, ?_⟩
        intro o hrun'' hgo''
        rw [hrun] at hrun''
        cases hrun''
        rw [hgo] at hgo''
        cases hgo''

/-- The condition for the command that the test chooses. -/
def KeptChoice (test : S → Option (S × Bool)) (kx ky : S → Prop) (s : S) : Prop :=
  ∀ s' b, test s = some (s', b) → if b then kx s' else ky s'

theorem Compares.choose {test : S → Option (S × Bool)} {kx ky : S → Prop} {x x' y y' : Cmd S}
    (hx : Compares kx x x') (hy : Compares ky y y') :
    Compares (KeptChoice test kx ky) (choose test x y) (choose test x' y') where
  follows := by
    intro s o hkept h
    obtain ⟨⟨s', b⟩, htest, h⟩ := Option.bind_eq_some_iff.mp h
    refine Option.bind_eq_some_iff.mpr ⟨(s', b), htest, ?_⟩
    have hk := hkept s' b htest
    cases b with
    | true => exact hx.follows hk h
    | false => exact hy.follows hk h
  reveals := by
    intro s o o' more more' h h' htrace
    obtain ⟨⟨s', b⟩, htest, h⟩ := Option.bind_eq_some_iff.mp h
    obtain ⟨p, htest', h'⟩ := Option.bind_eq_some_iff.mp h'
    rw [htest] at htest'
    cases htest'
    have hpart : o = o' ∧ if b then kx s' else ky s' := by
      cases b with
      | true => exact hx.reveals h h' htrace
      | false => exact hy.reveals h h' htrace
    refine ⟨hpart.1, ?_⟩
    intro s'' b' htest''
    rw [htest] at htest''
    cases htest''
    exact hpart.2

def KeptWhile (test : S → Option (S × Bool)) (body : Cmd S) (kept : S → Prop) : (n : Nat) → S → Prop
  | 0 => fun _ => True
  | n + 1 =>
    KeptChoice test (KeptSequel goesOn body kept (KeptWhile test body kept n)) fun _ => True

/-- The second loop may make more turns. -/
theorem Compares.whileTest {test : S → Option (S × Bool)} {kept : S → Prop} {body body' : Cmd S}
    (hbody : Compares kept body body') {n m : Nat} (hle : n ≤ m) :
    Compares (KeptWhile test body kept n) (whileTest test body n) (whileTest test body' m) := by
  induction n generalizing m with
  | zero =>
    refine ⟨fun _ h => ?_, fun h _ _ => ?_⟩
    · cases h
    · cases h
  | succ n ih =>
    cases m with
    | zero => cases hle
    | succ m => exact (hbody.sequel (ih (Nat.le_of_succ_le_succ hle))).choose (compares_refl _)

/-- Two loops with the same turns. -/
theorem Compares.walks {kept : S → Prop} {f g : S → Option (Walk S)}
    (hfollows : ∀ {s w}, kept s → f s = some w → g s = some w)
    (hreveals : ∀ {s w w'}, f s = some w → g s = some w' → w.turns = w'.turns → w = w' ∧ kept s) :
    Compares kept (fun s => (f s).map Walk.outcome) (fun s => (g s).map Walk.outcome) where
  follows := by
    intro s o hkept h
    obtain ⟨w, hw, rfl⟩ := Option.map_eq_some_iff.mp h
    exact Option.map_eq_some_iff.mpr ⟨w, hfollows hkept hw, rfl⟩
  reveals := by
    intro s o o' more more' h h' htrace
    obtain ⟨w, hw, rfl⟩ := Option.map_eq_some_iff.mp h
    obtain ⟨w', hw', rfl⟩ := Option.map_eq_some_iff.mp h'
    have hturns : w.turns = w'.turns := LoopTrace.mk.inj (List.cons.inj htrace).1
    obtain ⟨rfl, hkept⟩ := hreveals hw hw' hturns
    exact ⟨rfl, hkept⟩

end

/-! ## §5 Turns -/

section

variable {S : Type}

theorem walkTurn_go {v : UInt64} {o : Outcome S} {more : S → Option (Walk S)}
    (h : goesOn o.exit = true) : walkTurn v o more = (more o.state).map (Walk.after v o.loops) := by
  rw [walkTurn, if_pos h]

theorem walkTurn_stop {v : UInt64} {o : Outcome S} {more : S → Option (Walk S)}
    (h : goesOn o.exit = false) :
    walkTurn v o more = some ⟨o.state, loopExit o.exit, [(v, o.loops)]⟩ := by
  rw [walkTurn, h, if_neg Bool.false_ne_true]

/-- Every walk that starts with a turn records it first. -/
theorem walkTurn_turns {v : UInt64} {o : Outcome S} {more : S → Option (Walk S)} {w : Walk S}
    (h : walkTurn v o more = some w) : ∃ turns, w.turns = (v, o.loops) :: turns := by
  cases hgo : goesOn o.exit with
  | true =>
    rw [walkTurn_go hgo] at h
    obtain ⟨w', -, rfl⟩ := Option.map_eq_some_iff.mp h
    exact ⟨w'.turns, rfl⟩
  | false =>
    rw [walkTurn_stop hgo] at h
    cases h
    exact ⟨[], rfl⟩

end

/-! ## §6 Simulations -/

section

variable {S T : Type}

def Outcome.mapState (φ : S → T) (o : Outcome S) : Outcome T := ⟨φ o.state, o.exit, o.loops⟩

def Walk.mapState (φ : S → T) (w : Walk S) : Walk T := ⟨φ w.state, w.exit, w.turns⟩

/-- In the states `φ s`, `y` does what `x` does in `s`. -/
def Simulates (φ : S → T) (x : Cmd S) (y : Cmd T) : Prop :=
  ∀ s, y (φ s) = (x s).map (Outcome.mapState φ)

/-- A test that does not depend on what `φ` adds. -/
def SameTest (φ : S → T) (test : S → Option (S × Bool)) (test' : T → Option (T × Bool)) : Prop :=
  ∀ s, test' (φ s) = (test s).map fun p => (φ p.1, p.2)

variable {φ : S → T}

theorem simulates_ended (e : Exit) : Simulates φ (ended e) (ended e) := fun _ => rfl

theorem simulates_fail : Simulates φ fail fail := fun _ => rfl

theorem Simulates.sequel {go : Exit → Bool} {close : Exit → Exit} {x y : Cmd S} {x' y' : Cmd T}
    (hx : Simulates φ x x') (hy : Simulates φ y y') :
    Simulates φ (sequel go close x y) (sequel go close x' y') := by
  intro s
  have hx' := hx s
  cases hrun : x s with
  | none =>
    rw [hrun] at hx'
    rw [sequel_none hx', sequel_none hrun]
    rfl
  | some o =>
    rw [hrun] at hx'
    cases hgo : go o.exit with
    | false =>
      rw [sequel_stop hx' hgo, sequel_stop hrun hgo]
      rfl
    | true =>
      rw [sequel_go hx' hgo, sequel_go hrun hgo, Outcome.mapState, hy, Option.map_map,
        Option.map_map]
      rfl

theorem Simulates.choose {test : S → Option (S × Bool)} {test' : T → Option (T × Bool)}
    {x y : Cmd S} {x' y' : Cmd T} (htest : SameTest φ test test') (hx : Simulates φ x x')
    (hy : Simulates φ y y') : Simulates φ (choose test x y) (choose test' x' y') := by
  intro s
  unfold LoopTraces.choose
  rw [htest s]
  match test s with
  | none => rfl
  | some (s', true) => exact hx s'
  | some (s', false) => exact hy s'

theorem Simulates.whileTest {test : S → Option (S × Bool)} {test' : T → Option (T × Bool)}
    {body : Cmd S} {body' : Cmd T} (htest : SameTest φ test test')
    (hbody : Simulates φ body body') (n : Nat) :
    Simulates φ (whileTest test body n) (whileTest test' body' n) := by
  induction n with
  | zero => exact simulates_fail
  | succ n ih => exact Simulates.choose htest (hbody.sequel ih) (simulates_ended _)

theorem whileValue_mapState {value : S → UInt64} {test : S → Bool} {body : Cmd S}
    {value' : T → UInt64} {test' : T → Bool} {body' : Cmd T} (hvalue : ∀ s, value' (φ s) = value s)
    (htest : ∀ s, test' (φ s) = test s) (hbody : Simulates φ body body') (n : Nat) (s : S) :
    whileValue value' test' body' n (φ s) =
      (whileValue value test body n s).map (Walk.mapState φ) := by
  induction n generalizing s with
  | zero => rfl
  | succ n ih =>
    rw [whileValue, whileValue, htest, hvalue, hbody s]
    cases test s with
    | false => rfl
    | true =>
      rw [if_pos rfl, if_pos rfl]
      cases body s with
      | none => rfl
      | some o =>
        rw [Option.map_some, Option.bind_some, Option.bind_some]
        cases hgo : goesOn o.exit with
        | false =>
          have hgo' : goesOn (o.mapState φ).exit = false := hgo
          rw [walkTurn_stop hgo, walkTurn_stop hgo']
          rfl
        | true =>
          have hgo' : goesOn (o.mapState φ).exit = true := hgo
          rw [walkTurn_go hgo, walkTurn_go hgo', Outcome.mapState, ih, Option.map_map,
            Option.map_map]
          rfl

end

end Aether.Lib.LoopTraces
