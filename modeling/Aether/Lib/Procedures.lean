/-
Aether.Lib.Procedures — recursive procedures over a state, their runs and
three proof rules.

A program (`Prog`) is a tree of calls: it returns a value, or calls a
procedure and goes on with the result. `run body n c` executes call `c` to
recursion depth `n`; `Returns` is a run of some depth, so a call that has
no result at any depth does not terminate.

* `returns_of_meets` — partial correctness: if every body meets its
  postcondition when the calls it makes meet theirs, every result does.
* `returns_iff` — termination up to stuck calls: if every body, unless its
  call is stuck, only makes calls that are smaller in a well-founded
  order, and a stuck call always makes another stuck call, then a call
  returns if and only if it reaches no stuck call.
* `Steps` — big-step execution, for showing what one call returns.

Procedures that carry a state (`StateProg`) are the same with the state
passed along; §5 lifts the rules.
-/
import Mathlib.Order.WellFounded

namespace Aether.Lib.Procedures

/-! ## §1 Programs -/

/-- A computation with result `α` that may call procedures; call `c` gives
an `R c`. -/
inductive Prog (C : Type) (R : C → Type) (α : Type) where
  | ret (a : α)
  | call (c : C) (k : R c → Prog C R α)

namespace Prog

variable {C : Type} {R : C → Type} {α β : Type}

def bind : Prog C R α → (α → Prog C R β) → Prog C R β
  | ret a, f => f a
  | call c k, f => call c fun r => (k r).bind f

instance : Monad (Prog C R) where
  pure := ret
  bind := bind

/-- Execute a program, given what its calls return. -/
def exec (calls : ∀ c, Option (R c)) : Prog C R α → Option α
  | ret a => some a
  | call c k => (calls c).bind fun r => (k r).exec calls

end Prog

variable {C : Type} {R : C → Type} {α β : Type}

/-- Execute a call, to a recursion depth of `n`. -/
def run (body : ∀ c, Prog C R (R c)) : Nat → ∀ c, Option (R c)
  | 0, _ => none
  | n + 1, c => (body c).exec (run body n)

/-! ## §2 Runs -/

variable {body : ∀ c, Prog C R (R c)}

/-- Program `x` ends with `a`. -/
def Evals (body : ∀ c, Prog C R (R c)) (x : Prog C R α) (a : α) : Prop :=
  ∃ n, x.exec (run body n) = some a

/-- Call `c` returns `r`. -/
def Returns (body : ∀ c, Prog C R (R c)) (c : C) (r : R c) : Prop :=
  ∃ n, run body n c = some r

/-- Call `c` returns. -/
def Terminates (body : ∀ c, Prog C R (R c)) (c : C) : Prop := ∃ r, Returns body c r

theorem exec_mono {calls calls' : ∀ c, Option (R c)}
    (hle : ∀ c r, calls c = some r → calls' c = some r) :
    ∀ (x : Prog C R α) (a : α), x.exec calls = some a → x.exec calls' = some a
  | .ret _, _, h => h
  | .call c k, a, h => by
    obtain ⟨r, hr, hk⟩ := Option.bind_eq_some_iff.mp h
    exact Option.bind_eq_some_iff.mpr ⟨r, hle c r hr, exec_mono hle (k r) a hk⟩

theorem run_succ (n : Nat) : ∀ (c : C) (r : R c), run body n c = some r →
    run body (n + 1) c = some r := by
  induction n with
  | zero => intro c r h; simp [run] at h
  | succ n ih => intro c r h; exact exec_mono ih (body c) r h

theorem run_mono {n m : Nat} (hle : n ≤ m) {c : C} {r : R c} (h : run body n c = some r) :
    run body m c = some r := by
  induction hle with
  | refl => exact h
  | step _ ih => exact run_succ _ c r ih

theorem exec_run_mono {n m : Nat} (hle : n ≤ m) {x : Prog C R α} {a : α}
    (h : x.exec (run body n) = some a) : x.exec (run body m) = some a :=
  exec_mono (fun _ _ hr => run_mono hle hr) x a h

theorem returns_iff_evals {c : C} {r : R c} : Returns body c r ↔ Evals body (body c) r := by
  constructor
  · rintro ⟨n, h⟩
    cases n with
    | zero => simp [run] at h
    | succ n => exact ⟨n, h⟩
  · rintro ⟨n, h⟩
    exact ⟨n + 1, h⟩

theorem evals_ret {a b : α} : Evals body (.ret a) b ↔ a = b := by
  constructor
  · rintro ⟨_, h⟩
    exact Option.some.inj h
  · rintro rfl
    exact ⟨0, rfl⟩

theorem evals_call {c : C} {k : R c → Prog C R α} {a : α} :
    Evals body (.call c k) a ↔ ∃ r, Returns body c r ∧ Evals body (k r) a := by
  constructor
  · rintro ⟨n, h⟩
    obtain ⟨r, hr, hk⟩ := Option.bind_eq_some_iff.mp h
    exact ⟨r, ⟨n, hr⟩, ⟨n, hk⟩⟩
  · rintro ⟨r, ⟨n, hr⟩, ⟨m, hk⟩⟩
    refine ⟨max n m, Option.bind_eq_some_iff.mpr ⟨r, ?_, ?_⟩⟩
    · exact run_mono (Nat.le_max_left n m) hr
    · exact exec_run_mono (Nat.le_max_right n m) hk

theorem evals_bind {x : Prog C R α} {f : α → Prog C R β} {b : β} :
    Evals body (x.bind f) b ↔ ∃ a, Evals body x a ∧ Evals body (f a) b := by
  induction x with
  | ret a => simp [Prog.bind, evals_ret]
  | call c k ih =>
    simp only [Prog.bind, evals_call, ih]
    constructor
    · rintro ⟨r, hr, a, hk, hf⟩
      exact ⟨a, ⟨r, hr, hk⟩, hf⟩
    · rintro ⟨a, ⟨r, hr, hk⟩, hf⟩
      exact ⟨r, hr, a, hk, hf⟩

theorem evals_det {x : Prog C R α} {a b : α} (ha : Evals body x a) (hb : Evals body x b) :
    a = b := by
  obtain ⟨n, hn⟩ := ha
  obtain ⟨m, hm⟩ := hb
  have hn' := exec_run_mono (Nat.le_max_left n m) hn
  have hm' := exec_run_mono (Nat.le_max_right n m) hm
  exact Option.some.inj (hn'.symm.trans hm')

theorem returns_det {c : C} {r r' : R c} (h : Returns body c r) (h' : Returns body c r') :
    r = r' :=
  evals_det (returns_iff_evals.mp h) (returns_iff_evals.mp h')

/-! ## §3 Partial correctness -/

/-- Every call that `x` makes satisfies `pre`, and if the calls satisfy
`post`, the result satisfies `Q`. -/
def Meets (pre : C → Prop) (post : ∀ c, R c → Prop) : Prog C R α → (α → Prop) → Prop
  | .ret a, Q => Q a
  | .call c k, Q => pre c ∧ ∀ r, post c r → Meets pre post (k r) Q

variable {pre : C → Prop} {post : ∀ c, R c → Prop}

theorem meets_bind {x : Prog C R α} {f : α → Prog C R β} {Q : β → Prop} :
    Meets pre post (x.bind f) Q ↔ Meets pre post x fun a => Meets pre post (f a) Q := by
  induction x with
  | ret a => rfl
  | call c k ih => simp only [Prog.bind, Meets, ih]

theorem meets_mono {pre' : C → Prop} {x : Prog C R α} {Q Q' : α → Prop}
    (hpre : ∀ c, pre c → pre' c) (hQ : ∀ a, Q a → Q' a) (h : Meets pre post x Q) :
    Meets pre' post x Q' := by
  induction x with
  | ret a => exact hQ a h
  | call c k ih => exact ⟨hpre c h.1, fun r hr => ih r (h.2 r hr)⟩

/-- Calls that satisfy more. -/
theorem meets_post {post' : ∀ c, R c → Prop} {x : Prog C R α} {Q : α → Prop}
    (hpost : ∀ c r, post' c r → post c r) (h : Meets pre post x Q) : Meets pre post' x Q := by
  induction x with
  | ret a => exact h
  | call c k ih => exact ⟨h.1, fun r hr => ih r (h.2 r (hpost c r hr))⟩

theorem meets_and {pre' : C → Prop} {x : Prog C R α} {Q Q' : α → Prop}
    (h : Meets pre post x Q) (h' : Meets pre' post x Q') :
    Meets pre' post x fun a => Q a ∧ Q' a := by
  induction x with
  | ret a => exact ⟨h, h'⟩
  | call c k ih => exact ⟨h'.1, fun r hr => ih r (h.2 r hr) (h'.2 r hr)⟩

theorem meets_true (x : Prog C R α) : Meets (fun _ => True) post x fun _ => True := by
  induction x with
  | ret a => trivial
  | call c k ih => exact ⟨trivial, fun r _ => ih r⟩

theorem evals_of_meets {n : Nat} (hcalls : ∀ c r, run body n c = some r → post c r)
    {x : Prog C R α} {Q : α → Prop} {a : α} (hx : Meets pre post x Q)
    (ha : x.exec (run body n) = some a) : Q a := by
  induction x with
  | ret b => exact Option.some.inj ha ▸ hx
  | call c k ih =>
    obtain ⟨r, hr, hk⟩ := Option.bind_eq_some_iff.mp ha
    exact ih r (hx.2 r (hcalls c r hr)) hk

/-- If every body meets its postcondition when its calls do, so does every
result. -/
theorem returns_of_meets (hbody : ∀ c, ∃ pre, Meets pre post (body c) (post c)) {c : C} {r : R c}
    (h : Returns body c r) : post c r := by
  obtain ⟨n, hn⟩ := h
  induction n generalizing c with
  | zero => simp [run] at hn
  | succ n ih =>
    obtain ⟨pre, hmeets⟩ := hbody c
    exact evals_of_meets (fun c r hr => ih hr) hmeets hn

/-- The same with the results of the calls known to be results. -/
theorem returns_of_meets_returns
    (hbody : ∀ c, ∃ pre, Meets pre (fun c r => Returns body c r ∧ post c r) (body c) (post c))
    {c : C} {r : R c} (h : Returns body c r) : post c r := by
  obtain ⟨n, hn⟩ := h
  induction n generalizing c with
  | zero => simp [run] at hn
  | succ n ih =>
    obtain ⟨pre, hmeets⟩ := hbody c
    exact evals_of_meets (fun c r hr => ⟨⟨n, hr⟩, ih hr⟩) hmeets hn

/-! ## §4 Termination up to stuck calls -/

/-- The calls a program makes, each after the earlier ones returned. -/
def Calls (body : ∀ c, Prog C R (R c)) : Prog C R α → C → Prop
  | .ret _, _ => False
  | .call c k, c' => c' = c ∨ ∃ r, Returns body c r ∧ Calls body (k r) c'

/-- `c'` is called in the course of `c`. -/
inductive Reaches (body : ∀ c, Prog C R (R c)) : C → C → Prop where
  | refl (c : C) : Reaches body c c
  | step {c c₁ c₂ : C} : Calls body (body c) c₁ → Reaches body c₁ c₂ → Reaches body c c₂

theorem Reaches.trans {c₁ c₂ c₃ : C} (h : Reaches body c₁ c₂) (h' : Reaches body c₂ c₃) :
    Reaches body c₁ c₃ := by
  induction h with
  | refl => exact h'
  | step hcall _ ih => exact .step hcall (ih h')

/-- A call made in a bind is made by the first part or by the rest. -/
theorem calls_bind {x : Prog C R α} {f : α → Prog C R β} {c' : C} :
    Calls body (x.bind f) c' ↔
      Calls body x c' ∨ ∃ a, Evals body x a ∧ Calls body (f a) c' := by
  induction x with
  | ret a => simp [Prog.bind, Calls, evals_ret]
  | call c k ih =>
    simp only [Prog.bind, Calls, ih, evals_call]
    constructor
    · rintro (rfl | ⟨r, hr, hk | ⟨a, hk, hf⟩⟩)
      · exact .inl (.inl rfl)
      · exact .inl (.inr ⟨r, hr, hk⟩)
      · exact .inr ⟨a, ⟨r, hr, hk⟩, hf⟩
    · rintro ((rfl | ⟨r, hr, hk⟩) | ⟨a, ⟨r, hr, hk⟩, hf⟩)
      · exact .inl rfl
      · exact .inr ⟨r, hr, .inl hk⟩
      · exact .inr ⟨r, hr, .inr ⟨a, hk, hf⟩⟩

/-- A program ends when all the calls it makes return. -/
theorem evals_of_calls {x : Prog C R α} (h : ∀ c, Calls body x c → Terminates body c) :
    ∃ a, Evals body x a := by
  induction x with
  | ret a => exact ⟨a, evals_ret.mpr rfl⟩
  | call c k ih =>
    obtain ⟨r, hr⟩ := h c (.inl rfl)
    obtain ⟨a, ha⟩ := ih r fun c' hc' => h c' (.inr ⟨r, hr, hc'⟩)
    exact ⟨a, evals_call.mpr ⟨r, hr, ha⟩⟩

/-- The calls of a program that ended at depth `n` returned at depth `n`. -/
theorem run_of_calls {n : Nat} {x : Prog C R α} {a : α} {c' : C}
    (hx : x.exec (run body n) = some a) (hcall : Calls body x c') :
    ∃ r, run body n c' = some r := by
  induction x with
  | ret b => exact absurd hcall id
  | call c k ih =>
    obtain ⟨r, hr, hk⟩ := Option.bind_eq_some_iff.mp hx
    rcases hcall with rfl | ⟨r', hr', hcall⟩
    · exact ⟨r, hr⟩
    · obtain rfl := returns_det ⟨n, hr⟩ hr'
      exact ih r hk hcall

theorem calls_of_meets {x : Prog C R α} {Q : α → Prop} {c' : C} (hx : Meets pre post x Q)
    (hpost : ∀ c r, Returns body c r → post c r) (hcall : Calls body x c') : pre c' := by
  induction x with
  | ret b => exact absurd hcall id
  | call c k ih =>
    rcases hcall with rfl | ⟨r, hr, hcall⟩
    · exact hx.1
    · exact ih r (hx.2 r (hpost c r hr)) hcall

/-- A call that keeps making stuck calls does not return. -/
theorem not_terminates_of_stuck {stuck : C → Prop}
    (hstuck : ∀ c, stuck c → ∃ c', stuck c' ∧ Calls body (body c) c') {c : C} (hc : stuck c) :
    ¬ Terminates body c := by
  rintro ⟨r, n, hn⟩
  induction n generalizing c with
  | zero => simp [run] at hn
  | succ n ih =>
    obtain ⟨c', hc', hcall⟩ := hstuck c hc
    obtain ⟨r', hr'⟩ := run_of_calls hn hcall
    exact ih hc' r' hr'

theorem terminates_of_reaches {c c' : C} (hreach : Reaches body c c')
    (h : Terminates body c) : Terminates body c' := by
  induction hreach with
  | refl => exact h
  | step hcall _ ih =>
    obtain ⟨r, hr⟩ := h
    obtain ⟨n, hn⟩ := returns_iff_evals.mp hr
    obtain ⟨r', hr'⟩ := run_of_calls hn hcall
    exact ih ⟨r', n, hr'⟩

/-- A call returns if and only if it reaches no stuck call: bodies that are
not stuck only make smaller calls, and a stuck call makes another one. -/
theorem terminates_iff {lt : C → C → Prop} (hwf : WellFounded lt) {stuck : C → Prop}
    (hbody : ∀ c, Meets (fun c' => stuck c ∨ lt c' c) post (body c) (post c))
    (hstuck : ∀ c, stuck c → ∃ c', stuck c' ∧ Calls body (body c) c') (c : C) :
    Terminates body c ↔ ∀ c', Reaches body c c' → ¬ stuck c' := by
  constructor
  · intro h c' hreach hc'
    exact not_terminates_of_stuck hstuck hc' (terminates_of_reaches hreach h)
  · induction c using hwf.induction with
    | _ c ih =>
      intro hfree
      have hpost : ∀ c r, Returns body c r → post c r := fun c r hr =>
        returns_of_meets (fun c => ⟨_, hbody c⟩) hr
      have hcalls : ∀ c', Calls body (body c) c' → Terminates body c' := by
        intro c' hcall
        have hlt := (calls_of_meets (hbody c) hpost hcall).resolve_left (hfree c (.refl c))
        exact ih c' hlt fun c'' hreach => hfree c'' (.step hcall hreach)
      obtain ⟨r, hr⟩ := evals_of_calls hcalls
      exact ⟨r, returns_iff_evals.mpr hr⟩

/-! ## §5 Procedures with a state -/

variable {S P : Type} {Res : P → Type}

/-- A computation over the state `S` that may call procedures. -/
abbrev StateProg (S P : Type) (Res : P → Type) :=
  StateT S (Prog (P × S) fun c => Res c.1 × S)

/-- Call a procedure in the current state. -/
def callProc (p : P) : StateProg S P Res (Res p) := fun s => .call (p, s) .ret

/-- Call a procedure in a state of its own, which is given back. -/
def callOn (p : P) (s : S) : StateProg S P Res (Res p × S) :=
  fun s' => .call (p, s) fun r => .ret (r, s')

/-- The bodies of the procedures, as bodies of the calls. -/
def bodies (procs : ∀ p, StateProg S P Res (Res p)) (c : P × S) :
    Prog (P × S) (fun c => Res c.1 × S) (Res c.1 × S) :=
  procs c.1 c.2

variable {procs : ∀ p, StateProg S P Res (Res p)}

/-- Computation `x` in state `s` ends with `a` in state `s'`. -/
def Steps (procs : ∀ p, StateProg S P Res (Res p)) (x : StateProg S P Res α) (s : S) (a : α)
    (s' : S) : Prop :=
  Evals (bodies procs) (x s) (a, s')

/-- Procedure `p` in state `s` returns `r` in state `s'`. -/
abbrev ProcReturns (procs : ∀ p, StateProg S P Res (Res p)) (p : P) (s : S) (r : Res p) (s' : S) :
    Prop :=
  Returns (bodies procs) (p, s) (r, s')

@[simp] theorem steps_pure {a b : α} {s s' : S} :
    Steps procs (pure a) s b s' ↔ a = b ∧ s = s' := by
  change Evals _ (.ret (a, s)) (b, s') ↔ _
  rw [evals_ret, Prod.mk.injEq]

@[simp] theorem steps_bind {x : StateProg S P Res α} {f : α → StateProg S P Res β} {s s' : S}
    {b : β} :
    Steps procs (x >>= f) s b s' ↔ ∃ a s₁, Steps procs x s a s₁ ∧ Steps procs (f a) s₁ b s' := by
  change Evals _ ((x s).bind fun as => f as.1 as.2) (b, s') ↔ _
  rw [evals_bind]
  constructor
  · rintro ⟨⟨a, s₁⟩, hx, hf⟩
    exact ⟨a, s₁, hx, hf⟩
  · rintro ⟨a, s₁, hx, hf⟩
    exact ⟨(a, s₁), hx, hf⟩

@[simp] theorem steps_get {s a s' : S} :
    Steps procs (get : StateProg S P Res S) s a s' ↔ s = a ∧ s = s' := by
  change Evals _ (.ret (s, s)) (a, s') ↔ _
  rw [evals_ret, Prod.mk.injEq]

/-- A computation that looks at the state. -/
theorem steps_get_bind {f : S → StateProg S P Res α} {s s' : S} {a : α} :
    Steps procs (get >>= f) s a s' ↔ Steps procs (f s) s a s' := by
  rw [steps_bind]
  constructor
  · intro ⟨_, _, hget, h⟩
    obtain ⟨rfl, rfl⟩ := steps_get.mp hget
    exact h
  · intro h
    exact ⟨s, s, steps_get.mpr ⟨rfl, rfl⟩, h⟩

@[simp] theorem steps_modify {f : S → S} {s s' : S} {a : PUnit} :
    Steps procs (modify f : StateProg S P Res PUnit) s a s' ↔ f s = s' := by
  change Evals _ (.ret (⟨⟩, f s)) (a, s') ↔ _
  rw [evals_ret, Prod.mk.injEq]
  exact and_iff_right rfl

theorem steps_callProc {p : P} {s s' : S} {r : Res p} :
    Steps procs (callProc p) s r s' ↔ ProcReturns procs p s r s' := by
  unfold Steps callProc
  rw [evals_call]
  constructor
  · rintro ⟨rs, hr, h⟩
    rwa [evals_ret.mp h] at hr
  · intro h
    exact ⟨(r, s'), h, evals_ret.mpr rfl⟩

theorem steps_callOn {p : P} {s s₀ s' : S} {rs : Res p × S} :
    Steps procs (callOn p s) s₀ rs s' ↔ ProcReturns procs p s rs.1 rs.2 ∧ s₀ = s' := by
  unfold Steps callOn
  rw [evals_call]
  constructor
  · rintro ⟨rs', hr, h⟩
    have heq := evals_ret.mp h
    cases heq
    exact ⟨hr, rfl⟩
  · rintro ⟨hr, rfl⟩
    exact ⟨rs, hr, evals_ret.mpr rfl⟩

theorem procReturns_iff {p : P} {s s' : S} {r : Res p} :
    ProcReturns procs p s r s' ↔ Steps procs (procs p) s r s' :=
  returns_iff_evals

/-- Computation `x` in state `s` makes call `c`. -/
def MakesCall (procs : ∀ p, StateProg S P Res (Res p)) (x : StateProg S P Res α) (s : S)
    (c : P × S) : Prop :=
  Calls (bodies procs) (x s) c

@[simp] theorem makesCall_pure {a : α} {s : S} {c : P × S} : ¬ MakesCall procs (pure a) s c := id

@[simp] theorem makesCall_get {s : S} {c : P × S} :
    ¬ MakesCall procs (get : StateProg S P Res S) s c := id

@[simp] theorem makesCall_modify {f : S → S} {s : S} {c : P × S} :
    ¬ MakesCall procs (modify f : StateProg S P Res PUnit) s c := id

@[simp] theorem makesCall_bind {x : StateProg S P Res α} {f : α → StateProg S P Res β} {s : S}
    {c : P × S} :
    MakesCall procs (x >>= f) s c ↔
      MakesCall procs x s c ∨ ∃ a s', Steps procs x s a s' ∧ MakesCall procs (f a) s' c := by
  change Calls _ ((x s).bind fun as => f as.1 as.2) c ↔ _
  rw [calls_bind]
  constructor
  · rintro (hx | ⟨⟨a, s'⟩, hx, hf⟩)
    · exact .inl hx
    · exact .inr ⟨a, s', hx, hf⟩
  · rintro (hx | ⟨a, s', hx, hf⟩)
    · exact .inl hx
    · exact .inr ⟨(a, s'), hx, hf⟩

@[simp] theorem makesCall_callProc {p : P} {s : S} {c : P × S} :
    MakesCall procs (callProc p) s c ↔ c = (p, s) := by
  change (c = (p, s) ∨ ∃ _, _ ∧ False) ↔ _
  simp

variable {pre : P × S → Prop} {post : ∀ c : P × S, Res c.1 × S → Prop}

/-- `Meets` for a computation started in state `s`. -/
def Spec (pre : P × S → Prop) (post : ∀ c : P × S, Res c.1 × S → Prop) (x : StateProg S P Res α)
    (s : S) (Q : α → S → Prop) : Prop :=
  Meets pre post (x s) fun as => Q as.1 as.2

@[simp] theorem spec_pure {a : α} {s : S} {Q : α → S → Prop} :
    Spec pre post (pure a) s Q ↔ Q a s := Iff.rfl

@[simp] theorem spec_bind {x : StateProg S P Res α} {f : α → StateProg S P Res β} {s : S}
    {Q : β → S → Prop} :
    Spec pre post (x >>= f) s Q ↔ Spec pre post x s fun a s₁ => Spec pre post (f a) s₁ Q :=
  meets_bind (x := x s)

@[simp] theorem spec_get {s : S} {Q : S → S → Prop} :
    Spec pre post (get : StateProg S P Res S) s Q ↔ Q s s := Iff.rfl

@[simp] theorem spec_modify {f : S → S} {s : S} {Q : PUnit → S → Prop} :
    Spec pre post (modify f : StateProg S P Res PUnit) s Q ↔ Q ⟨⟩ (f s) := Iff.rfl

theorem spec_mono {x : StateProg S P Res α} {s : S} {Q Q' : α → S → Prop}
    (hQ : ∀ a s', Q a s' → Q' a s') (h : Spec pre post x s Q) : Spec pre post x s Q' :=
  meets_mono (fun _ hc => hc) (fun as => hQ as.1 as.2) h

theorem spec_true (x : StateProg S P Res α) (s : S) :
    Spec (fun _ => True) post x s fun _ _ => True := meets_true (x s)

/-- A part that may give anything, and the rest. -/
theorem spec_any {x : StateProg S P Res α} {f : α → StateProg S P Res β} {s : S}
    {Q : β → S → Prop} (h : ∀ a s', Spec (fun _ => True) post (f a) s' Q) :
    Spec (fun _ => True) post (x >>= f) s Q :=
  spec_bind.mpr (meets_mono (fun _ h => h) (fun as _ => h as.1 as.2) (meets_true (x s)))

theorem spec_callProc {p : P} {s : S} {Q : Res p → S → Prop} :
    Spec pre post (callProc p) s Q ↔ pre (p, s) ∧ ∀ r s', post (p, s) (r, s') → Q r s' :=
  ⟨fun h => ⟨h.1, fun r s' hr => h.2 (r, s') hr⟩, fun h => ⟨h.1, fun rs hr => h.2 rs.1 rs.2 hr⟩⟩

theorem spec_callOn {p : P} {s s' : S} {Q : Res p × S → S → Prop} :
    Spec pre post (callOn p s') s Q ↔ pre (p, s') ∧ ∀ rs, post (p, s') rs → Q rs s := Iff.rfl

end Aether.Lib.Procedures
