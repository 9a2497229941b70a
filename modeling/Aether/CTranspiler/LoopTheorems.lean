/-
Aether.CTranspiler.LoopTheorems — when the emitted C runs its counted loops
as the language says.

The own variables of the emitter follow one rule for loops over ranges
(`cLoop`): a walk with a counter that a turn increases when its body falls
through to the end (`simulates_emitStmt`). The rule is compared with that of
the language along the run of a function (`compares_run`), and
`loops_right_iff` states when the two agree.
-/
import Aether.CTranspiler.Loops
import Aether.CTranspiler.RangeTheorems

namespace Aether.CTranspiler.Loops

open Aether.Lib.Recorded (Exit)
open Aether.Lib.LoopTraces

-- the equations, before the proofs that share them
section
attribute [local simp] Outcome.mapState execCodes exec Meaning.ends andThen LoopStmt.run emitStmt
  LoopBody.run emitBody Branches.run emitBranches whileValue wordsFrom toWord gotosOf cEmitStmt
  Code.gotos LoopStmt.labelled LoopBody.labelled Branches.labelled printCodes Code.print
  LoopStmt.node BlockKind.node cEmitBlockNode cEmitBlock LoopBody.nodes cEmitStmts
  Branches.elifChain Branches.elseBlock cEmitElifs emitJump
end

/-! ## §1 The own variables -/

section

variable {S : Type}

/-- The end of the body increases the counter. -/
def countUp (i : UInt64) (o : Outcome S) : Outcome (S × UInt64) :=
  ⟨(o.state, if falls o.exit then i + 1 else i), o.exit, o.loops⟩

/-- A turn with the value of the counter. -/
def counted (body : UInt64 → Cmd S) : Cmd (S × UInt64) := fun (s, i) => (body i s).map (countUp i)

/-- The loop of the emitted C. -/
def cLoop (fuel : Nat) : LoopRule S := fun _ a b body s =>
  (whileValue Prod.snd (fun st => st.2 < toWord b) (counted body) fuel (s, toWord a)).map
    (Walk.mapState Prod.fst)

/-- The own variables stay as they are. -/
def within (env : OwnEnv) (s : S) : S × OwnEnv := (s, env)

/-- The own variables in a loop whose counter is at `i`. -/
def frameEnv (label : Nat) (a b : UInt64) (env : OwnEnv) (i : UInt64) : OwnEnv :=
  (.counter label, i) :: (.rangeEnd, b) :: (.rangeStart, a) :: env

def frame (label : Nat) (a b : UInt64) (env : OwnEnv) (st : S × UInt64) : S × OwnEnv :=
  (st.1, frameEnv label a b env st.2)

-- the equations, before the proofs that share them
section
attribute [local simp] countUp counted within frameEnv frame
end

theorem get_counter (label : Nat) (a b : UInt64) (env : OwnEnv) (i : UInt64) :
    (frameEnv label a b env i).get (.counter label) = i := by
  simp [frameEnv, OwnEnv.get]

theorem get_rangeEnd (label : Nat) (a b : UInt64) (env : OwnEnv) (i : UInt64) :
    (frameEnv label a b env i).get .rangeEnd = b := rfl

theorem set_counter (label : Nat) (a b : UInt64) (env : OwnEnv) (i j : UInt64) :
    (frameEnv label a b env i).set (.counter label) j = frameEnv label a b env j := by
  simp [frameEnv, OwnEnv.set]

theorem leave_self (env : OwnEnv) : env.leave env = env := by
  rw [OwnEnv.leave, Nat.sub_self, List.drop_zero]

theorem leave_append (front env : OwnEnv) : env.leave (front ++ env) = env := by
  rw [OwnEnv.leave, List.length_append, Nat.add_sub_cancel, List.drop_left]

variable {M : Meaning S} {fuel : Nat}

theorem sameTest_liftTest (test : S → Option (S × Bool)) (env : OwnEnv) :
    SameTest (within env) test (liftTest test) := fun _ => rfl

theorem Simulates.inBlock {env : OwnEnv} {x : Cmd S} {y : Cmd (S × OwnEnv)}
    (h : Simulates (within env) x y) : Simulates (within env) x (inBlock y) := by
  intro s
  have hy : y (s, env) = (x s).map (Outcome.mapState (within env)) := h s
  show Option.map _ (y (s, env)) = _
  rw [hy, Option.map_map]
  refine congrArg (fun f => Option.map f (x s)) ?_
  funext o
  simp [Outcome.mapState, within, leave_self]

theorem execCodes_append (codes codes' : List Code) :
    execCodes M fuel (codes ++ codes') = andThen (execCodes M fuel codes) (execCodes M fuel codes') := by
  induction codes with
  | nil => rw [List.nil_append, execCodes, ended_andThen]
  | cons code codes ih => rw [List.cons_append, execCodes, ih, execCodes, andThen_assoc]

theorem execCodes_singleton (code : Code) : execCodes M fuel [code] = exec M fuel code := by
  rw [execCodes, execCodes, andThen_ended]

theorem execCodes_emitVar (counter : Own) (var : Option Bytes) (s : S) (env : OwnEnv) :
    execCodes M fuel (emitVar counter var) (s, env) =
      some ⟨(M.enterAll var.toList (env.get counter) s, env), .fallThrough, []⟩ := by
  cases var with
  | none => rfl
  | some name => rw [emitVar, execCodes_singleton]; rfl

theorem enterAll_append (names names' : List Bytes) (v : UInt64) (s : S) :
    M.enterAll (names ++ names') v s = M.enterAll names' v (M.enterAll names v s) :=
  List.foldl_append

/-- The loop variables, the body and the increment. -/
theorem execCodes_turn {label : Nat} {a b : UInt64} {env : OwnEnv} {var indexVar : Option Bytes}
    {x : Cmd S} {codes : List Code}
    (h : ∀ env, Simulates (within env) x (execCodes M fuel codes)) (s : S) (i : UInt64) :
    execCodes M fuel (emitVar (.counter label) var ++ emitVar (.counter label) indexVar ++
        [.inlined codes] ++ [.incr (.counter label)]) (frame label a b env (s, i)) =
      (counted (fun v s => x (M.enterAll (var.toList ++ indexVar.toList) v s)) (s, i)).map
        (Outcome.mapState (frame label a b env)) := by
  have hvars : andThen (execCodes M fuel (emitVar (.counter label) var))
      (execCodes M fuel (emitVar (.counter label) indexVar)) (frame label a b env (s, i)) =
        some ⟨frame label a b env (M.enterAll (var.toList ++ indexVar.toList) i s, i),
          .fallThrough, []⟩ := by
    rw [frame, andThen_quiet (execCodes_emitVar _ _ _ _), execCodes_emitVar, get_counter,
      enterAll_append]
    rfl
  have hbody : andThen (andThen (execCodes M fuel (emitVar (.counter label) var))
      (execCodes M fuel (emitVar (.counter label) indexVar))) (execCodes M fuel codes)
      (frame label a b env (s, i)) = (x (M.enterAll (var.toList ++ indexVar.toList) i s)).map
        (Outcome.mapState (within (frameEnv label a b env i))) := by
    rw [andThen_quiet hvars]
    exact h (frameEnv label a b env i) _
  rw [execCodes_append, execCodes_append, execCodes_append, execCodes_singleton, execCodes_singleton,
    exec, counted]
  cases hx : x (M.enterAll (var.toList ++ indexVar.toList) i s) with
  | none =>
    rw [hx] at hbody
    exact sequel_none hbody
  | some o =>
    rw [hx, Option.map_some] at hbody
    cases hfalls : falls o.exit with
    | false =>
      rw [Option.map_some, Option.map_some, countUp, hfalls]
      exact sequel_stop hbody hfalls
    | true =>
      rw [Option.map_some, Option.map_some, countUp, hfalls]
      refine (sequel_go hbody hfalls).trans ?_
      have hexit : o.exit = .fallThrough := by
        cases hexit : o.exit with
        | fallThrough => rfl
        | _ => rw [hexit] at hfalls; cases hfalls
      simp [Outcome.mapState, Outcome.after, within, frame, hexit, get_counter, set_counter]

/-- One turn of the loop that `c_emit_for` writes. -/
theorem simulates_turn {label : Nat} {a b : UInt64} {env : OwnEnv} {var indexVar : Option Bytes}
    {x : Cmd S} {codes : List Code}
    (h : ∀ env, Simulates (within env) x (execCodes M fuel codes)) :
    Simulates (frame label a b env)
      (counted fun v s => x (M.enterAll (var.toList ++ indexVar.toList) v s))
      (inBlock (execCodes M fuel (emitVar (.counter label) var ++ emitVar (.counter label) indexVar ++
        [.inlined codes] ++ [.incr (.counter label)]))) := by
  rintro ⟨s, i⟩
  show Option.map _ (execCodes M fuel _ (frame label a b env (s, i))) = _
  rw [execCodes_turn h, Option.map_map]
  refine congrArg (fun f => Option.map f _) ?_
  funext o
  exact congrArg (fun env => Outcome.mk (o.state.1, env) o.exit o.loops) (leave_self _)

/-- The statements for a loop over a range follow `cLoop`. -/
theorem simulates_range {label : Nat} {env : OwnEnv} {var indexVar : Option Bytes}
    {inclusive : Bool} {left right : AstNode} {x : Cmd S} {codes : List Code}
    (h : ∀ env, Simulates (within env) x (execCodes M fuel codes)) :
    Simulates (within env)
      (M.runRange (cLoop fuel) (var.toList ++ indexVar.toList) inclusive left right x)
      (exec M fuel (.braces [.declWord .rangeStart left, .declWord .rangeEnd right,
        .declCopy (.counter label) .rangeStart,
        .whileLess (.counter label) .rangeEnd (emitVar (.counter label) var ++
          emitVar (.counter label) indexVar ++ [.inlined codes] ++ [.incr (.counter label)])])) := by
  intro s
  rw [exec]
  show Option.map _ (execCodes M fuel _ (s, env)) = _
  rw [execCodes, execCodes, execCodes, execCodes_singleton, Meaning.runRange]
  cases hleft : M.bound left s with
  | none =>
    have hdecl : exec M fuel (.declWord .rangeStart left) (s, env) = none := by
      rw [exec]
      show Option.map _ (M.bound left s) = _
      rw [hleft]
      rfl
    have hends : M.ends left right s = none := by
      rw [Meaning.ends, hleft, Option.bind_none]
    rw [andThen, sequel_none hdecl, hends]
    rfl
  | some p =>
    obtain ⟨s₁, a⟩ := p
    have hdecl : exec M fuel (.declWord .rangeStart left) (s, env) =
        some ⟨(s₁, (.rangeStart, toWord a.val) :: env), .fallThrough, []⟩ := by
      rw [exec]
      show Option.map _ (M.bound left s) = _
      rw [hleft]
      rfl
    have hends : M.ends left right s = (M.bound right s₁).map fun p => (p.1, a, p.2) := by
      rw [Meaning.ends, hleft, Option.bind_some]
    rw [andThen_quiet hdecl, hends]
    cases hright : M.bound right s₁ with
    | none =>
      have hdecl' : exec M fuel (.declWord .rangeEnd right)
          (s₁, (.rangeStart, toWord a.val) :: env) = none := by
        rw [exec]
        show Option.map _ (M.bound right s₁) = _
        rw [hright]
        rfl
      rw [andThen, sequel_none hdecl']
      rfl
    | some p =>
      obtain ⟨s₂, b⟩ := p
      have hdecl' : exec M fuel (.declWord .rangeEnd right)
          (s₁, (.rangeStart, toWord a.val) :: env) =
            some ⟨(s₂, (.rangeEnd, toWord b.val) :: (.rangeStart, toWord a.val) :: env),
              .fallThrough, []⟩ := by
        rw [exec]
        show Option.map _ (M.bound right s₁) = _
        rw [hright]
        rfl
      have hcopy : exec M fuel (.declCopy (.counter label) .rangeStart)
          (s₂, (.rangeEnd, toWord b.val) :: (.rangeStart, toWord a.val) :: env) =
            some ⟨frame label (toWord a.val) (toWord b.val) env (s₂, toWord a.val),
              .fallThrough, []⟩ := rfl
      rw [andThen_quiet hdecl', andThen_quiet hcopy, exec]
      have hvalue : ∀ st : S × UInt64,
          (frame label (toWord a.val) (toWord b.val) env st).2.get (.counter label) = st.2 :=
        fun st => get_counter label _ _ _ _
      have htest : ∀ st : S × UInt64,
          decide ((frame label (toWord a.val) (toWord b.val) env st).2.get (.counter label) <
            (frame label (toWord a.val) (toWord b.val) env st).2.get .rangeEnd) =
              decide (st.2 < toWord b.val) := by
        intro st
        rw [hvalue, frame, get_rangeEnd]
      have hwhile : whileValue (fun st : S × OwnEnv => st.2.get (.counter label))
          (fun st => st.2.get (.counter label) < st.2.get .rangeEnd)
          (inBlock (execCodes M fuel (emitVar (.counter label) var ++
            emitVar (.counter label) indexVar ++ [.inlined codes] ++ [.incr (.counter label)])))
          fuel (frame label (toWord a.val) (toWord b.val) env (s₂, toWord a.val)) =
            (whileValue Prod.snd (fun st : S × UInt64 => st.2 < toWord b.val)
              (counted fun v s => x (M.enterAll (var.toList ++ indexVar.toList) v s)) fuel
              (s₂, toWord a.val)).map
                (Walk.mapState (frame label (toWord a.val) (toWord b.val) env)) := by
        refine whileValue_mapState ?_ ?_ ?_ fuel _
        · exact hvalue
        · exact htest
        · exact simulates_turn h
      show Option.map _ (Option.map _ (whileValue _ _ _ fuel _)) = _
      rw [hwhile, Option.map_some, Option.bind_some]
      dsimp only
      simp only [cLoop, Option.map_map]
      refine congrArg (fun f => Option.map f _) ?_
      funext w
      have hleave := leave_append [(.counter label, w.state.2), (.rangeEnd, toWord b.val),
        (.rangeStart, toWord a.val)] env
      exact congrArg (fun env' => Outcome.mk (w.state.1, env') w.exit [LoopTrace.mk w.turns]) hleave

theorem execCodes_jump {code : Code} {e : Exit} (h : exec M fuel code = ended e) (label : Option Bytes)
    (suffix : String) (env : OwnEnv) :
    Simulates (within env) (jump e label) (execCodes M fuel (emitJump code suffix label)) := by
  unfold emitJump
  split
  · rw [execCodes_singleton, h]
    exact simulates_ended e
  · rw [execCodes_singleton, h]
    exact simulates_ended e
  · next label hne =>
    have hlabel : hasLabel (some label) = true := by
      cases label with
      | nil => exact absurd rfl hne
      | cons c label => rfl
    rw [execCodes_singleton, exec, jump, if_pos hlabel]
    exact simulates_fail

mutual

theorem simulates_emitStmt (cg : EmitContext) : (stmt : LoopStmt) → (n : Nat) → (env : OwnEnv) →
    Simulates (within env) (stmt.run M (cLoop fuel) fuel) (execCodes M fuel (emitStmt cg stmt n).1)
  | .simple node h, n, env => by
    show Simulates _ _ (execCodes M fuel [_])
    rw [execCodes_singleton, LoopStmt.run, exec]
    exact fun _ => rfl
  | .block kind body, n, env => by
    rw [LoopStmt.run, emitStmt]
    show Simulates _ _ (execCodes M fuel [.inlined (emitBody cg body n).1])
    rw [execCodes_singleton, exec]
    exact simulates_emitBody cg body n env
  | .ifNode cond thenBody rest, n, env => by
    rw [LoopStmt.run, emitStmt]
    show Simulates _ _ (execCodes M fuel [.ite cond
      [.inlined (emitBody cg thenBody (n + cg.labels cond)).1]
      (emitBranches cg rest (emitBody cg thenBody (n + cg.labels cond)).2).1])
    rw [execCodes_singleton, exec, execCodes_singleton, exec]
    exact Simulates.choose (sameTest_liftTest _ env)
      (Simulates.inBlock (simulates_emitBody cg thenBody _ env))
      (Simulates.inBlock (simulates_emitBranches cg rest _ env))
  | .whileNode cond body, n, env => by
    rw [LoopStmt.run, emitStmt]
    show Simulates _ _ (execCodes M fuel [.while cond
      [.inlined (emitBody cg body (n + cg.labels cond)).1]])
    rw [execCodes_singleton, exec, execCodes_singleton, exec]
    exact Simulates.whileTest (sameTest_liftTest _ env)
      (Simulates.inBlock (simulates_emitBody cg body _ env)) fuel
  | .forRange var indexVar inclusive left right body, n, env => by
    rw [LoopStmt.run, emitStmt]
    show Simulates _ _ (execCodes M fuel [_])
    rw [execCodes_singleton]
    exact simulates_range fun env => simulates_emitBody cg body _ env
  | .breakNode label, n, env => by
    rw [LoopStmt.run, emitStmt]
    exact execCodes_jump (by rw [exec]) label _ env
  | .continueNode label, n, env => by
    rw [LoopStmt.run, emitStmt]
    exact execCodes_jump (by rw [exec]) label _ env

theorem simulates_emitBody (cg : EmitContext) : (body : LoopBody) → (n : Nat) → (env : OwnEnv) →
    Simulates (within env) (body.run M (cLoop fuel) fuel) (execCodes M fuel (emitBody cg body n).1)
  | .nil, n, env => by
    rw [LoopBody.run, emitBody]
    exact simulates_ended _
  | .cons stmt rest, n, env => by
    rw [LoopBody.run, emitBody]
    show Simulates _ _ (execCodes M fuel ((emitStmt cg stmt n).1 ++
      (emitBody cg rest (emitStmt cg stmt n).2).1))
    rw [execCodes_append]
    exact Simulates.sequel (simulates_emitStmt cg stmt n env) (simulates_emitBody cg rest _ env)

theorem simulates_emitBranches (cg : EmitContext) : (rest : Branches) → (n : Nat) →
    (env : OwnEnv) → Simulates (within env) (rest.run M (cLoop fuel) fuel)
      (execCodes M fuel (emitBranches cg rest n).1)
  | .none, n, env => by
    rw [Branches.run, emitBranches]
    exact simulates_ended _
  | .elseBody body, n, env => by
    rw [Branches.run, emitBranches]
    show Simulates _ _ (execCodes M fuel [.inlined (emitBody cg body n).1])
    rw [execCodes_singleton, exec]
    exact simulates_emitBody cg body n env
  | .elif cond body rest, n, env => by
    rw [Branches.run, emitBranches]
    show Simulates _ _ (execCodes M fuel [.ite cond
      [.inlined (emitBody cg body (n + cg.labels cond)).1]
      (emitBranches cg rest (emitBody cg body (n + cg.labels cond)).2).1])
    rw [execCodes_singleton, exec, execCodes_singleton, exec]
    exact Simulates.choose (sameTest_liftTest _ env)
      (Simulates.inBlock (simulates_emitBody cg body _ env))
      (Simulates.inBlock (simulates_emitBranches cg rest _ env))

end

end

/-! ## §2 The two rules for a loop -/

section

variable {S : Type} (body : UInt64 → Cmd S) (kept : UInt64 → S → Prop)

/-- Along the turns of the language, `kept` holds and no turn ends with
`continue`. -/
def KeptValues : List UInt64 → S → Prop
  | [], _ => True
  | v :: values, s => kept v s ∧ ∀ o, body v s = some o →
      o.exit ≠ .nextTurn ∧ (goesOn o.exit = true → KeptValues values o.state)

/-- One of the turns for these values ends the loop. -/
def LeavesWithin : List UInt64 → S → Prop
  | [], _ => False
  | v :: values, s => ∃ o, body v s = some o ∧ (goesOn o.exit = true → LeavesWithin values o.state)

/-- The range has as many integers as the loop has words, or the body leaves
the loop on the part that they share. -/
def KeptRange (inclusive : Bool) (a b : Int) (s : S) : Prop :=
  KeptValues body kept (wordsFrom a (rangeSize inclusive a b)) s ∧
    (RangeKept inclusive a b ∨ LeavesWithin body (wordsFrom a
      (min ((toWord b).toNat - (toWord a).toNat) (rangeSize inclusive a b))) s)

variable {body kept}

theorem lt_stop {a : Int} {stop : UInt64} {n : Nat} (hn : n + 1 = stop.toNat - (toWord a).toNat) :
    toWord a < stop := by
  rw [UInt64.lt_iff_toNat_lt]
  omega

theorem falls_of_goesOn {e : Exit} (hgo : goesOn e = true) (hne : e ≠ .nextTurn) :
    falls e = true := by
  cases e with
  | fallThrough => rfl
  | nextTurn => exact absurd rfl hne
  | leaveLoop => cases hgo
  | returned => cases hgo

theorem counted_of {body' : UInt64 → Cmd S} {s : S} {i : UInt64} {o : Outcome S}
    (h : body' i s = some o) : counted body' (s, i) = some (countUp i o) := by
  rw [counted, h, Option.map_some]

/-- A loop whose test holds makes a turn. -/
theorem whileValue_turns {T : Type} {value : T → UInt64} {test : T → Bool} {x : Cmd T} {n : Nat}
    {t : T} {w : Walk T} (htest : test t = true) (h : whileValue value test x n t = some w) :
    ∃ loops turns, w.turns = (value t, loops) :: turns := by
  cases n with
  | zero => cases h
  | succ n =>
    rw [whileValue, htest, if_pos rfl] at h
    obtain ⟨o, -, hturn⟩ := Option.bind_eq_some_iff.mp h
    obtain ⟨turns, hturns⟩ := walkTurn_turns hturn
    exact ⟨o.loops, turns, hturns⟩

/-- The counter follows the values of the range. -/
theorem walk_follows {body' : UInt64 → Cmd S} {stop : UInt64}
    (h : ∀ {v s o}, kept v s → body v s = some o → body' v s = some o) {m n fuel : Nat} {a : Int}
    {s : S} {w : Walk S} (hn : n = stop.toNat - (toWord a).toNat) (hfuel : n < fuel)
    (hkept : KeptValues body kept (wordsFrom a m) s)
    (hwalk : n = m ∨ LeavesWithin body (wordsFrom a (min n m)) s)
    (hrun : forValues body (wordsFrom a m) s = some w) :
    (whileValue Prod.snd (fun st : S × UInt64 => st.2 < stop) (counted body') fuel
      (s, toWord a)).map (Walk.mapState Prod.fst) = some w := by
  induction m generalizing n fuel a s w with
  | zero =>
    obtain rfl | hleaves := hwalk
    · cases fuel with
      | zero => cases hfuel
      | succ fuel =>
        have hstop : ¬ toWord a < stop := by
          rw [UInt64.lt_iff_toNat_lt]
          omega
        rw [whileValue, if_neg (by simpa using hstop)]
        exact hrun
    · rw [Nat.min_zero] at hleaves
      exact hleaves.elim
  | succ m ih =>
    cases n with
    | zero =>
      obtain hzero | hleaves := hwalk
      · cases hzero
      · rw [Nat.zero_min] at hleaves
        exact hleaves.elim
    | succ n =>
      cases fuel with
      | zero => cases hfuel
      | succ fuel =>
        rw [wordsFrom] at hkept hrun
        rw [Nat.succ_min_succ, wordsFrom] at hwalk
        obtain ⟨o, hbody, hturn⟩ := Option.bind_eq_some_iff.mp hrun
        rw [whileValue, if_pos (by simpa using lt_stop hn), counted_of (h hkept.1 hbody),
          Option.bind_some]
        obtain ⟨hne, hmore⟩ := hkept.2 o hbody
        cases hgo : goesOn o.exit with
        | false =>
          rw [walkTurn_stop hgo] at hturn
          rw [walkTurn_stop (o := countUp (toWord a) o) hgo, ← hturn]
          rfl
        | true =>
          rw [walkTurn_go hgo] at hturn
          obtain ⟨w', hw', rfl⟩ := Option.map_eq_some_iff.mp hturn
          have hwalk' : n = m ∨ LeavesWithin body (wordsFrom (a + 1) (min n m)) o.state := by
            obtain heq | ⟨o', hbody', hleaves⟩ := hwalk
            · exact .inl (Nat.succ.inj heq)
            · rw [hbody] at hbody'
              cases hbody'
              exact .inr (hleaves hgo)
          have hrest := ih (size_succ hn) (Nat.lt_of_succ_lt_succ hfuel) (hmore hgo) hwalk' hw'
          rw [walkTurn_go (o := countUp (toWord a) o) hgo, countUp, falls_of_goesOn hgo hne,
            if_pos rfl, ← toWord_succ]
          obtain ⟨w'', hw'', rfl⟩ := Option.map_eq_some_iff.mp hrest
          rw [hw'']
          rfl

/-- A counter that shows the values of the range has followed them. -/
theorem walk_reveals {body' : UInt64 → Cmd S} {stop : UInt64}
    (h : ∀ {v s o o' more more'}, body v s = some o → body' v s = some o' →
      o.loops ++ more = o'.loops ++ more' → o = o' ∧ kept v s) {m n fuel : Nat} {a : Int} {s : S}
    {w : Walk S} {w' : Walk (S × UInt64)} (hn : n = stop.toNat - (toWord a).toNat)
    (hrun : forValues body (wordsFrom a m) s = some w)
    (hrun' : whileValue Prod.snd (fun st : S × UInt64 => st.2 < stop) (counted body') fuel
      (s, toWord a) = some w') (hturns : w.turns = w'.turns) :
    w = w'.mapState Prod.fst ∧ KeptValues body kept (wordsFrom a m) s ∧
      (n = m ∨ LeavesWithin body (wordsFrom a (min n m)) s) := by
  induction m generalizing n fuel a s w w' with
  | zero =>
    cases hrun
    cases n with
    | zero =>
      cases fuel with
      | zero => cases hrun'
      | succ fuel =>
        have hstop : ¬ toWord a < stop := by
          rw [UInt64.lt_iff_toNat_lt]
          omega
        rw [whileValue, if_neg (by simpa using hstop)] at hrun'
        cases hrun'
        exact ⟨rfl, trivial, .inl rfl⟩
    | succ n =>
      obtain ⟨loops, turns, heq⟩ := whileValue_turns (by simpa using lt_stop hn) hrun'
      rw [heq] at hturns
      cases hturns
  | succ m ih =>
    rw [wordsFrom] at hrun ⊢
    obtain ⟨o, hbody, hturn⟩ := Option.bind_eq_some_iff.mp hrun
    obtain ⟨turns, hfirst⟩ := walkTurn_turns hturn
    cases fuel with
    | zero => cases hrun'
    | succ fuel =>
      cases n with
      | zero =>
        have hstop : ¬ toWord a < stop := by
          rw [UInt64.lt_iff_toNat_lt]
          omega
        rw [whileValue, if_neg (by simpa using hstop)] at hrun'
        cases hrun'
        rw [hfirst] at hturns
        cases hturns
      | succ n =>
        have hlt := lt_stop hn
        rw [whileValue, if_pos (by simpa using hlt)] at hrun'
        obtain ⟨c, hcounted, hturn'⟩ := Option.bind_eq_some_iff.mp hrun'
        obtain ⟨o', hbody', rfl⟩ := Option.map_eq_some_iff.mp hcounted
        obtain ⟨turns', hfirst'⟩ := walkTurn_turns hturn'
        have hloops : o.loops = o'.loops := by
          rw [hfirst, hfirst'] at hturns
          exact congrArg Prod.snd (List.cons.inj hturns).1
        have hsame : o.loops ++ [] = o'.loops ++ [] := by rw [hloops]
        obtain ⟨rfl, hkept⟩ := h hbody hbody' hsame
        rw [Nat.succ_min_succ, wordsFrom]
        cases hgo : goesOn o.exit with
        | false =>
          rw [walkTurn_stop hgo] at hturn
          rw [walkTurn_stop (o := countUp (toWord a) o) hgo] at hturn'
          cases hturn
          cases hturn'
          refine ⟨rfl, ⟨hkept, ?_⟩, .inr ⟨o, hbody, ?_⟩⟩
          · intro o' hbody''
            rw [hbody] at hbody''
            cases hbody''
            refine ⟨?_, fun hgo' => ?_⟩
            · intro hexit
              rw [hexit] at hgo
              cases hgo
            · rw [hgo] at hgo'
              cases hgo'
          · intro hgo'
            rw [hgo] at hgo'
            cases hgo'
        | true =>
          rw [walkTurn_go hgo] at hturn
          rw [walkTurn_go (o := countUp (toWord a) o) hgo, countUp] at hturn'
          obtain ⟨w₁, hw₁, rfl⟩ := Option.map_eq_some_iff.mp hturn
          obtain ⟨w₁', hw₁', rfl⟩ := Option.map_eq_some_iff.mp hturn'
          have hmore : w₁.turns = w₁'.turns := (List.cons.inj hturns).2
          have hne : o.exit ≠ .nextTurn := by
            intro hexit
            -- the same word comes again, not the next one
            have hfalls : falls o.exit = false := by rw [hexit]; rfl
            rw [hfalls] at hw₁'
            obtain ⟨loops, rest, heq⟩ := whileValue_turns (by simpa using hlt) hw₁'
            rw [heq] at hmore
            cases m with
            | zero =>
              cases hw₁
              cases hmore
            | succ m =>
              obtain ⟨o₂, -, hturn₂⟩ := Option.bind_eq_some_iff.mp hw₁
              obtain ⟨rest', heq'⟩ := walkTurn_turns hturn₂
              rw [heq'] at hmore
              exact toWord_succ_ne a (congrArg Prod.fst (List.cons.inj hmore).1)
          rw [falls_of_goesOn hgo hne, if_pos rfl, ← toWord_succ] at hw₁'
          obtain ⟨hw, hvalues, hwalk⟩ := ih (size_succ hn) hw₁ hw₁' hmore
          refine ⟨?_, ⟨hkept, ?_⟩, ?_⟩
          · rw [hw]
            rfl
          · intro o' hbody''
            rw [hbody] at hbody''
            cases hbody''
            exact ⟨hne, fun _ => hvalues⟩
          · obtain rfl | hleaves := hwalk
            · exact .inl rfl
            · exact .inr ⟨o, hbody, fun _ => hleaves⟩

end

/-! ## §3 Whole functions -/

section

variable {S : Type} (M : Meaning S)

/-- The condition for a loop over a range, where its ends have values. -/
def Meaning.KeptEnds (names : List Bytes) (inclusive : Bool) (left right : AstNode) (body : Cmd S)
    (kept : S → Prop) (s : S) : Prop :=
  ∀ s' a b, M.ends left right s = some (s', a, b) →
    KeptRange (fun v s => body (M.enterAll names v s)) (fun v s => kept (M.enterAll names v s))
      inclusive a.val b.val s'

variable (fuel : Nat)

mutual

/-- In the run of the language, no turn of a loop over a range ends with
`continue`, and each such loop takes as many turns as it has words, unless
the body leaves it before. -/
def LoopStmt.Kept : LoopStmt → S → Prop
  | .simple _ _ => fun _ => True
  | .block _ body => body.Kept
  | .ifNode cond thenBody rest => KeptChoice (M.test cond) thenBody.Kept rest.Kept
  | .whileNode cond body => KeptWhile (M.test cond) (body.run M langLoop fuel) body.Kept fuel
  | .forRange var indexVar inclusive left right body =>
    M.KeptEnds (var.toList ++ indexVar.toList) inclusive left right (body.run M langLoop fuel)
      body.Kept
  | .breakNode _ => fun _ => True
  | .continueNode _ => fun _ => True

def LoopBody.Kept : LoopBody → S → Prop
  | .nil => fun _ => True
  | .cons stmt rest => KeptSequel falls (stmt.run M langLoop fuel) stmt.Kept rest.Kept

def Branches.Kept : Branches → S → Prop
  | .none => fun _ => True
  | .elseBody body => body.Kept
  | .elif cond body rest => KeptChoice (M.test cond) body.Kept rest.Kept

end

end

section

variable {S : Type} {M : Meaning S}

/-- More turns than a loop over words can take. -/
def wordTurns : Nat := 18446744073709551616

theorem walkSize_lt (stop i : UInt64) : stop.toNat - i.toNat < wordTurns := by
  have := stop.toNat_lt
  unfold wordTurns
  omega

theorem Compares.loop {body body' : UInt64 → Cmd S} {kept : UInt64 → S → Prop} {fuel : Nat}
    {inclusive : Bool} {a b : Int} (ha : Integer64 a) (hb : Integer64 b)
    (hfuel : wordTurns ≤ fuel) (hbody : ∀ v, Compares (kept v) (body v) (body' v)) :
    Compares (KeptRange body kept inclusive a b)
      (fun s => (langLoop inclusive a b body s).map Walk.outcome)
      (fun s => (cLoop fuel inclusive a b body' s).map Walk.outcome) := by
  refine Compares.walks ?_ ?_
  · intro s w hkept hrun
    refine walk_follows (fun hk h => (hbody _).follows hk h) rfl
      (Nat.lt_of_lt_of_le (walkSize_lt _ _) hfuel) hkept.1 ?_ hrun
    rw [rangeKept_iff ha hb]
    exact hkept.2
  · intro s w w' hrun hrun' hturns
    obtain ⟨w'', hwhile, rfl⟩ := Option.map_eq_some_iff.mp hrun'
    obtain ⟨hw, hvalues, hwalk⟩ : _ ∧ KeptValues body kept _ s ∧ _ :=
      walk_reveals (fun h h' htrace => (hbody _).reveals h h' htrace) rfl hrun hwhile hturns
    rw [rangeKept_iff ha hb] at hwalk
    exact ⟨hw, hvalues, hwalk⟩

theorem Compares.runRange {names : List Bytes} {inclusive : Bool} {left right : AstNode}
    {x y : Cmd S} {kept : S → Prop} {fuel : Nat} (hfuel : wordTurns ≤ fuel)
    (h : Compares kept x y) :
    Compares (M.KeptEnds names inclusive left right x kept)
      (M.runRange langLoop names inclusive left right x)
      (M.runRange (cLoop fuel) names inclusive left right y) where
  follows := by
    intro s o hkept hrun
    obtain ⟨⟨s', a, b⟩, hends, hrun⟩ := Option.bind_eq_some_iff.mp hrun
    refine Option.bind_eq_some_iff.mpr ⟨(s', a, b), hends, ?_⟩
    exact (Compares.loop a.property b.property hfuel fun v =>
      ⟨fun hk h' => h.follows hk h', fun h' h'' htrace => h.reveals h' h'' htrace⟩).follows
        (hkept s' a b hends) hrun
  reveals := by
    intro s o o' more more' hrun hrun' htrace
    obtain ⟨⟨s', a, b⟩, hends, hrun⟩ := Option.bind_eq_some_iff.mp hrun
    obtain ⟨p, hends', hrun'⟩ := Option.bind_eq_some_iff.mp hrun'
    rw [hends] at hends'
    cases hends'
    obtain ⟨heq, hkept⟩ := (Compares.loop a.property b.property hfuel fun v =>
      ⟨fun hk h' => h.follows hk h', fun h' h'' htrace => h.reveals h' h'' htrace⟩).reveals
        hrun hrun' htrace
    refine ⟨heq, ?_⟩
    intro s'' a' b' hends''
    rw [hends] at hends''
    cases hends''
    exact hkept

mutual

theorem compares_run {n m : Nat} (hle : n ≤ m) (hfuel : wordTurns ≤ m) : (stmt : LoopStmt) →
    Compares (stmt.Kept M n) (stmt.run M langLoop n) (stmt.run M (cLoop m) m)
  | .simple node h => by
    rw [LoopStmt.Kept, LoopStmt.run, LoopStmt.run]
    exact compares_refl _
  | .block kind body => by
    rw [LoopStmt.Kept, LoopStmt.run, LoopStmt.run]
    exact compares_runBody hle hfuel body
  | .ifNode cond thenBody rest => by
    rw [LoopStmt.Kept, LoopStmt.run, LoopStmt.run]
    exact (compares_runBody hle hfuel thenBody).choose (compares_runBranches hle hfuel rest)
  | .whileNode cond body => by
    rw [LoopStmt.Kept, LoopStmt.run, LoopStmt.run]
    exact (compares_runBody hle hfuel body).whileTest hle
  | .forRange var indexVar inclusive left right body => by
    rw [LoopStmt.Kept, LoopStmt.run, LoopStmt.run]
    exact Compares.runRange hfuel (compares_runBody hle hfuel body)
  | .breakNode label => by
    rw [LoopStmt.Kept, LoopStmt.run, LoopStmt.run]
    exact compares_refl _
  | .continueNode label => by
    rw [LoopStmt.Kept, LoopStmt.run, LoopStmt.run]
    exact compares_refl _

theorem compares_runBody {n m : Nat} (hle : n ≤ m) (hfuel : wordTurns ≤ m) : (body : LoopBody) →
    Compares (body.Kept M n) (body.run M langLoop n) (body.run M (cLoop m) m)
  | .nil => by
    rw [LoopBody.Kept, LoopBody.run, LoopBody.run]
    exact compares_refl _
  | .cons stmt rest => by
    rw [LoopBody.Kept, LoopBody.run, LoopBody.run]
    exact (compares_run hle hfuel stmt).sequel (compares_runBody hle hfuel rest)

theorem compares_runBranches {n m : Nat} (hle : n ≤ m) (hfuel : wordTurns ≤ m) :
    (rest : Branches) →
      Compares (rest.Kept M n) (rest.run M langLoop n) (rest.run M (cLoop m) m)
  | .none => by
    rw [Branches.Kept, Branches.run, Branches.run]
    exact compares_refl _
  | .elseBody body => by
    rw [Branches.Kept, Branches.run, Branches.run]
    exact compares_runBody hle hfuel body
  | .elif cond body rest => by
    rw [Branches.Kept, Branches.run, Branches.run]
    exact (compares_runBody hle hfuel body).choose (compares_runBranches hle hfuel rest)

end

end

/-! ## §4 Labels and printing -/

section

variable {cg : EmitContext}

theorem gotosOf_append (codes codes' : List Code) :
    gotosOf (codes ++ codes') = gotosOf codes ++ gotosOf codes' := by
  induction codes with
  | nil => rfl
  | cons code codes ih => rw [List.cons_append, gotosOf, gotosOf, ih, List.append_assoc]

theorem gotosOf_singleton (code : Code) : gotosOf [code] = code.gotos := by
  rw [gotosOf, gotosOf, List.append_nil]

theorem gotosOf_emitVar (counter : Own) (var : Option Bytes) : gotosOf (emitVar counter var) = [] := by
  cases var with
  | none => rfl
  | some name => rfl

theorem gotosOf_emitJump {code : Code} (h : code.gotos = []) (label : Option Bytes)
    (suffix : String) : gotosOf (emitJump code suffix label) = [] ↔ hasLabel label = false := by
  unfold emitJump
  split
  · rw [gotosOf_singleton, h]
    exact iff_of_true rfl rfl
  · rw [gotosOf_singleton, h]
    exact iff_of_true rfl rfl
  · next label hne =>
    rw [gotosOf_singleton]
    cases label with
    | nil => exact absurd rfl hne
    | cons c label => exact iff_of_false (List.cons_ne_nil _ _) Bool.noConfusion

theorem printedGotos_simple {node : AstNode} (h : isSimple node = true) (n : Nat) :
    printedGotos (cEmitStmt cg node n).1 = [] := by
  cases node with
  | returnNode value =>
    rw [cEmitStmt, cEmitReturn]
    cases cg.throws with
    | false => rfl
    | true =>
      cases value with
      | none => rfl
      | some value => rfl
  | throwNode value =>
    rw [cEmitStmt, cEmitThrow]
    cases cg.throws with
    | true => rfl
    | false =>
      cases value with
      | none => rfl
      | some value => rfl
  | spawn call =>
    rw [cEmitStmt]
    cases spawnExprs call with
    | nil => rfl
    | cons expr exprs => rfl
  | exprStmt expr =>
    rw [cEmitStmt]
    rfl
  | letNode name type value isMut isGlobal =>
    rw [cEmitStmt]
    rfl
  | constDecl name value =>
    rw [cEmitStmt]
    rfl
  | yieldNode =>
    rw [cEmitStmt]
    rfl
  | _ => cases h

theorem append_eq_nil_iff {gotos gotos' : List Bytes} {b b' : Bool} (h : gotos = [] ↔ b = false)
    (h' : gotos' = [] ↔ b' = false) : gotos ++ gotos' = [] ↔ (b || b') = false := by
  rw [List.append_eq_nil_iff, h, h', Bool.or_eq_false_iff]

mutual

/-- A goto is printed for a jump with a label. -/
theorem gotos_emitStmt : (stmt : LoopStmt) → (n : Nat) →
    (gotosOf (emitStmt cg stmt n).1 = [] ↔ stmt.labelled = false)
  | .simple node h, n => by
    show gotosOf [.simple node (cEmitStmt cg node n).1] = [] ↔ _
    rw [gotosOf_singleton, Code.gotos, LoopStmt.labelled]
    exact iff_of_true (printedGotos_simple h n) rfl
  | .block kind body, n => by
    rw [emitStmt, LoopStmt.labelled]
    show gotosOf [.inlined (emitBody cg body n).1] = [] ↔ _
    rw [gotosOf_singleton, Code.gotos]
    exact gotos_emitBody body n
  | .ifNode cond thenBody rest, n => by
    rw [emitStmt, LoopStmt.labelled]
    show gotosOf [.ite cond [.inlined (emitBody cg thenBody (n + cg.labels cond)).1]
      (emitBranches cg rest (emitBody cg thenBody (n + cg.labels cond)).2).1] = [] ↔ _
    rw [gotosOf_singleton, Code.gotos, gotosOf_singleton, Code.gotos]
    exact append_eq_nil_iff (gotos_emitBody thenBody _) (gotos_emitBranches rest _)
  | .whileNode cond body, n => by
    rw [emitStmt, LoopStmt.labelled]
    show gotosOf [.while cond [.inlined (emitBody cg body (n + cg.labels cond)).1]] = [] ↔ _
    rw [gotosOf_singleton, Code.gotos, gotosOf_singleton, Code.gotos]
    exact gotos_emitBody body _
  | .forRange var indexVar inclusive left right body, n => by
    rw [emitStmt, LoopStmt.labelled]
    show gotosOf [.braces [.declWord .rangeStart left, .declWord .rangeEnd right,
      .declCopy (.counter n) .rangeStart, .whileLess (.counter n) .rangeEnd
        (emitVar (.counter n) var ++ emitVar (.counter n) indexVar ++
          [.inlined (emitBody cg body (n + 2 + cg.labels left + cg.labels right)).1] ++
            [.incr (.counter n)])]] = [] ↔ _
    have hloop : gotosOf [.declWord .rangeStart left, .declWord .rangeEnd right,
        .declCopy (.counter n) .rangeStart, .whileLess (.counter n) .rangeEnd
          (emitVar (.counter n) var ++ emitVar (.counter n) indexVar ++
            [.inlined (emitBody cg body (n + 2 + cg.labels left + cg.labels right)).1] ++
              [.incr (.counter n)])] =
        gotosOf (emitBody cg body (n + 2 + cg.labels left + cg.labels right)).1 := by
      rw [gotosOf, gotosOf, gotosOf, gotosOf_singleton, Code.gotos, Code.gotos, Code.gotos,
        Code.gotos, gotosOf_append, gotosOf_append, gotosOf_append, gotosOf_emitVar,
        gotosOf_emitVar, gotosOf_singleton, gotosOf_singleton, Code.gotos, Code.gotos]
      simp
    rw [gotosOf_singleton, Code.gotos, hloop]
    exact gotos_emitBody body _
  | .breakNode label, n => by
    rw [emitStmt, LoopStmt.labelled]
    exact gotosOf_emitJump rfl label _
  | .continueNode label, n => by
    rw [emitStmt, LoopStmt.labelled]
    exact gotosOf_emitJump rfl label _

theorem gotos_emitBody : (body : LoopBody) → (n : Nat) →
    (gotosOf (emitBody cg body n).1 = [] ↔ body.labelled = false)
  | .nil, n => by
    rw [emitBody, LoopBody.labelled]
    exact iff_of_true rfl rfl
  | .cons stmt rest, n => by
    rw [emitBody, LoopBody.labelled]
    show gotosOf ((emitStmt cg stmt n).1 ++ (emitBody cg rest (emitStmt cg stmt n).2).1) = [] ↔ _
    rw [gotosOf_append]
    exact append_eq_nil_iff (gotos_emitStmt stmt n) (gotos_emitBody rest _)

theorem gotos_emitBranches : (rest : Branches) → (n : Nat) →
    (gotosOf (emitBranches cg rest n).1 = [] ↔ rest.labelled = false)
  | .none, n => by
    rw [emitBranches, Branches.labelled]
    exact iff_of_true rfl rfl
  | .elseBody body, n => by
    rw [emitBranches, Branches.labelled]
    show gotosOf [.inlined (emitBody cg body n).1] = [] ↔ _
    rw [gotosOf_singleton, Code.gotos]
    exact gotos_emitBody body n
  | .elif cond body rest, n => by
    rw [emitBranches, Branches.labelled]
    show gotosOf [.ite cond [.inlined (emitBody cg body (n + cg.labels cond)).1]
      (emitBranches cg rest (emitBody cg body (n + cg.labels cond)).2).1] = [] ↔ _
    rw [gotosOf_singleton, Code.gotos, gotosOf_singleton, Code.gotos]
    exact append_eq_nil_iff (gotos_emitBody body _) (gotos_emitBranches rest _)

end

theorem printCodes_append (codes codes' : List Code) :
    printCodes (codes ++ codes') = printCodes codes ++ printCodes codes' := by
  induction codes with
  | nil => rfl
  | cons code codes ih => rw [List.cons_append, printCodes, printCodes, ih, List.append_assoc]

theorem printCodes_singleton (code : Code) : printCodes [code] = code.print := by
  rw [printCodes, printCodes, List.append_nil]

theorem printCodes_emitJump {code : Code} {jump : CStmt} (h : code.print = [jump])
    (label : Option Bytes) (suffix : String) :
    printCodes (emitJump code suffix label) = cEmitJump jump suffix label := by
  have hone : printCodes [code] = [jump] := by rw [printCodes_singleton, h]
  match label with
  | none => exact hone
  | some [] => exact hone
  | some (c :: label) => rfl

theorem printCodes_emitVar (counter : Own) (var : Option Bytes) :
    printCodes (emitVar counter var) = varDecl [counter.name] var := by
  cases var with
  | none => rfl
  | some name => rfl

/-- What a computation of the emitter prints. -/
def printed (x : Emit (List Code)) : Emit (List CStmt) := do return printCodes (← x)

/-- The range loop of `c_emit_for`, inclusive or not. -/
theorem printed_emitForRange (var indexVar : Option Bytes) (inclusive : Bool) (left right : AstNode)
    (body : Emit (List Code)) :
    printed (emitForRange cg var indexVar left right body) =
      cEmitFor cg var indexVar (printed (do return [.inlined (← body)]))
        (rangeNode inclusive left right) := by
  have hrange : printed (emitForRange cg var indexVar left right body) =
      cEmitForRange cg var indexVar (printed (do return [.inlined (← body)])) (some left)
        (some right) := by
    funext n
    show (printCodes [.braces _], _) = ([_], _)
    simp only [printCodes, Code.print, List.append_nil, printCodes_append, printCodes_emitVar]
    rfl
  cases inclusive with
  | false => exact hrange
  | true => exact hrange

mutual

/-- The statements are those of `cEmitStmt`. -/
theorem print_emitStmt : (stmt : LoopStmt) → printed (emitStmt cg stmt) = cEmitStmt cg stmt.node
  | .simple node h => by
    funext n
    show (printCodes [.simple node (cEmitStmt cg node n).1], (cEmitStmt cg node n).2) = _
    rw [printCodes_singleton, Code.print, LoopStmt.node]
    rfl
  | .block kind body => by
    have hbody := print_emitBody body
    rw [LoopStmt.node, emitStmt]
    cases kind with
    | bare =>
      rw [BlockKind.node, cEmitStmt, ← hbody]
      rfl
    | unsafe_ =>
      rw [BlockKind.node, cEmitStmt, cEmitFirst, cEmitBlockNode, ← hbody]
      rfl
    | region name =>
      rw [BlockKind.node, cEmitStmt, cEmitBlock, cEmitBlockNode, ← hbody]
      rfl
  | .ifNode cond thenBody rest => by
    rw [LoopStmt.node, emitStmt, cEmitStmt, cEmitBlock, cEmitBlockNode, ← print_emitBody thenBody]
    funext n
    show (printCodes [.ite cond [.inlined (emitBody cg thenBody (n + cg.labels cond)).1]
      (emitBranches cg rest (emitBody cg thenBody (n + cg.labels cond)).2).1], _) = _
    have hrest := congrFun (print_emitBranches rest) (emitBody cg thenBody (n + cg.labels cond)).2
    rw [printCodes_singleton, Code.print]
    refine Eq.trans ?_ (congrArg (fun p : List CStmt × Nat =>
      ([CStmt.ite (some { nodes := [cond] })
        [.inlined (printCodes (emitBody cg thenBody (n + cg.labels cond)).1)] p.1], p.2)) hrest)
    rfl
  | .whileNode cond body => by
    rw [LoopStmt.node, emitStmt, cEmitStmt, cEmitBlock, cEmitBlockNode, ← print_emitBody body]
    rfl
  | .forRange var indexVar inclusive left right body => by
    rw [LoopStmt.node, emitStmt, printed_emitForRange var indexVar inclusive, cEmitStmt, cEmitBlock,
      cEmitBlockNode, ← print_emitBody body]
    rfl
  | .breakNode label => by
    rw [LoopStmt.node, emitStmt, cEmitStmt,
      ← printCodes_emitJump (show Code.print .brk = [.brk] from rfl)]
    rfl
  | .continueNode label => by
    rw [LoopStmt.node, emitStmt, cEmitStmt,
      ← printCodes_emitJump (show Code.print .cont = [.cont] from rfl)]
    rfl

theorem print_emitBody : (body : LoopBody) → printed (emitBody cg body) = cEmitStmts cg body.nodes
  | .nil => by
    rw [LoopBody.nodes, emitBody, cEmitStmts]
    rfl
  | .cons stmt rest => by
    rw [LoopBody.nodes, emitBody, cEmitStmts, ← print_emitStmt stmt, ← print_emitBody rest]
    funext n
    show (printCodes (_ ++ _), _) = (printCodes _ ++ printCodes _, _)
    rw [printCodes_append]

/-- The branches after the first one are a chain of conditionals. -/
theorem print_emitBranches : (rest : Branches) → printed (emitBranches cg rest) = (do
    let elifs ← cEmitElifs cg rest.elifChain
    let elseBody ← cEmitBlock cg [] rest.elseBlock
    return elifs.foldr (fun arm rest => [.ite (some arm.1) arm.2 rest]) elseBody)
  | .none => by
    rw [Branches.elifChain, Branches.elseBlock, emitBranches, cEmitElifs, cEmitBlock]
    rfl
  | .elseBody body => by
    rw [Branches.elifChain, Branches.elseBlock, emitBranches, cEmitElifs, cEmitBlock, cEmitBlockNode,
      ← print_emitBody body]
    rfl
  | .elif cond body rest => by
    rw [Branches.elifChain, Branches.elseBlock, emitBranches, cEmitElifs, cEmitElif, cEmitBlock,
      cEmitBlockNode, ← print_emitBody body]
    funext n
    have hrest := congrFun (print_emitBranches rest) (emitBody cg body (n + cg.labels cond)).2
    show (printCodes [.ite cond [.inlined (emitBody cg body (n + cg.labels cond)).1]
      (emitBranches cg rest (emitBody cg body (n + cg.labels cond)).2).1], _) = _
    rw [printCodes_singleton, Code.print]
    refine Eq.trans ?_ (congrArg (fun p : List CStmt × Nat =>
      ([CStmt.ite (some { nodes := [cond] })
        [.inlined (printCodes (emitBody cg body (n + cg.labels cond)).1)] p.1], p.2)) hrest)
    rfl

end

end

/-! ## §5 When the loops run as specified -/

section

variable {S : Type} (M : Meaning S) (cg : EmitContext)

/-- What the language asks of the C text of a function body: whenever the
body ends, the C ends in the same state, with the same exit and the same
turns of its loops; and each goto has one label. -/
structure LoopsRight (f : LoopBody) (n : Nat) (s : S) : Prop where
  runs : ∀ fuel o, f.run M langLoop fuel s = some o →
    ∃ enough, ∀ fuel', enough ≤ fuel' → execCodes M fuel' (emitBody cg f n).1 (s, []) =
      some (o.mapState (within []))
  labels : ∀ label ∈ gotosOf (emitBody cg f n).1, (labelsOf (emitBody cg f n).1).count label = 1

variable {M cg}

theorem kept_of_runs {f : LoopBody} {n fuel : Nat} {s : S} {o : Outcome S}
    (h : LoopsRight M cg f n s) (hrun : f.run M langLoop fuel s = some o) : f.Kept M fuel s := by
  obtain ⟨enough, henough⟩ := h.runs fuel o hrun
  have hexec := henough (enough + fuel + wordTurns) (by omega)
  rw [← within, simulates_emitBody cg f n [] s] at hexec
  obtain ⟨o', hrun', hstate⟩ := Option.map_eq_some_iff.mp hexec
  have hloops : o.loops = o'.loops := by
    have hmap := congrArg Outcome.loops hstate
    exact hmap.symm
  have hsame : o.loops ++ [] = o'.loops ++ [] := by rw [hloops]
  exact ((compares_runBody (by omega) (by omega) f).reveals hrun hrun' hsame).2

theorem not_labelled_of_right {f : LoopBody} {n : Nat} {s : S} (h : LoopsRight M cg f n s) :
    f.labelled = false := by
  have hgotos : gotosOf (emitBody cg f n).1 = [] ↔ f.labelled = false := gotos_emitBody f n
  rw [← hgotos]
  refine List.eq_nil_iff_forall_not_mem.mpr ?_
  intro label hlabel
  have hcount := h.labels label hlabel
  cases hcount

variable (M cg)

end

theorem integer64_toNat (value : UInt64) : Integer64 value.toNat := by
  have := value.toNat_lt
  unfold Integer64
  omega

/-- Integer literals have their values, and there is no other state. -/
def literals : Meaning Unit where
  simple _ _ := none
  test _ _ := none
  bound node _ :=
    match node with
    | .literalInt value _ => some ((), ⟨value.toNat, integer64_toNat value⟩)
    | _ => none
  enter _ _ s := s

/-- `for i in 0..2 { continue }` -/
def continueLoop : LoopBody :=
  .cons (.forRange (some (bytes "i")) none false (.literalInt 0 false) (.literalInt 2 false)
    (.cons (.continueNode none) .nil)) .nil

end Aether.CTranspiler.Loops
