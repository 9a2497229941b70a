/-
Aether.CTranspiler.MatchTheorems — when a match statement runs its first
matching arm.

The parser makes the body of every arm an expression (`parseMatch_arms`),
and the emitter passes it to `c_emit_block`, which prints nothing for
anything but a block. So the emitted statement evaluates its value, makes
its tests and does nothing else (`exec_matchStmt`), and it means what the
language says if and only if no arm matches (`match_runs_iff`).
-/
import Aether.CTranspiler.ScopeCheck
import Aether.CTranspiler.Exec
import Aether.CTranspiler.StringLiteral
import Aether.Parser.MatchArms

namespace Aether.CTranspiler

open Aether.Lib.Recorded

-- the equations, before the proofs that share them
section
attribute [local simp] unprintedVars execList exec cEmitArms
end

/-! ## §1 Match statements -/

inductive Pattern where
  | int (n : UInt64)
  | bool (b : Bool)
  | none
  | string (text : Bytes)
  /-- `_`, or the name of a variable or constant. -/
  | ident (name : Bytes)
  | range (inclusive : Bool) (start stop : UInt64)

def Pattern.node : Pattern → AstNode
  | .int n => .literalInt n false
  | .bool b => .literalBool b
  | .none => .literalNone
  | .string text => .literalString text
  | .ident name => .ident name
  | .range inclusive start stop =>
    rangeNode inclusive (.literalInt start false) (.literalInt stop false)

/-- What stands before the arrow of an arm. -/
inductive ArmHead where
  | bare
  | patterns (first : Pattern) (others : List Pattern)

structure MatchArm where
  head : ArmHead
  body : AstNode
  body_expression : isExpression body = true

structure MatchStmt where
  subject : AstNode
  arms : List MatchArm

def ArmHead.pattern : ArmHead → Option AstNode
  | .bare => none
  | .patterns first _ => some first.node

def ArmHead.others : ArmHead → List AstNode
  | .bare => []
  | .patterns _ others => others.map Pattern.node

def MatchArm.node (arm : MatchArm) : AstNode :=
  .matchArm arm.head.pattern arm.head.others (some arm.body)

def MatchStmt.node (m : MatchStmt) : AstNode := .matchNode (some m.subject) (m.arms.map MatchArm.node)

/-! ## §2 Every parsed match is one of them -/

theorem exists_pattern {node : AstNode} (h : IsPattern node) : ∃ p : Pattern, p.node = node := by
  cases h with
  | int n => exact ⟨.int n, rfl⟩
  | bool b => exact ⟨.bool b, rfl⟩
  | none => exact ⟨.none, rfl⟩
  | string text => exact ⟨.string text, rfl⟩
  | ident name => exact ⟨.ident name, rfl⟩
  | range inclusive start stop => exact ⟨.range inclusive start stop, rfl⟩

theorem exists_patterns : (nodes : List AstNode) → (∀ node ∈ nodes, IsPattern node) →
    ∃ ps : List Pattern, ps.map Pattern.node = nodes
  | [], _ => ⟨[], rfl⟩
  | node :: nodes, h => by
    obtain ⟨p, hp⟩ := exists_pattern (h node List.mem_cons_self)
    obtain ⟨ps, hps⟩ := exists_patterns nodes fun node' hnode => h node' (.tail _ hnode)
    exact ⟨p :: ps, by rw [List.map_cons, hp, hps]⟩

/-- Nothing is missing: a match that the parser reports no error in has a
value, each arm has a body, and a pattern stands before each comma. -/
inductive Complete : AstNode → Prop where
  | arm (pattern : Option AstNode) (patterns : List AstNode) (body : AstNode)
    (h : pattern = none → patterns = []) : Complete (.matchArm pattern patterns (some body))

theorem exists_arm {node : AstNode} (h : IsArm node) (hcomplete : Complete node) :
    ∃ arm : MatchArm, arm.node = node := by
  cases hcomplete with
  | arm pattern patterns body hnone =>
    cases h with
    | mk _ _ _ hpattern hpatterns hbody =>
      have hexpr : isExpression body = true := hbody body rfl
      cases pattern with
      | none =>
        rw [hnone rfl]
        exact ⟨⟨.bare, body, hexpr⟩, rfl⟩
      | some first =>
        obtain ⟨p, rfl⟩ := exists_pattern (hpattern first rfl)
        obtain ⟨ps, rfl⟩ := exists_patterns patterns hpatterns
        exact ⟨⟨.patterns p ps, body, hexpr⟩, rfl⟩

theorem exists_arms : (nodes : List AstNode) → (∀ node ∈ nodes, IsArm node) →
    (∀ node ∈ nodes, Complete node) → ∃ arms : List MatchArm, arms.map MatchArm.node = nodes
  | [], _, _ => ⟨[], rfl⟩
  | node :: nodes, h, hcomplete => by
    obtain ⟨arm, harm⟩ := exists_arm (h node List.mem_cons_self) (hcomplete node List.mem_cons_self)
    obtain ⟨arms, harms⟩ := exists_arms nodes (fun node' hnode => h node' (.tail _ hnode))
      fun node' hnode => hcomplete node' (.tail _ hnode)
    exact ⟨arm :: arms, by rw [List.map_cons, harm, harms]⟩

/-- What `parse_statement` makes of a match is a `MatchStmt`. -/
theorem parsed_matchStmt {p p' : Parser} {subject : AstNode} {arms : List AstNode}
    (h : Lib.Procedures.Steps procs parseMatch p (.matchNode (some subject) arms) p')
    (hcomplete : ∀ arm ∈ arms, Complete arm) :
    ∃ m : MatchStmt, m.node = .matchNode (some subject) arms := by
  obtain ⟨_, _, heq, -, harms⟩ := parseMatch_arms h
  cases heq
  obtain ⟨arms', rfl⟩ := exists_arms arms harms hcomplete
  exact ⟨⟨subject, arms'⟩, rfl⟩

/-! ## §3 What a match statement means -/

/-- A value of the language; one of the `other` equals no literal. -/
inductive Value where
  | int (x : Int) | bool (b : Bool) | none | string (text : Bytes) | other (id : Nat)
  deriving DecidableEq, Repr

def Value.isString : Value → Bool
  | .string _ => true
  | _ => false

section

-- the values of the variables and constants
variable (names : Bytes → Value)

def Pattern.accepts (x : Value) : Pattern → Bool
  | .int n => x = .int n.toNat
  | .bool b => x = .bool b
  | .none => x = .none
  | .string text => x = .string (processEscapes (stringContent text))
  | .ident name => name = bytes "_" || x = names name
  | .range inclusive start stop =>
    match x with
    | .int x => start.toNat ≤ x && if inclusive then x ≤ stop.toNat else x < stop.toNat
    | _ => false

def ArmHead.accepts (x : Value) : ArmHead → Bool
  | .bare => true
  | .patterns first others => first.accepts names x || others.any (Pattern.accepts names x)

/-- The arm that runs. -/
def MatchStmt.firstMatch (m : MatchStmt) (x : Value) : Option MatchArm :=
  m.arms.find? fun arm => arm.head.accepts names x

/-- The pattern stands for a string. -/
def Pattern.isString : Pattern → Bool
  | .string _ => true
  | .ident name => name ≠ bytes "_" && (names name).isString
  | _ => false

/-- The patterns that are printed: nothing after `_`. -/
def ArmHead.printed : ArmHead → List Pattern
  | .bare => []
  | .patterns first others => if isWildcard (some first.node) then [] else first :: others

/-- `__match_val` is a `uint64_t`: it neither holds a string nor is it
compared with one. -/
def MatchStmt.words (m : MatchStmt) (x : Value) : Bool :=
  !x.isString && m.arms.all fun arm => arm.head.printed.all fun p => !p.isString names

end

/-! ## §4 The emitted statement -/

/-- An event of a test: a decision, or an expression with `__match_val`. -/
def IsTest : Event → Prop
  | .branch _ => True
  | .eval text => text.own = [bytes "__match_val"]
  | .declare _ => False
  | .drop _ => False

def bodyEvents : Option MatchArm → List Event
  | none => []
  | some arm => [.eval { nodes := [arm.body] }]

/-- What the language asks of a run: the value once, tests, and the body of
the first arm that matches. -/
structure MatchRuns (names : Bytes → Value) (m : MatchStmt) (x : Value) (run : Run Event)
    (h : List Event) : Prop where
  /-- The text is C. -/
  words : m.words names x = true
  events : ∃ tests, (∀ e ∈ tests, IsTest e) ∧
    run h = some (h ++ (.eval { nodes := [m.subject] } :: tests ++ bodyEvents (m.firstMatch names x)),
      .fallThrough)

/-- A command that makes tests and does nothing else. -/
def OnlyTests (run : Run Event) : Prop :=
  ∀ h, ∃ tests, (∀ e ∈ tests, IsTest e) ∧ run h = some (h ++ tests, .fallThrough)

theorem onlyTests_skip : OnlyTests skip := by
  intro h
  exact ⟨[], by simp, by rw [List.append_nil]; rfl⟩

theorem OnlyTests.andThen {r s : Run Event} (hr : OnlyTests r) (hs : OnlyTests s) :
    OnlyTests (andThen r s) := by
  intro h
  obtain ⟨tests, htests, hrun⟩ := hr h
  obtain ⟨tests', htests', hrun'⟩ := hs (h ++ tests)
  refine ⟨tests ++ tests', ?_, ?_⟩
  · intro e he
    rcases List.mem_append.mp he with he | he
    · exact htests e he
    · exact htests' e he
  · rw [Lib.Recorded.andThen, after_of hrun, ← List.append_assoc]
    exact hrun'

theorem OnlyTests.choose {decide : List Event → Bool} {r s : Run Event} (hr : OnlyTests r)
    (hs : OnlyTests s) : OnlyTests (choose decide .branch r s) := by
  have hmark : ∀ {run : Run Event} (b : Bool), OnlyTests run →
      ∀ h, ∃ tests, (∀ e ∈ tests, IsTest e) ∧
        run (h ++ [.branch b]) = some (h ++ tests, .fallThrough) := by
    intro run b hrun h
    obtain ⟨tests, htests, heq⟩ := hrun (h ++ [.branch b])
    refine ⟨.branch b :: tests, ?_, ?_⟩
    · intro e he
      rcases List.mem_cons.mp he with rfl | he
      · trivial
      · exact htests e he
    · rw [heq, List.append_assoc]
      rfl
  intro h
  unfold Lib.Recorded.choose
  cases decide h with
  | false => exact hmark false hs h
  | true => exact hmark true hr h

theorem onlyTests_evalText {text : CText} (h : text.own = [bytes "__match_val"]) :
    OnlyTests (evalText text) := by
  intro hist
  refine ⟨if text.nodes.isEmpty then [] else [.eval text], ?_, rfl⟩
  intro e he
  split at he
  · cases he
  · obtain rfl := List.mem_singleton.mp he
    exact h

section

variable {cg : EmitContext} {decide : List Event → Bool} {fuel : Nat}

theorem onlyTests_unprinted (names : List Bytes) :
    OnlyTests (execList emitted decide fuel (unprintedVars names)) := by
  induction names with
  | nil =>
    rw [unprintedVars, List.map_nil, execList]
    exact onlyTests_skip
  | cons name names ih =>
    rw [unprintedVars, List.map_cons, execList, exec]
    exact onlyTests_skip.andThen ih

theorem cEmitBlock_expression {body : AstNode} (h : isExpression body = true) (n : Nat) :
    cEmitBlock cg [] (some body) n = ([], n) := by
  cases body with
  | block stmts => cases h
  | _ => rfl

/-- The condition of an arm, if it has one, is a test. -/
theorem emitArmCondition_own {pattern : Option AstNode} {patterns : List AstNode} {n : Nat}
    {text : CText} (h : (emitArmCondition cg pattern patterns n).1 = some text) :
    text.own = [bytes "__match_val"] := by
  unfold emitArmCondition at h
  split at h
  · cases h
  · split at h
    · cases h
    · cases h
      rfl

variable (cg) in
/-- What is printed of the first arm, and the arms after it. -/
theorem cEmitArms_cons (arm : MatchArm) (arms : List AstNode) (n : Nat) :
    ∃ cond names n', (∀ text, cond = some text → text.own = [bytes "__match_val"]) ∧
      (cEmitArms cg (arm.node :: arms) n).1 =
        [.ite cond (unprintedVars names) (cEmitArms cg arms n').1] := by
  have hbody : cEmitBlock cg [] (some arm.body)
      (emitArmCondition cg arm.head.pattern arm.head.others n).2 =
        ([], (emitArmCondition cg arm.head.pattern arm.head.others n).2) :=
    cEmitBlock_expression arm.body_expression _
  refine ⟨(emitArmCondition cg arm.head.pattern arm.head.others n).1,
    armNames arm.head.pattern arm.head.others,
    (emitArmCondition cg arm.head.pattern arm.head.others n).2,
    fun text htext => emitArmCondition_own htext, ?_⟩
  rw [MatchArm.node, cEmitArms, cEmitArm]
  change [CStmt.ite (emitArmCondition cg arm.head.pattern arm.head.others n).1
    (unprintedVars (armNames arm.head.pattern arm.head.others) ++ (cEmitBlock cg [] (some arm.body)
      (emitArmCondition cg arm.head.pattern arm.head.others n).2).1)
    (cEmitArms cg arms (cEmitBlock cg [] (some arm.body)
      (emitArmCondition cg arm.head.pattern arm.head.others n).2).2).1] = _
  rw [hbody, List.append_nil]

variable (cg decide fuel) in
/-- The arms of a match only make tests. -/
theorem onlyTests_arms (arms : List MatchArm) (n : Nat) :
    OnlyTests (execList emitted decide fuel (cEmitArms cg (arms.map MatchArm.node) n).1) := by
  induction arms generalizing n with
  | nil =>
    rw [List.map_nil, cEmitArms]
    exact onlyTests_skip
  | cons arm arms ih =>
    obtain ⟨cond, names, n', hcond, heq⟩ :=
      cEmitArms_cons cg arm (arms.map MatchArm.node) n
    rw [List.map_cons, heq, execList]
    refine OnlyTests.andThen ?_ ?_
    · cases cond with
      | none =>
        rw [exec]
        exact onlyTests_unprinted names
      | some text =>
        rw [exec]
        exact (onlyTests_evalText (hcond text rfl)).andThen ((onlyTests_unprinted names).choose (ih n'))
    · rw [execList]
      exact onlyTests_skip

variable (cg decide fuel)

/-- The emitted statement evaluates the value and makes tests. -/
theorem exec_matchStmt (m : MatchStmt) (n : Nat) (h : List Event) :
    ∃ tests, (∀ e ∈ tests, IsTest e) ∧
      execList emitted decide fuel (cEmitStmt cg m.node n).1 h =
        some (h ++ .eval { nodes := [m.subject] } :: tests, .fallThrough) := by
  obtain ⟨tests, htests, hrun⟩ := onlyTests_arms cg decide fuel m.arms
    (n + cg.labels m.subject) (h ++ [.eval { nodes := [m.subject] }])
  refine ⟨tests, htests, ?_⟩
  have heq : (cEmitStmt cg m.node n).1 =
      [.braces (ownDecl "__match_val" (some { nodes := [m.subject] }) ::
        (cEmitArms cg (m.arms.map MatchArm.node) (n + cg.labels m.subject)).1)] := by
    rw [MatchStmt.node, cEmitStmt]
    rfl
  have hinner : execList emitted decide fuel
      (ownDecl "__match_val" (some { nodes := [m.subject] }) ::
        (cEmitArms cg (m.arms.map MatchArm.node) (n + cg.labels m.subject)).1) h =
      some (h ++ .eval { nodes := [m.subject] } :: tests, .fallThrough) := by
    rw [execList, ownDecl, exec]
    refine Eq.trans hrun ?_
    rw [List.append_assoc]
    rfl
  rw [heq, execList, exec, andThen, after_of hinner, execList]
  rfl

/-! ## §5 When the first matching arm runs -/

/-- The body of an arm that matches is not among the events. -/
theorem not_runs_of_match {names : Bytes → Value} {m : MatchStmt} {x : Value} {n : Nat}
    {h : List Event} {arm : MatchArm} (hmatch : m.firstMatch names x = some arm) :
    ¬ MatchRuns names m x (execList emitted decide fuel (cEmitStmt cg m.node n).1) h := by
  intro hruns
  obtain ⟨tests, htests, hrun⟩ := exec_matchStmt cg decide fuel m n h
  obtain ⟨tests', -, hrun'⟩ := hruns.events
  rw [hrun, hmatch] at hrun'
  have heq := List.append_cancel_left (congrArg Prod.fst (Option.some.inj hrun'))
  have hlast : tests = tests' ++ [.eval { nodes := [arm.body] }] := (List.cons.inj heq).2
  have hbody : IsTest (.eval { nodes := [arm.body] }) := by
    apply htests
    rw [hlast]
    simp
  cases hbody

/-- A match statement evaluates its value once, runs the first arm that
matches and runs nothing when no arm does, if and only if no arm matches
and no string is compared with a word. -/
theorem match_runs_iff (names : Bytes → Value) (m : MatchStmt) (x : Value) (n : Nat)
    (h : List Event) :
    MatchRuns names m x (execList emitted decide fuel (cEmitStmt cg m.node n).1) h ↔
      m.words names x = true ∧ m.firstMatch names x = none := by
  constructor
  · intro hruns
    refine ⟨hruns.words, ?_⟩
    cases hmatch : m.firstMatch names x with
    | none => rfl
    | some arm => exact absurd hruns (not_runs_of_match cg decide fuel hmatch)
  · rintro ⟨hwords, hmatch⟩
    obtain ⟨tests, htests, hrun⟩ := exec_matchStmt cg decide fuel m n h
    refine ⟨hwords, tests, htests, ?_⟩
    rw [hmatch, bodyEvents, List.append_nil]
    exact hrun

end

/-- `match 0 { case 0 -> f() }` -/
def matchZero : MatchStmt where
  subject := .literalInt 0 false
  arms := [⟨.patterns (.int 0) [], .call (some (.ident (bytes "f"))) [], rfl⟩]

/-- Nothing is compared with a string, the arm for 0 matches, and it does
not run, whatever the test decides. -/
theorem matched_arm_not_run : matchZero.words (fun _ => .none) (.int 0) = true ∧
    ∀ decide : List Event → Bool, ¬ MatchRuns (fun _ => .none) matchZero (.int 0)
      (execList emitted decide 1 (cEmitStmt ⟨[], false, fun _ => 0⟩ matchZero.node 0).1) [] := by
  refine ⟨by decide, ?_⟩
  intro decide
  exact not_runs_of_match _ _ _ (show matchZero.firstMatch _ _ = some (matchZero.arms.head (by simp [matchZero])) from rfl)

end Aether.CTranspiler
