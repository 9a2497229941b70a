/-
Aether.Parser.MatchArms — what `parse_match_arm` makes.

The body of an arm comes from `parse_expr`, and `parse_expr` makes no block:
only the body of a lambda is one, and it stays inside its lambda. So every
arm of a match has patterns that `parse_pattern` makes and an expression as
its body (`parseMatch_arms`).
-/
import Aether.Parser.Decl

namespace Aether

open Lib.Procedures

/-! ## §1 Shapes -/

/-- The nodes that `parse_expr` makes. -/
def isExpression : AstNode → Bool
  | .literalInt .. | .literalFloat _ | .literalString _ | .literalChar _ | .literalBool _
  | .literalNone | .ident _ | .binaryOp .. | .unaryOp .. | .call .. | .index .. | .slice ..
  | .fieldAccess .. | .cast .. | .ternary _ | .lambda .. | .arrayLit _ | .matchNode .. => true
  | _ => false

/-- The nodes that `parse_pattern` makes. -/
inductive IsPattern : AstNode → Prop where
  | int (n : UInt64) : IsPattern (.literalInt n false)
  | bool (b : Bool) : IsPattern (.literalBool b)
  | none : IsPattern .literalNone
  | string (text : Bytes) : IsPattern (.literalString text)
  | ident (name : Bytes) : IsPattern (.ident name)
  | range (inclusive : Bool) (start stop : UInt64) :
    IsPattern (.binaryOp (if inclusive then .rangeInclusive else .range)
      (some (.literalInt start false)) (some (.literalInt stop false)) [])

/-- The arms that `parse_match_arm` makes. -/
inductive IsArm : AstNode → Prop where
  | mk (pattern : Option AstNode) (patterns : List AstNode) (body : Option AstNode)
    (hpattern : ∀ node ∈ pattern, IsPattern node) (hpatterns : ∀ node ∈ patterns, IsPattern node)
    (hbody : ∀ node ∈ body, isExpression node = true) : IsArm (.matchArm pattern patterns body)

abbrev AllExpressions (result : Option AstNode) : Prop := ∀ node ∈ result, isExpression node = true

/-- What the expression procedures return. -/
def Shape : (proc : Proc) → proc.Result → Prop
  | .exprPrec _, result => AllExpressions result
  | .prefixExpr, result => AllExpressions result
  | .infixLoop _ left _, result => isExpression left = true → AllExpressions result
  | .infixExpr left, result => isExpression left = true → AllExpressions result
  | .postfixLoop left, result => isExpression left = true → isExpression result = true
  | .matchArm, result => IsArm result
  | .matchArms arms, result => (∀ arm ∈ arms, IsArm arm) → ∀ arm ∈ result, IsArm arm
  | .morePatterns patterns, result =>
    (∀ node ∈ patterns, IsPattern node) → ∀ node ∈ result, IsPattern node
  | _, _ => True

/-! ## §2 Results of any state -/

def shapePost (c : Proc × Parser) (rs : c.1.Result × Parser) : Prop := Shape c.1 rs.1

/-- Whatever the state is, the result satisfies `Q` if those of the calls
have their shapes. -/
def Gives {α : Type} (x : ParseM α) (Q : α → Prop) : Prop :=
  ∀ p, Spec (fun _ => True) shapePost x p fun a _ => Q a

section

variable {α β : Type} {Q : α → Prop}

theorem gives_pure {a : α} (h : Q a) : Gives (pure a) Q := fun _ => h

theorem gives_bind {x : ParseM β} {f : β → ParseM α} {R : β → Prop} (hx : Gives x R)
    (hf : ∀ b, R b → Gives (f b) Q) : Gives (x >>= f) Q := by
  intro p
  refine spec_bind.mpr (spec_mono ?_ (hx p))
  intro b p' hb
  exact hf b hb p'

/-- A part that may give anything. -/
theorem gives_any {x : ParseM β} {f : β → ParseM α} (hf : ∀ b, Gives (f b) Q) :
    Gives (x >>= f) Q :=
  fun _ => spec_any fun b p' => hf b p'

theorem gives_call {proc : Proc} : Gives (recur proc) (Shape proc) :=
  fun _ => spec_callProc.mpr ⟨trivial, fun _ _ hr => hr⟩

theorem gives_mono {x : ParseM α} {R : α → Prop} (hx : Gives x R) (h : ∀ a, R a → Q a) :
    Gives x Q :=
  fun p => spec_mono (fun a _ ha => h a ha) (hx p)

theorem gives_ite {b : Bool} {x y : ParseM α} (hx : Gives x Q) (hy : Gives y Q) :
    Gives (if b = true then x else y) Q := by
  cases b with
  | false => exact hy
  | true => exact hx

end

theorem gives_none : Gives (pure none) AllExpressions :=
  gives_pure fun _ h => by cases h

theorem gives_some {node : AstNode} (h : isExpression node = true) :
    Gives (pure (some node)) AllExpressions := by
  refine gives_pure ?_
  intro node' hnode
  obtain rfl := Option.mem_some.mp hnode
  exact h

/-! ## §3 Patterns and arms -/

theorem gives_noPattern : Gives (pure none) fun r : Option AstNode => ∀ node ∈ r, IsPattern node :=
  gives_pure fun _ h => by cases h

theorem gives_somePattern {node : AstNode} (h : IsPattern node) :
    Gives (pure (some node)) fun r : Option AstNode => ∀ node ∈ r, IsPattern node := by
  refine gives_pure ?_
  intro node' hnode
  obtain rfl := Option.mem_some.mp hnode
  exact h

theorem parseIntPattern_shape :
    Gives parseIntPattern fun r => ∀ node ∈ r, IsPattern node := by
  refine gives_any fun t => gives_any fun b => gives_ite ?_ (gives_somePattern (.int _))
  refine gives_any fun inclusive => gives_any fun b => gives_ite ?_ ?_
  · exact gives_any fun stop => gives_somePattern (.range inclusive _ _)
  · exact gives_any fun _ => gives_noPattern

theorem parsePattern_shape : Gives parsePattern fun r => ∀ node ∈ r, IsPattern node := by
  refine gives_any fun b => gives_ite (gives_somePattern (.bool true)) ?_
  refine gives_any fun b => gives_ite (gives_somePattern (.bool false)) ?_
  refine gives_any fun b => gives_ite (gives_somePattern .none) ?_
  refine gives_any fun b => gives_ite parseIntPattern_shape ?_
  refine gives_any fun b => gives_ite (gives_any fun t => gives_somePattern (.string _)) ?_
  refine gives_any fun b => gives_ite (gives_any fun t => gives_somePattern (.ident _)) ?_
  refine gives_any fun b => gives_ite gives_noPattern ?_
  exact gives_any fun _ => gives_noPattern

theorem morePatterns_shape (patterns : List AstNode) :
    Gives (morePatterns patterns) (Shape (.morePatterns patterns)) := by
  refine gives_any fun b => gives_ite ?_ (gives_pure fun h => h)
  refine gives_any fun _ => gives_bind parsePattern_shape fun extra hextra => ?_
  refine gives_mono gives_call fun r hr hpatterns => hr ?_
  intro node hnode
  rcases List.mem_append.mp hnode with hnode | hnode
  · exact hpatterns node hnode
  · exact hextra node (Option.mem_toList.mp hnode)

theorem parseArmBody_shape {pattern : Option AstNode} {patterns : List AstNode}
    (hpattern : ∀ node ∈ pattern, IsPattern node) (hpatterns : ∀ node ∈ patterns, IsPattern node) :
    Gives (parseArmBody pattern patterns) IsArm := by
  refine gives_any fun _ => gives_bind gives_call fun body hbody => ?_
  exact gives_pure ⟨pattern, patterns, body, hpattern, hpatterns, hbody⟩

theorem matchArm_shape : Gives matchArm (Shape .matchArm) := by
  refine gives_any fun _ => gives_any fun _ => gives_any fun b => gives_ite ?_ ?_
  · exact parseArmBody_shape (by simp) (by simp)
  · refine gives_bind parsePattern_shape fun pattern hpattern => ?_
    refine gives_bind gives_call fun patterns hpatterns => ?_
    exact parseArmBody_shape hpattern (hpatterns (by simp))

theorem matchArms_shape (arms : List AstNode) :
    Gives (matchArms arms) (Shape (.matchArms arms)) := by
  refine gives_any fun b => gives_ite (gives_pure fun h => h) ?_
  refine gives_any fun b => gives_ite gives_call ?_
  refine gives_bind gives_call fun arm harm => ?_
  refine gives_mono gives_call fun r hr harms => hr ?_
  intro arm' harm'
  rcases List.mem_append.mp harm' with harm' | harm'
  · exact harms arm' harm'
  · obtain rfl := List.mem_singleton.mp harm'
    exact harm

/-- A match with arms. -/
def IsMatch (node : AstNode) : Prop :=
  ∃ value arms, node = .matchNode value arms ∧ AllExpressions value ∧ ∀ arm ∈ arms, IsArm arm

theorem parseMatch_shape : Gives parseMatch IsMatch := by
  refine gives_bind gives_call fun value hvalue => gives_any fun b => gives_ite ?_ ?_
  · refine gives_bind gives_call fun arms harms => gives_any fun _ => ?_
    exact gives_pure ⟨value, arms, rfl, hvalue, harms (by simp)⟩
  · exact gives_pure ⟨value, [], rfl, hvalue, by simp⟩

/-! ## §4 Expressions -/

theorem interpolation_shape : (pieces : List Piece) → {result : Option AstNode} →
    AllExpressions result → Gives (interpolation pieces result) AllExpressions
  | [], _, hresult => gives_pure hresult
  | .literal text :: rest, result, _ => by
    refine interpolation_shape rest ?_
    intro node hnode
    obtain rfl := Option.mem_some.mp hnode
    cases result with
    | none => rfl
    | some left => rfl
  | .expr text :: rest, result, hresult => by
    refine gives_bind (R := AllExpressions) ?_ fun r hr => ?_
    · refine fun p => spec_bind.mpr (spec_callOn.mpr ⟨trivial, fun rs hrs => hrs⟩)
    · cases r with
      | none => exact interpolation_shape rest hresult
      | some right =>
        refine interpolation_shape rest ?_
        intro node hnode
        obtain rfl := Option.mem_some.mp hnode
        cases result with
        | none => exact hr right rfl
        | some left => rfl

theorem parseStringLiteral_shape (token : Token) :
    Gives (parseStringLiteral token) AllExpressions := by
  unfold parseStringLiteral
  split
  · exact gives_some rfl
  · refine gives_bind (interpolation_shape _ ?_) fun result hresult => ?_
    · intro node hnode
      cases hnode
    · cases result with
      | none => exact gives_some rfl
      | some node => exact gives_some (hresult node rfl)

theorem parseUnary_shape (op : UnaryOp) : Gives (parseUnary op) AllExpressions :=
  gives_any fun _ => gives_any fun _ => gives_some rfl

theorem parseIncDec_shape (op : UnaryOp) : Gives (parseIncDec op) AllExpressions := by
  refine gives_any fun _ => gives_any fun operand => ?_
  cases operand with
  | none => exact gives_none
  | some operand => exact gives_some rfl

theorem parseLambda_shape : Gives parseLambda AllExpressions := by
  refine gives_any fun _ => gives_any fun _ => gives_any fun _ => gives_any fun _ => ?_
  refine gives_any fun b => gives_ite ?_ ?_
  · exact gives_any fun _ => gives_some rfl
  · exact gives_any fun _ => gives_some rfl

theorem prefixExpr_shape : Gives prefixExpr (Shape .prefixExpr) := by
  refine gives_any fun p => ?_
  have hleaf : ∀ node, isExpression node = true → Gives (leaf node) AllExpressions :=
    fun node hnode => gives_any fun _ => gives_some hnode
  dsimp only
  split
  all_goals first
    | exact hleaf _ rfl
    | exact parseUnary_shape _
    | exact parseIncDec_shape _
    | exact parseLambda_shape
    | exact gives_any fun _ => parseStringLiteral_shape _
    | exact gives_any fun _ => gives_any fun _ => gives_none
    | skip
  · refine gives_any fun _ => gives_bind parseMatch_shape fun node hnode => ?_
    obtain ⟨value, arms, rfl, -, -⟩ := hnode
    exact gives_some rfl
  · exact gives_any fun _ => gives_bind gives_call fun expr hexpr => gives_any fun _ =>
      gives_pure hexpr
  · exact gives_any fun _ => gives_any fun _ => gives_any fun _ => gives_some rfl

section

variable {left : AstNode} (hleft : isExpression left = true)
include hleft

theorem parseFieldAccess_shape (message : String) :
    Gives (parseFieldAccess left message) AllExpressions := by
  refine gives_any fun _ => gives_any fun b => gives_ite ?_ ?_
  · exact gives_any fun _ => gives_some rfl
  · exact gives_any fun _ => gives_some hleft

theorem parseCast_shape : Gives (parseCast left) AllExpressions := by
  refine gives_any fun _ => gives_any fun type => ?_
  cases type with
  | none => exact gives_any fun _ => gives_some hleft
  | some type => exact gives_some rfl

theorem parseBinary_shape (token : Token) : Gives (parseBinary left token) AllExpressions := by
  unfold parseBinary
  split
  · exact gives_some hleft
  · exact gives_any fun _ => gives_any fun _ => gives_some rfl

end

theorem parseQuestion_shape (left : AstNode) : Gives (parseQuestion left) AllExpressions := by
  refine gives_any fun p => ?_
  split
  · exact gives_any fun _ => gives_any fun _ => gives_some rfl
  · exact gives_any fun _ => gives_any fun _ => gives_any fun _ => gives_any fun _ =>
      gives_some rfl

theorem parseIndex_shape (left : AstNode) : Gives (parseIndex left) AllExpressions := by
  refine gives_any fun _ => gives_any fun _ => gives_any fun b => gives_ite ?_ ?_
  · exact gives_any fun _ => gives_any fun _ => gives_some rfl
  · exact gives_any fun _ => gives_some rfl

theorem infixExpr_shape {left : AstNode} (hleft : isExpression left = true) :
    Gives (infixExpr left) AllExpressions := by
  refine gives_any fun p => ?_
  dsimp only
  split
  · exact gives_any fun _ => gives_any fun _ => gives_any fun _ => gives_some rfl
  · exact parseIndex_shape left
  · exact parseFieldAccess_shape hleft _
  · exact parseFieldAccess_shape hleft _
  · exact gives_some hleft
  · exact parseCast_shape hleft
  · exact parseQuestion_shape left
  · exact parseBinary_shape hleft _

theorem infixLoop_shape (minPrec : Precedence) {left : AstNode} (hadInfix : Bool)
    (hleft : isExpression left = true) :
    Gives (infixLoop minPrec left hadInfix) AllExpressions := by
  refine gives_any fun _ => gives_any fun b => gives_ite (gives_some hleft) ?_
  refine gives_any fun p => ?_
  dsimp only
  split
  · exact gives_some hleft
  · split
    · exact gives_some hleft
    · refine gives_bind gives_call fun r hr => ?_
      cases r with
      | none => exact gives_none
      | some node => exact gives_mono gives_call fun _ h => h (hr hleft node rfl)

theorem postfixLoop_shape {left : AstNode} (hleft : isExpression left = true) :
    Gives (postfixLoop left) fun r => isExpression r = true := by
  refine gives_any fun b => gives_ite ?_ (gives_pure hleft)
  exact gives_any fun _ => gives_mono gives_call fun _ h => h rfl

theorem exprPrec_shape (minPrec : Precedence) :
    Gives (exprPrec minPrec) (Shape (.exprPrec minPrec)) := by
  refine gives_any fun b => gives_ite gives_none ?_
  refine gives_bind gives_call fun r hr => ?_
  cases r with
  | none => exact gives_none
  | some left =>
    refine gives_bind gives_call fun left' hleft' => ?_
    exact gives_mono gives_call fun _ h => h (hleft' (hr left rfl))

/-! ## §5 All procedures -/

/-- A procedure whose shape has a premise. -/
theorem gives_of_imp {α : Type} {x : ParseM α} {P : Prop} {Q : α → Prop}
    (h : P → Gives x Q) : Gives x fun a => P → Q a := by
  by_cases hP : P
  · exact gives_mono (h hP) fun _ ha _ => ha
  · exact fun p => spec_mono (fun _ _ _ hP' => absurd hP' hP) (spec_true x p)

theorem procs_shape (proc : Proc) : Gives (procs proc) (Shape proc) := by
  cases proc with
  | exprPrec minPrec => exact exprPrec_shape minPrec
  | prefixExpr => exact prefixExpr_shape
  | postfixLoop left => exact gives_of_imp postfixLoop_shape
  | infixLoop minPrec left hadInfix => exact gives_of_imp (infixLoop_shape minPrec hadInfix)
  | infixExpr left => exact gives_of_imp infixExpr_shape
  | matchArm => exact matchArm_shape
  | matchArms arms => exact matchArms_shape arms
  | morePatterns patterns => exact morePatterns_shape patterns
  | _ => exact fun p => spec_true _ p

/-- Every match of the parser, as a statement and as an expression, has
arms with patterns and an expression. -/
theorem parseMatch_arms {p p' : Parser} {node : AstNode} (h : Steps procs parseMatch p node p') :
    IsMatch node := by
  obtain ⟨n, hn⟩ := h
  refine evals_of_meets (Q := fun rs : AstNode × Parser => IsMatch rs.1) ?_ (parseMatch_shape p) hn
  have hbodies : ∀ c : Proc × Parser,
      ∃ pre, Meets pre shapePost (bodies procs c) (shapePost c) :=
    fun c => ⟨fun _ => True, procs_shape c.1 c.2⟩
  intro c r hr
  exact returns_of_meets hbodies ⟨n, hr⟩

end Aether
