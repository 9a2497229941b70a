/-
Aether.Parser.Associativity — chains of operators of one level.

`parse_infix` hands its operator's own precedence to the right operand,
and the loop of `parse_expr_prec` leaves only at a lower one, so the right
operand takes the rest of the chain. `chain_nested_iff`: a chain of a
left-to-right level is left-nested if and only if it has at most one
operator and no bar; a chain of assignments is right-nested if and only if
its operators are `=`, `+=`, `-=` and `*=`.
-/
import Aether.Parser.SpecTable

namespace Aether

open Lib.Procedures

/-! ## §1 Chains -/

/-- A primary operand: `parse_prefix` gives `node` for its tokens, whatever
comes after them. -/
structure Operand where
  lexemes : List Lexeme
  node : AstNode
  starts : ∃ l ls, lexemes = l :: ls ∧ l.type ≠ .eof
  parses : ∀ p p' : Parser, p.Reads lexemes p' → ProcReturns procs .prefixExpr p (some node) p'

/-- The operand that is one identifier. -/
def Operand.ident (name : Bytes) : Operand where
  lexemes := [⟨.ident, name, 0⟩]
  node := .ident name
  starts := ⟨_, _, rfl, by simp⟩
  parses := fun p p' h => by
    obtain ⟨hlex, rfl⟩ := h
    have htype : p.current.type = .ident := congrArg Lexeme.type hlex
    have htext : p.current.text = name := congrArg Lexeme.text hlex
    have hleft := steps_parsePrefix.mp (prefixExpr_ident htype)
    rwa [htext] at hleft

/-- An operator and the operand to its right. -/
structure Link where
  op : SpecOp
  operand : Operand

def Link.lexemes (link : Link) : List Lexeme := link.op.lexemes ++ link.operand.lexemes

/-- The tokens of `e op₁ e₁ op₂ e₂ …`. -/
def chainLexemes (e : Operand) (links : List Link) : List Lexeme :=
  e.lexemes ++ links.flatMap Link.lexemes

/-- Join a tree and the next operand. -/
def joinLeft (left : Option AstNode) (link : Link) : Option AstNode := do
  let left ← left
  let op ← link.op.ast
  some (.binaryOp op (some left) (some link.operand.node) [])

/-- `((e op₁ e₁) op₂ e₂) …`, if the tree has the operators. -/
def leftNested (e : Operand) (links : List Link) : Option AstNode :=
  links.foldl joinLeft (some e.node)

/-- `e op₁ (e₁ op₂ (e₂ …))`, if the tree has the operators. -/
def rightNested (e : Operand) : List Link → Option AstNode
  | [] => some e.node
  | link :: links => do
    let op ← link.op.ast
    let right ← rightNested link.operand links
    some (.binaryOp op (some e.node) (some right) [])

/-- `parse_expr` builds the tree. -/
def Builds (p : Parser) (tree : Option AstNode) : Prop :=
  ∃ t q, tree = some t ∧ ProcReturns procs (.exprPrec .min) p (some t) q

/-- Nothing after the chain continues the expression, newlines skipped or
not. -/
def Ends (p : Parser) : Prop :=
  p.current.type ≠ .plusPlus ∧ p.current.type ≠ .minusMinus ∧
    tokenPrecedence p.current.type = .min ∧
    tokenPrecedence (infixState true p).current.type = .min

/-! ## §2 The tree of a chain -/

variable {m : Precedence} {left : AstNode} {r : Option AstNode} {p p' q : Parser}

/-- After an operand, the infix loop decides. -/
theorem exprPrec_operand (e : Operand) (hcur : p.hasCurrent = true) (hreads : p.Reads e.lexemes p')
    (hplus : p'.current.type ≠ .plusPlus) (hminus : p'.current.type ≠ .minusMinus) :
    ProcReturns procs (.exprPrec m) p r q ↔ ProcReturns procs (.infixLoop m e.node false) p' r q := by
  have hne : p.current.type ≠ .eof := by
    obtain ⟨l, ls, hls, hl⟩ := e.starts
    rw [hls] at hreads
    rw [← hreads.1] at hl
    exact hl
  exact exprPrec_of_prefixExpr (e.parses p p' hreads) hcur hne (hreads.hasCurrent hcur) hplus hminus

/-- Every operator is one token, of precedence `prec`. -/
def Uniform (prec : Precedence) (links : List Link) : Prop :=
  ∀ link ∈ links, ∃ type, link.op.single = some type ∧ tokenPrecedence type = prec

theorem chainLexemes_cons {e : Operand} {link : Link} {links : List Link} :
    chainLexemes e (link :: links) =
      e.lexemes ++ (link.op.lexemes ++ chainLexemes link.operand links) := by
  simp [chainLexemes, Link.lexemes]

/-- The state at the first operator, and the one after it. -/
theorem reads_chain {e : Operand} {link : Link} {links : List Link} {type : TokenType}
    (hsingle : link.op.single = some type) (hreads : p.Reads (chainLexemes e (link :: links)) p') :
    ∃ p₁, p.Reads e.lexemes p₁ ∧ p₁.current.type = type ∧
      p₁.advance.Reads (chainLexemes link.operand links) p' := by
  rw [chainLexemes_cons, lexemes_of_single hsingle, reads_append] at hreads
  obtain ⟨p₁, hoperand, hlex, hrest⟩ := hreads
  exact ⟨p₁, hoperand, congrArg Lexeme.type hlex, hrest⟩

/-- The operand at the head of a chain, and what its operator does. -/
theorem exprPrec_link {e : Operand} {link : Link} {type : TokenType} {op : BinOp} {p₁ : Parser}
    (hsingle : link.op.single = some type) (hop : link.op.ast = some op)
    (hprec : m.level ≤ (tokenPrecedence type).level) (hcur : p.hasCurrent = true)
    (hoperand : p.Reads e.lexemes p₁) (htype : p₁.current.type = type) :
    ProcReturns procs (.exprPrec m) p r q ↔
      ∃ right p₂, ProcReturns procs (.exprPrec (tokenPrecedence type)) p₁.advance right p₂ ∧
        ProcReturns procs (.infixLoop m (.binaryOp op (some e.node) right []) true) p₂ r q := by
  obtain ⟨hpipe, hplus, hminus, _, hmin⟩ := single_ordinary hsingle
  obtain ⟨b, hb, hbinary, hcustom⟩ := ast_of_single hsingle
  obtain rfl : op = b := Option.some.inj (hop.symm.trans hb)
  subst htype
  rw [exprPrec_operand e hcur hoperand hplus hminus]
  have hstops : ¬ stops m p₁.current.type := by
    intro h
    rcases h with h | h
    · exact hmin h
    · omega
  exact infixLoop_operator (hoperand.hasCurrent hcur) hbinary hcustom hpipe hstops

/-- A chain of one precedence is right-nested. -/
theorem exprPrec_uniform {prec : Precedence} {links : List Link} (huniform : Uniform prec links)
    (hend : Ends p') : ∀ {m : Precedence} {e : Operand} {p : Parser}, m.level ≤ prec.level →
      p.hasCurrent = true → p.Reads (chainLexemes e links) p' →
      ∃ t q, rightNested e links = some t ∧ (q = p' ∨ q = infixState true p') ∧
        ProcReturns procs (.exprPrec m) p (some t) q := by
  obtain ⟨hplus, hminus, hmin, hmin'⟩ := hend
  induction links with
  | nil =>
    intro m e p _ hcur hreads
    have hoperand : p.Reads e.lexemes p' := by simpa [chainLexemes] using hreads
    refine ⟨e.node, p', rfl, .inl rfl, ?_⟩
    rw [exprPrec_operand e hcur hoperand hplus hminus, infixLoop_iff]
    have hstate : infixState false p' = p' := ensure_of_hasCurrent (hoperand.hasCurrent hcur)
    rw [hstate, if_pos (.inl hmin)]
    exact ⟨rfl, rfl⟩
  | cons link links ih =>
    intro m e p hm hcur hreads
    obtain ⟨type, hsingle, rfl⟩ := huniform link (List.mem_cons_self ..)
    obtain ⟨op, hop, _, _⟩ := ast_of_single hsingle
    obtain ⟨p₁, hoperand, htype, hrest⟩ := reads_chain hsingle hreads
    have htail : Uniform (tokenPrecedence type) links := fun l hl =>
      huniform l (List.mem_cons_of_mem _ hl)
    obtain ⟨right, q, hright, hq, hreturns⟩ := ih htail (Nat.le_refl _) rfl hrest
    refine ⟨.binaryOp op (some e.node) (some right) [], infixState true p', ?_, .inr rfl, ?_⟩
    · simp [rightNested, hop, hright]
    · rw [exprPrec_link hsingle hop hm hcur hoperand htype]
      refine ⟨some right, q, hreturns, ?_⟩
      have hstate : infixState true q = infixState true p' := by
        rcases hq with rfl | rfl
        · rfl
        · exact infixState_idem p'
      rw [infixLoop_iff, hstate, if_pos (.inl hmin')]
      exact ⟨rfl, rfl⟩

/-- An operand before a bar is not parsed: the infix loop stays there. -/
theorem exprPrec_at_bar {e : Operand} {p₁ : Parser} (hm : m.level ≤ Precedence.logicalOr.level)
    (hcur : p.hasCurrent = true) (hoperand : p.Reads e.lexemes p₁)
    (htype : p₁.current.type = .pipe) : ¬ ProcReturns procs (.exprPrec m) p r q := by
  rw [exprPrec_operand e hcur hoperand (by simp [htype]) (by simp [htype])]
  intro hreturns
  have hcur₁ := hoperand.hasCurrent hcur
  have hstuck : Stuck (.infixLoop m e.node false, p₁) :=
    ⟨Nat.le_trans hm (by decide), by simpa [ensure_of_hasCurrent hcur₁] using htype⟩
  exact not_terminates_of_stuck calls_stuck hstuck ⟨_, hreturns⟩

/-- A chain with a bar is not parsed. -/
theorem exprPrec_bar {links : List Link}
    (hlinks : ∀ link ∈ links, link.op = .pipe ∨ link.op = .pipePipe ∨ link.op = .kwOr)
    (hbar : ∃ link ∈ links, link.op = .pipe ∨ link.op = .pipePipe) :
    ∀ {m : Precedence} {e : Operand} {p : Parser} {r : Option AstNode} {q : Parser},
      m.level ≤ Precedence.logicalOr.level → p.hasCurrent = true →
      p.Reads (chainLexemes e links) p' → ¬ ProcReturns procs (.exprPrec m) p r q := by
  induction links with
  | nil =>
    obtain ⟨_, h, _⟩ := hbar
    cases h
  | cons link links ih =>
    intro m e p r q hm hcur hreads
    rcases hlinks link (List.mem_cons_self ..) with hop | hop | hop
    · rw [chainLexemes_cons, hop, lexemes_pipes.1, reads_append] at hreads
      obtain ⟨p₁, hoperand, hlex, _⟩ := hreads
      exact exprPrec_at_bar hm hcur hoperand (congrArg Lexeme.type hlex)
    · rw [chainLexemes_cons, hop, lexemes_pipes.2, reads_append] at hreads
      obtain ⟨p₁, hoperand, hlex, _⟩ := hreads
      exact exprPrec_at_bar hm hcur hoperand (congrArg Lexeme.type hlex)
    · have hsingle : link.op.single = some .kwOr := by rw [hop]; rfl
      have hast : link.op.ast = some .or := by rw [hop]; rfl
      obtain ⟨p₁, hoperand, htype, hrest⟩ := reads_chain hsingle hreads
      have htail : ∃ l ∈ links, l.op = .pipe ∨ l.op = .pipePipe := by
        obtain ⟨l, hl, hlop⟩ := hbar
        rcases List.mem_cons.mp hl with rfl | hl
        · simp [hop] at hlop
        · exact ⟨l, hl, hlop⟩
      rw [exprPrec_link hsingle hast hm hcur hoperand htype]
      rintro ⟨right, p₂, hright, _⟩
      exact ih (fun l hl => hlinks l (List.mem_cons_of_mem _ hl)) htail (Nat.le_refl _) rfl hrest
        hright

/-! ## §3 Left and right nesting -/

theorem sizeOf_foldl_joinLeft {links : List Link} : ∀ {left t : AstNode},
    links.foldl joinLeft (some left) = some t → links ≠ [] → sizeOf left < sizeOf t := by
  induction links with
  | nil => intro left t _ hne; exact absurd rfl hne
  | cons link links ih =>
    intro left t ht _
    rw [List.foldl_cons] at ht
    cases hjoin : joinLeft (some left) link with
    | none =>
      have hnone : ∀ ls : List Link, ls.foldl joinLeft none = none := by
        intro ls
        induction ls with
        | nil => rfl
        | cons l ls ih => exact ih
      rw [hjoin, hnone] at ht
      cases ht
    | some next =>
      have hlt : sizeOf left < sizeOf next := by
        obtain ⟨op, _, hnext⟩ := Option.bind_eq_some_iff.mp hjoin
        obtain rfl := Option.some.inj hnext
        simp only [AstNode.binaryOp.sizeOf_spec, Option.some.sizeOf_spec]
        omega
      rw [hjoin] at ht
      cases links with
      | nil =>
        obtain rfl := Option.some.inj ht
        exact hlt
      | cons l ls => exact Nat.lt_trans hlt (ih ht (by simp))

/-- The two nestings differ from two operators on. -/
theorem leftNested_ne_rightNested {e : Operand} {links : List Link} {t : AstNode}
    (hlen : 2 ≤ links.length) (hleft : leftNested e links = some t) : rightNested e links ≠ some t := by
  obtain ⟨init, last, rfl⟩ : ∃ init last, links = init ++ [last] :=
    ⟨links.dropLast, links.getLast (by rintro rfl; simp at hlen), (List.dropLast_concat_getLast _).symm⟩
  intro hright
  have hinit : init ≠ [] := by
    rintro rfl
    simp at hlen
  rw [leftNested, List.foldl_append, List.foldl_cons, List.foldl_nil] at hleft
  obtain ⟨inner, hinner, hjoin⟩ := Option.bind_eq_some_iff.mp hleft
  obtain ⟨op, _, hnode⟩ := Option.bind_eq_some_iff.mp hjoin
  have hlt := sizeOf_foldl_joinLeft hinner hinit
  cases init with
  | nil => exact hinit rfl
  | cons link init =>
    obtain ⟨op', _, hjoin'⟩ := Option.bind_eq_some_iff.mp hright
    obtain ⟨right, _, hnode'⟩ := Option.bind_eq_some_iff.mp hjoin'
    have heq := Option.some.inj (hnode.trans hnode'.symm)
    simp only [AstNode.binaryOp.injEq, Option.some.injEq] at heq
    rw [heq.2.1] at hlt
    exact Nat.lt_irrefl _ hlt

/-! ## §4 The left operand stays on the left -/

/-- `t` is `left`, or a larger node with `left` or something larger on its
left if it is a binary operator. -/
def Extends (left t : AstNode) : Prop :=
  t = left ∨ sizeOf left < sizeOf t ∧
    ∀ op l r custom, t = .binaryOp op (some l) r custom → sizeOf left ≤ sizeOf l

theorem Extends.trans {a b c : AstNode} (h : Extends a b) (h' : Extends b c) : Extends a c := by
  rcases h' with rfl | ⟨hlt', hleft'⟩
  · exact h
  · have hle : sizeOf a ≤ sizeOf b := by
      rcases h with rfl | ⟨hlt, _⟩
      · exact Nat.le_refl _
      · exact Nat.le_of_lt hlt
    exact .inr ⟨Nat.lt_of_le_of_lt hle hlt',
      fun op l r custom ht => Nat.le_trans hle (hleft' op l r custom ht)⟩

/-- What the infix procedures give extends their left operand. -/
def leftPost : ∀ c : Proc × Parser, c.1.Result × Parser → Prop
  | (.infixExpr left, _), rs => ∀ t, rs.1 = some t → Extends left t
  | (.infixLoop _ left _, _), rs => ∀ t, rs.1 = some t → Extends left t
  | _, _ => True

theorem infixExpr_extends (left : AstNode) (p : Parser) :
    Spec (fun _ => True) leftPost (infixExpr left) p fun r _ =>
      ∀ t, r = some t → Extends left t := by
  have hself : ∀ t, some left = some t → Extends left t := fun t ht =>
    .inl (Option.some.inj ht).symm
  unfold infixExpr
  refine spec_any fun p₀ p => ?_
  dsimp only
  split
  case h_1 =>
    refine spec_any fun _ _ => spec_any fun args _ => spec_any fun _ _ => ?_
    rintro t ⟨⟩
    exact .inr ⟨by simp; omega, nofun⟩
  case h_2 =>
    refine spec_any fun _ _ => spec_any fun index _ => spec_any fun b _ => ?_
    split
    · refine spec_any fun stop _ => spec_any fun _ _ => ?_
      rintro t ⟨⟩
      exact .inr ⟨by simp; omega, nofun⟩
    · refine spec_any fun _ _ => ?_
      rintro t ⟨⟩
      exact .inr ⟨by simp; omega, nofun⟩
  case h_3 | h_4 =>
    refine spec_any fun _ _ => spec_any fun b _ => ?_
    split
    · refine spec_any fun field _ => ?_
      rintro t ⟨⟩
      exact .inr ⟨by simp; omega, nofun⟩
    · exact spec_any fun _ _ => hself
  case h_5 => exact hself
  case h_6 =>
    refine spec_any fun _ _ => spec_any fun type _ => ?_
    cases type with
    | none => exact spec_any fun _ _ => hself
    | some type =>
      rintro t ⟨⟩
      exact .inr ⟨by simp; omega, nofun⟩
  case h_7 =>
    refine spec_any fun p₁ _ => ?_
    split
    · refine spec_any fun _ _ => spec_any fun right _ => ?_
      rintro t ⟨⟩
      refine .inr ⟨by simp; omega, ?_⟩
      rintro op l r custom ⟨⟩
      exact Nat.le_refl _
    · refine spec_any fun _ _ => spec_any fun middle _ => spec_any fun _ _ =>
        spec_any fun right _ => ?_
      rintro t ⟨⟩
      exact .inr ⟨by simp [appendNode]; omega, nofun⟩
  case h_8 =>
    unfold parseBinary
    split
    · exact hself
    · refine spec_any fun _ _ => spec_any fun right _ => ?_
      rintro t ⟨⟩
      refine .inr ⟨by simp; omega, ?_⟩
      rintro op l r custom ⟨⟩
      exact Nat.le_refl _

theorem infixLoop_extends (m : Precedence) (left : AstNode) (b : Bool) (p : Parser) :
    Spec (fun _ => True) leftPost (infixLoop m left b) p fun r _ =>
      ∀ t, r = some t → Extends left t := by
  have hself : ∀ t, some left = some t → Extends left t := fun t ht =>
    .inl (Option.some.inj ht).symm
  unfold infixLoop
  refine spec_any fun _ _ => spec_any fun _ _ => ?_
  split
  · exact hself
  refine spec_any fun _ _ => ?_
  dsimp only
  split
  · exact hself
  split
  · exact hself
  refine spec_bind.mpr (spec_callProc.mpr ⟨trivial, fun r p' hnext => ?_⟩)
  cases r with
  | none =>
    rintro t ⟨⟩
  | some next =>
    refine spec_callProc.mpr ⟨trivial, fun r p' hloop t ht => ?_⟩
    exact (hnext next rfl).trans (hloop t ht)

/-- The infix loop keeps what it has on the left. -/
theorem infixLoop_left {b : Bool} {t : AstNode}
    (h : ProcReturns procs (.infixLoop m left b) p (some t) q) : Extends left t := by
  have hbody : ∀ c : Proc × Parser, ∃ pre, Meets pre leftPost (bodies procs c) (leftPost c) := by
    rintro ⟨proc, p⟩
    refine ⟨fun _ => True, ?_⟩
    cases proc with
    | infixExpr left => exact infixExpr_extends left p
    | infixLoop m left b => exact infixLoop_extends m left b p
    | _ => exact meets_true _
  exact returns_of_meets hbody h t rfl

/-- A node of an operator extends only itself and what is on its left. -/
theorem node_of_extends {op op' : BinOp} {right right' : Option AstNode} {left : AstNode}
    (h : Extends (.binaryOp op (some left) right []) (.binaryOp op' (some left) right' [])) :
    op' = op ∧ right' = right := by
  rcases h with h | ⟨_, hleft⟩
  · simp only [AstNode.binaryOp.injEq] at h
    exact ⟨h.1, h.2.2.1⟩
  · have hle := hleft _ _ _ _ rfl
    simp only [AstNode.binaryOp.sizeOf_spec, Option.some.sizeOf_spec] at hle
    omega

/-! ## §5 Chains of assignments -/

/-- The assignments that are parsed as such. -/
def assignments : List SpecOp := [.eq, .plusEq, .minusEq, .starEq]

theorem single_of_assignment {op : SpecOp} (h : op ∈ assignments) :
    ∃ type, op.single = some type ∧ tokenPrecedence type = .assignment := by
  cases op <;> first | exact ⟨_, rfl, rfl⟩ | simp [assignments] at h

/-- The tree has no operator for the other assignments, `/=` apart. -/
theorem assignment_cases {op : SpecOp} (hlevel : op.level = 13) :
    op ∈ assignments ∨ op = .slashEq ∨ op.ast = none := by
  cases op <;> first | exact .inl (by decide) | exact .inr (.inl rfl) | exact .inr (.inr rfl) |
    cases hlevel

/-- A chain with `/=` is not parsed as one: `/=` is two tokens. -/
theorem exprPrec_slashEq {links : List Link} (hlevel : ∀ link ∈ links, link.op.level = 13)
    (hslash : ∃ link ∈ links, link.op = .slashEq) :
    ∀ {m : Precedence} {e : Operand} {p q : Parser} {t : AstNode},
      m.level ≤ Precedence.assignment.level → p.hasCurrent = true →
      p.Reads (chainLexemes e links) p' → rightNested e links = some t →
      ¬ ProcReturns procs (.exprPrec m) p (some t) q := by
  induction links with
  | nil =>
    obtain ⟨_, h, _⟩ := hslash
    cases h
  | cons link links ih =>
    intro m e p q t hm hcur hreads hright
    obtain ⟨op, hop, hjoin⟩ := Option.bind_eq_some_iff.mp hright
    obtain ⟨right, htail, hnode⟩ := Option.bind_eq_some_iff.mp hjoin
    obtain rfl := Option.some.inj hnode
    rcases assignment_cases (hlevel link (List.mem_cons_self ..)) with hassign | hdiv | hnone
    · obtain ⟨type, hsingle, hprec⟩ := single_of_assignment hassign
      obtain ⟨p₁, hoperand, htype, hrest⟩ := reads_chain hsingle hreads
      have hslash' : ∃ l ∈ links, l.op = .slashEq := by
        obtain ⟨l, hl, hlop⟩ := hslash
        rcases List.mem_cons.mp hl with rfl | hl
        · rw [hlop] at hassign
          simp [assignments] at hassign
        · exact ⟨l, hl, hlop⟩
      rw [exprPrec_link hsingle hop (by rw [hprec]; exact hm) hcur hoperand htype, hprec]
      rintro ⟨right', p₂, hright', hloop⟩
      obtain ⟨_, rfl⟩ := node_of_extends (infixLoop_left hloop)
      exact ih (fun l hl => hlevel l (List.mem_cons_of_mem _ hl)) hslash' (Nat.le_refl _) rfl hrest
        htail hright'
    · rw [chainLexemes_cons, hdiv, lexemes_slashEq, reads_append] at hreads
      obtain ⟨p₁, hoperand, hlex, _⟩ := hreads
      have htype : p₁.current.type = .slash := congrArg Lexeme.type hlex
      have hstops : ¬ stops m p₁.current.type := by
        rw [htype]
        intro h
        rcases h with h | h
        · cases h
        · exact absurd (Nat.lt_of_lt_of_le h hm) (by decide)
      have hslash : binaryOpOf p₁.current.type = some .div := by
        rw [htype]
        rfl
      rw [exprPrec_operand e hcur hoperand (by simp [htype]) (by simp [htype]),
        infixLoop_operator (hoperand.hasCurrent hcur) hslash (by decide) (by simp [htype]) hstops]
      rintro ⟨right', p₂, _, hloop⟩
      obtain ⟨hdiv', _⟩ := node_of_extends (infixLoop_left hloop)
      obtain rfl := hdiv'
      rw [hdiv] at hop
      cases hop
    · rw [hnone] at hop
      cases hop

theorem ast_of_rightNested {links : List Link} : ∀ {e : Operand} {t : AstNode},
    rightNested e links = some t → ∀ link ∈ links, link.op.ast ≠ none := by
  induction links with
  | nil => simp
  | cons link links ih =>
    intro e t ht l hl
    obtain ⟨op, hop, hjoin⟩ := Option.bind_eq_some_iff.mp ht
    obtain ⟨right, htail, _⟩ := Option.bind_eq_some_iff.mp hjoin
    rcases List.mem_cons.mp hl with rfl | hl
    · simp [hop]
    · exact ih htail l hl

/-! ## §6 The trees that chains give -/

theorem leftNested_eq_of_short {e : Operand} {links : List Link} (hlen : links.length ≤ 1) :
    leftNested e links = rightNested e links := by
  cases links with
  | nil => rfl
  | cons link rest =>
    cases rest with
    | nil => simp [leftNested, rightNested, joinLeft]
    | cons => simp at hlen

/-- A level at most 12 with a bar has only bars and `or`. -/
theorem bar_cases {op op' : SpecOp} (hbar : op = .pipe ∨ op = .pipePipe)
    (hlevel : op'.level = op.level) : op' = .pipe ∨ op' = .pipePipe ∨ op' = .kwOr := by
  rcases hbar with rfl | rfl <;> cases op' <;>
    first | (simp; done) | simp [SpecOp.level] at hlevel

theorem uniform_of_level {links : List Link} {level : Nat} (h12 : level ≤ 12)
    (hlevel : ∀ link ∈ links, link.op.level = level)
    (hnobar : ∀ link ∈ links, link.op ≠ .pipe ∧ link.op ≠ .pipePipe) :
    ∃ prec, Uniform prec links := by
  have hsingle : ∀ link ∈ links, ∃ type, link.op.single = some type := fun link hlink =>
    single_of_level (hlevel link hlink ▸ h12) (hnobar link hlink).1 (hnobar link hlink).2
  cases links with
  | nil => exact ⟨.min, by simp [Uniform]⟩
  | cons first links =>
    obtain ⟨type, htype⟩ := hsingle first (List.mem_cons_self ..)
    refine ⟨tokenPrecedence type, fun link hlink => ?_⟩
    obtain ⟨type', htype'⟩ := hsingle link hlink
    have hsame : link.op.level = first.op.level :=
      (hlevel link hlink).trans (hlevel first (List.mem_cons_self ..)).symm
    exact ⟨type', htype', tokenPrecedence_of_level htype' htype hsame⟩

theorem builds_leftNested_iff {e : Operand} {links : List Link} (level : Nat) (h12 : level ≤ 12)
    (hlevel : ∀ link ∈ links, link.op.level = level)
    (hreads : p.ensure.Reads (chainLexemes e links) p') (hend : Ends p') :
    Builds p (leftNested e links) ↔
      links.length ≤ 1 ∧ ∀ link ∈ links, link.op ≠ .pipe ∧ link.op ≠ .pipePipe := by
  have hcur : p.ensure.hasCurrent = true := ensure_hasCurrent p
  constructor
  · rintro ⟨t, q, hleft, hreturns⟩
    rw [exprPrec_ensure] at hreturns
    have hnobar : ∀ link ∈ links, link.op ≠ .pipe ∧ link.op ≠ .pipePipe := by
      intro link hlink
      by_contra hnot
      have hbar : link.op = .pipe ∨ link.op = .pipePipe := by tauto
      have hlinks : ∀ l ∈ links, l.op = .pipe ∨ l.op = .pipePipe ∨ l.op = .kwOr := fun l hl =>
        bar_cases hbar ((hlevel l hl).trans (hlevel link hlink).symm)
      exact exprPrec_bar hlinks ⟨link, hlink, hbar⟩ (Nat.zero_le _) hcur hreads hreturns
    obtain ⟨prec, huniform⟩ := uniform_of_level h12 hlevel hnobar
    obtain ⟨t', q', hright, _, hreturns'⟩ :=
      exprPrec_uniform (m := .min) huniform hend (Nat.zero_le _) hcur hreads
    obtain ⟨ht, _⟩ := Prod.mk.inj (returns_det hreturns hreturns')
    refine ⟨?_, hnobar⟩
    by_contra hlong
    refine leftNested_ne_rightNested (Nat.lt_of_not_le hlong) hleft ?_
    rw [hright, ht]
  · rintro ⟨hlen, hnobar⟩
    obtain ⟨prec, huniform⟩ := uniform_of_level h12 hlevel hnobar
    obtain ⟨t, q, hright, _, hreturns⟩ :=
      exprPrec_uniform (m := .min) huniform hend (Nat.zero_le _) hcur hreads
    exact ⟨t, q, (leftNested_eq_of_short hlen).trans hright, exprPrec_ensure.mpr hreturns⟩

theorem builds_rightNested_iff {e : Operand} {links : List Link}
    (hlevel : ∀ link ∈ links, link.op.level = 13)
    (hreads : p.ensure.Reads (chainLexemes e links) p') (hend : Ends p') :
    Builds p (rightNested e links) ↔ ∀ link ∈ links, link.op ∈ assignments := by
  have hcur : p.ensure.hasCurrent = true := ensure_hasCurrent p
  constructor
  · rintro ⟨t, q, hright, hreturns⟩ link hlink
    rw [exprPrec_ensure] at hreturns
    rcases assignment_cases (hlevel link hlink) with hassign | hdiv | hnone
    · exact hassign
    · exact absurd hreturns
        (exprPrec_slashEq hlevel ⟨link, hlink, hdiv⟩ (Nat.zero_le _) hcur hreads hright)
    · exact absurd hnone (ast_of_rightNested hright link hlink)
  · intro hassign
    have huniform : Uniform .assignment links := fun link hlink =>
      single_of_assignment (hassign link hlink)
    obtain ⟨t, q, ht, _, hreturns⟩ :=
      exprPrec_uniform (m := .min) huniform hend (Nat.zero_le _) hcur hreads
    exact ⟨t, q, ht, exprPrec_ensure.mpr hreturns⟩

/-- What the parser builds for a chain of one level: a left-to-right chain
is left-nested if and only if it has at most one operator and no bar, a
chain of assignments is right-nested if and only if its operators are
`=`, `+=`, `-=` and `*=`. -/
theorem chain_nested_iff {e : Operand} {links : List Link} (level : Nat)
    (hlevel : ∀ link ∈ links, link.op.level = level)
    (hreads : p.ensure.Reads (chainLexemes e links) p') (hend : Ends p') :
    (level ≤ 12 →
      (Builds p (leftNested e links) ↔
        links.length ≤ 1 ∧ ∀ link ∈ links, link.op ≠ .pipe ∧ link.op ≠ .pipePipe)) ∧
    (level = 13 →
      (Builds p (rightNested e links) ↔ ∀ link ∈ links, link.op ∈ assignments)) :=
  ⟨fun h12 => builds_leftNested_iff level h12 hlevel hreads hend,
    fun h13 => builds_rightNested_iff (fun link hlink => (hlevel link hlink).trans h13) hreads hend⟩

/-- `a - b - c`, before its first token. -/
def subtractions : Parser := parserCreate (bytes "a - b - c")

def subtractionLinks : List Link :=
  [⟨.minus, .ident (bytes "b")⟩, ⟨.minus, .ident (bytes "c")⟩]

theorem reads_subtractions :
    subtractions.ensure.Reads (chainLexemes (.ident (bytes "a")) subtractionLinks)
      subtractions.ensure.advance.advance.advance.advance.advance :=
  ⟨by decide, by decide, by decide, by decide, by decide, rfl⟩

theorem ends_subtractions : Ends subtractions.ensure.advance.advance.advance.advance.advance :=
  ⟨by decide, by decide, by decide, by decide⟩

theorem chain_nested_iff_subtractions :
    Builds subtractions (leftNested (.ident (bytes "a")) subtractionLinks) ↔
      subtractionLinks.length ≤ 1 ∧
        ∀ link ∈ subtractionLinks, link.op ≠ .pipe ∧ link.op ≠ .pipePipe :=
  (chain_nested_iff 4 (by simp [subtractionLinks, SpecOp.level]) reads_subtractions
    ends_subtractions).1 (by decide)

/-- `a - b - c` is not `(a - b) - c`. -/
theorem subtractions_not_left :
    ¬ Builds subtractions (leftNested (.ident (bytes "a")) subtractionLinks) := by
  rw [builds_leftNested_iff 4 (by decide) (by simp [subtractionLinks, SpecOp.level])
    reads_subtractions ends_subtractions]
  simp [subtractionLinks]

end Aether
