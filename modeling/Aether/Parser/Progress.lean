/-
Aether.Parser.Progress — what a parsing step does to the token stream.

`Parser.left` counts the tokens still to be consumed, `Parser.maxStr` is
the longest string literal among them: the two fall, in this order, as the
parser descends (a string's interpolations are parsed from a shorter text,
everything else from the same tokens). `Later p p'` relates a state to any
later one. `Quiet` computations make no calls; `Tame` ones, once a token
has been consumed, may call any procedure. The instances of the two classes
follow the computations' structure.
-/
import Aether.Parser.Steps
import Aether.TokenizerTheorems

namespace Aether

open Lib.Procedures

/-! ## §1 Measures of the token stream -/

/-- The length of a string token. -/
def Token.strLen (tok : Token) : Nat := if tok.type = .stringLiteral then tok.text.length else 0

def maxStrLen (toks : List Token) : Nat := (toks.map Token.strLen).foldr max 0

/-- The longest string token from the current token on. -/
def Parser.maxStr (p : Parser) : Nat := max p.current.strLen (maxStrLen p.lexer.pending)

/-- The tokens from the current one on. -/
def Parser.left (p : Parser) : Nat :=
  p.lexer.pending.length + if p.current.type = .eof then 0 else 1

/-- The tokens from the current one on, with the end of the text. -/
def Parser.ahead (p : Parser) : List Token := p.current :: p.lexer.pending ++ [p.lexer.eof]

/-- The parser is not at the end of the text. -/
def Parser.Active (p : Parser) : Prop := p.ensure.current.type ≠ .eof

/-- `p'` is a state after `p`: it has the rest of the tokens and all the
errors, and from a state that is not at the end, either tokens were
consumed or the later state is not at the end. -/
structure Later (p p' : Parser) : Prop where
  maxStr_le : p'.maxStr ≤ p.maxStr
  left_le : p'.left ≤ p.left
  errors_le : p.errors.length ≤ p'.errors.length
  ahead_subset : p'.ahead ⊆ p.ahead
  hasCurrent : p.hasCurrent = true → p'.hasCurrent = true
  active : p.Active → p'.left < p.left ∨ p'.Active

theorem Later.refl (p : Parser) : Later p p :=
  ⟨Nat.le_refl _, Nat.le_refl _, Nat.le_refl _, List.Subset.refl _, id, fun h => .inr h⟩

theorem Later.trans {p q r : Parser} (h : Later p q) (h' : Later q r) : Later p r where
  maxStr_le := Nat.le_trans h'.maxStr_le h.maxStr_le
  left_le := Nat.le_trans h'.left_le h.left_le
  errors_le := Nat.le_trans h.errors_le h'.errors_le
  ahead_subset := List.Subset.trans h'.ahead_subset h.ahead_subset
  hasCurrent := fun hp => h'.hasCurrent (h.hasCurrent hp)
  active := fun hp => by
    rcases h.active hp with hlt | hq
    · exact .inl (Nat.lt_of_le_of_lt h'.left_le hlt)
    · rcases h'.active hq with hlt | hr
      · exact .inl (Nat.lt_of_lt_of_le hlt h.left_le)
      · exact .inr hr

/-- Moving from a state that is still not at the end is moving. -/
theorem Later.moves {p q r : Parser} (h : Later p q) (h' : Later q r)
    (hmoves : q.Active → r.left < q.left) (hp : p.Active) : r.left < p.left := by
  rcases h.active hp with hlt | hq
  · exact Nat.lt_of_le_of_lt h'.left_le hlt
  · exact Nat.lt_of_lt_of_le (hmoves hq) h.left_le

theorem maxStr_advance (p : Parser) : p.advance.maxStr ≤ p.maxStr := by
  cases hpend : p.lexer.pending with
  | nil =>
    have heof : p.lexer.eof.strLen = 0 := by simp [Token.strLen, p.lexer.eof_type]
    simp [Parser.maxStr, Parser.advance, Lexer.advance, hpend, maxStrLen, heof]
  | cons tok rest =>
    simp [Parser.maxStr, Parser.advance, Lexer.advance, hpend, maxStrLen]

theorem left_advance_le (p : Parser) : p.advance.left ≤ p.left := by
  cases hpend : p.lexer.pending with
  | nil => simp [Parser.left, Parser.advance, Lexer.advance, hpend, p.lexer.eof_type]
  | cons tok rest =>
    simp only [Parser.left, Parser.advance, Lexer.advance, hpend, List.length_cons]
    split_ifs <;> omega

/-- Consuming a token. -/
theorem left_advance_lt {p : Parser} (h : p.current.type ≠ .eof) : p.advance.left < p.left := by
  cases hpend : p.lexer.pending with
  | nil => simp [Parser.left, Parser.advance, Lexer.advance, hpend, p.lexer.eof_type, h]
  | cons tok rest =>
    simp only [Parser.left, Parser.advance, Lexer.advance, hpend, List.length_cons, if_neg h]
    split_ifs <;> omega

theorem ahead_advance (p : Parser) : p.advance.ahead ⊆ p.ahead := by
  intro tok htok
  cases hpend : p.lexer.pending <;>
    simp [Parser.ahead, Parser.advance, Lexer.advance, hpend] at htok ⊢ <;> tauto

theorem later_advance (p : Parser) : Later p p.advance where
  maxStr_le := maxStr_advance p
  left_le := left_advance_le p
  errors_le := Nat.le_refl _
  ahead_subset := ahead_advance p
  hasCurrent := fun _ => rfl
  active := fun hp => by
    by_cases h : p.hasCurrent
    · rw [Parser.Active, ensure_of_hasCurrent h] at hp
      exact .inl (left_advance_lt hp)
    · right
      have hens : p.ensure = p.advance := by simp [Parser.ensure, h]
      rwa [Parser.Active, hens] at hp

theorem later_ensure (p : Parser) : Later p p.ensure := by
  by_cases h : p.hasCurrent
  · rw [ensure_of_hasCurrent h]
    exact Later.refl p
  · have hens : p.ensure = p.advance := by simp [Parser.ensure, h]
    rw [hens]
    exact later_advance p

theorem later_error (p : Parser) (token : Token) (message : String) :
    Later p (p.error token message) where
  maxStr_le := Nat.le_refl _
  left_le := Nat.le_refl _
  errors_le := by simp [Parser.error]
  ahead_subset := List.Subset.refl _
  hasCurrent := id
  active := fun hp => .inr (by
    cases h : p.hasCurrent <;>
      simpa [Parser.Active, Parser.ensure, Parser.error, Parser.advance, h] using hp)

theorem later_skipLoop (types : List TokenType) :
    ∀ (toks : List Token) (p : Parser), Later p (Parser.skipLoop types toks p)
  | [], p => by
    rw [Parser.skipLoop]
    split_ifs
    · exact later_advance p
    · exact Later.refl p
  | _ :: rest, p => by
    rw [Parser.skipLoop]
    split_ifs
    · exact (later_advance p).trans (later_skipLoop types rest _)
    · exact Later.refl p

theorem later_skipAll (types : List TokenType) (p : Parser) : Later p (p.skipAll types) :=
  (later_ensure p).trans (later_skipLoop _ _ _)

theorem later_skipToLoop (types : List TokenType) :
    ∀ (toks : List Token) (p : Parser), Later p (Parser.skipToLoop types toks p)
  | [], p => by
    rw [Parser.skipToLoop]
    split_ifs
    · exact Later.refl p
    · exact later_advance p
  | _ :: rest, p => by
    rw [Parser.skipToLoop]
    split_ifs
    · exact Later.refl p
    · exact (later_advance p).trans (later_skipToLoop types rest _)

theorem later_skipTo (types : List TokenType) (p : Parser) : Later p (p.skipTo types) :=
  (later_ensure p).trans (later_skipToLoop _ _ _)

theorem later_sync (p : Parser) : Later p p.sync := by
  refine Later.trans ?_ (later_skipTo stmtStart _)
  exact {
    maxStr_le := Nat.le_refl _
    left_le := Nat.le_refl _
    errors_le := Nat.le_refl _
    ahead_subset := List.Subset.refl _
    hasCurrent := id
    active := fun hp => .inr (by
      cases h : p.hasCurrent <;>
        simpa [Parser.Active, Parser.ensure, Parser.advance, h] using hp) }

/-! ## §2 The order of the calls -/

/-- How many calls deep a procedure may go before it consumes a token. -/
def Proc.rank : Proc → Nat
  | .type => 1
  | .typeList _ => 2
  | .infixLoop .. => 1
  | .exprPrec _ => 2
  | .callArgs _ | .arrayElements _ | .spawnArgs _ => 3
  | .matchArm => 3
  | .matchArms _ => 4
  | .statement => 3
  | .blockLoop _ | .runBody _ => 4
  | .declaration _ => 1
  | .moduleBody _ | .program _ => 2
  | _ => 0

/-- Longest string, tokens left, rank. -/
def callMeasure (c : Proc × Parser) : Nat × Nat × Nat := (c.2.maxStr, c.2.left, c.1.rank)

def Smaller (c' c : Proc × Parser) : Prop :=
  Prod.Lex (· < ·) (Prod.Lex (· < ·) (· < ·)) (callMeasure c') (callMeasure c)

theorem smaller_wf : WellFounded Smaller :=
  InvImage.wf callMeasure
    (WellFounded.prod_lex Nat.lt_wfRel.wf (WellFounded.prod_lex Nat.lt_wfRel.wf Nat.lt_wfRel.wf))

/-- The two loops that a token can hold in place: the postfix loop at `--`,
and the infix loop at `|` when it binds tightly enough. -/
def Stuck : Proc × Parser → Prop
  | (.postfixLoop _, p) => p.ensure.current.type = .minusMinus
  | (.infixLoop minPrec _ hadInfix, p) =>
    minPrec.level ≤ Precedence.bitOr.level ∧
      (if hadInfix then p.skipAll [.newline] else p).ensure.current.type = .pipe
  | _ => False

/-- The states from which a procedure consumes a token. -/
def Proc.Moves : Proc → Parser → Prop
  | .exprPrec _, p | .matchArm, p | .statement, p | .declaration _, p => p.Active
  | .prefixExpr, p => p.current.type ≠ .eof
  | .infixExpr _, p => tokenPrecedence p.current.type ≠ .min ∧ p.current.type ≠ .pipe
  | _, _ => False

/-- What a call gives: a later state, after a token if the procedure moves. -/
def callPost (c : Proc × Parser) (r : c.1.Result × Parser) : Prop :=
  Later c.2 r.2 ∧ (c.1.Moves c.2 → r.2.left < c.2.left)

/-- The calls that the body of `c` may make. -/
def Allowed (c c' : Proc × Parser) : Prop := Stuck c ∨ Smaller c' c

/-- A token was consumed between `p` and `p'`. -/
structure Free (p p' : Parser) : Prop where
  maxStr_le : p'.maxStr ≤ p.maxStr
  left_lt : p'.left < p.left

theorem Free.later {p q r : Parser} (h : Free p q) (h' : Later q r) : Free p r :=
  ⟨Nat.le_trans h'.maxStr_le h.maxStr_le, Nat.lt_of_le_of_lt h'.left_le h.left_lt⟩

theorem Later.free {p q r : Parser} (h : Later p q) (h' : Free q r) : Free p r :=
  ⟨Nat.le_trans h'.maxStr_le h.maxStr_le, Nat.lt_of_lt_of_le h'.left_lt h.left_le⟩

theorem free_advance {p : Parser} (h : p.current.type ≠ .eof) : Free p p.advance :=
  ⟨maxStr_advance p, left_advance_lt h⟩

theorem smaller_of_shorter {c c' : Proc × Parser} (h : c'.2.maxStr < c.2.maxStr) : Smaller c' c :=
  Prod.Lex.left _ _ h

theorem smaller_of_free {c : Proc × Parser} {p : Parser} (h : Free c.2 p) (proc : Proc) :
    Smaller (proc, p) c := by
  rcases Nat.lt_or_eq_of_le h.maxStr_le with hlt | heq
  · exact smaller_of_shorter hlt
  · have hlex : Prod.Lex (· < ·) (· < ·) (p.left, proc.rank) (c.2.left, c.1.rank) :=
      Prod.Lex.left _ _ h.left_lt
    rw [Smaller, callMeasure, callMeasure, heq]
    exact Prod.Lex.right _ hlex

theorem smaller_of_rank {c : Proc × Parser} {p : Parser} (h : Later c.2 p) {proc : Proc}
    (hrank : proc.rank < c.1.rank) : Smaller (proc, p) c := by
  rcases Nat.lt_or_eq_of_le h.maxStr_le with hlt | hstr
  · exact smaller_of_shorter hlt
  rcases Nat.lt_or_eq_of_le h.left_le with hlt | hleft
  · exact smaller_of_free ⟨h.maxStr_le, hlt⟩ proc
  · rw [Smaller, callMeasure, callMeasure, hstr, hleft]
    exact Prod.Lex.right _ (Prod.Lex.right _ hrank)

/-! ## §3 Tame computations -/

variable {α β : Type}

/-- After a token has been consumed in `c`, the computation only makes
calls that `c` may make, and ends in a later state. -/
class Tame (x : ParseM α) : Prop where
  spec : ∀ (c : Proc × Parser) (p : Parser), Free c.2 p →
    Spec (Allowed c) callPost x p fun _ p' => Later p p'

/-- The computation makes no calls and ends in a later state. -/
class Quiet (x : ParseM α) : Prop where
  spec : ∀ p : Parser, Spec (fun _ => False) callPost x p fun _ p' => Later p p'

theorem quiet_modify {f : Parser → Parser} (h : ∀ p, Later p (f p)) :
    Quiet (modify f : ParseM Unit) :=
  ⟨h⟩

instance Quiet.bind {x : ParseM α} {f : α → ParseM β} [hx : Quiet x] [hf : ∀ a, Quiet (f a)] :
    Quiet (x >>= f) :=
  ⟨fun p => spec_bind.mpr (spec_mono
    (fun a p' hp => spec_mono (fun _ _ hp' => hp.trans hp') ((hf a).spec p')) (hx.spec p))⟩

instance Quiet.pure (a : α) : Quiet (pure a : ParseM α) := ⟨fun p => Later.refl p⟩

instance Quiet.get : Quiet (get : ParseM Parser) := ⟨fun p => Later.refl p⟩

instance Quiet.ite {b : Prop} [Decidable b] {x y : ParseM α} [hx : Quiet x] [hy : Quiet y] :
    Quiet (if b then x else y) := by
  split_ifs
  · exact hx
  · exact hy

instance : Quiet advance := quiet_modify later_advance

instance (types : List TokenType) : Quiet (skipAll types) := quiet_modify (later_skipAll types)

theorem later_skipNewlinesIf (b : Bool) (p : Parser) :
    Later p (if b then p.skipAll [.newline] else p) := by
  split_ifs
  · exact later_skipAll _ p
  · exact Later.refl p

instance (b : Bool) : Quiet (skipNewlinesIf b) := quiet_modify (later_skipNewlinesIf b)

instance (message : String) : Quiet (parserError message) :=
  quiet_modify fun p => later_error p _ _

instance : Quiet (modify Parser.ensure : ParseM Unit) := quiet_modify later_ensure

instance (type : TokenType) : Quiet (check type) := by unfold check; infer_instance

instance (types : List TokenType) : Quiet (checkAny types) := by unfold checkAny; infer_instance

instance (type : TokenType) : Quiet (matchTok type) := by unfold matchTok; infer_instance

instance (types : List TokenType) : Quiet (matchAny types) := by unfold matchAny; infer_instance

instance (type : TokenType) : Quiet (expect type) := by unfold expect; infer_instance

instance : Quiet takeTok := by unfold takeTok; infer_instance

instance : Quiet syncIfPanicking := by
  have := quiet_modify later_sync
  unfold syncIfPanicking
  infer_instance

instance Tame.bind {x : ParseM α} {f : α → ParseM β} [hx : Tame x] [hf : ∀ a, Tame (f a)] :
    Tame (x >>= f) :=
  ⟨fun c p hfree => spec_bind.mpr (spec_mono
    (fun a p' hp => spec_mono (fun _ _ hp' => hp.trans hp') ((hf a).spec c p' (hfree.later hp)))
    (hx.spec c p hfree))⟩

instance Tame.ite {b : Prop} [Decidable b] {x y : ParseM α} [hx : Tame x] [hy : Tame y] :
    Tame (if b then x else y) := by
  split_ifs
  · exact hx
  · exact hy

instance (priority := low) Quiet.tame {x : ParseM α} [hx : Quiet x] : Tame x :=
  ⟨fun _ p _ => meets_mono (fun _ h => h.elim) (fun _ h => h) (hx.spec p)⟩

instance Tame.recur (proc : Proc) : Tame (recur proc) :=
  ⟨fun _ _ hfree => spec_callProc.mpr ⟨.inr (smaller_of_free hfree proc), fun _ _ h => h.1⟩⟩

instance (minPrec : Precedence) : Tame (parseExprPrec minPrec) := Tame.recur _

instance : Tame parseExpr := Tame.recur _

instance : Tame parsePrefix := Tame.recur _

instance (left : AstNode) : Tame (parseInfix left) := Tame.recur _

instance : Tame parseMatchArm := Tame.recur _

instance : Tame parseType := Tame.recur _

instance : Tame parseStatement := Tame.recur _

instance : Tame parseFuncDecl := Tame.recur _

instance : Tame parseParams := Tame.recur _

instance (decls : List AstNode) : Tame (parseDeclaration decls) := Tame.recur _

instance (stmts : List AstNode) : Tame (recur (.blockLoop stmts)) := Tame.recur _

instance : Tame parseBlockBraced := by unfold parseBlockBraced; infer_instance

/-! ## §4 The bodies -/

/-- The rest `x` of the body of `c`, reached in state `p`, makes calls that
`c` may make and ends as the calls of `c` do. -/
def Ok (c : Proc × Parser) (x : ParseM α) (p : Parser) : Prop :=
  Spec (Allowed c) callPost x p fun _ p' => Later c.2 p' ∧ (c.1.Moves c.2 → p'.left < c.2.left)

variable {c : Proc × Parser} {p : Parser}

theorem ok_of_tame {x : ParseM α} [hx : Tame x] (hlater : Later c.2 p) (hfree : Free c.2 p) :
    Ok c x p :=
  spec_mono (fun _ _ hp => ⟨hlater.trans hp, fun _ => (hfree.later hp).left_lt⟩)
    (hx.spec c p hfree)

theorem ok_pure {a : α} (hlater : Later c.2 p) (hmoves : c.1.Moves c.2 → p.left < c.2.left) :
    Ok c (pure a : ParseM α) p := ⟨hlater, hmoves⟩

theorem ok_check {type : TokenType} {x y : ParseM α}
    (hx : p.ensure.current.type = type → Ok c x p.ensure)
    (hy : p.ensure.current.type ≠ type → Ok c y p.ensure) :
    Ok c (check type >>= fun b => if b = true then x else y) p := by
  change Ok c (if decide (p.ensure.current.type = type) = true then x else y) p.ensure
  split_ifs with h
  · exact hx (of_decide_eq_true h)
  · exact hy (fun heq => h (decide_eq_true heq))

theorem ok_checkAny {types : List TokenType} {x y : ParseM α}
    (hx : p.ensure.current.type ∈ types → Ok c x p.ensure)
    (hy : p.ensure.current.type ∉ types → Ok c y p.ensure) :
    Ok c (checkAny types >>= fun b => if b = true then x else y) p := by
  change Ok c (if types.contains p.ensure.current.type = true then x else y) p.ensure
  split_ifs with h
  · exact hx (List.contains_iff_mem.mp h)
  · exact hy (fun hmem => h (List.contains_iff_mem.mpr hmem))

theorem ok_matchTok_bind {type : TokenType} {f : Bool → ParseM α}
    (ht : p.ensure.current.type = type → Ok c (f true) p.ensure.advance)
    (hf : p.ensure.current.type ≠ type → Ok c (f false) p.ensure) :
    Ok c (matchTok type >>= f) p := by
  by_cases h : p.ensure.current.type = type
  · simpa [Ok, matchTok, check, advance, h] using ht h
  · simpa [Ok, matchTok, check, advance, h] using hf h

/-- A token that was matched is consumed, so a tame rest is fine. -/
theorem ok_matchTok {type : TokenType} (htype : type ≠ .eof) (hlater : Later c.2 p)
    {x y : ParseM α} [Tame x] (hy : p.ensure.current.type ≠ type → Ok c y p.ensure) :
    Ok c (matchTok type >>= fun b => if b = true then x else y) p := by
  have hens := hlater.trans (later_ensure p)
  refine ok_matchTok_bind (fun h => ?_) (fun h => by simpa using hy h)
  have hfree : Free c.2 p.ensure.advance := hens.free (free_advance (by rwa [h]))
  simpa using ok_of_tame (x := x) (hens.trans (later_advance _)) hfree

/-- The same in a state that has a current token. -/
theorem ok_matchTok_else {type : TokenType} (htype : type ≠ .eof) (hcur : p.hasCurrent = true)
    (hlater : Later c.2 p) {x y : ParseM α} [Tame x]
    (hy : p.current.type ≠ type → Ok c y p) :
    Ok c (matchTok type >>= fun b => if b = true then x else y) p := by
  refine ok_matchTok htype hlater ?_
  rwa [ensure_of_hasCurrent hcur]

theorem ok_matchAny {types : List TokenType} (htypes : .eof ∉ types) (hlater : Later c.2 p)
    {x y : ParseM α} [Tame x] (hy : p.ensure.current.type ∉ types → Ok c y p.ensure) :
    Ok c (matchAny types >>= fun b => if b = true then x else y) p := by
  have hens := hlater.trans (later_ensure p)
  by_cases h : p.ensure.current.type ∈ types
  · have hne : p.ensure.current.type ≠ .eof := fun heq => htypes (heq ▸ h)
    have hfree : Free c.2 p.ensure.advance := hens.free (free_advance hne)
    have hx : Ok c x p.ensure.advance := ok_of_tame (hens.trans (later_advance _)) hfree
    simpa [Ok, matchAny, checkAny, advance, h] using hx
  · simpa [Ok, matchAny, checkAny, advance, h] using hy h

/-- A part that makes no calls, and the rest after it. -/
theorem ok_quiet {x : ParseM β} [hx : Quiet x] {f : β → ParseM α}
    (h : ∀ a p', Later p p' → Ok c (f a) p') : Ok c (x >>= f) p :=
  spec_bind.mpr (meets_mono (fun _ h => h.elim) (fun as hp => h as.1 as.2 hp) (hx.spec p))

theorem ok_skipAll {types : List TokenType} {f : Unit → ParseM α}
    (h : Ok c (f ()) (p.skipAll types)) : Ok c (skipAll types >>= f) p := h

theorem ok_skipNewlinesIf {b : Bool} {f : Unit → ParseM α}
    (h : Ok c (f ()) (if b then p.skipAll [.newline] else p)) : Ok c (skipNewlinesIf b >>= f) p := h

theorem ok_get {f : Parser → ParseM α} (h : Ok c (f p) p) : Ok c (get >>= f) p := h

/-- A token that may be there, before a rest that is fine in any case. -/
theorem ok_optional {q : Parser} {type : TokenType}
    {f : Bool → ParseM α} [Tame (f true)] (htype : type ≠ .eof) (hlater : Later c.2 q)
    (hf : q.ensure.current.type ≠ type → Ok c (f false) q.ensure) : Ok c (matchTok type >>= f) q := by
  have hens := hlater.trans (later_ensure q)
  refine ok_matchTok_bind (fun h => ?_) hf
  exact ok_of_tame (hens.trans (later_advance _)) (hens.free (free_advance (by rwa [h])))

theorem ok_assoc {γ : Type} {q : Parser} {x : ParseM α} {f : α → ParseM β}
    {g : β → ParseM γ} (h : Ok c (x >>= fun a => f a >>= g) q) : Ok c ((x >>= f) >>= g) q := by
  simpa only [Ok, spec_bind] using h

/-- An end without calls. -/
theorem ok_end {q : Parser} {x : ParseM α} [hx : Quiet x]
    (hlater : Later c.2 q) (hmoves : c.1.Moves c.2 → q.left < c.2.left) : Ok c x q :=
  meets_mono (fun _ h => h.elim)
    (fun _ h => ⟨hlater.trans h, fun hc => Nat.lt_of_le_of_lt h.left_le (hmoves hc)⟩) (hx.spec q)

/-- Consuming a token, and a tame rest. -/
theorem ok_advance {f : Unit → ParseM α} [hf : Tame (f ())] (hlater : Later c.2 p)
    (hne : p.current.type ≠ .eof) : Ok c (advance >>= f) p := by
  have hok : Ok c (f ()) p.advance :=
    ok_of_tame (hlater.trans (later_advance p)) (hlater.free (free_advance hne))
  exact hok

theorem ok_takeTok {f : Token → ParseM α} [hf : ∀ tok, Tame (f tok)] (hlater : Later c.2 p)
    (hne : p.current.type ≠ .eof) : Ok c (takeTok >>= f) p := by
  have hok : Ok c (f p.current) p.advance :=
    ok_of_tame (hlater.trans (later_advance p)) (hlater.free (free_advance hne))
  exact hok

/-- Recovery either gives up at the end of the text, or goes on. -/
theorem ok_sync {x y : ParseM α} (hx : ∀ p', Later p p' → ¬ p'.Active → Ok c x p')
    (hy : ∀ p', Later p p' → Ok c y p') :
    Ok c (syncIfPanicking >>= fun b => if b = true then x else y) p := by
  by_cases hpanic : p.panicMode = true
  · have hlater := (later_sync p).trans (later_ensure _)
    by_cases heof : p.sync.ensure.current.type = .eof
    · have hok := hx p.sync.ensure hlater (by simp [Parser.Active, heof])
      simpa [Ok, syncIfPanicking, check, hpanic, heof] using hok
    · simpa [Ok, syncIfPanicking, check, hpanic, heof] using hy p.sync.ensure hlater
  · simpa [Ok, syncIfPanicking, hpanic] using hy p (Later.refl p)

/-- A call, and the rest after whatever it returned. -/
theorem ok_recur {proc : Proc} {f : proc.Result → ParseM α} (hallowed : Allowed c (proc, p))
    (h : ∀ r p', Later p p' → (proc.Moves p → p'.left < p.left) → Ok c (f r) p') :
    Ok c (recur proc >>= f) p :=
  spec_bind.mpr (spec_callProc.mpr ⟨hallowed, fun r p' hpost => h r p' hpost.1 hpost.2⟩)

/-- A call at the end of a body. -/
theorem ok_recur_tail {proc : Proc} (hlater : Later c.2 p) (hallowed : Allowed c (proc, p))
    (hmoves : c.1.Moves c.2 → p.left < c.2.left ∨ proc.Moves p) : Ok c (recur proc) p := by
  refine spec_callProc.mpr ⟨hallowed, fun r p' hpost => ⟨hlater.trans hpost.1, fun hc => ?_⟩⟩
  rcases hmoves hc with hlt | hproc
  · exact Nat.lt_of_le_of_lt hpost.1.left_le hlt
  · exact Nat.lt_of_lt_of_le (hpost.2 hproc) hlater.left_le

end Aether
