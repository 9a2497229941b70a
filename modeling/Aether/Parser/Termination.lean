/-
Aether.Parser.Termination — when the parser returns.

Every body makes only calls that are smaller (`Smaller`: shorter strings,
fewer tokens, lower rank), except in two loops that a token can hold in
place (`Stuck`): the postfix loop tests for `++` and `--` but only moves
over `++`, and `parse_infix` gives `|` back although `token_precedence`
ranks it as a binary operator. `parser_terminates_iff`: a procedure returns
if and only if it does not reach one of these.
-/
import Aether.Parser.Progress

namespace Aether

open Lib.Procedures

-- the equations, before the proofs that share them
section
attribute [local simp] Proc.rank literalPiece maxStrLen Token.strLen Parser.Active postfixLoop
  infixExpr infixLoop skipNewlinesIf parseInfix prefixExpr typePostfix matchEllipsis
end

/-! ## §1 Tame parts of the bodies -/

-- the instance terms are as long as the computations
set_option synthInstance.maxSize 100000

section Calls

instance (left : AstNode) : Tame (recur (.postfixLoop left)) := Tame.recur _
instance (m : Precedence) (left : AstNode) (b : Bool) : Tame (recur (.infixLoop m left b)) :=
  Tame.recur _
instance (args : List AstNode) : Tame (recur (.callArgs args)) := Tame.recur _
instance (elements : List AstNode) : Tame (recur (.arrayElements elements)) := Tame.recur _
instance (params : List AstNode) : Tame (recur (.lambdaParams params)) := Tame.recur _
instance (arms : List AstNode) : Tame (recur (.matchArms arms)) := Tame.recur _
instance (patterns : List AstNode) : Tame (recur (.morePatterns patterns)) := Tame.recur _
instance (types : List AstNode) : Tame (recur (.typeList types)) := Tame.recur _
instance (b : Bool) (last : Option AttrData) : Tame (recur (.attributes b last)) := Tame.recur _
instance (attr : AttrData) : Tame (recur (.attributeArgs attr)) := Tame.recur _
instance : Tame (recur .elifs) := Tame.recur _
instance (args : List AstNode) : Tame (recur (.spawnArgs args)) := Tame.recur _
instance (outputs : List Bytes) : Tame (recur (.asmOutputs outputs)) := Tame.recur _
instance (depth : Nat) (asmEnd : Bytes) : Tame (recur (.asmBody depth asmEnd)) := Tame.recur _
instance (arms : List AstNode) : Tame (recur (.catchArms arms)) := Tame.recur _
instance (params : List AstNode) : Tame (recur (.typeParams params)) := Tame.recur _
instance (params : List AstNode) : Tame (recur (.params params)) := Tame.recur _
instance (pre post : List AstNode) : Tame (recur (.contracts pre post)) := Tame.recur _
instance (name : Bytes) (fields methods contracts : List AstNode) :
    Tame (recur (.structMembers name fields methods contracts)) := Tame.recur _
instance (variants : List AstNode) : Tame (recur (.enumVariants variants)) := Tame.recur _
instance (acc : List AstNode) : Tame (recur (.methods acc)) := Tame.recur _
instance (decls : List AstNode) : Tame (recur (.moduleBody decls)) := Tame.recur _
instance (depth : Nat) : Tame (recur (.topAsm depth)) := Tame.recur _
instance (stmts : List AstNode) : Tame (recur (.runBody stmts)) := Tame.recur _

end Calls

section Expressions

instance : Tame parseTypeAnnotation := by unfold parseTypeAnnotation; infer_instance

instance : Quiet matchRange := by unfold matchRange; infer_instance

instance : Quiet parseIntPattern := by unfold parseIntPattern; infer_instance

instance : Quiet parsePattern := by unfold parsePattern; infer_instance

instance : Tame parseMatch := by unfold parseMatch; infer_instance

end Expressions

section Types

instance : Tame parseTypeList := by unfold parseTypeList; infer_instance

instance : Tame parseFnType := by unfold parseFnType; infer_instance

instance (kind : RefKind) : Tame (parseRefType kind) := by unfold parseRefType; infer_instance

instance : Tame parsePtrType := by unfold parsePtrType; infer_instance

instance : Tame parseArrayType := by unfold parseArrayType; infer_instance

instance : Tame parseTupleType := by unfold parseTupleType; infer_instance

instance (base : Option AstNode) : Tame (typePostfix base) := by
  unfold typePostfix; infer_instance

instance (attr : AttrData) (key : Bytes) : Tame (attributeValue attr key) := by
  unfold attributeValue; infer_instance

instance (attr : AttrData) : Tame (attributePayload attr) := by
  have := quiet_modify (later_skipTo [.rparen])
  unfold attributePayload
  infer_instance

instance : Tame parseAttribute := by unfold parseAttribute; infer_instance

end Types

section Statements

instance : Tame parseInitializer := by unfold parseInitializer; infer_instance

instance : Tame parseLet := by unfold parseLet; infer_instance

instance : Tame parseIfLet := by unfold parseIfLet; infer_instance

instance : Tame parseOptionalBlock := by unfold parseOptionalBlock; infer_instance

instance : Tame parseElse := by unfold parseElse; infer_instance

instance : Tame parseIf := by unfold parseIf; infer_instance

instance : Tame parseWhile := by unfold parseWhile; infer_instance

instance : Tame parseForVars := by unfold parseForVars; infer_instance

instance : Tame parseIterable := by unfold parseIterable; infer_instance

instance : Tame parseFor := by unfold parseFor; infer_instance

instance : Tame parseValue := by unfold parseValue; infer_instance

instance : Tame parseReturn := by unfold parseReturn; infer_instance

instance : Tame parseThrow := by unfold parseThrow; infer_instance

instance : Tame parseLabel := by unfold parseLabel; infer_instance

instance : Tame parseBreak := by unfold parseBreak; infer_instance

instance : Tame parseContinue := by unfold parseContinue; infer_instance

instance : Tame parseBlockOrStatement := by unfold parseBlockOrStatement; infer_instance

instance : Tame parseDefer := by unfold parseDefer; infer_instance

instance : Tame parseSpawn := by unfold parseSpawn; infer_instance

instance : Tame parseRegionName := by unfold parseRegionName; infer_instance

instance : Tame parseRegion := by unfold parseRegion; infer_instance

instance : Tame parseAsmOutputs := by unfold parseAsmOutputs; infer_instance

instance : Tame parseAsm := by unfold parseAsm; infer_instance

instance : Tame parseUnsafe := by
  unfold parseUnsafe
  have (body : Option AstNode) : Tame (match body with
    | some body => return some (.unsafeNode [body])
    | none => return none : ParseM (Option AstNode)) := by cases body <;> infer_instance
  infer_instance

instance : Tame parseCatchHead := by unfold parseCatchHead; infer_instance

instance : Tame parseTry := by unfold parseTry; infer_instance

end Statements

section Declarations

instance : Tame parseTypeParams := by unfold parseTypeParams; infer_instance

instance : Tame matchEllipsis := by unfold matchEllipsis; infer_instance

instance : Tame parseParamType := by unfold parseParamType; infer_instance

instance : Tame parseParamList := by unfold parseParamList; infer_instance

instance : Tame parseCondition := by unfold parseCondition; infer_instance

instance : Tame parseFuncBody := by
  unfold parseFuncBody
  have (expr : Option AstNode) : Tame (match expr with
    | some expr => return some (.block [.returnNode (some expr)])
    | none => return none : ParseM (Option AstNode)) := by cases expr <;> infer_instance
  infer_instance

instance (isPub : Bool) : Tame (parseStructDecl isPub) := by
  unfold parseStructDecl; infer_instance

instance (isPub : Bool) : Tame (parseEnumDecl isPub) := by unfold parseEnumDecl; infer_instance

instance : Quiet parseModifiers := by unfold parseModifiers; infer_instance

instance (decls : List AstNode) (attr : Option AttrData) (m : Modifiers) :
    Tame (declFunc decls attr m) := by unfold declFunc; infer_instance

instance : Tame parseInt := by unfold parseInt; infer_instance

instance : Tame parseSysIndex := by unfold parseSysIndex; infer_instance

instance (decls : List AstNode) (m : Modifiers) : Tame (declSys decls m) := by
  have (func : Option AstNode) : Tame (match func with
    | none => return decls
    | some func => do
      let index ← parseSysIndex
      return decls ++ [func.mapInfo fun info =>
        { info with
          isSys := true
          access := m.access
          isPub := m.isPub
          sysIndex := index.getD info.sysIndex }] : ParseM (List AstNode)) := by
    cases func <;> infer_instance
  unfold declSys
  infer_instance

instance (decls : List AstNode) : Tame (declConst decls) := by unfold declConst; infer_instance

instance (decls : List AstNode) : Tame (declLet decls) := by unfold declLet; infer_instance

instance (decls : List AstNode) : Tame (declImport decls) := by unfold declImport; infer_instance

instance (attr : Option AttrData) (name : Token) : Tame (moduleAbi attr name) := by
  have := quiet_modify fun p => later_error p name "@module_abi requires version=N argument"
  unfold moduleAbi
  cases attr <;> infer_instance

instance (decls : List AstNode) : Tame (parseModuleBody decls) := by
  unfold parseModuleBody; infer_instance

instance (decls : List AstNode) (attr : Option AttrData) : Tame (declModule decls attr) := by
  unfold declModule; infer_instance

instance (decls : List AstNode) : Tame (declAsm decls) := by unfold declAsm; infer_instance

instance : Tame parseMethods := by unfold parseMethods; infer_instance

instance (decls : List AstNode) (isPub : Bool) : Tame (declTrait decls isPub) := by
  unfold declTrait; infer_instance

instance (word : String) : Tame (parseSized word) := by unfold parseSized; infer_instance

instance (word : String) : Tame (parseCommaSized word) := by unfold parseCommaSized; infer_instance

instance (decls : List AstNode) : Tame (declPool decls) := by unfold declPool; infer_instance

instance (decls : List AstNode) : Tame (declProtocol decls) := by
  unfold declProtocol; infer_instance

instance : Tame parseUnderlying := by unfold parseUnderlying; infer_instance

instance (decls : List AstNode) : Tame (declTypeAlias decls) := by
  unfold declTypeAlias; infer_instance

instance (decls : List AstNode) : Tame (declImpl decls) := by unfold declImpl; infer_instance

instance (decls : List AstNode) : Tame (declRun decls) := by unfold declRun; infer_instance

end Declarations

/-! ## §2 Calls in a body -/

section

variable {α : Type} {c : Proc × Parser} {p : Parser}

theorem ok_parseExpr {f : Option AstNode → ParseM α} (hallowed : Allowed c (.exprPrec .min, p))
    (h : ∀ r p', Later p p' → (p.Active → p'.left < p.left) → Ok c (f r) p') :
    Ok c (parseExpr >>= f) p := ok_recur hallowed h

theorem ok_parsePrefix {f : Option AstNode → ParseM α} (hallowed : Allowed c (.prefixExpr, p))
    (h : ∀ r p', Later p p' → (p.current.type ≠ .eof → p'.left < p.left) → Ok c (f r) p') :
    Ok c (parsePrefix >>= f) p := ok_recur hallowed h

theorem ok_parseInfix {left : AstNode} {f : Option AstNode → ParseM α}
    (hallowed : Allowed c (.infixExpr left, p))
    (h : ∀ r p', Later p p' →
      (tokenPrecedence p.current.type ≠ .min ∧ p.current.type ≠ .pipe → p'.left < p.left) →
      Ok c (f r) p') :
    Ok c (parseInfix left >>= f) p := ok_recur hallowed h

theorem ok_parseMatchArm {f : AstNode → ParseM α} (hallowed : Allowed c (.matchArm, p))
    (h : ∀ r p', Later p p' → (p.Active → p'.left < p.left) → Ok c (f r) p') :
    Ok c (parseMatchArm >>= f) p := ok_recur hallowed h

theorem ok_parseType {f : Option AstNode → ParseM α} (hallowed : Allowed c (.type, p))
    (h : ∀ r p', Later p p' → Ok c (f r) p') : Ok c (parseType >>= f) p :=
  ok_recur hallowed fun r p' hlater _ => h r p' hlater

theorem ok_parseStatement {f : Option AstNode → ParseM α} (hallowed : Allowed c (.statement, p))
    (h : ∀ r p', Later p p' → (p.Active → p'.left < p.left) → Ok c (f r) p') :
    Ok c (parseStatement >>= f) p := ok_recur hallowed h

theorem ok_parseDeclaration {decls : List AstNode} {f : List AstNode → ParseM α}
    (hallowed : Allowed c (.declaration decls, p))
    (h : ∀ r p', Later p p' → (p.Active → p'.left < p.left) → Ok c (f r) p') :
    Ok c (parseDeclaration decls >>= f) p := ok_recur hallowed h

/-- A loop that goes on after a comma. -/
theorem ok_comma {x y : ParseM α} [Tame x] (hlater : Later c.2 p)
    (hy : Ok c y p.ensure) :
    Ok c (matchTok .comma >>= fun b => if b = true then x else y) p :=
  ok_matchTok (by decide) hlater fun _ => hy

/-- The calls of a loop after progress. -/
theorem ok_recur_free {proc : Proc} (hlater : Later c.2 p) (hlt : p.left < c.2.left) :
    Ok c (recur proc) p :=
  ok_recur_tail hlater (.inr (smaller_of_free ⟨hlater.maxStr_le, hlt⟩ proc)) fun _ => .inl hlt

theorem active_of_not_mem {types : List TokenType} (heof : .eof ∈ types)
    (h : p.ensure.current.type ∉ types) : p.Active :=
  fun heq => h (heq ▸ heof)

end

/-! ## §3 Expressions -/

variable (p : Parser)

theorem postfixLoop_ok (left : AstNode) : Ok (.postfixLoop left, p) (postfixLoop left) p := by
  unfold postfixLoop
  refine ok_checkAny (fun h => ?_) fun _ => ok_pure (later_ensure p) False.elim
  have hens := (later_ensure p).trans (later_ensure _)
  refine ok_matchTok_bind (fun hplus => ?_) fun hplus => ?_
  · change Ok _ (recur (.postfixLoop (.unaryOp .inc (some left)))) _
    have hadv := free_advance (p := p.ensure.ensure) (by rw [hplus]; decide)
    exact ok_of_tame (hens.trans (later_advance _)) (hens.free hadv)
  · -- the `--` stays
    change Ok _ (recur (.postfixLoop (.unaryOp .dec (some left)))) _
    have hstuck : p.ensure.current.type = .minusMinus := by
      rw [ensure_ensure] at hplus
      simpa [hplus] using h
    exact ok_recur_tail hens (.inl hstuck) False.elim

theorem infixLoop_ok (minPrec : Precedence) (left : AstNode) (hadInfix : Bool) :
    Ok (.infixLoop minPrec left hadInfix, p) (infixLoop minPrec left hadInfix) p := by
  unfold infixLoop
  refine ok_skipNewlinesIf ?_
  have hskip := later_skipNewlinesIf hadInfix p
  generalize hq : (if hadInfix then p.skipAll [.newline] else p) = q at *
  have hens := hskip.trans (later_ensure q)
  refine ok_checkAny (fun _ => ok_pure hens False.elim) fun _ => ?_
  refine ok_get ?_
  dsimp only
  split_ifs with hprec hmin
  · exact ok_pure hens False.elim
  · exact ok_pure hens False.elim
  · refine ok_parseInfix (.inr (smaller_of_rank hens (by simp [Proc.rank]))) fun r p' hlater hmoves => ?_
    cases r with
    | none => exact ok_pure (hens.trans hlater) False.elim
    | some left' =>
      by_cases hpipe : q.ensure.current.type = .pipe
      · -- the pipe stays
        have hstuck : Stuck (.infixLoop minPrec left hadInfix, p) := by
          refine ⟨?_, by rw [hq]; exact hpipe⟩
          rw [hpipe] at hprec
          exact Nat.le_of_not_lt hprec
        exact ok_recur_tail (hens.trans hlater) (.inl hstuck) False.elim
      · exact ok_recur_free (hens.trans hlater)
          (Nat.lt_of_lt_of_le (hmoves ⟨hmin, hpipe⟩) hens.left_le)

theorem exprPrec_ok (minPrec : Precedence) : Ok (.exprPrec minPrec, p) (exprPrec minPrec) p := by
  unfold exprPrec
  have hens := later_ensure p
  refine ok_check (fun h => ok_pure hens fun hactive => absurd h hactive) fun h => ?_
  refine ok_parsePrefix (.inr (smaller_of_rank hens (by simp [Proc.rank]))) fun r p' hlater hmoves => ?_
  have hlt := Nat.lt_of_lt_of_le (hmoves h) hens.left_le
  cases r with
  | none => exact ok_pure (hens.trans hlater) fun _ => hlt
  | some left =>
    exact ok_of_tame (hens.trans hlater) ⟨(hens.trans hlater).maxStr_le, hlt⟩

theorem callArgs_ok (args : List AstNode) : Ok (.callArgs args, p) (callArgs args) p := by
  unfold callArgs
  refine ok_checkAny (fun _ => ok_pure (later_ensure p) False.elim) fun _ => ok_skipAll ?_
  have hskip := (later_ensure p).trans (later_skipAll [.newline] _)
  have hens := hskip.trans (later_ensure _)
  refine ok_check (fun _ => ok_pure hens False.elim) fun _ => ?_
  refine ok_check (fun _ => ?_) fun _ => ?_
  · have hens' := hens.trans (later_ensure _)
    exact ok_comma hens' (ok_pure (hens'.trans (later_ensure _)) False.elim)
  · have hens' := hens.trans (later_ensure _)
    refine ok_parseExpr (.inr (smaller_of_rank hens' (by simp [Proc.rank]))) fun r p' hlater _ => ?_
    have hp' := hens'.trans hlater
    exact ok_comma hp' (ok_pure (hp'.trans (later_ensure _)) False.elim)

theorem arrayElements_ok (elements : List AstNode) :
    Ok (.arrayElements elements, p) (arrayElements elements) p := by
  unfold arrayElements
  have hens := later_ensure p
  refine ok_checkAny (fun _ => ok_pure hens False.elim) fun _ => ?_
  refine ok_parseExpr (.inr (smaller_of_rank hens (by simp [Proc.rank]))) fun r p' hlater _ => ?_
  have hp' := hens.trans hlater
  exact ok_comma hp' (ok_pure (hp'.trans (later_ensure _)) False.elim)

theorem lambdaParams_ok (params : List AstNode) :
    Ok (.lambdaParams params, p) (lambdaParams params) p := by
  unfold lambdaParams
  have hens := later_ensure p
  refine ok_checkAny (fun _ => ok_pure hens False.elim) fun h => ?_
  have hens' := hens.trans (later_ensure p.ensure)
  have hne : p.ensure.ensure.current.type ≠ .eof := by
    rw [ensure_ensure]
    exact active_of_not_mem (by decide) h
  exact ok_check (fun _ => ok_takeTok hens' hne) fun _ => ok_advance hens' hne

theorem morePatterns_ok (patterns : List AstNode) :
    Ok (.morePatterns patterns, p) (morePatterns patterns) p := by
  unfold morePatterns
  exact ok_comma (Later.refl p) (ok_pure (later_ensure p) False.elim)

theorem matchArm_ok : Ok (.matchArm, p) matchArm p := by
  have hbody : ∀ {q : Parser} (pattern : Option AstNode) (patterns : List AstNode), Later p q →
      Ok (.matchArm, p) (parseArmBody pattern patterns) q := by
    intro q pattern patterns hlater
    refine ok_quiet fun _ q' h => ?_
    have hq' := hlater.trans h
    refine ok_parseExpr (.inr (smaller_of_rank hq' (by simp [Proc.rank]))) fun r p' h' hmoves => ?_
    exact ok_pure (hq'.trans h') (hq'.moves h' hmoves)
  unfold matchArm
  refine ok_quiet fun _ q hq => ok_quiet fun _ q' hq' => ?_
  have hstart := hq.trans hq'
  have hens := hstart.trans (later_ensure q')
  refine ok_check (fun _ => hbody none [] hens) fun _ => ok_quiet fun pattern r hr => ?_
  have hpat := hens.trans hr
  refine ok_recur (.inr (smaller_of_rank hpat (by simp [Proc.rank]))) fun patterns p' h _ => ?_
  exact hbody pattern patterns (hpat.trans h)

theorem matchArms_ok (arms : List AstNode) : Ok (.matchArms arms, p) (matchArms arms) p := by
  unfold matchArms
  have hens := later_ensure p
  refine ok_checkAny (fun _ => ok_pure hens False.elim) fun h => ?_
  have hactive := active_of_not_mem (by decide) h
  refine ok_matchAny (by decide) hens fun _ => ?_
  have hens' := hens.trans (later_ensure _)
  refine ok_parseMatchArm (.inr (smaller_of_rank hens' (by simp [Proc.rank])))
    fun arm p' hlater hmoves => ?_
  exact ok_recur_free (hens'.trans hlater) (hens'.moves hlater hmoves hactive)

/-- The pieces of a string literal are shorter than the literal. -/
theorem matchBrace_le (depth : Nat) (text cs : Bytes) : ∀ expr rest,
    matchBrace depth text cs = some (expr, rest) →
      expr.length + rest.length + 1 ≤ text.length + cs.length := by
  fun_induction matchBrace depth text cs with
  | case1 => simp
  | case2 => rintro _ _ ⟨⟩; simp
  | case3 => simp
  | case4 _ _ _ _ _ _ ih =>
    intro expr rest h
    have := ih expr rest h
    simp only [List.length_append, List.length_cons, List.length_nil] at *
    omega
  | case5 _ _ _ _ _ ih =>
    intro expr rest h
    have := ih expr rest h
    simp only [List.length_append, List.length_cons, List.length_nil] at *
    omega
  | case6 =>
    rintro _ _ ⟨⟩
    simp only [List.length_cons]
    omega
  | case7 _ _ _ _ _ _ _ ih =>
    intro expr rest h
    have := ih expr rest h
    simp only [List.length_append, List.length_cons, List.length_nil] at *
    omega
  | case8 _ _ _ _ _ _ _ _ ih =>
    intro expr rest h
    have := ih expr rest h
    simp only [List.length_append, List.length_cons, List.length_nil] at *
    omega

theorem piecesLoop_lt (fuel : Nat) (escaped : Bool) (literal cs : Bytes) :
    ∀ text, .expr text ∈ piecesLoop fuel escaped literal cs → text.length < cs.length := by
  fun_induction piecesLoop fuel escaped literal cs with
  | case1 => simp
  | case2 => intro text h; simp [literalPiece] at h
  | case3 _ _ _ _ _ _ expr rest hmatch ih =>
    intro text h
    have hle := matchBrace_le _ _ _ _ _ hmatch
    simp only [List.length_nil, List.length_cons] at *
    rcases List.mem_append.mp h with h | h
    · rcases List.mem_append.mp h with h | h
      · simp only [literalPiece] at h
        split_ifs at h <;> simp at h
      · simp only [exprPiece] at h
        split_ifs at h
        · simp at h
        · obtain rfl : text = expr := by simpa using h
          omega
    · have := ih text h
      omega
  | case4 _ _ _ _ _ _ _ ih =>
    intro text h
    rcases List.mem_append.mp h with h | h
    · simp only [literalPiece] at h
      split_ifs at h <;> simp at h
    · have := ih text h
      simp only [List.length_cons]
      omega
  | case5 _ _ _ _ _ _ ih =>
    intro text h
    have := ih text h
    simp only [List.length_cons]
    omega

theorem stringPieces_lt {raw : Bytes} {pieces : List Piece} (h : stringPieces raw = some pieces)
    {text : Bytes} (hmem : .expr text ∈ pieces) : text.length < raw.length := by
  have hcontent : (stringContent raw).length ≤ raw.length := by
    rw [stringContent]
    split_ifs
    · simp only [List.length_dropLast, List.length_tail]
      omega
    · exact Nat.le_refl _
  simp only [stringPieces] at h
  split_ifs at h
  obtain rfl := Option.some.inj h
  exact Nat.lt_of_lt_of_le (piecesLoop_lt _ _ _ _ _ hmem) hcontent

theorem maxStrLen_le {n : Nat} {toks : List Token} (h : ∀ tok ∈ toks, tok.strLen ≤ n) :
    maxStrLen toks ≤ n := by
  induction toks with
  | nil => simp [maxStrLen]
  | cons tok toks ih =>
    have hhead := h tok (List.mem_cons_self ..)
    have htail := ih fun tok' hmem => h tok' (List.mem_cons_of_mem _ hmem)
    simp only [maxStrLen, List.map_cons, List.foldr_cons] at *
    omega

/-- The strings in the text of an interpolation fit in that text. -/
theorem maxStr_parserCreate (source : Bytes) : (parserCreate source).maxStr ≤ source.length := by
  have htoks : maxStrLen (tokensOf source).1 ≤ source.length := by
    refine maxStrLen_le fun tok hmem => ?_
    rw [Token.strLen]
    split_ifs with hstr
    · exact tokensOf_bounded source tok hmem hstr
    · exact Nat.zero_le _
  have hzero : Token.zero.strLen = 0 := rfl
  change max Token.zero.strLen (maxStrLen (tokensOf source).1) ≤ source.length
  rw [hzero]
  exact Nat.max_le.mpr ⟨Nat.zero_le _, htoks⟩

theorem ok_interpolation {α : Type} {c : Proc × Parser} {q : Parser}
    {f : Option AstNode → ParseM α} :
    ∀ (pieces : List Piece) (result : Option AstNode),
      (∀ text, .expr text ∈ pieces → text.length < c.2.maxStr) → (∀ r, Ok c (f r) q) →
      Ok c (interpolation pieces result >>= f) q
  | [], result, _, h => h result
  | .literal text :: rest, result, hpieces, h =>
    ok_interpolation rest _ (fun t ht => hpieces t (List.mem_cons_of_mem _ ht)) h
  | .expr text :: rest, result, hpieces, h => by
    have hrest : ∀ r, Ok c (interpolation rest r >>= f) q := fun r =>
      ok_interpolation rest r (fun t ht => hpieces t (List.mem_cons_of_mem _ ht)) h
    have hsub : Smaller (.exprPrec .min, parserCreate text) c :=
      smaller_of_shorter
        (Nat.lt_of_le_of_lt (maxStr_parserCreate text) (hpieces text (List.mem_cons_self ..)))
    refine ⟨.inr hsub, fun rs _ => ?_⟩
    obtain ⟨node, _⟩ := rs
    cases node with
    | none => exact hrest result
    | some node => exact hrest (some (concatNode result node))

theorem parseStringLiteral_ok {c : Proc × Parser} {q : Parser} {token : Token}
    (hlater : Later c.2 q) (hfree : Free c.2 q) (hlen : token.text.length ≤ c.2.maxStr) :
    Ok c (parseStringLiteral token) q := by
  have hpure : ∀ a : Option AstNode, Ok c (pure a : ParseM (Option AstNode)) q := fun _ =>
    ok_pure hlater fun _ => hfree.left_lt
  unfold parseStringLiteral
  split
  · exact hpure _
  · next pieces hpieces =>
    exact ok_interpolation pieces none
      (fun text hmem => Nat.lt_of_lt_of_le (stringPieces_lt hpieces hmem) hlen) fun _ => hpure _

theorem prefixExpr_ok : Ok (.prefixExpr, p) prefixExpr p := by
  have hrefl := Later.refl p
  have hstep : ∀ {type : TokenType} {f : Unit → ParseM (Option AstNode)} [Tame (f ())],
      p.current.type = type → type ≠ .eof → Ok (.prefixExpr, p) (advance >>= f) p :=
    fun heq hne => ok_advance hrefl (by rw [heq]; exact hne)
  unfold prefixExpr
  refine ok_get ?_
  dsimp only
  split
  case h_3 heq =>
    have hne : p.current.type ≠ .eof := by rw [heq]; decide
    have hlen : p.current.text.length ≤ p.maxStr := by
      simp [Parser.maxStr, Token.strLen, heq]
    exact parseStringLiteral_ok (later_advance p) (free_advance hne) hlen
  case h_12 | h_13 =>
    have (op : UnaryOp) (operand : Option AstNode) : Tame (match operand with
      | none => return none
      | some operand => return some (.unaryOp op (some operand)) : ParseM (Option AstNode)) := by
      cases operand <;> infer_instance
    next heq => exact hstep heq (by decide)
  case h_26 =>
    have hadv := (later_error p p.current "expected expression").trans (later_advance _)
    exact ok_pure hadv fun hne => left_advance_lt (p := p.error _ _) hne
  all_goals next heq => exact hstep heq (by decide)

/-- A token with a precedence is a binary operator, or has a branch of its
own in `parse_infix`. -/
theorem binaryOpOf_none {type : TokenType} (h : binaryOpOf type = none) :
    tokenPrecedence type = .min ∨
      type ∈ [TokenType.lparen, .lbracket, .dot, .colonColon, .kwAs, .question] := by
  cases type <;> first | exact .inl rfl | exact .inr (by decide) | cases h

theorem infixExpr_ok (left : AstNode) : Ok (.infixExpr left, p) (infixExpr left) p := by
  have hrefl := Later.refl p
  have hstep : ∀ {type : TokenType} {f : Unit → ParseM (Option AstNode)} [Tame (f ())],
      p.current.type = type → type ≠ .eof → Ok (.infixExpr left, p) (advance >>= f) p :=
    fun heq hne => ok_advance hrefl (by rw [heq]; exact hne)
  unfold infixExpr
  refine ok_get ?_
  dsimp only
  split
  case h_5 heq => exact ok_pure hrefl fun hmoves => absurd heq hmoves.2
  case h_6 heq =>
    have (type : Option AstNode) : Tame (match type with
      | none => do
        parserError "expected type after 'as'"
        return some left
      | some type => return some (.cast (some left) (some type)) : ParseM (Option AstNode)) := by
      cases type <;> infer_instance
    exact hstep heq (by decide)
  case h_7 heq =>
    unfold parseQuestion
    refine ok_get ?_
    split_ifs <;> exact hstep heq (by decide)
  case h_8 h1 h2 h3 h4 h5 h6 h7 =>
    unfold parseBinary
    split
    · next hnone =>
      refine ok_pure hrefl fun hmoves => ?_
      rcases binaryOpOf_none hnone with hmin | hmem
      · exact absurd hmin hmoves.1
      · simp_all
    · next op hop =>
      exact ok_advance hrefl fun heof => by simp [heof, binaryOpOf] at hop
  all_goals next heq => exact hstep heq (by decide)

/-! ## §4 Types and attributes -/

theorem typeList_ok (types : List AstNode) : Ok (.typeList types, p) (typeList types) p := by
  unfold typeList
  have hens := later_ensure p
  refine ok_checkAny (fun _ => ok_pure hens False.elim) fun _ => ?_
  refine ok_parseType (.inr (smaller_of_rank hens (by simp [Proc.rank]))) fun r p' hlater => ?_
  have hp' := hens.trans hlater
  exact ok_comma hp' (ok_pure (hp'.trans (later_ensure _)) False.elim)

instance (base : Option AstNode) : Quiet (typePostfix base) := by
  unfold typePostfix; infer_instance

theorem type_ok : Ok (.type, p) type p := by
  unfold type
  refine ok_recur (.inr (smaller_of_rank (Later.refl p) (by simp [Proc.rank]))) fun r p' h _ => ?_
  exact ok_end h False.elim

/-- The test for a word, where no identifier is. -/
theorem ok_wordTest {c : Proc × Parser} {word : String} {x y : ParseM (Option AstNode)}
    (hcur : p.hasCurrent = true) (hne : p.current.type ≠ .ident) (hy : Ok c y p) :
    Ok c (check .ident >>= fun b => get >>= fun q =>
      if (b && svEqCstr q.current.text word) = true then x else y) p := by
  change Ok c (if (decide (p.ensure.current.type = .ident) && svEqCstr p.ensure.current.text word) =
    true then x else y) p.ensure
  rw [ensure_of_hasCurrent hcur]
  simpa [hne] using hy

theorem typeBase_ok : Ok (.typeBase, p) typeBase p := by
  unfold typeBase
  have hrefl := Later.refl p
  have hens := later_ensure p
  have hcur := ensure_hasCurrent p
  refine ok_matchTok (by decide) hrefl fun _ => ?_
  refine ok_check (fun h => ?_) fun hne => ?_
  · exact ok_takeTok (hens.trans (later_ensure _)) (by rw [h]; decide)
  rw [ensure_ensure] at hne ⊢
  refine ok_matchTok_else (by decide) hcur hens fun _ => ok_wordTest _ hcur hne ?_
  iterate 7 refine ok_matchTok_else (by decide) hcur hens fun _ => ?_
  exact ok_end hens False.elim

theorem attributes_ok (skipNewlines : Bool) (last : Option AttrData) :
    Ok (.attributes skipNewlines last, p) (attributes skipNewlines last) p := by
  unfold attributes
  exact ok_matchTok (by decide) (Later.refl p) fun _ => ok_pure (later_ensure p) False.elim

theorem attributeArgs_ok (attr : AttrData) : Ok (.attributeArgs attr, p) (attributeArgs attr) p := by
  unfold attributeArgs
  have hens := later_ensure p
  refine ok_checkAny (fun _ => ok_pure hens False.elim) fun h => ok_skipAll ?_
  have hskip := hens.trans (later_skipAll [.newline] _)
  have hens' := hskip.trans (later_ensure _)
  refine ok_check (fun _ => ok_pure hens' False.elim) fun _ => ?_
  generalize hq : (Parser.skipAll [TokenType.newline] p.ensure).ensure = q at *
  by_cases hne : q.current.type = .eof
  · -- the newlines before the end were consumed
    have hcur : q.hasCurrent = true := by rw [← hq]; exact ensure_hasCurrent _
    have hnot : ¬ q.Active := by simp [Parser.Active, ensure_of_hasCurrent hcur, hne]
    have hlt := (hens'.active (active_of_not_mem (by decide) h)).resolve_right hnot
    exact ok_of_tame hens' ⟨hens'.maxStr_le, hlt⟩
  · exact ok_takeTok hens' hne

/-! ## §5 Statements -/

theorem parseExprStmt_ok {q : Parser} (hlater : Later p q) :
    Ok (.statement, p) parseExprStmt q := by
  unfold parseExprStmt
  refine ok_parseExpr (.inr (smaller_of_rank hlater (by simp [Proc.rank])))
    fun r p' h hmoves => ?_
  cases r <;> exact ok_pure (hlater.trans h) (hlater.moves h hmoves)

theorem statementBranches_ok {q : Parser} (hlater : Later p q) :
    Ok (.statement, p) statementBranches q := by
  unfold statementBranches
  have hens := hlater.trans (later_ensure q)
  have hcur := ensure_hasCurrent q
  refine ok_matchTok (by decide) hlater fun _ => ?_
  iterate 15 refine ok_matchTok_else (by decide) hcur hens fun _ => ?_
  exact parseExprStmt_ok p hens

theorem statement_ok : Ok (.statement, p) statement p := by
  unfold statement
  refine ok_sync (fun p' hlater hnot => ?_) fun p' hlater => ?_
  · exact ok_pure hlater fun hactive => (hlater.active hactive).resolve_right hnot
  · refine ok_recur (.inr (smaller_of_rank hlater (by simp [Proc.rank]))) fun _ q h _ => ?_
    exact statementBranches_ok p (hlater.trans h)

theorem blockLoop_ok (stmts : List AstNode) : Ok (.blockLoop stmts, p) (blockLoop stmts) p := by
  unfold blockLoop
  have hens := later_ensure p
  refine ok_checkAny (fun _ => ok_pure hens False.elim) fun h => ok_skipAll ?_
  have hactive := active_of_not_mem (by decide) h
  have hskip := hens.trans (later_skipAll [.newline, .semicolon] _)
  have hens' := hskip.trans (later_ensure _)
  refine ok_check (fun _ => ok_pure hens' False.elim) fun _ => ?_
  refine ok_parseStatement (.inr (smaller_of_rank hens' (by simp [Proc.rank])))
    fun r p' hlater hmoves => ?_
  exact ok_recur_free (hens'.trans hlater) (hens'.moves hlater hmoves hactive)

theorem elifs_ok : Ok (.elifs, p) elifs p := by
  unfold elifs
  exact ok_matchTok (by decide) (Later.refl p) fun _ => ok_pure (later_ensure p) False.elim

theorem spawnArgs_ok (args : List AstNode) : Ok (.spawnArgs args, p) (spawnArgs args) p := by
  unfold spawnArgs
  have hens := later_ensure p
  refine ok_checkAny (fun _ => ok_pure hens False.elim) fun _ => ok_skipAll ?_
  have hens' := (hens.trans (later_skipAll [.newline] _)).trans (later_ensure _)
  refine ok_check (fun _ => ok_pure hens' False.elim) fun _ => ?_
  refine ok_parseExpr (.inr (smaller_of_rank hens' (by simp [Proc.rank]))) fun r p' hlater _ => ?_
  have hp' := hens'.trans hlater
  exact ok_comma hp' (ok_pure (hp'.trans (later_ensure _)) False.elim)

theorem asmOutputs_ok (outputs : List Bytes) :
    Ok (.asmOutputs outputs, p) (asmOutputs outputs) p := by
  unfold asmOutputs
  have hens := later_ensure p
  refine ok_checkAny (fun _ => ok_pure hens False.elim) fun _ => ?_
  have hens' := hens.trans (later_ensure _)
  refine ok_check (fun h => ?_) fun _ => ok_pure hens' False.elim
  exact ok_takeTok hens' (by rw [h]; decide)

theorem asmBody_ok (depth : Nat) (asmEnd : Bytes) :
    Ok (.asmBody depth asmEnd, p) (asmBody depth asmEnd) p := by
  unfold asmBody
  split
  · exact ok_pure (Later.refl p) False.elim
  · have hens := later_ensure p
    exact ok_check (fun _ => ok_pure hens False.elim) fun h => ok_advance hens h

theorem catchArms_ok (arms : List AstNode) : Ok (.catchArms arms, p) (catchArms arms) p := by
  unfold catchArms
  exact ok_matchTok (by decide) (Later.refl p) fun _ => ok_pure (later_ensure p) False.elim

/-! ## §6 Declarations -/

theorem typeParams_ok (acc : List AstNode) : Ok (.typeParams acc, p) (typeParams acc) p := by
  unfold typeParams
  have hens := later_ensure p
  refine ok_checkAny (fun _ => ok_pure hens False.elim) fun h => ?_
  have hne : p.ensure.current.type ≠ .eof := active_of_not_mem (by decide) h
  have hens' := hens.trans (later_ensure _)
  refine ok_check (fun _ => ?_) fun _ => ?_
  · exact ok_takeTok hens' (by rwa [ensure_ensure])
  · exact ok_advance hens' (by rwa [ensure_ensure])

theorem params_ok (acc : List AstNode) : Ok (.params acc, p) (params acc) p := by
  unfold params
  have hens := later_ensure p
  refine ok_checkAny (fun _ => ok_pure hens False.elim) fun _ => ?_
  refine ok_optional (by decide) hens fun _ => ?_
  rw [ensure_ensure]
  unfold matchEllipsis
  refine ok_assoc (ok_optional (by decide) hens fun _ => ?_)
  rw [ensure_ensure]
  refine ok_checkAny (fun h => ?_) fun _ => ?_
  · rw [ensure_ensure] at h ⊢
    exact ok_takeTok hens (fun heof => by simp [heof] at h)
  · rw [ensure_ensure]
    exact ok_end hens False.elim

theorem contracts_ok (pre post : List AstNode) :
    Ok (.contracts pre post, p) (contracts pre post) p := by
  unfold contracts
  have hens := later_ensure p
  refine ok_matchTok (by decide) (Later.refl p) fun _ => ?_
  refine ok_matchTok (by decide) hens fun _ => ?_
  exact ok_pure (hens.trans (later_ensure _)) False.elim

theorem funcDecl_ok : Ok (.funcDecl, p) funcDecl p := by
  unfold funcDecl
  have hens := later_ensure p
  refine ok_check (fun h => ok_takeTok hens (by rw [h]; decide)) fun _ => ?_
  exact ok_end hens False.elim

theorem structMembers_ok (name : Bytes) (fields methods contracts : List AstNode) :
    Ok (.structMembers name fields methods contracts, p)
      (structMembers name fields methods contracts) p := by
  unfold structMembers
  have hens := later_ensure p
  have hcur := ensure_hasCurrent p
  refine ok_checkAny (fun _ => ok_pure hens False.elim) fun _ => ?_
  refine ok_matchAny (by decide) hens fun _ => ?_
  rw [ensure_ensure]
  refine ok_optional (by decide) hens fun _ => ?_
  rw [ensure_ensure]
  refine ok_matchTok_else (by decide) hcur hens fun _ => ?_
  refine ok_matchTok_else (by decide) hcur hens fun _ => ?_
  refine ok_check (fun h => ?_) fun _ => ?_
  · rw [ensure_ensure] at h ⊢
    exact ok_takeTok hens (by rw [h]; decide)
  · rw [ensure_ensure]
    exact ok_end hens False.elim

theorem enumVariants_ok (variants : List AstNode) :
    Ok (.enumVariants variants, p) (enumVariants variants) p := by
  unfold enumVariants
  have hens := later_ensure p
  refine ok_checkAny (fun _ => ok_pure hens False.elim) fun _ => ?_
  refine ok_matchAny (by decide) hens fun _ => ?_
  rw [ensure_ensure]
  refine ok_check (fun h => ?_) fun _ => ?_
  · rw [ensure_ensure] at h ⊢
    exact ok_takeTok hens (by rw [h]; decide)
  · rw [ensure_ensure]
    exact ok_end hens False.elim

theorem methods_ok (acc : List AstNode) : Ok (.methods acc, p) (methods acc) p := by
  unfold methods
  have hens := later_ensure p
  have hcur := ensure_hasCurrent p
  refine ok_checkAny (fun _ => ok_pure hens False.elim) fun h => ?_
  have hne : p.ensure.current.type ≠ .eof := active_of_not_mem (by decide) h
  refine ok_matchAny (by decide) hens fun _ => ?_
  rw [ensure_ensure]
  refine ok_matchTok_else (by decide) hcur hens fun _ => ?_
  exact ok_advance hens hne

theorem moduleBody_ok (decls : List AstNode) : Ok (.moduleBody decls, p) (moduleBody decls) p := by
  unfold moduleBody
  have hens := later_ensure p
  refine ok_checkAny (fun _ => ok_pure hens False.elim) fun h => ok_skipAll ?_
  have hactive := active_of_not_mem (by decide) h
  have hskip := hens.trans (later_skipAll [.newline] _)
  refine ok_parseDeclaration (.inr (smaller_of_rank hskip (by simp [Proc.rank])))
    fun r p' hlater hmoves => ok_skipAll ?_
  have hlt := hskip.moves hlater hmoves hactive
  have hnl := later_skipAll [.newline] p'
  exact ok_recur_free ((hskip.trans hlater).trans hnl) (Nat.lt_of_le_of_lt hnl.left_le hlt)

theorem topAsm_ok (depth : Nat) : Ok (.topAsm depth, p) (topAsm depth) p := by
  unfold topAsm
  split
  · exact ok_pure (Later.refl p) False.elim
  have hens := later_ensure p
  refine ok_check (fun _ => ok_pure hens False.elim) fun h => ok_get ?_
  dsimp only
  generalize (if p.ensure.current.type = .lbrace then depth + 1
    else if p.ensure.current.type = .rbrace then depth - 1 else depth) = depth'
  split
  · exact ok_pure hens False.elim
  · exact ok_advance hens h
theorem runBody_ok (stmts : List AstNode) : Ok (.runBody stmts, p) (runBody stmts) p := by
  unfold runBody
  have hens := later_ensure p
  refine ok_checkAny (fun _ => ok_pure hens False.elim) fun h => ?_
  have hactive := active_of_not_mem (by decide) h
  refine ok_matchAny (by decide) hens fun _ => ?_
  rw [ensure_ensure]
  refine ok_parseStatement (.inr (smaller_of_rank hens (by simp [Proc.rank])))
    fun r p' hlater hmoves => ?_
  exact ok_recur_free (hens.trans hlater) (hens.moves hlater hmoves hactive)

theorem program_ok (decls : List AstNode) : Ok (.program decls, p) (program decls) p := by
  unfold program
  have hens := later_ensure p
  refine ok_check (fun _ => ok_pure hens False.elim) fun hactive => ?_
  refine ok_parseDeclaration (.inr (smaller_of_rank hens (by simp [Proc.rank])))
    fun r p' hlater hmoves => ok_skipAll ?_
  have hlt := hens.moves hlater hmoves hactive
  have hnl := later_skipAll [.newline] p'
  exact ok_recur_free ((hens.trans hlater).trans hnl) (Nat.lt_of_le_of_lt hnl.left_le hlt)

theorem declBranches_ok (decls acc : List AstNode) (attr : Option AttrData) (m : Modifiers)
    {q : Parser} (hlater : Later p q) :
    Ok (.declaration decls, p) (declBranches acc attr m) q := by
  unfold declBranches
  have hens := hlater.trans (later_ensure q)
  have hcur := ensure_hasCurrent q
  refine ok_matchTok (by decide) hlater fun _ => ?_
  iterate 15 refine ok_matchTok_else (by decide) hcur hens fun _ => ?_
  have herr := later_error q.ensure q.ensure.current "expected declaration"
  by_cases hne : q.ensure.current.type = .eof
  · have hnot : ¬ q.ensure.Active := by simp [Parser.Active, hne]
    exact ok_end hens fun hactive => (hens.active hactive).resolve_right hnot
  · have hok : Ok (.declaration decls, p) (advance >>= fun _ => pure acc)
        (q.ensure.error q.ensure.current "expected declaration") :=
      ok_advance (hens.trans herr) hne
    exact hok

theorem declaration_ok (decls : List AstNode) :
    Ok (.declaration decls, p) (declaration decls) p := by
  unfold declaration
  refine ok_sync (fun p' hlater hnot => ?_) fun p' hlater => ok_skipAll ?_
  · exact ok_pure hlater fun hactive => (hlater.active hactive).resolve_right hnot
  · have hskip := hlater.trans (later_skipAll [.newline] _)
    refine ok_recur (.inr (smaller_of_rank hskip (by simp [Proc.rank]))) fun attr q h _ => ?_
    exact ok_quiet fun m q' hmod => declBranches_ok p decls decls attr m ((hskip.trans h).trans hmod)

/-! ## §7 Termination -/

theorem procs_ok (c : Proc × Parser) : Ok c (procs c.1) c.2 := by
  obtain ⟨proc, p⟩ := c
  cases proc with
  | exprPrec minPrec => exact exprPrec_ok p minPrec
  | prefixExpr => exact prefixExpr_ok p
  | postfixLoop left => exact postfixLoop_ok p left
  | infixLoop minPrec left hadInfix => exact infixLoop_ok p minPrec left hadInfix
  | infixExpr left => exact infixExpr_ok p left
  | callArgs args => exact callArgs_ok p args
  | arrayElements elements => exact arrayElements_ok p elements
  | lambdaParams acc => exact lambdaParams_ok p acc
  | matchArms arms => exact matchArms_ok p arms
  | matchArm => exact matchArm_ok p
  | morePatterns patterns => exact morePatterns_ok p patterns
  | type => exact type_ok p
  | typeBase => exact typeBase_ok p
  | typeList types => exact typeList_ok p types
  | attributes skipNewlines last => exact attributes_ok p skipNewlines last
  | attributeArgs attr => exact attributeArgs_ok p attr
  | statement => exact statement_ok p
  | blockLoop stmts => exact blockLoop_ok p stmts
  | elifs => exact elifs_ok p
  | spawnArgs args => exact spawnArgs_ok p args
  | asmOutputs outputs => exact asmOutputs_ok p outputs
  | asmBody depth asmEnd => exact asmBody_ok p depth asmEnd
  | catchArms arms => exact catchArms_ok p arms
  | declaration decls => exact declaration_ok p decls
  | funcDecl => exact funcDecl_ok p
  | typeParams acc => exact typeParams_ok p acc
  | params acc => exact params_ok p acc
  | contracts pre post => exact contracts_ok p pre post
  | structMembers name fields methods contracts =>
    exact structMembers_ok p name fields methods contracts
  | enumVariants variants => exact enumVariants_ok p variants
  | methods acc => exact methods_ok p acc
  | moduleBody decls => exact moduleBody_ok p decls
  | topAsm depth => exact topAsm_ok p depth
  | runBody stmts => exact runBody_ok p stmts
  | program decls => exact program_ok p decls

/-- At a `--` the postfix loop calls itself in the same place. -/
theorem postfixLoop_stuck (left : AstNode) {p : Parser}
    (h : p.ensure.current.type = .minusMinus) :
    MakesCall procs (postfixLoop left) p
      (.postfixLoop (.unaryOp .dec (some left)), p.ensure) := by
  have hplus : p.ensure.ensure.current.type ≠ .plusPlus := by simp [h]
  simp only [postfixLoop, makesCall_bind, steps_checkAny]
  refine .inr ⟨true, p.ensure, ⟨by simp [h], rfl⟩, ?_⟩
  simp only [if_true, makesCall_bind, steps_matchTok_false hplus]
  exact .inr ⟨false, p.ensure, ⟨rfl, by simp⟩, makesCall_recur.mpr rfl⟩

/-- At a `|` the infix loop calls itself in the same place. -/
theorem infixLoop_stuck {minPrec : Precedence} (left : AstNode) {hadInfix : Bool} {p q : Parser}
    (hq : (if hadInfix then p.skipAll [.newline] else p).ensure = q) (h : q.current.type = .pipe)
    (hprec : minPrec.level ≤ Precedence.bitOr.level) :
    MakesCall procs (infixLoop minPrec left hadInfix) p (.infixLoop minPrec left true, q) := by
  have hpipe : ProcReturns procs (.infixExpr left) q (some left) q := by
    refine procReturns_iff.mpr ?_
    change Steps procs (infixExpr left) q _ _
    simp [infixExpr, h]
  have hloop : ¬ Precedence.bitOr.level < minPrec.level := Nat.not_lt.mpr hprec
  simp [infixLoop, skipNewlinesIf, parseInfix, hq, h, exprEnd, tokenPrecedence, hloop]
  exact .inr ⟨some left, q, steps_recur.mpr hpipe, makesCall_recur.mpr rfl⟩

/-- A stuck call makes another stuck call. -/
theorem calls_stuck : ∀ c : Proc × Parser, Stuck c →
    ∃ c', Stuck c' ∧ MakesCall procs (procs c.1) c.2 c' := by
  rintro ⟨proc, p⟩ hstuck
  cases proc with
  | postfixLoop left =>
    have h : p.ensure.current.type = .minusMinus := hstuck
    exact ⟨(.postfixLoop _, p.ensure), by simpa [Stuck] using h, postfixLoop_stuck left h⟩
  | infixLoop minPrec left hadInfix =>
    obtain ⟨hprec, h⟩ := hstuck
    refine ⟨(.infixLoop minPrec left true, _), ⟨hprec, ?_⟩, infixLoop_stuck left rfl h hprec⟩
    rw [if_pos rfl, skipAll_of_not_mem (by simp [h])]
    simpa using h
  | _ => exact hstuck.elim

/-- What the calls of a procedure gave. -/
theorem callPost_of_returns {proc : Proc} {p p' : Parser} {r : proc.Result}
    (h : ProcReturns procs proc p r p') : callPost (proc, p) (r, p') := by
  have hbody : ∀ c, ∃ pre, Meets pre callPost (bodies procs c) (callPost c) :=
    fun c => ⟨_, procs_ok c⟩
  exact returns_of_meets hbody h

/-- The state in which the infix loop looks at the next operator. -/
def infixState (hadInfix : Bool) (p : Parser) : Parser :=
  (if hadInfix then p.skipAll [.newline] else p).ensure

/-- An iteration that goes on consumes a token, unless it is stuck. -/
theorem infixLoop_consumes {minPrec minPrec' : Precedence} {left left' : AstNode}
    {hadInfix hadInfix' : Bool} {p p' : Parser} (hstuck : ¬ Stuck (.infixLoop minPrec left hadInfix, p))
    (hcall : MakesCall procs (infixLoop minPrec left hadInfix) p
      (.infixLoop minPrec' left' hadInfix', p')) :
    p'.left < (infixState hadInfix p).left := by
  simp [infixLoop, skipNewlinesIf, parseInfix] at hcall
  change MakesCall procs _ (infixState hadInfix p) _ at hcall
  have hq : (if hadInfix then p.skipAll [.newline] else p).ensure = infixState hadInfix p := rfl
  simp only [hq] at hcall
  generalize infixState hadInfix p = q at *
  split at hcall
  · exact (makesCall_pure hcall).elim
  simp only [makesCall_bind, makesCall_get, steps_get, false_or] at hcall
  obtain ⟨_, _, ⟨rfl, rfl⟩, hcall⟩ := hcall
  split at hcall
  · exact (makesCall_pure hcall).elim
  next hprec =>
  split at hcall
  · exact (makesCall_pure hcall).elim
  next hmin =>
  rw [makesCall_bind] at hcall
  rcases hcall with hcall | ⟨r, q', hloop, hcall⟩
  · cases makesCall_recur.mp hcall
  have hpost := callPost_of_returns (steps_recur.mp hloop)
  cases r with
  | none => exact (makesCall_pure hcall).elim
  | some next =>
    cases makesCall_recur.mp hcall
    refine hpost.2 ⟨hmin, fun hpipe => hstuck ⟨?_, by rw [hq]; exact hpipe⟩⟩
    rw [hpipe] at hprec
    exact Nat.not_lt.mp hprec

/-- What the parser does on any tokens: an iteration of the infix loop
consumes a token or leaves the loop unless a `|` holds it in place, and a
call returns if and only if it reaches no loop that a `|` or a `--` holds
in place. -/
theorem parser_terminates_iff (p : Parser) :
    (∀ (minPrec : Precedence) (left : AstNode) (hadInfix : Bool),
      (∀ (left' : AstNode) (p' : Parser),
        MakesCall procs (infixLoop minPrec left hadInfix) p (.infixLoop minPrec left' true, p') →
          p'.left < (infixState hadInfix p).left) ↔
        ¬ Stuck (.infixLoop minPrec left hadInfix, p)) ∧
    ∀ proc : Proc,
      Terminates (bodies procs) (proc, p) ↔
        ∀ c, Reaches (bodies procs) (proc, p) c → ¬ Stuck c := by
  constructor
  · intro minPrec left hadInfix
    constructor
    · rintro hconsumes ⟨hprec, h⟩
      have hcall := infixLoop_stuck (q := infixState hadInfix p) left rfl h hprec
      exact Nat.lt_irrefl _ (hconsumes left _ hcall)
    · intro hstuck left' p' hcall
      exact infixLoop_consumes hstuck hcall
  · intro proc
    exact terminates_iff smaller_wf procs_ok calls_stuck (proc, p)

/-- A call that makes a stuck call does not return. -/
theorem not_terminates_of_makesCall {proc : Proc} {p : Parser} {c : Proc × Parser}
    (hcall : MakesCall procs (procs proc) p c) (hstuck : Stuck c) :
    ¬ Terminates (bodies procs) (proc, p) := fun h => by
  have hreach : Reaches (bodies procs) (proc, p) c := .step hcall (.refl c)
  exact not_terminates_of_stuck calls_stuck hstuck (terminates_of_reaches hreach h)

theorem prefixExpr_ident {p : Parser} (h : p.current.type = .ident) :
    Steps procs parsePrefix p (some (.ident p.current.text)) p.advance := by
  refine steps_recur.mpr (procReturns_iff.mpr ?_)
  change Steps procs prefixExpr p _ _
  simp [prefixExpr, leaf, h]

/-- An expression that starts with an identifier goes on to the postfix
loop, and at any other token than `++` and `--` to the infix loop. -/
theorem exprPrec_ident (minPrec : Precedence) {p : Parser} (h : p.ensure.current.type = .ident) :
    MakesCall procs (exprPrec minPrec) p
        (.postfixLoop (.ident p.ensure.current.text), p.ensure.advance) ∧
      (p.ensure.advance.current.type ∉ [TokenType.plusPlus, .minusMinus] →
        MakesCall procs (exprPrec minPrec) p
          (.infixLoop minPrec (.ident p.ensure.current.text) false, p.ensure.advance)) := by
  have hrest : ∀ c, MakesCall procs (do
        let left ← recur (.postfixLoop (.ident p.ensure.current.text))
        recur (.infixLoop minPrec left false)) p.ensure.advance c →
      MakesCall procs (exprPrec minPrec) p c := by
    intro c hc
    refine makesCall_bind.mpr (.inr ⟨false, p.ensure, steps_check.mpr ⟨by simp [h], rfl⟩, ?_⟩)
    exact makesCall_bind.mpr (.inr ⟨_, _, prefixExpr_ident h, hc⟩)
  constructor
  · exact hrest _ (makesCall_bind.mpr (.inl (makesCall_recur.mpr rfl)))
  · intro hnot
    have hloop : ProcReturns procs (.postfixLoop (.ident p.ensure.current.text)) p.ensure.advance
        (.ident p.ensure.current.text) p.ensure.advance := by
      refine procReturns_iff.mpr ?_
      change Steps procs (postfixLoop _) _ _ _
      simp only [postfixLoop, steps_bind, steps_checkAny]
      exact ⟨false, _, ⟨by simpa using hnot, rfl⟩, steps_pure.mpr ⟨rfl, by simp⟩⟩
    exact hrest _ (makesCall_bind.mpr (.inr ⟨_, _, steps_recur.mpr hloop, makesCall_recur.mpr rfl⟩))

/-- `a | b` and `x--` are not parsed. -/
theorem exprPrec_diverges :
    ¬ Terminates (bodies procs) (.exprPrec .min, parserCreate (bytes "a | b")) ∧
    ¬ Terminates (bodies procs) (.exprPrec .min, parserCreate (bytes "x--")) := by
  constructor
  · have h := (exprPrec_ident .min (p := parserCreate (bytes "a | b")) (by decide)).2
    refine not_terminates_of_makesCall (h (by decide)) ⟨by decide, ?_⟩
    decide
  · have h := (exprPrec_ident .min (p := parserCreate (bytes "x--")) (by decide)).1
    refine not_terminates_of_makesCall h ?_
    change (parserCreate (bytes "x--")).ensure.advance.ensure.current.type = .minusMinus
    decide

end Aether
