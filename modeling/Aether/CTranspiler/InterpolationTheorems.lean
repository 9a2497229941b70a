/-
Aether.CTranspiler.InterpolationTheorems — when a string literal means what
the specification says.

`literalValue_eq` gives the value of the node that the parser builds, from
the pieces it cuts the literal into. A clean content has the right pieces
(`partsOf_clean`). For the other direction the bytes of the pieces are
compared with the meaning from left to right: the first hexadecimal escape
leaves too many bytes (`ahead_ne`), the first lone opening brace too few
(`behind_ne`), and neither is ever made good.
-/
import Aether.CTranspiler.Pieces

namespace Aether.CTranspiler

open Lib.Procedures

-- the equations, before the proofs that share them
section
attribute [local simp] quote concatNode evaluateOpt evaluate interpolation parseStringLiteral
  stringPieces cEmitLiteralString Part.fill fitsBuffer render runsFit Item.isBraced Item.part
  marked bytes exprPiece Item.bytes literalPiece
end

/-! ## §1 The value of the node -/

section Value

variable (words : Bytes → Bytes)

/-- What the nodes of a piece evaluate to. -/
def pieceValue : Piece → Option Bytes
  | .literal text => (cEmitLiteralString (quote (unescapeBraces text))).value
  | .expr text => some (words text)

def piecesValue : List Piece → Option Bytes
  | [] => some []
  | piece :: pieces =>
    (pieceValue words piece).bind fun b => (piecesValue pieces).map (b ++ ·)

/-- What the node of a literal evaluates to. -/
def literalValue (content : Bytes) : Option Bytes :=
  if hasInterp false content then piecesValue words (piecesFrom false [] content)
  else (emitProcessed ((processEscapes content).take processedMax)).value

-- the equations, before the proofs that share them
section
attribute [local simp] pieceValue piecesValue literalValue
end

end Value

@[simp] theorem stringContent_quote (text : Bytes) : stringContent (quote text) = text := by
  have hlast : (quote text).getLast? = some (ch '"') := List.getLast?_concat ..
  have hlen : (quote text).length ≥ 2 := by simp [quote]
  rw [stringContent, if_pos ⟨hlen, rfl, hlast⟩]
  simp [quote]

@[simp] theorem steps_recurOn {procs : ∀ proc : Proc, ParseM proc.Result} {proc : Proc}
    {sub p p' : Parser} {r : proc.Result} :
    Steps procs (recurOn proc sub) p r p' ↔ (∃ q, ProcReturns procs proc sub r q) ∧ p = p' := by
  simp only [recurOn, steps_bind, steps_callOn, steps_pure]
  constructor
  · rintro ⟨⟨r', q⟩, _, ⟨hr, rfl⟩, rfl, rfl⟩
    exact ⟨⟨q, hr⟩, rfl⟩
  · rintro ⟨⟨q, hr⟩, rfl⟩
    exact ⟨(r, q), p, ⟨hr, rfl⟩, rfl, rfl⟩

theorem evaluate_concatNode (value : AstNode → Bytes) (result : Option AstNode) (node : AstNode) :
    evaluate value (concatNode result node) =
      (evaluateOpt value result).bind fun b => (evaluate value node).map (b ++ ·) := by
  cases result with
  | none => simp [concatNode, evaluateOpt]
  | some left => simp [concatNode, evaluate, evaluateOpt]

section Node

variable {procs : ∀ proc : Proc, ParseM proc.Result} {value : AstNode → Bytes}
  {words : Bytes → Bytes} {p : Parser}

/-- Whatever the text of an expression is parsed to, it has its value. -/
def Parses (procs : ∀ proc : Proc, ParseM proc.Result) (value : AstNode → Bytes)
    (words : Bytes → Bytes) (text : Bytes) : Prop :=
  ∃ result p', ProcReturns procs (.exprPrec .min) (parserCreate text) result p' ∧
    evaluateOpt value result = some (words text)

theorem steps_interpolation (pieces : List Piece) : ∀ result : Option AstNode,
    (∀ text, .expr text ∈ pieces → Parses procs value words text) →
    ∃ r, Steps procs (interpolation pieces result) p r p ∧
      evaluateOpt value r =
        (evaluateOpt value result).bind fun b => (piecesValue words pieces).map (b ++ ·) := by
  induction pieces with
  | nil =>
    intro result _
    refine ⟨result, by simp [interpolation], ?_⟩
    cases evaluateOpt value result <;> simp [piecesValue]
  | cons piece pieces ih =>
    intro result hparses
    have hrest := fun text h => hparses text (List.mem_cons_of_mem _ h)
    cases piece with
    | literal text =>
      obtain ⟨r, hr, hvalue⟩ := ih
        (some (concatNode result (.literalString (quote (unescapeBraces text))))) hrest
      refine ⟨r, hr, hvalue.trans ?_⟩
      rw [evaluateOpt, evaluate_concatNode]
      cases evaluateOpt value result with
      | none => rfl
      | some b =>
        simp only [evaluate, piecesValue, pieceValue, Option.bind_some]
        cases (cEmitLiteralString (quote (unescapeBraces text))).value with
        | none => rfl
        | some b' => cases piecesValue words pieces <;> simp
    | expr text =>
      obtain ⟨node, q, hnode, hword⟩ := hparses text (List.mem_cons_self ..)
      cases node with
      | none =>
        obtain ⟨r, hr, hvalue⟩ := ih result hrest
        refine ⟨r, ?_, hvalue.trans ?_⟩
        · rw [interpolation]
          exact steps_bind.mpr ⟨none, p, steps_recurOn.mpr ⟨⟨q, hnode⟩, rfl⟩, hr⟩
        · rw [evaluateOpt, Option.some.injEq] at hword
          simp [piecesValue, pieceValue, ← hword]
      | some node =>
        obtain ⟨r, hr, hvalue⟩ := ih (some (concatNode result node)) hrest
        refine ⟨r, ?_, hvalue.trans ?_⟩
        · rw [interpolation]
          exact steps_bind.mpr ⟨some node, p, steps_recurOn.mpr ⟨⟨q, hnode⟩, rfl⟩, hr⟩
        · rw [evaluateOpt] at hword
          rw [evaluateOpt, evaluate_concatNode, hword]
          cases evaluateOpt value result with
          | none => rfl
          | some b =>
            simp only [piecesValue, pieceValue, Option.bind_some, Option.map_some]
            cases piecesValue words pieces <;> simp

/-- The node of a literal is built and evaluates to `literalValue`. -/
theorem literalValue_eq (value : AstNode → Bytes) {token : Token} {content : Bytes}
    (htoken : token.text = quote content)
    (hparses : hasInterp false content = true →
      ∀ text, .expr text ∈ piecesFrom false [] content → Parses procs value words text) :
    ∃ node, Steps procs (parseStringLiteral token) p (some node) p ∧
      evaluate value node = literalValue words content := by
  cases hinterp : hasInterp false content with
  | false =>
    refine ⟨.literalString token.text, ?_, ?_⟩
    · simp [parseStringLiteral, stringPieces, htoken, hinterp]
    · simp [evaluate, cEmitLiteralString, htoken, literalValue, hinterp]
  | true =>
    obtain ⟨r, hr, hvalue⟩ := steps_interpolation _ none (hparses hinterp)
    refine ⟨r.getD (.literalString (quote [])), ?_, ?_⟩
    · simp only [parseStringLiteral, stringPieces, htoken, stringContent_quote, hinterp, if_true,
        steps_bind, steps_pure]
      exact ⟨r, p, hr, rfl, rfl⟩
    · simp only [literalValue, hinterp, if_true]
      cases r with
      | none =>
        simp only [evaluateOpt, Option.bind_some, List.nil_append, Option.map_id'] at hvalue
        rw [← hvalue]
        simp [evaluate, cEmitLiteralString, processEscapes, emitProcessed_value, separated]
      | some node => simpa [evaluateOpt] using hvalue

end Node

/-! ## §2 Parts of pieces -/

/-- What a piece stands for, as long as it fits in the buffer. -/
def pieceParts : Piece → List Part
  | .literal text => (emit text).map .byte
  | .expr text => [.expr text]

def partsOf (pieces : List Piece) : List Part := pieces.flatMap pieceParts

-- the equations, before the proofs that share them
section
attribute [local simp] pieceParts partsOf
end

@[simp] theorem partsOf_nil : partsOf [] = [] := rfl

@[simp] theorem partsOf_cons (piece : Piece) (pieces : List Piece) :
    partsOf (piece :: pieces) = pieceParts piece ++ partsOf pieces := rfl

@[simp] theorem partsOf_append (ps qs : List Piece) :
    partsOf (ps ++ qs) = partsOf ps ++ partsOf qs := by simp [partsOf]

@[simp] theorem partsOf_literalPiece (text : Bytes) :
    partsOf (literalPiece text) = (emit text).map .byte := by
  unfold literalPiece
  split
  · next h => simp [h]
  · simp [partsOf, pieceParts]

def fillAll (words : Bytes → Bytes) (parts : List Part) : Bytes := parts.flatMap (Part.fill words)

-- the equations, before the proofs that share them
section
attribute [local simp] fillAll
end

@[simp] theorem fillAll_append (words : Bytes → Bytes) (us vs : List Part) :
    fillAll words (us ++ vs) = fillAll words us ++ fillAll words vs := by simp [fillAll]

@[simp] theorem fillAll_bytes (words : Bytes → Bytes) (bs : Bytes) :
    fillAll words (bs.map .byte) = bs := by
  induction bs with
  | nil => rfl
  | cons b bs ih => simpa [fillAll, Part.fill] using ih

/-- Every literal piece decodes to bytes that fit in the buffer. -/
def PiecesFit (pieces : List Piece) : Prop :=
  ∀ text, .literal text ∈ pieces → fitsBuffer (emit text) = true

-- the equations, before the proofs that share them
section
attribute [local simp] PiecesFit
end

@[simp] theorem piecesFit_append {ps qs : List Piece} :
    PiecesFit (ps ++ qs) ↔ PiecesFit ps ∧ PiecesFit qs := by
  simp only [PiecesFit, List.mem_append]
  constructor
  · intro h
    exact ⟨fun text ht => h text (.inl ht), fun text ht => h text (.inr ht)⟩
  · rintro ⟨hp, hq⟩ text (ht | ht)
    · exact hp text ht
    · exact hq text ht

@[simp] theorem piecesFit_literalPiece {text : Bytes} :
    PiecesFit (literalPiece text) ↔ fitsBuffer (emit text) = true := by
  unfold literalPiece
  split
  · next h =>
    subst h
    exact iff_of_true (by simp [PiecesFit]) rfl
  · simp [PiecesFit]

theorem piecesFit_expr {text : Bytes} {pieces : List Piece} :
    PiecesFit (.expr text :: pieces) ↔ PiecesFit pieces := by
  simp [PiecesFit]

theorem pieceValue_literal (words : Bytes → Bytes) (text : Bytes) :
    pieceValue words (.literal text) =
      if separated ((emit text).take processedMax) then some ((emit text).take processedMax)
      else none := by
  rw [pieceValue, cEmitLiteralString, emitProcessed_value, stringContent_quote, emit]

theorem take_of_fits {run : Bytes} (h : run.length ≤ processedMax) : run.take processedMax = run :=
  List.take_of_length_le h

/-- Pieces that fit evaluate to their parts. -/
theorem piecesValue_of_fit (words : Bytes → Bytes) (pieces : List Piece) (h : PiecesFit pieces) :
    piecesValue words pieces = some (fillAll words (partsOf pieces)) := by
  induction pieces with
  | nil => rfl
  | cons piece pieces ih =>
    have hrest := ih fun text ht => h text (List.mem_cons_of_mem _ ht)
    rw [piecesValue, hrest, partsOf_cons, fillAll_append]
    cases piece with
    | literal text =>
      have hfits := h text (List.mem_cons_self ..)
      simp only [fitsBuffer, Bool.and_eq_true, decide_eq_true_eq] at hfits
      simp [pieceValue_literal, take_of_fits hfits.1, hfits.2, pieceParts]
    | expr text => simp [pieceValue, pieceParts, fillAll, Part.fill]

/-- Short pieces that have a value fit. -/
theorem fit_of_piecesValue {words : Bytes → Bytes} {pieces : List Piece} {value : Bytes}
    (hshort : ∀ text, .literal text ∈ pieces → text.length ≤ processedMax)
    (h : piecesValue words pieces = some value) : PiecesFit pieces := by
  induction pieces generalizing value with
  | nil => simp [PiecesFit]
  | cons piece pieces ih =>
    obtain ⟨b, hb, hrest⟩ := Option.bind_eq_some_iff.mp h
    obtain ⟨value', hvalue', -⟩ := Option.map_eq_some_iff.mp hrest
    have hfit := ih (fun text ht => hshort text (List.mem_cons_of_mem _ ht)) hvalue'
    cases piece with
    | expr text => exact piecesFit_expr.mpr hfit
    | literal text =>
      have hlength := (emit_length text).trans (hshort text (List.mem_cons_self ..))
      rw [pieceValue_literal, take_of_fits hlength] at hb
      have hsep : separated (emit text) = true := by
        by_contra hsep
        rw [if_neg hsep] at hb
        cases hb
      intro text' ht
      rcases List.mem_cons.mp ht with ht | ht
      · cases ht
        simp [fitsBuffer, hlength, hsep]
      · exact hfit text' ht

/-! ## §3 Clean contents -/

/-- The text since the last expression decodes to `run`, whatever follows
it. -/
def Ready (escaped : Bool) (literal run : Bytes) : Prop :=
  ∀ more, (escaped = true → startsBrace more = false) → emit (literal ++ more) = run ++ emit more

theorem ready_nil (escaped : Bool) : Ready escaped [] [] := fun _ _ => rfl

theorem Ready.emit_eq {escaped : Bool} {literal run : Bytes} (h : Ready escaped literal run) :
    emit literal = run := by
  simpa using h [] fun _ => rfl

theorem Ready.item {escaped : Bool} {literal run : Bytes} (h : Ready escaped literal run)
    {item : Item} (hexpr : item.isExpr = false)
    (hbraced : escaped = true → item.isBraced = false) :
    Ready (item = .escape .backslash) (literal ++ item.bytes) (run ++ item.emitted) := by
  intro more hmore
  have hnext : escaped = true → startsBrace (item.bytes ++ more) = false := by
    intro hescaped
    rw [startsBrace_item, hbraced hescaped]
  rw [List.append_assoc, h _ hnext, emit_item hexpr fun hitem => hmore (decide_eq_true hitem),
    List.append_assoc]

/-- An item that the parser reads as it is meant, given whether an escaped
backslash comes before it. -/
def Read (m : Bool × Item) : Prop :=
  m.2.isHex = false ∧ m.2 ≠ .openBrace ∧ (m.1 = true → m.2.isBraced = false)

theorem render_cons (item : Item) (items : List Item) :
    render (item :: items) = item.bytes ++ render items := rfl

/-- Items that are all read cut the literal into pieces with the right parts,
and the pieces fit when the runs do. -/
theorem partsOf_read : ∀ (items : List Item) {escaped : Bool} {literal run : Bytes},
    Ready escaped literal run → (∀ m ∈ marked escaped items, Read m) →
    partsOf (piecesFrom escaped literal (render items)) =
        run.map .byte ++ items.map Item.part ∧
      (PiecesFit (piecesFrom escaped literal (render items)) ↔ runsFit run items = true)
  | [], escaped, literal, run, hready, _ => by
    rw [render, List.flatMap_nil, piecesFrom_nil, partsOf_literalPiece, piecesFit_literalPiece,
      hready.emit_eq]
    simp [runsFit]
  | item :: items, escaped, literal, run, hready, hread => by
    obtain ⟨hhex, hopen, hbraced⟩ := hread _ (List.mem_cons_self ..)
    have hrest := fun m hm => hread m (List.mem_cons_of_mem _ hm)
    rw [render_cons]
    cases hexpr : item.isExpr with
    | false =>
      have hready' := hready.item hexpr hbraced
      obtain ⟨hparts, hfit⟩ := partsOf_read items hready' hrest
      have hemitted := Item.emitted_eq hhex hexpr
      rw [piecesFrom_item hexpr fun h => absurd h hopen, hparts, hfit]
      obtain ⟨b, hb⟩ : ∃ b, item.emitted = [b] := by
        have hlength := congrArg List.length hemitted
        simp only [List.length_map, List.length_singleton] at hlength
        exact List.length_eq_one_iff.mp hlength
      have hpart : item.part = .byte b := by
        rw [hb] at hemitted
        exact (List.cons.inj hemitted).1.symm
      simp [hb, hpart, runsFit]
    | true =>
      have hescaped : escaped = false := by
        cases escaped with
        | false => rfl
        | true =>
          have := hbraced rfl
          rw [Item.isBraced, hexpr] at this
          cases this
      cases item with
      | expr text h =>
        subst hescaped
        obtain ⟨hparts, hfit⟩ := partsOf_read items (ready_nil false) hrest
        rw [piecesFrom_expr h, partsOf_append, partsOf_cons, partsOf_literalPiece, hparts,
          piecesFit_append, piecesFit_literalPiece, piecesFit_expr, hfit, hready.emit_eq]
        simp [runsFit, pieceParts, Item.part]
      | _ => cases hexpr

theorem map_snd_marked (escaped : Bool) (items : List Item) :
    (marked escaped items).map Prod.snd = items := by
  induction items generalizing escaped with
  | nil => rfl
  | cons item items ih => simp [marked, ih]

theorem exists_mem_marked {items : List Item} {item : Item} (escaped : Bool) (h : item ∈ items) :
    ∃ b, (b, item) ∈ marked escaped items := by
  rw [← map_snd_marked escaped items] at h
  obtain ⟨⟨b, item'⟩, hm, rfl⟩ := List.mem_map.mp h
  exact ⟨b, hm⟩

theorem mem_of_mem_marked {items : List Item} {m : Bool × Item} {escaped : Bool}
    (h : m ∈ marked escaped items) : m.2 ∈ items := by
  rw [← map_snd_marked escaped items]
  exact List.mem_map_of_mem h

/-- Nothing in these items opens an interpolation. -/
def Silent (m : Bool × Item) : Prop := m.2.isExpr = false ∧ (m.1 = false → m.2 ≠ .openBrace)

theorem hasInterp_of_silent : ∀ (items : List Item) {escaped : Bool},
    (∀ m ∈ marked escaped items, Silent m) → hasInterp escaped (render items) = false
  | [], _, _ => rfl
  | item :: items, escaped, h => by
    obtain ⟨hexpr, hopen⟩ := h _ (List.mem_cons_self ..)
    have hescaped : item = .openBrace → escaped = true := by
      intro hitem
      by_contra hfalse
      exact hopen (Bool.not_eq_true _ ▸ hfalse) hitem
    rw [render_cons, hasInterp_item hexpr hescaped]
    exact hasInterp_of_silent items fun m hm => h m (List.mem_cons_of_mem _ hm)

theorem silent_of_hasInterp : ∀ (items : List Item) {escaped : Bool},
    hasInterp escaped (render items) = false →
    (∀ m ∈ marked escaped items, m.1 = true → m.2.isExpr = false) →
    ∀ m ∈ marked escaped items, Silent m
  | [], _, _, _ => by simp [marked]
  | item :: items, escaped, h, hhidden => by
    rw [render_cons] at h
    have hexpr : item.isExpr = false := by
      cases hitem : item with
      | expr text ht =>
        cases escaped with
        | true => exact hitem ▸ hhidden _ (List.mem_cons_self ..) rfl
        | false =>
          rw [hitem] at h
          exact absurd (hasInterp_open.symm.trans h) (by decide)
      | _ => rfl
    have hopen : escaped = false → item ≠ .openBrace := by
      rintro rfl rfl
      exact absurd (hasInterp_open.symm.trans h) (by decide)
    have hescaped : item = .openBrace → escaped = true := by
      intro hitem
      by_contra hfalse
      exact hopen (Bool.not_eq_true _ ▸ hfalse) hitem
    rw [hasInterp_item hexpr hescaped] at h
    have ih := silent_of_hasInterp items h fun m hm => hhidden m (List.mem_cons_of_mem _ hm)
    intro m hm
    rcases List.mem_cons.mp hm with rfl | hm
    · exact ⟨hexpr, hopen⟩
    · exact ih m hm

/-- Without interpolations the emitter alone decodes the literal. -/
theorem processEscapes_render (items : List Item)
    (h : ∀ item ∈ items, item.isHex = false ∧ item.isExpr = false) :
    (processEscapes (render items)).map .byte = items.map Item.part := by
  induction items with
  | nil => rfl
  | cons item items ih =>
    obtain ⟨hhex, hexpr⟩ := h item (List.mem_cons_self ..)
    rw [render_cons, processEscapes_item hexpr, List.map_append, Item.emitted_eq hhex hexpr,
      ih fun item' h' => h item' (List.mem_cons_of_mem _ h'), List.map_cons, List.singleton_append]

/-- One run, when there is no expression. -/
theorem runsFit_bytes {items : List Item} : ∀ {run bs : Bytes},
    items.map Item.part = bs.map .byte → runsFit run items = fitsBuffer (run ++ bs) := by
  induction items with
  | nil =>
    intro run bs h
    have hbs : bs = [] := by simpa using h.symm
    simp [hbs, runsFit]
  | cons item items ih =>
    intro run bs h
    cases bs with
    | nil => cases h
    | cons b bs =>
      obtain ⟨hpart, hrest⟩ := List.cons.inj h
      simp only [runsFit, hpart, ih hrest, List.append_assoc, List.singleton_append]

namespace StringContent

variable {s : StringContent}

theorem meaning_eq (words : Bytes → Bytes) :
    s.meaning words = fillAll words (s.items.map Item.part) := by
  simp [meaning, fillAll, List.flatMap_map]

/-- A clean content has the right value, and only its own expressions are
parsed. -/
theorem Clean.literalValue (h : s.Clean) (words : Bytes → Bytes) :
    CTranspiler.literalValue words s.bytes = some (s.meaning words) ∧
      (hasInterp false s.bytes = true →
        ∀ text, .expr text ∈ piecesFrom false [] s.bytes → .expr text ∈ s.items.map Item.part) := by
  rw [meaning_eq, CTranspiler.literalValue]
  cases hinterp : hasInterp false s.bytes with
  | false =>
    have hsilent := silent_of_hasInterp s.items hinterp h.noHiddenExpr
    have hbytes := processEscapes_render s.items fun item hitem => by
      obtain ⟨b, hm⟩ := exists_mem_marked false hitem
      exact ⟨h.noHex item hitem, (hsilent _ hm).1⟩
    have hfits := h.runs
    rw [runsFit_bytes hbytes.symm, List.nil_append, fitsBuffer, Bool.and_eq_true,
      decide_eq_true_eq] at hfits
    rw [bytes, ← hbytes, fillAll_bytes, take_of_fits hfits.1, emitProcessed_value, if_pos hfits.2]
    simp
  | true =>
    have hread : ∀ m ∈ marked false s.items, Read m := by
      rcases h.braces with hnone | ⟨hopen, hlone⟩
      · have hsilent := hasInterp_of_silent s.items fun m hm => by
          cases hm1 : m.1 with
          | true => exact ⟨h.noHiddenExpr m hm hm1, fun hfalse => by simp [hm1] at hfalse⟩
          | false => exact ⟨(hnone m hm hm1).2, fun _ => (hnone m hm hm1).1⟩
        exact absurd (hinterp.symm.trans hsilent) (by decide)
      · intro m hm
        refine ⟨h.noHex _ (mem_of_mem_marked hm), ?_, fun hm1 => ?_⟩
        · intro hm2
          exact hopen (hm2 ▸ mem_of_mem_marked hm)
        · rw [Item.isBraced, h.noHiddenExpr m hm hm1, hlone m hm hm1]
          rfl
    obtain ⟨hparts, hfit⟩ := partsOf_read s.items (ready_nil false) hread
    rw [List.map_nil, List.nil_append] at hparts
    rw [if_pos rfl, bytes, piecesValue_of_fit words _ (hfit.mpr h.runs), hparts]
    refine ⟨rfl, fun _ text htext => ?_⟩
    rw [← hparts]
    exact List.mem_flatMap.mpr ⟨_, htext, List.mem_singleton_self _⟩

end StringContent

/-! ## §4 Comparing from left to right -/

/-- A part with its expression left out. -/
def Part.hole : Part → Option UInt8
  | .byte b => some b
  | .expr _ => none

-- the equations, before the proofs that share them
section
attribute [local simp] Part.hole
end

theorem fillAll_const (k : UInt8) (parts : List Part) :
    fillAll (fun _ => [k]) parts = (parts.map Part.hole).map (·.getD k) := by
  induction parts with
  | nil => rfl
  | cons part parts ih => cases part <;> simpa [fillAll, Part.fill, Part.hole] using ih

/-- Two fillings tell the holes from the bytes. -/
theorem eq_of_fillings : ∀ {us vs : List (Option UInt8)},
    (∀ k : UInt8, us.map (·.getD k) = vs.map (·.getD k)) → us = vs
  | [], [], _ => rfl
  | [], v :: vs, h => by simpa using h 0
  | u :: us, [], h => by simpa using h 0
  | u :: us, v :: vs, h => by
    have htail : us = vs := eq_of_fillings fun k => (List.cons.inj (h k)).2
    have h0 := (List.cons.inj (h 0)).1
    have h1 := (List.cons.inj (h 1)).1
    rw [htail]
    cases u with
    | none =>
      cases v with
      | none => rfl
      | some b => exact absurd (h0.trans h1.symm) (by decide)
    | some a =>
      cases v with
      | none => exact absurd (h0.symm.trans h1) (by decide)
      | some b => exact congrArg (some · :: vs) h0

/-- What the parser and the emitter make of a text after an expression. -/
def codeHoles (text : Bytes) : List (Option UInt8) :=
  (partsOf (piecesFrom false [] text)).map Part.hole

-- the equations, before the proofs that share them
section
attribute [local simp] codeHoles
end

/-- Text that is decoded by itself may be taken from the front of a piece. -/
theorem partsOf_split {front : Bytes} {closed : Bool}
    (hfront : ∀ more, (closed = true → startsBrace more = false) →
      emit (front ++ more) = emit front ++ emit more) : ∀ (text : Bytes) {escaped : Bool}
    {literal : Bytes}, (closed = true → startsBrace literal = false ∧
      (literal = [] → startsBrace text = false)) →
    partsOf (piecesFrom escaped (front ++ literal) text) =
      (emit front).map .byte ++ partsOf (piecesFrom escaped literal text) := by
  have hliteral : ∀ {literal : Bytes}, (closed = true → startsBrace literal = false) →
      partsOf (literalPiece (front ++ literal)) =
        (emit front).map .byte ++ partsOf (literalPiece literal) := by
    intro literal h
    rw [partsOf_literalPiece, partsOf_literalPiece, hfront literal h, List.map_append]
  intro text
  induction text with
  | nil =>
    intro escaped literal h
    exact hliteral fun hclosed => (h hclosed).1
  | cons c cs ih =>
    intro escaped literal h
    have hnow := hliteral fun hclosed => (h hclosed).1
    by_cases hopen : c = ch '\x7b' ∧ escaped = false
    · obtain ⟨rfl, rfl⟩ := hopen
      cases hmatch : matchBrace 1 [] cs with
      | none =>
        rw [piecesFrom_unmatched hmatch, piecesFrom_unmatched hmatch, partsOf_append,
          partsOf_append, hnow, List.append_assoc]
      | some found =>
        rw [piecesFrom_matched hmatch, piecesFrom_matched hmatch]
        simp only [partsOf_append, hnow, List.append_assoc]
    · have hpush : c = ch '\x7b' → escaped = true := by
        intro hc
        by_contra hfalse
        exact hopen ⟨hc, Bool.not_eq_true _ ▸ hfalse⟩
      rw [piecesFrom_push hpush, piecesFrom_push hpush, List.append_assoc]
      apply ih
      intro hclosed
      refine ⟨?_, by simp⟩
      cases literal with
      | nil => exact (h hclosed).2 rfl
      | cons d ds => exact (h hclosed).1

theorem emit_item_alone {item : Item} (h : item.isExpr = false) :
    emit item.bytes = item.emitted := by
  have hemit : emit (item.bytes ++ []) = item.emitted ++ emit [] := emit_item h fun _ => rfl
  simpa using hemit

theorem codeHoles_item (item : Item) (hexpr : item.isExpr = false) (hopen : item ≠ .openBrace)
    {rest : Bytes} (hrest : item = .escape .backslash → startsBrace rest = false) :
    codeHoles (item.bytes ++ rest) = item.emitted.map some ++ codeHoles rest := by
  have hfront : ∀ more, (decide (item = .escape .backslash) = true → startsBrace more = false) →
      emit (item.bytes ++ more) = emit item.bytes ++ emit more := by
    intro more hmore
    rw [emit_item hexpr fun h => hmore (decide_eq_true h), emit_item_alone hexpr]
  have hsame : piecesFrom (item = .escape .backslash) [] rest = piecesFrom false [] rest := by
    by_cases hitem : item = .escape .backslash
    · rw [decide_eq_true hitem, piecesFrom_escaped (hrest hitem)]
    · rw [decide_eq_false hitem]
  have hsplit : partsOf (piecesFrom (item = .escape .backslash) (item.bytes ++ []) rest) =
      (emit item.bytes).map .byte ++ partsOf (piecesFrom (item = .escape .backslash) [] rest) :=
    partsOf_split hfront rest fun hclosed => ⟨rfl, fun _ => hrest (of_decide_eq_true hclosed)⟩
  rw [codeHoles, piecesFrom_item hexpr fun h => absurd h hopen, List.nil_append,
    ← List.append_nil item.bytes, hsplit, hsame, emit_item_alone hexpr, List.map_append,
    List.map_map]
  rfl

/-- A brace after an escaped backslash: the backslash is lost. -/
theorem codeHoles_hidden {b : UInt8} (hb : isBrace b = true) (rest : Bytes) :
    codeHoles (ch '\\' :: ch '\\' :: b :: rest) = some b :: codeHoles rest := by
  have hfront : ∀ more, (false = true → startsBrace more = false) →
      emit ([ch '\\', ch '\\', b] ++ more) = emit [ch '\\', ch '\\', b] ++ emit more := by
    intro more _
    rw [emit_backslash_brace hb]
    exact emit_backslash_brace hb
  have hsplit : partsOf (piecesFrom false ([ch '\\', ch '\\', b] ++ []) rest) =
      (emit [ch '\\', ch '\\', b]).map .byte ++ partsOf (piecesFrom false [] rest) :=
    partsOf_split hfront rest fun h => absurd h (by decide)
  rw [codeHoles, piecesFrom_escape, piecesFrom_push fun _ => decide_eq_true rfl,
    decide_eq_false (ne_backslash_of_isBrace hb)]
  refine (congrArg (List.map Part.hole) hsplit).trans ?_
  rw [emit_backslash_brace hb]
  rfl

theorem codeHoles_expr {text : Bytes} (h : text ≠ [] ∧ balanced 0 text = true) (rest : Bytes) :
    codeHoles ((Item.expr text h).bytes ++ rest) = none :: codeHoles rest := by
  rw [codeHoles, piecesFrom_expr]
  rfl

theorem codeHoles_unmatched {rest : Bytes} (h : matchBrace 1 [] rest = none) :
    codeHoles (ch '\x7b' :: rest) = codeHoles rest := by
  rw [codeHoles, piecesFrom_unmatched h]
  rfl

/-- A brace that finds a partner where none is meant. -/
theorem codeHoles_matched {text inner rest : Bytes} (h : matchBrace 1 [] text = some (inner, rest))
    (hinner : inner ≠ []) : codeHoles (ch '\x7b' :: text) = none :: codeHoles rest := by
  rw [codeHoles, piecesFrom_matched h, exprPiece, if_neg hinner]
  rfl

/-! ## §5 What cannot be made good -/

/-- The hexadecimal digits and the `x` of an escape. -/
def isHexLetter (c : UInt8) : Bool := c == ch 'x' || isHexChar c

-- the equations, before the proofs that share them
section
attribute [local simp] isHexLetter
end

/-- `q` was written too much, and only hexadecimal escapes add to it. -/
theorem ahead_ne {code : Bytes → List (Option UInt8)}
    (hplain : ∀ c h rest, code ((Item.plain c h).bytes ++ rest) = some c :: code rest)
    (hhex : ∀ high low h rest, code ((Item.hex high low h).bytes ++ rest) =
      some (ch 'x') :: some high :: some low :: code rest) :
    ∀ (items : List Item) {q : Bytes}, q ≠ [] → q.all isHexLetter = true →
      q.map some ++ code (render items) ≠ items.map fun item => item.part.hole
  | _, [], hq, _, _ => hq rfl
  | [], c :: q, _, _, h => by cases h
  | item :: items, c :: q, _, hall, h => by
    rw [render_cons, List.map_cons, List.map_cons, List.cons_append] at h
    obtain ⟨hhead, htail⟩ := List.cons.inj h
    simp only [List.all_cons, Bool.and_eq_true] at hall
    cases item with
    | plain d hd =>
      have hdc : c = d := Option.some.inj hhead
      subst hdc
      refine ahead_ne hplain hhex items (q := q ++ [c]) (by simp) (by simp [hall]) ?_
      rw [← htail, hplain]
      simp
    | hex high low hdigits =>
      refine ahead_ne hplain hhex items (q := q ++ [ch 'x', high, low]) (by simp) ?_ ?_
      · have hx : isHexLetter (ch 'x') = true := by decide
        simp [hall, isHexLetter, hdigits]
      · rw [← htail, hhex]
        simp
    | escape e =>
      have hc : isHexLetter e.byte = true := Option.some.inj hhead ▸ hall.1
      revert hc
      cases e <;> decide
    | openBrace =>
      have hc : isHexLetter (ch '\x7b') = true := Option.some.inj hhead ▸ hall.1
      revert hc
      decide
    | closeBrace =>
      have hc : isHexLetter (ch '\x7d') = true := Option.some.inj hhead ▸ hall.1
      revert hc
      decide
    | expr text ht => cases hhead

/-- A hexadecimal escape is never right. -/
theorem hex_ne (code : Bytes → List (Option UInt8))
    (hplain : ∀ c h rest, code ((Item.plain c h).bytes ++ rest) = some c :: code rest)
    (hhex : ∀ high low h rest, code ((Item.hex high low h).bytes ++ rest) =
      some (ch 'x') :: some high :: some low :: code rest)
    {high low : UInt8} (h : isHexChar high = true ∧ isHexChar low = true) (items : List Item) :
    code (render (.hex high low h :: items)) ≠
      (Item.hex high low h :: items).map fun item => item.part.hole := by
  intro heq
  rw [render_cons, hhex] at heq
  have htail := (List.cons.inj heq).2
  exact ahead_ne hplain hhex items (q := [high, low]) (by simp) (by simp [isHexLetter, h]) htail

theorem codeHoles_plain (c : UInt8) (h : isPlain c = true) (rest : Bytes) :
    codeHoles ((Item.plain c h).bytes ++ rest) = some c :: codeHoles rest :=
  codeHoles_item _ rfl (by simp) (by simp)

theorem codeHoles_hex (high low : UInt8) (h : isHexChar high = true ∧ isHexChar low = true)
    (rest : Bytes) : codeHoles ((Item.hex high low h).bytes ++ rest) =
      some (ch 'x') :: some high :: some low :: codeHoles rest :=
  codeHoles_item _ rfl (by simp) (by simp)

theorem codeHoles_escape {e : Escape} {rest : Bytes}
    (h : e = .backslash → startsBrace rest = false) :
    codeHoles ((Item.escape e).bytes ++ rest) = some e.byte :: codeHoles rest :=
  codeHoles_item _ rfl (by simp) fun he => h (Item.escape.inj he)

/-- A closing brace only comes from a lone closing brace. -/
theorem head_ne_close {items : List Item} (h : .closeBrace ∉ items) :
    (render items).head? ≠ some (ch '\x7d') := by
  cases items with
  | nil => simp [render]
  | cons item items =>
    intro hhead
    cases item with
    | plain c hc =>
      obtain rfl : c = ch '\x7d' := Option.some.inj hhead
      cases hc
    | closeBrace => exact h (List.mem_cons_self ..)
    | _ => exact absurd (Option.some.inj hhead) (by decide)

/-- An expression after an escaped backslash closes a brace that was open. -/
theorem matchBrace_hidden {text : Bytes} (h : text ≠ [] ∧ balanced 0 text = true) (rest : Bytes) :
    matchBrace 1 [] (ch '\\' :: ch '\\' :: ((Item.expr text h).bytes ++ rest)) ≠ none := by
  have hbytes : (Item.expr text h).bytes ++ rest = ch '\x7b' :: (text ++ ch '\x7d' :: rest) := by
    simp [Item.bytes]
  rw [hbytes, matchBrace_backslash rfl, matchBrace_escaped (by decide), matchBrace_balanced _ h.2]
  simp

/-- The bytes an opening brace without a partner may be followed by, when
something was lost. -/
def isLost (c : UInt8) : Bool := c == ch '\x7b' || c == ch '\\'

theorem plain_not_lost (c : UInt8) (hplain : isPlain c = true) (hlost : isLost c = true) : False := by
  obtain ⟨hback, hbrace⟩ := isPlain_facts c hplain
  rw [isLost, Bool.or_eq_true, beq_iff_eq, beq_iff_eq] at hlost
  rcases hlost with rfl | rfl
  · exact absurd hbrace (by decide)
  · exact hback rfl

/-- `p` was lost with an opening brace. -/
theorem behind_ne : ∀ (items : List Item) {p : Bytes}, p ≠ [] → p.all isLost = true →
    .closeBrace ∉ items → matchBrace 1 [] (render items) = none →
    codeHoles (render items) ≠ p.map some ++ items.map fun item => item.part.hole
  | _, [], hp, _, _, _, _ => hp rfl
  | [], c :: p, _, _, _, _, h => by cases h
  | item :: items, c :: p, _, hall, hclose, hmatch, h => by
    simp only [List.all_cons, Bool.and_eq_true] at hall
    have hclose' : .closeBrace ∉ items := fun hmem => hclose (List.mem_cons_of_mem _ hmem)
    rw [render_cons] at h hmatch
    -- what the item is meant to give is lost as well
    have hnext : ∀ b : UInt8, codeHoles (render items) = p.map some ++ some b ::
        items.map (fun item => item.part.hole) → isLost b = true →
        matchBrace 1 [] (render items) = none → False := by
      intro b heq hb hrest
      refine behind_ne items (p := p ++ [b]) (by simp) (by simp [hall, hb]) hclose' hrest ?_
      simpa using heq
    cases item with
    | plain d hd =>
      rw [codeHoles_plain] at h
      have hdc : d = c := Option.some.inj (List.cons.inj h).1
      rw [← hdc] at hall
      exact plain_not_lost d hd hall.1
    | escape e =>
      cases hbrace : decide (e = .backslash) && startsBrace (render items) with
      | false =>
        have hkeep : e = .backslash → startsBrace (render items) = false := by
          rintro rfl
          simpa using hbrace
        rw [codeHoles_escape hkeep] at h
        obtain ⟨hhead, htail⟩ := List.cons.inj h
        have hlost : isLost e.byte = true := Option.some.inj hhead ▸ hall.1
        cases e with
        | backslash =>
          have hskip : matchBrace 1 [] (ch '\\' :: ch '\\' :: render items) =
              matchBrace 1 [ch '\\', ch '\\'] (render items) := by
            rw [matchBrace_backslash rfl, matchBrace_backslash (hkeep rfl)]
            rfl
          exact hnext _ htail hlost (matchBrace_none [] (hskip.symm.trans hmatch))
        | openBrace =>
          have hskip : matchBrace 1 [] (ch '\\' :: ch '\x7b' :: render items) =
              matchBrace 1 [ch '\\', ch '\x7b'] (render items) := matchBrace_escaped (by decide)
          exact hnext _ htail hlost (matchBrace_none [] (hskip.symm.trans hmatch))
        | _ => exact absurd hlost (by decide)
      | true =>
        simp only [Bool.and_eq_true, decide_eq_true_eq] at hbrace
        obtain ⟨rfl, hbrace⟩ := hbrace
        cases items with
        | nil => cases hbrace
        | cons next items =>
          rw [startsBrace_render_cons] at hbrace
          cases next with
          | openBrace =>
            have hskip : matchBrace 1 [] (ch '\\' :: ch '\\' :: ch '\x7b' :: render items) =
                matchBrace 1 [ch '\\', ch '\\', ch '\x7b'] (render items) := by
              rw [matchBrace_backslash rfl, matchBrace_escaped (by decide)]
              rfl
            have hrest := matchBrace_none [] (hskip.symm.trans hmatch)
            have hcode := codeHoles_hidden (b := ch '\x7b') (by decide) (render items)
            have htail := (List.cons.inj (hcode.symm.trans h)).2
            refine behind_ne items (p := p ++ [ch '\\', ch '\x7b']) (by simp) ?_
              (fun hmem => hclose' (List.mem_cons_of_mem _ hmem)) hrest ?_
            · have hlost : isLost (ch '\\') = true ∧ isLost (ch '\x7b') = true := by decide
              simp [hall, hlost]
            · rw [htail]
              simp [Item.part, Part.hole, Escape.byte, Escape.letter]
          | closeBrace => exact hclose' (List.mem_cons_self ..)
          | expr text ht => exact matchBrace_hidden ht _ hmatch
          | _ => cases hbrace
    | hex high low hdigits =>
      rw [codeHoles_hex] at h
      have hhead : ch 'x' = c := Option.some.inj (List.cons.inj h).1
      rw [← hhead] at hall
      exact absurd hall.1 (by decide)
    | openBrace =>
      cases hfound : matchBrace 1 [] (render items) with
      | none =>
        have hcode := codeHoles_unmatched hfound
        have hopen : isLost (ch '\x7b') = true := by decide
        refine behind_ne items (p := c :: p ++ [ch '\x7b']) (by simp) (by simp [hall, hopen])
          hclose' hfound ?_
        rw [← hcode]
        refine Eq.trans h ?_
        simp [Item.part, Part.hole]
      | some found =>
        have hcode := codeHoles_matched hfound (matchBrace_ne_nil (head_ne_close hclose') hfound)
        cases hcode.symm.trans h
    | closeBrace => exact hclose (List.mem_cons_self ..)
    | expr text ht =>
      rw [codeHoles_expr] at h
      cases h
termination_by items => items.length

/-! ## §6 Faithful contents are clean -/

theorem read_after_backslash {items : List Item} (h : ∀ m ∈ marked false items, Read m)
    (hbrace : startsBrace (render items) = false) : ∀ m ∈ marked true items, Read m := by
  cases items with
  | nil => exact h
  | cons item items =>
    intro m hm
    rcases List.mem_cons.mp hm with rfl | hm
    · obtain ⟨hhex, hopen, -⟩ := h _ (List.mem_cons_self ..)
      exact ⟨hhex, hopen, fun _ => (startsBrace_render_cons item items).symm.trans hbrace⟩
    · exact h m (List.mem_cons_of_mem _ hm)

/-- When the parser loses and adds nothing, it reads every item as it is
meant. -/
theorem read_of_aligned : ∀ items : List Item, Partnerless items →
    codeHoles (render items) = (items.map fun item => item.part.hole) →
    ∀ m ∈ marked false items, Read m
  | [], _, _ => by simp [marked]
  | item :: items, hlone, h => by
    have hnext : codeHoles (render items) = (items.map fun item => item.part.hole) →
        item.isHex = false → item ≠ .openBrace →
        (item = .escape .backslash → startsBrace (render items) = false) →
        ∀ m ∈ marked false (item :: items), Read m := by
      intro heq hhex hopen hbrace m hm
      have ih := read_of_aligned items hlone.2 heq
      rcases List.mem_cons.mp hm with rfl | hm
      · exact ⟨hhex, hopen, fun hfalse => by cases hfalse⟩
      · by_cases hback : item = .escape .backslash
        · rw [decide_eq_true hback] at hm
          exact read_after_backslash ih (hbrace hback) m hm
        · rw [decide_eq_false hback] at hm
          exact ih m hm
    cases item with
    | plain c hc =>
      rw [render_cons, codeHoles_plain] at h
      exact hnext (List.cons.inj h).2 rfl (by simp) (by simp)
    | escape e =>
      by_cases hback : e = .backslash
      · subst hback
        cases hbrace : startsBrace (render items) with
        | false =>
          rw [render_cons, codeHoles_escape fun _ => hbrace] at h
          exact hnext (List.cons.inj h).2 rfl (by simp) fun _ => hbrace
        | true =>
          -- the backslash is missing
          obtain ⟨b, rest, hrest⟩ : ∃ b rest, render items = b :: rest :=
            List.exists_cons_of_ne_nil (by intro hnil; rw [hnil] at hbrace; cases hbrace)
          have hb : isBrace b = true := by
            rw [hrest] at hbrace
            exact hbrace
          have hcode : codeHoles (render (.escape .backslash :: items)) = some b :: codeHoles rest := by
            rw [render_cons, hrest]
            exact codeHoles_hidden hb rest
          have hhead := (List.cons.inj (hcode.symm.trans h)).1
          exact absurd (Option.some.inj hhead) (ne_backslash_of_isBrace hb)
      · have hkeep : e = .backslash → startsBrace (render items) = false := fun he => absurd he hback
        rw [render_cons, codeHoles_escape hkeep] at h
        exact hnext (List.cons.inj h).2 rfl (by simp) fun he => hkeep (Item.escape.inj he)
    | hex high low hdigits => exact absurd h (hex_ne codeHoles codeHoles_plain codeHoles_hex hdigits items)
    | openBrace =>
      have hclose := hlone.1 rfl
      cases hfound : matchBrace 1 [] (render items) with
      | none =>
        refine absurd ?_ (behind_ne items (p := [ch '\x7b']) (by simp) (by decide) hclose hfound)
        rw [← codeHoles_unmatched hfound]
        exact h
      | some found =>
        have hcode := codeHoles_matched hfound (matchBrace_ne_nil (head_ne_close hclose) hfound)
        cases hcode.symm.trans h
    | closeBrace =>
      have hcode : codeHoles (render (.closeBrace :: items)) = some (ch '\x7d') :: codeHoles _ :=
        codeHoles_item .closeBrace rfl (by simp) (by simp)
      exact hnext (List.cons.inj (hcode.symm.trans h)).2 rfl (by simp) (by simp)
    | expr text ht =>
      rw [render_cons, codeHoles_expr] at h
      exact hnext (List.cons.inj h).2 rfl (by simp) (by simp)

/-- Without an interpolation only hexadecimal escapes and expressions go
wrong. -/
theorem literal_of_aligned : ∀ items : List Item,
    (processEscapes (render items)).map some = (items.map fun item => item.part.hole) →
    ∀ item ∈ items, item.isHex = false ∧ item.isExpr = false
  | [], _ => by simp
  | item :: items, h => by
    have hplain : ∀ c h rest, (processEscapes ((Item.plain c h).bytes ++ rest)).map some =
        some c :: (processEscapes rest).map some := by
      intro c hc rest
      rw [processEscapes_item rfl]
      rfl
    have hhex : ∀ high low h rest, (processEscapes ((Item.hex high low h).bytes ++ rest)).map some =
        some (ch 'x') :: some high :: some low :: (processEscapes rest).map some := by
      intro high low hdigits rest
      rw [processEscapes_item rfl]
      rfl
    have hnext : item.isHex = false → item.isExpr = false → item.emitted.length = 1 →
        ∀ item' ∈ item :: items, item'.isHex = false ∧ item'.isExpr = false := by
      intro hh he hone item' hmem
      obtain ⟨b, hb⟩ := List.length_eq_one_iff.mp hone
      rw [render_cons, processEscapes_item he, hb] at h
      rcases List.mem_cons.mp hmem with rfl | hmem
      · exact ⟨hh, he⟩
      · exact literal_of_aligned items (List.cons.inj h).2 item' hmem
    cases item with
    | hex high low hdigits =>
      exact absurd h (hex_ne (fun text => (processEscapes text).map some) hplain hhex
        hdigits items)
    | expr text ht =>
      rw [render_cons] at h
      have hhead : processEscapes ((Item.expr text ht).bytes ++ render items) =
          ch '\x7b' :: processEscapes (text ++ ch '\x7d' :: render items) := by
        rw [← processEscapes_cons (by decide)]
        simp [Item.bytes]
      rw [hhead] at h
      cases h
    | _ => exact hnext rfl rfl rfl

/-- Pieces are no longer than the text. -/
theorem literal_length (text : Bytes) : ∀ {escaped : Bool} {literal : Bytes},
    ∀ piece, .literal piece ∈ piecesFrom escaped literal text →
      piece.length ≤ literal.length + text.length := by
  have hpiece : ∀ {literal piece : Bytes}, .literal piece ∈ literalPiece literal →
      piece.length = literal.length := by
    intro literal piece h
    unfold literalPiece at h
    split at h
    · cases h
    · rw [Piece.literal.inj (List.mem_singleton.mp h)]
  match text with
  | [] =>
    intro escaped literal piece h
    rw [hpiece h]
    omega
  | c :: cs =>
    intro escaped literal piece h
    rw [List.length_cons]
    by_cases hopen : c = ch '\x7b' ∧ escaped = false
    · obtain ⟨rfl, rfl⟩ := hopen
      cases hmatch : matchBrace 1 [] cs with
      | none =>
        rw [piecesFrom_unmatched hmatch, List.mem_append] at h
        rcases h with h | h
        · have := hpiece h
          omega
        · have := literal_length cs piece h
          simp only [List.length_nil] at this
          omega
      | some found =>
        have hrest := matchBrace_length hmatch
        rw [piecesFrom_matched hmatch, List.mem_append, List.mem_append] at h
        rcases h with (h | h) | h
        · have := hpiece h
          omega
        · unfold exprPiece at h
          split at h
          · cases h
          · cases List.mem_singleton.mp h
        · have := literal_length found.2 piece h
          simp only [List.length_nil] at this
          omega
    · have hpush : c = ch '\x7b' → escaped = true := by
        intro hc
        by_contra hfalse
        exact hopen ⟨hc, Bool.not_eq_true _ ▸ hfalse⟩
      rw [piecesFrom_push hpush] at h
      have := literal_length cs piece h
      simp only [List.length_append, List.length_singleton] at this
      omega
termination_by text.length

namespace StringContent

variable {s : StringContent}

theorem holes_eq (words : UInt8 → Bytes) (parts : List (Option UInt8))
    (hwords : ∀ k, words k = parts.map (·.getD k))
    (h : ∀ k, words k = s.meaning fun _ => [k]) :
    parts = s.items.map fun item => item.part.hole := by
  apply eq_of_fillings
  intro k
  rw [← hwords, h, meaning_eq, fillAll_const]
  simp [List.map_map, Function.comp_def]

theorem clean_of_value (hshort : s.bytes.length ≤ processedMax)
    (h : ∀ k, CTranspiler.literalValue (fun _ => [k]) s.bytes = some (s.meaning fun _ => [k])) :
    s.Clean := by
  simp only [CTranspiler.literalValue] at h
  cases hinterp : hasInterp false s.bytes with
  | false =>
    have hlength := (processEscapes_length s.bytes).trans hshort
    simp only [hinterp, if_neg Bool.false_ne_true, take_of_fits hlength, emitProcessed_value] at h
    have hsep : separated (processEscapes s.bytes) = true := by
      by_contra hsep
      have hzero := h 0
      rw [if_neg hsep] at hzero
      cases hzero
    simp only [hsep, if_true, Option.some.injEq] at h
    have hholes := holes_eq (fun _ => processEscapes s.bytes) ((processEscapes s.bytes).map some)
      (fun k => by simp) h
    have hliteral := literal_of_aligned s.items hholes
    have hexpr : ∀ m ∈ marked false s.items, m.2.isExpr = false := fun m hm =>
      (hliteral _ (mem_of_mem_marked hm)).2
    have hsilent := silent_of_hasInterp s.items hinterp fun m hm _ => hexpr m hm
    have hbytes := processEscapes_render s.items hliteral
    refine ⟨fun item hmem => (hliteral item hmem).1, fun m hm _ => hexpr m hm, ?_,
      .inl fun m hm hm1 => ⟨(hsilent m hm).2 hm1, hexpr m hm⟩⟩
    rw [runsFit_bytes hbytes.symm, List.nil_append, fitsBuffer, Bool.and_eq_true,
      decide_eq_true_eq]
    exact ⟨hlength, hsep⟩
  | true =>
    simp only [hinterp, if_true] at h
    have hfit : PiecesFit (piecesFrom false [] s.bytes) := by
      refine fit_of_piecesValue (fun text htext => ?_) (h 0)
      have := literal_length s.bytes text htext
      simp only [List.length_nil] at this
      omega
    simp only [piecesValue_of_fit _ _ hfit, Option.some.injEq] at h
    have hholes := holes_eq (fun k => fillAll (fun _ => [k]) (partsOf (piecesFrom false [] s.bytes)))
      (codeHoles s.bytes) (fun k => fillAll_const k _) h
    have hread := read_of_aligned s.items s.partnerless hholes
    obtain ⟨-, hruns⟩ := partsOf_read s.items (ready_nil false) hread
    have hbraced : ∀ m ∈ marked false s.items, m.1 = true →
        m.2.isExpr = false ∧ m.2.isLoneBrace = false := fun m hm hm1 => by
      have := (hread m hm).2.2 hm1
      rwa [Item.isBraced, Bool.or_eq_false_iff] at this
    refine ⟨fun item hmem => ?_, fun m hm hm1 => (hbraced m hm hm1).1, hruns.mp hfit,
      .inr ⟨fun hmem => ?_, fun m hm hm1 => (hbraced m hm hm1).2⟩⟩
    · obtain ⟨b, hm⟩ := exists_mem_marked false hmem
      exact (hread _ hm).1
    · obtain ⟨b, hm⟩ := exists_mem_marked false hmem
      exact (hread _ hm).2.1 rfl

theorem Clean.faithful (h : s.Clean) : s.Faithful := by
  intro procs value words token p htoken hparses
  obtain ⟨hvalue, hexprs⟩ := h.literalValue words
  obtain ⟨node, hsteps, heval⟩ := literalValue_eq value (p := p) htoken fun hinterp text htext =>
    hparses text (hexprs hinterp text htext)
  exact ⟨node, hsteps, heval.trans hvalue⟩

/-- A parser that makes the same of every expression. -/
def constantParser : ∀ proc : Proc, ParseM proc.Result
  | .exprPrec _ => pure (some (.ident []))
  | proc => callProc proc

theorem constantParser_parses (k : UInt8) (text : Bytes) :
    Parses constantParser (fun _ => [k]) (fun _ => [k]) text :=
  ⟨some (.ident []), parserCreate text, procReturns_iff.mpr (steps_pure.mpr ⟨rfl, rfl⟩), rfl⟩

theorem clean_of_faithful (hshort : s.bytes.length ≤ processedMax) (h : s.Faithful) :
    s.Clean := by
  apply clean_of_value hshort
  intro k
  have htoken : ({ type := .stringLiteral, text := quote s.bytes } : Token).text = quote s.bytes :=
    rfl
  obtain ⟨node, hsteps, hmeaning⟩ := h constantParser (fun _ => [k]) (fun _ => [k]) _
    (parserCreate []) htoken fun text _ => constantParser_parses k text
  obtain ⟨node', hsteps', hvalue⟩ := literalValue_eq (fun _ => [k])
    (p := parserCreate []) htoken fun _ text _ => constantParser_parses k text
  have hsame := evals_det hsteps hsteps'
  cases hsame
  exact hvalue.symm.trans hmeaning

end StringContent

/-- A clean literal means what the specification says, and of the literals of
at most 4095 bytes no other does. -/
theorem interpolation_faithful_iff (s : StringContent) :
    (s.Clean → s.Faithful) ∧ (s.bytes.length ≤ processedMax → (s.Faithful ↔ s.Clean)) :=
  ⟨fun h => h.faithful, fun hshort => ⟨StringContent.clean_of_faithful hshort, fun h => h.faithful⟩⟩

/-- `"a\x7bb"` with a brace that has no partner. -/
def loneBrace : StringContent where
  items := [.plain (ch 'a') (by decide), .openBrace, .plain (ch 'b') (by decide)]
  partnerless := by simp [Partnerless]

/-- The brace is lost. -/
theorem lone_brace_lost : ¬ ∀ s : StringContent, s.Faithful := by
  intro h
  have hclean := StringContent.clean_of_faithful (s := loneBrace) (by decide) (h loneBrace)
  rcases hclean.braces with hnone | ⟨hopen, -⟩
  · exact (hnone (false, .openBrace) (by decide) rfl).1 rfl
  · exact hopen (by decide)

end Aether.CTranspiler
