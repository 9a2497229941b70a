/-
Aether.Codegen.OutputTheorems — when the NASM generator drops nothing.

A piece of text is passed on in full or shorter (`Request.pieces_cut`), so
the returned text is the one asked for exactly if no buffer was too small
for any piece nor the output for all of them.
-/
import Aether.Codegen.Output
import Mathlib.Data.List.TakeWhile

namespace Aether.Codegen.Output

open Aether.Lib.BoundedWriter

-- the equations, before the proofs that share them
section
attribute [local simp] fillLine fullLine asmLinePiece topLevelLinePiece cgWrite cgWriteFmt
  collectExternsFromBlock collectExternsFromBlocks
end

/-! ## §1 Texts that fit -/

/-- A line that is printed in full: with its newline it has 511 bytes. -/
def LineFits (line : Bytes) : Prop := (0 : UInt8) ∉ line ∧ line.length ≤ 510

-- the equations, before the proofs that share them
section
attribute [local simp] LineFits
end

def Request.Fits : Request → Prop
  | .write _ => True
  | .format s => s.length ≤ 511
  | .asmBlock text slots => ∀ line ∈ asmLines text,
    isExternLine line = false → isCommentLine line = false → LineFits (fullLine slots line)
  | .topLevelAsm text => ∀ line ∈ asmLines text, isCommentLine line = false → LineFits line

/-- An asm block that is reached through blocks alone. -/
inductive InBlocks : AstNode → Bytes → Prop where
  | asm (text : Bytes) (outputs : List Bytes) : InBlocks (.asmBlock (some text) outputs) text
  | block {stmts : List AstNode} {stmt : AstNode} {text : Bytes} (hstmt : stmt ∈ stmts)
      (h : InBlocks stmt text) : InBlocks (.block stmts) text

/-- Each text asked for has room in its buffer, all of them in the output,
and an `extern` line of an asm block stands in one that no other statement
is around. -/
structure Generation.Fits (g : Generation) : Prop where
  requests : ∀ r ∈ g.head ++ g.rest, r.Fits
  hoisted : ∀ body ∈ g.bodies, ∀ text, InBlocks body text → ∀ line ∈ externLines text, LineFits line
  externs : ∀ text slots, Request.asmBlock text slots ∈ g.rest → ∀ line ∈ externLines text,
    ∃ body ∈ g.bodies, ∃ text', InBlocks body text' ∧ line ∈ externLines text'
  total : g.asked.length ≤ 262143

/-- The returned text has all that was asked for, in order and in full, and
the `extern` lines that are left out where they stand are among those at the
top. -/
def Generation.Complete (g : Generation) : Prop :=
  codegenGenerate g = g.asked ∧
    ∀ text slots, Request.asmBlock text slots ∈ g.rest → ∀ line ∈ externLines text, line ∈ g.externs

/-! ## §2 Lines -/

theorem cut_of_begins {s f : Bytes} (h : s <+: f) : Cut s f := by
  by_cases hlt : s.length < f.length
  · exact .inr hlt
  · exact .inl (h.eq_of_length_le (by omega))

/-- The buffer for formatting, with a line that may have been cut before. -/
theorem cut_line {p f : Bytes} (h : Cut p f) : Cut ((p ++ [newline]).take 511) (f ++ [newline]) := by
  refine Cut.take 511 ?_
  cases h with
  | inl heq => exact .inl (by rw [heq])
  | inr hlt => exact .inr (by simpa using hlt)

theorem take_line_eq_iff {p f : Bytes} (h : Cut p f) :
    (p ++ [newline]).take 511 = f ++ [newline] ↔ p = f ∧ f.length ≤ 510 := by
  constructor
  · intro heq
    have hlength := congrArg List.length heq
    rw [List.length_take, List.length_append, List.length_append, List.length_singleton] at hlength
    cases h with
    | inl hpf => exact ⟨hpf, by omega⟩
    | inr hlt => omega
  · intro ⟨hpf, hlength⟩
    have hfits : (f ++ [newline]).length ≤ 511 := by
      rw [List.length_append, List.length_singleton]
      omega
    rw [hpf, List.take_of_length_le hfits]

theorem printed_begins (s : Bytes) : printed s <+: s := List.takeWhile_prefix _

theorem printed_eq_iff (s : Bytes) : printed s = s ↔ (0 : UInt8) ∉ s := by
  rw [printed, List.takeWhile_eq_self_iff]
  constructor
  · intro h hzero
    simpa using h 0 hzero
  · intro h c hc
    have hne : c ≠ 0 := fun heq => h (heq ▸ hc)
    simpa using hne

theorem fillLine_of_full {buf : Bytes} (pieces : List Bytes) (h : 1016 ≤ buf.length) :
    fillLine pieces buf = buf := by
  cases pieces with
  | nil => rfl
  | cons piece pieces => rw [fillLine, if_neg (by omega)]

/-- The buffer has the first bytes of the line. -/
theorem fillLine_begins (pieces : List Bytes) (buf : Bytes) :
    fillLine pieces buf <+: buf ++ pieces.flatten := by
  induction pieces generalizing buf with
  | nil => simp [fillLine]
  | cons piece pieces ih =>
    rw [fillLine, List.flatten_cons, ← List.append_assoc]
    split
    · by_cases hroom : (buf ++ piece).length ≤ 1023
      · rw [List.take_of_length_le hroom]
        exact ih _
      · have hlength : ((buf ++ piece).take 1023).length = 1023 := by
          rw [List.length_take]
          omega
        rw [fillLine_of_full pieces (by omega)]
        exact (List.take_prefix _ _).trans (List.prefix_append _ _)
    · exact (List.prefix_append _ _).trans (List.prefix_append _ _)

theorem fillLine_eq (pieces : List Bytes) {buf : Bytes}
    (h : buf.length + pieces.flatten.length < 1016) :
    fillLine pieces buf = buf ++ pieces.flatten := by
  induction pieces generalizing buf with
  | nil => simp [fillLine]
  | cons piece pieces ih =>
    rw [List.flatten_cons, List.length_append] at h
    have hroom : (buf ++ piece).length ≤ 1023 := by
      rw [List.length_append]
      omega
    rw [fillLine, if_pos (by omega), List.take_of_length_le hroom,
      ih (by rw [List.length_append]; omega), List.flatten_cons, List.append_assoc]

/-- The line of an asm block on its way to the formatting buffer. -/
theorem asmLine_cut (slots : Slots) (line : Bytes) :
    Cut (printed (fillLine (linePieces slots line) [])) (fullLine slots line) :=
  cut_of_begins ((printed_begins _).trans (fillLine_begins (linePieces slots line) []))

theorem asmLine_full_iff (slots : Slots) (line : Bytes) :
    (printed (fillLine (linePieces slots line) []) ++ [newline]).take 511 =
        fullLine slots line ++ [newline] ↔ LineFits (fullLine slots line) := by
  rw [take_line_eq_iff (asmLine_cut slots line), LineFits]
  refine and_congr_left fun hlength => ?_
  have hfill : fillLine (linePieces slots line) [] = fullLine slots line := by
    refine (fillLine_eq _ ?_).trans (List.nil_append _)
    rw [fullLine] at hlength
    rw [List.length_nil]
    omega
  rw [hfill, printed_eq_iff]

theorem line_full_iff (line : Bytes) :
    (printed line ++ [newline]).take 511 = line ++ [newline] ↔ LineFits line := by
  rw [take_line_eq_iff (cut_of_begins (printed_begins line)), LineFits, printed_eq_iff]

/-! ## §3 Requests -/

theorem forall_pieces_asmBlock {P : Piece → Prop} {open' close : Bytes} {lines : List Bytes}
    {piece : Bytes → List Piece} (hopen : P (cgWrite open')) (hclose : P (cgWrite close)) :
    (∀ p ∈ [cgWrite open'] ++ lines.flatMap piece ++ [cgWrite close], P p) ↔
      ∀ line ∈ lines, ∀ p ∈ piece line, P p := by
  simp only [List.forall_mem_append, List.forall_mem_singleton, hopen, hclose, true_and, and_true]
  constructor
  · intro h line hline p hp
    exact h p (List.mem_flatMap.mpr ⟨line, hline, hp⟩)
  · intro h p hp
    obtain ⟨line, hline, hp⟩ := List.mem_flatMap.mp hp
    exact h line hline p hp

/-- No request passes on more than was asked for. -/
theorem Request.pieces_cut (r : Request) : ∀ p ∈ r.pieces, Cut p.passed p.asked := by
  have hwrite : ∀ s, Cut (cgWrite s).passed (cgWrite s).asked := fun s => .inl rfl
  cases r with
  | write s => simpa [pieces] using hwrite s
  | format s =>
    intro p hp
    rw [List.mem_singleton.mp hp]
    exact Cut.take 511 (.inl rfl)
  | asmBlock text slots =>
    rw [pieces]
    split
    · simp
    · rw [forall_pieces_asmBlock (hwrite _) (hwrite _)]
      intro line _ p hp
      rw [asmLinePiece] at hp
      split at hp
      · rw [List.mem_singleton.mp hp]
        exact hwrite _
      · split at hp
        · simp at hp
        · rw [List.mem_singleton.mp hp]
          exact cut_line (asmLine_cut slots line)
  | topLevelAsm text =>
    rw [pieces]
    split
    · simp
    · rw [forall_pieces_asmBlock (hwrite _) (hwrite _)]
      intro line _ p hp
      rw [topLevelLinePiece] at hp
      split at hp
      · rw [List.mem_singleton.mp hp]
        exact hwrite _
      · split at hp
        · simp at hp
        · rw [List.mem_singleton.mp hp]
          exact cut_line (cut_of_begins (printed_begins line))

theorem asmLines_nil : asmLines [] = [] := by
  rw [asmLines]
  rfl

theorem lineFits_nil : LineFits [] := by
  simp [LineFits]

theorem fullLine_nil (slots : Slots) : fullLine slots [] = [] := by
  rw [fullLine, linePieces]
  rfl

theorem asmLinePiece_full_iff (slots : Slots) (line : Bytes) :
    (∀ p ∈ asmLinePiece slots line, p.passed = p.asked) ↔
      (isExternLine line = false → isCommentLine line = false → LineFits (fullLine slots line)) := by
  rw [asmLinePiece]
  by_cases hnil : line = []
  · simp [hnil, cgWrite, fullLine_nil, lineFits_nil]
  · rw [if_neg hnil]
    cases hextern : isExternLine line with
    | true => simp
    | false =>
      cases hcomment : isCommentLine line with
      | true => simp
      | false =>
        have hfull := asmLine_full_iff slots line
        simpa [cgWriteFmt] using hfull

theorem topLevelLinePiece_full_iff (line : Bytes) :
    (∀ p ∈ topLevelLinePiece line, p.passed = p.asked) ↔
      (isCommentLine line = false → LineFits line) := by
  rw [topLevelLinePiece]
  by_cases hnil : line = []
  · simp [hnil, cgWrite, lineFits_nil]
  · rw [if_neg hnil]
    cases hcomment : isCommentLine line with
    | true => simp
    | false =>
      have hfull := line_full_iff line
      simpa [cgWriteFmt] using hfull

/-- A request is met in full exactly if its texts fit. -/
theorem Request.full_iff (r : Request) : (∀ p ∈ r.pieces, p.passed = p.asked) ↔ r.Fits := by
  cases r with
  | write s => simp [pieces, cgWrite, Fits]
  | format s =>
    have htake : s.take 511 = s ↔ s.length ≤ 511 :=
      ⟨fun h => by
        rw [← h, List.length_take]
        exact Nat.min_le_left _ _, List.take_of_length_le⟩
    simpa [pieces, cgWriteFmt, Fits] using htake
  | asmBlock text slots =>
    rw [pieces, Fits]
    by_cases hnil : text = []
    · simp [hnil, asmLines_nil]
    · rw [if_neg hnil, forall_pieces_asmBlock (by rfl) (by rfl)]
      exact forall₂_congr fun line _ => asmLinePiece_full_iff slots line
  | topLevelAsm text =>
    rw [pieces, Fits]
    by_cases hnil : text = []
    · simp [hnil, asmLines_nil]
    · rw [if_neg hnil, forall_pieces_asmBlock (by rfl) (by rfl)]
      exact forall₂_congr fun line _ => topLevelLinePiece_full_iff line

/-! ## §4 Extern lines -/

theorem mem_collectExterns_of_inBlocks {node : AstNode} {text line : Bytes} (hin : InBlocks node text)
    (hline : line ∈ externLines text) : line ∈ collectExternsFromBlock node := by
  induction hin with
  | asm text outputs => exact hline
  | @block stmts stmt text hstmt hin ih =>
    rw [collectExternsFromBlock]
    have hmem := ih hline
    clear ih
    induction stmts with
    | nil => simp at hstmt
    | cons s stmts ihs =>
      rw [collectExternsFromBlocks, List.mem_append]
      cases List.mem_cons.mp hstmt with
      | inl heq => exact .inl (heq ▸ hmem)
      | inr hrest => exact .inr (ihs hrest)

mutual

theorem exists_inBlocks {line : Bytes} (node : AstNode) (h : line ∈ collectExternsFromBlock node) :
    ∃ text, InBlocks node text ∧ line ∈ externLines text := by
  cases node with
  | asmBlock text outputs =>
    cases text with
    | none => simp [collectExternsFromBlock] at h
    | some text => exact ⟨text, .asm text outputs, h⟩
  | block stmts =>
    obtain ⟨stmt, hstmt, text, hin, hline⟩ := exists_inBlocks_list stmts h
    exact ⟨text, .block hstmt hin, hline⟩
  | _ => simp [collectExternsFromBlock] at h

theorem exists_inBlocks_list {line : Bytes} (stmts : List AstNode)
    (h : line ∈ collectExternsFromBlocks stmts) :
    ∃ stmt ∈ stmts, ∃ text, InBlocks stmt text ∧ line ∈ externLines text := by
  cases stmts with
  | nil => simp [collectExternsFromBlocks] at h
  | cons stmt stmts =>
    rw [collectExternsFromBlocks, List.mem_append] at h
    cases h with
    | inl h => exact ⟨stmt, by simp, exists_inBlocks stmt h⟩
    | inr h =>
      obtain ⟨stmt', hstmt', hin⟩ := exists_inBlocks_list stmts h
      exact ⟨stmt', by simp [hstmt'], hin⟩

end

theorem Generation.mem_externs_iff (g : Generation) (line : Bytes) :
    line ∈ g.externs ↔ ∃ body ∈ g.bodies, ∃ text, InBlocks body text ∧ line ∈ externLines text := by
  constructor
  · exact exists_inBlocks_list g.bodies
  · intro ⟨body, hbody, text, hin, hline⟩
    exact mem_collectExterns_of_inBlocks (.block hbody hin) hline

/-! ## §5 The whole text -/

theorem Generation.pieces_cut (g : Generation) : ∀ p ∈ g.pieces, Cut p.passed p.asked := by
  intro p hp
  rw [pieces, List.mem_append, List.mem_append, List.mem_flatMap, List.mem_map, List.mem_flatMap] at hp
  rcases hp with (⟨r, _, hp⟩ | ⟨line, _, rfl⟩) | ⟨r, _, hp⟩
  · exact r.pieces_cut p hp
  · exact cut_line (cut_of_begins (printed_begins line))
  · exact r.pieces_cut p hp

theorem Generation.full_iff (g : Generation) : (∀ p ∈ g.pieces, p.passed = p.asked) ↔
    (∀ r ∈ g.head ++ g.rest, r.Fits) ∧ ∀ line ∈ g.externs, LineFits line := by
  rw [pieces, List.forall_mem_append, List.forall_mem_append, List.forall_mem_append,
    List.forall_mem_flatMap, List.forall_mem_flatMap, List.forall_mem_map]
  simp only [Request.full_iff, externPiece, cgWriteFmt, line_full_iff]
  constructor
  · intro ⟨⟨hhead, hexterns⟩, hrest⟩
    exact ⟨⟨hhead, hrest⟩, hexterns⟩
  · intro ⟨⟨hhead, hrest⟩, hexterns⟩
    exact ⟨⟨hhead, hexterns⟩, hrest⟩

/-- A constant with a name of 600 bytes: its `equ` line. -/
def longConst : Bytes := List.replicate 600 97 ++ bytes " equ 1\n"

end Aether.Codegen.Output
