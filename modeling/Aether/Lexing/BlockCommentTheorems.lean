/-
Aether.Lexing.BlockCommentTheorems — block comments are skipped.

`BlockComment` is the language of nested block comments, by its grammar. The
loop of `scan_block_comment` stops right after such a comment and nowhere
else (`afterBlock_eq_some_iff`), so a comment after a space changes no token
(`block_comment_transparent`).
-/
import Aether.Lexing.CommentTheorems

namespace Aether.Lexing

/-! ## §1 Nested comments -/

def openMark : Bytes := [ch '/', ch '*']

def closeMark : Bytes := [ch '*', ch '/']

/-- The text from behind an opening mark up to the closing mark that answers
it. The marks are read from the left: a character that starts none stands
for itself. -/
inductive Inside : Bytes → Prop
  | close : Inside closeMark
  | other {c c' : UInt8} {cs : Bytes} (hopen : [c, c'] ≠ openMark) (hclose : [c, c'] ≠ closeMark)
      (h : Inside (c' :: cs)) : Inside (c :: c' :: cs)
  | nested {cs ds : Bytes} (h : Inside cs) (h' : Inside ds) : Inside (openMark ++ cs ++ ds)

/-- A block comment, balanced at its last mark. -/
def BlockComment (c : Bytes) : Prop := ∃ cs, Inside cs ∧ c = openMark ++ cs

theorem pair_eq_openMark {c c' : UInt8} : [c, c'] = openMark ↔ c = ch '/' ∧ c' = ch '*' := by
  simp [openMark]

theorem pair_eq_closeMark {c c' : UInt8} : [c, c'] = closeMark ↔ c = ch '*' ∧ c' = ch '/' := by
  simp [closeMark]

/-! ## §2 The loop of the scanner -/

/-- The loop only counts lines and columns: where it stops depends on the
depth and the text. -/
def skipMarks (depth : Nat) (cs : Bytes) : Nat × Bytes :=
  ((skipBlockComment depth 1 1 cs).1, (skipBlockComment depth 1 1 cs).2.2.2)

theorem skipMarks_eq (depth line col : Nat) (cs : Bytes) :
    ((skipBlockComment depth line col cs).1, (skipBlockComment depth line col cs).2.2.2) =
      skipMarks depth cs := by
  obtain ⟨hdepth, hrest⟩ := skipBlockComment_rest depth line col cs 1 1
  rw [skipMarks, hdepth, hrest]

theorem skipMarks_zero (cs : Bytes) : skipMarks 0 cs = (0, cs) := by
  simp [skipMarks, skipBlockComment]

theorem skipMarks_close (depth : Nat) (cs : Bytes) :
    skipMarks (depth + 1) (closeMark ++ cs) = skipMarks depth cs := by
  rw [← skipMarks_eq depth 1 3 cs, skipMarks]
  simp [closeMark, skipBlockComment]

theorem skipMarks_open (depth : Nat) (cs : Bytes) :
    skipMarks (depth + 1) (openMark ++ cs) = skipMarks (depth + 2) cs := by
  have hne : ¬ ch '/' = ch '*' := by decide
  rw [← skipMarks_eq (depth + 2) 1 3 cs, skipMarks]
  simp [openMark, skipBlockComment, hne]

theorem skipMarks_other (depth : Nat) {c c' : UInt8} (cs : Bytes) (hopen : [c, c'] ≠ openMark)
    (hclose : [c, c'] ≠ closeMark) :
    skipMarks (depth + 1) (c :: c' :: cs) = skipMarks (depth + 1) (c' :: cs) := by
  rw [Ne, pair_eq_openMark] at hopen
  rw [Ne, pair_eq_closeMark] at hclose
  rw [skipMarks, skipBlockComment, if_neg hclose, if_neg hopen]
  split_ifs
  · exact skipMarks_eq _ _ _ _
  · exact skipMarks_eq _ _ _ _

/-- The text inside a comment takes the loop one level out. -/
theorem Inside.skipMarks {cs : Bytes} (h : Inside cs) : ∀ (depth : Nat) (rest : Bytes),
    skipMarks (depth + 1) (cs ++ rest) = Lexing.skipMarks depth rest := by
  induction h with
  | close =>
    intro depth rest
    exact skipMarks_close depth rest
  | other hopen hclose _ ih =>
    intro depth rest
    rw [List.cons_append, List.cons_append, skipMarks_other depth _ hopen hclose]
    exact ih depth rest
  | nested _ _ ih ih' =>
    intro depth rest
    rw [List.append_assoc, List.append_assoc, skipMarks_open, ih, ih']

theorem Inside.ne_nil {cs : Bytes} (h : Inside cs) : cs ≠ [] := by
  cases h <;> simp [closeMark, openMark]

/-- A character that starts no mark belongs to the first comment that is open. -/
theorem inside_other {c c' : UInt8} {cs rest : Bytes} {bodies : List Bytes} {depth : Nat}
    (hopen : [c, c'] ≠ openMark) (hclose : [c, c'] ≠ closeMark)
    (hlength : bodies.length = depth + 1) (hinside : ∀ body ∈ bodies, Inside body)
    (hcs : c' :: cs = bodies.flatten ++ rest) :
    ∃ bodies' : List Bytes, bodies'.length = depth + 1 ∧ (∀ body ∈ bodies', Inside body) ∧
      c :: c' :: cs = bodies'.flatten ++ rest := by
  match bodies, hlength with
  | body :: bodies, hlength =>
    obtain ⟨hbody, hbodies⟩ := List.forall_mem_cons.mp hinside
    obtain ⟨d, ds, rfl⟩ := List.exists_cons_of_ne_nil hbody.ne_nil
    obtain ⟨rfl, -⟩ := List.cons.inj hcs
    refine ⟨(c :: c' :: ds) :: bodies, hlength, ?_, by rw [hcs]; rfl⟩
    exact List.forall_mem_cons.mpr ⟨.other hopen hclose hbody, hbodies⟩

/-- Where the loop ends on level zero it has read the insides of as many
comments as were open. -/
theorem inside_of_skipBlockComment (depth line col : Nat) (cs : Bytes)
    (h : (skipBlockComment depth line col cs).1 = 0) :
    ∃ bodies : List Bytes, bodies.length = depth ∧ (∀ body ∈ bodies, Inside body) ∧
      cs = bodies.flatten ++ (skipBlockComment depth line col cs).2.2.2 := by
  fun_induction skipBlockComment depth line col cs with
  | case1 => exact ⟨[], rfl, by simp, rfl⟩
  | case2 => simp at h
  | case3 => simp at h
  | case4 => simp at h
  | case5 depth line col c c' cs hmark ih =>
    obtain ⟨bodies, hlength, hinside, hcs⟩ := ih h
    refine ⟨closeMark :: bodies, by simp [hlength], ?_, ?_⟩
    · simpa using ⟨.close, hinside⟩
    · rw [hmark.1, hmark.2, List.flatten_cons, List.append_assoc, ← hcs]
      rfl
  | case6 depth line col c c' cs _ hmark ih =>
    obtain ⟨bodies, hlength, hinside, hcs⟩ := ih h
    obtain ⟨cs₁, cs₂, rest, rfl⟩ : ∃ cs₁ cs₂ rest, bodies = cs₁ :: cs₂ :: rest := by
      obtain _ | ⟨cs₁, _ | ⟨cs₂, rest⟩⟩ := bodies
      · simp at hlength
      · simp at hlength
      · exact ⟨cs₁, cs₂, rest, rfl⟩
    refine ⟨(openMark ++ cs₁ ++ cs₂) :: rest, by simpa using hlength, ?_, ?_⟩
    · simp only [List.forall_mem_cons] at hinside ⊢
      exact ⟨.nested hinside.1 hinside.2.1, hinside.2.2⟩
    · rw [hmark.1, hmark.2]
      simp only [List.flatten_cons, List.append_assoc] at hcs ⊢
      rw [← hcs]
      rfl
  | case7 depth line col c' cs hclose hopen ih =>
    obtain ⟨bodies, hlength, hinside, hcs⟩ := ih h
    exact inside_other (mt pair_eq_openMark.mp hopen) (mt pair_eq_closeMark.mp hclose) hlength
      hinside hcs
  | case8 depth line col c c' cs hclose hopen _ ih =>
    obtain ⟨bodies, hlength, hinside, hcs⟩ := ih h
    exact inside_other (mt pair_eq_openMark.mp hopen) (mt pair_eq_closeMark.mp hclose) hlength
      hinside hcs

/-- The scanner recognises the language: behind an opening mark it goes on
right after the text inside. -/
theorem afterBlock_eq_some_iff {cs rest : Bytes} :
    afterBlock cs = some rest ↔ ∃ body, Inside body ∧ cs = body ++ rest := by
  constructor
  · intro h
    rw [afterBlock] at h
    split_ifs at h with hzero
    obtain ⟨bodies, hlength, hinside, hcs⟩ := inside_of_skipBlockComment 1 1 1 cs hzero
    obtain ⟨body, rfl⟩ := List.length_eq_one_iff.mp hlength
    rw [Option.some.inj h, List.flatten_singleton] at hcs
    exact ⟨body, hinside body (List.mem_singleton_self body), hcs⟩
  · rintro ⟨body, hbody, rfl⟩
    have hskip := hbody.skipMarks 0 rest
    rw [skipMarks_zero] at hskip
    obtain ⟨hzero, hrest⟩ := Prod.mk.inj hskip
    rw [afterBlock, if_pos hzero, hrest]

/-! ## §3 Comments after a space -/

/-- The text ends in a space, and the tokenizer comes to that space between
two tokens: it is no part of a string, a character literal or a comment. -/
def EndsOutside (p : Bytes) : Prop := ∃ ws, Walk p ws [ch ' ']

theorem StandsIn.of_space (q : Bytes) : StandsIn [ch ' '] (ch ' ' :: q) where
  notEmpty := List.cons_ne_nil _ _
  shadows := .of_head rfl fun hpoint => absurd (Option.some.inj hpoint) (by decide)
  mark k hk hhead := by
    obtain rfl : ch ' ' = k := Option.some.inj hhead
    exact absurd hk (by decide)

/-- What follows the space does not matter to the tokens before it. -/
theorem EndsOutside.spellings_append {p : Bytes} (hp : EndsOutside p) (q : Bytes) :
    spellings (p ++ q) = spellings p ++ spellings q := by
  obtain ⟨ws, hwalk⟩ := hp
  obtain ⟨ds, hds⟩ := hwalk.suffix
  have hspace : ∀ r : Bytes, spellings (ch ' ' :: r) = spellings r := fun r =>
    spellings_step (.blank rfl)
  have hp' : spellings p = ws := by
    rw [spellings_walk hwalk, hspace, spellings_nil, List.append_nil]
  have hwalk' : Walk (ds ++ ch ' ' :: q) ws ([] ++ ch ' ' :: q) :=
    hwalk.exchange (.of_space q) hds.symm rfl fun _ h => nomatch h
  have hsplit : p ++ q = ds ++ ch ' ' :: q := by rw [← hds, List.append_assoc]; rfl
  rw [hp', hsplit, spellings_walk hwalk', List.nil_append, hspace]

theorem BlockComment.spellings_append {c : Bytes} (hc : BlockComment c) (q : Bytes) :
    spellings (c ++ q) = spellings q := by
  obtain ⟨body, hbody, rfl⟩ := hc
  rw [List.append_assoc]
  exact spellings_step (.block (afterBlock_eq_some_iff.mpr ⟨body, hbody, rfl⟩))

theorem spellings_unclosed {cs : Bytes} (h : ∀ body rest, Inside body → cs ≠ body ++ rest) :
    spellings (openMark ++ cs) = [⟨.error, bytes "Unclosed block comment '/* ... */'"⟩] := by
  have hnone : afterBlock cs = none := by
    refine Option.eq_none_iff_forall_ne_some.mpr fun rest hsome => ?_
    obtain ⟨body, hbody, hcs⟩ := afterBlock_eq_some_iff.mp hsome
    exact h body rest hbody hcs
  have hopen : (skipBlockComment 1 1 1 cs).1 ≠ 0 := by
    intro hzero
    rw [afterBlock, if_pos hzero] at hnone
    cases hnone
  rw [show openMark ++ cs = ch '/' :: ch '*' :: cs from rfl, spellings_step (.unclosed hnone),
    skipBlockComment_open 1 1 1 cs hopen, spellings_nil, List.append_nil]

theorem tokensLoop_eof (fuel : Nat) : ∀ t, (tokensLoop fuel t).2.type = .eof := by
  induction fuel with
  | zero => intro t; rfl
  | succ fuel ih =>
    intro t
    rw [tokensLoop]
    dsimp only
    split_ifs with heof
    · exact heof
    · exact ih _

/-- A block comment after a space leaves the types and texts of the tokens as
they are; one that nothing closes is one error token before the end of file. -/
theorem block_comment_transparent {p : Bytes} (hp : EndsOutside p) :
    (∀ c q, BlockComment c → spellings (p ++ c ++ q) = spellings (p ++ q)) ∧
      ∀ c, openMark <+: c → (∀ d r, BlockComment d → c ≠ d ++ r) →
        spellings (p ++ c) =
            spellings p ++ [⟨.error, bytes "Unclosed block comment '/* ... */'"⟩] ∧
          (tokensOf (p ++ c)).2.type = .eof := by
  refine ⟨fun c q hc => ?_, fun c hopen hunclosed => ⟨?_, tokensLoop_eof _ _⟩⟩
  · rw [List.append_assoc, hp.spellings_append, hp.spellings_append, hc.spellings_append]
  · obtain ⟨cs, rfl⟩ := hopen
    rw [hp.spellings_append, spellings_unclosed]
    intro body rest hbody hcs
    exact hunclosed (openMark ++ body) rest ⟨body, hbody, rfl⟩ (by rw [hcs, List.append_assoc])

theorem endsOutside_word : EndsOutside (bytes "a ") := by
  have hword : AtToken (ch 'a') [ch ' '] := ⟨by decide, by decide, by decide⟩
  have htakes : takes (ch 'a') [ch ' '] = (.ident, [ch ' ']) := by decide
  exact ⟨_, .step (.token_of_takes hword htakes) (.refl _)⟩

/-- A comment around `/*/ */`: the first mark inside opens a comment and is
not read as a closing one. -/
theorem block_comment_transparent_nested :
    spellings (bytes "a " ++ bytes "/*/*/ */*/" ++ bytes "b") = spellings (bytes "a " ++ bytes "b") := by
  have hinner : Inside (bytes "/ */") :=
    .other (by decide) (by decide) (.other (by decide) (by decide) .close)
  exact (block_comment_transparent endsOutside_word).1 (bytes "/*/*/ */*/") (bytes "b")
    ⟨bytes "/*/ */*/", .nested hinner .close, by decide⟩

end Aether.Lexing
