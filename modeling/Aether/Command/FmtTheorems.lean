/-
Aether.Command.FmtTheorems — when the formatter keeps the tokens.

`written` is what the loop writes for a list of tokens; the buffer is long
enough for it (`cmdFmt_eq`). The formatted text has the tokens of the source,
but for newlines, exactly when each of them still ends where it did in front
of what the formatter puts after it (`fmt_preserves_iff`). One direction
walks over the formatted text; for the other one, the characters of the
tokens are counted, so that nothing can have become a comment.
-/
import Aether.Command.Fmt
import Aether.Lexing.SpellingTheorems

namespace Aether.Command

open Aether.Lib.Scanner Aether.Lexing

-- the equations, before the proofs that share them
section
attribute [local simp] blankBefore blankAfter FmtState.indented fmtLoop FmtState.newline
end

/-! ## §1 What is written -/

/-- The last byte after `text` was written. -/
def lastOf (last : Option UInt8) (text : Bytes) : Option UInt8 := text.getLast?.or last

/-- What the loop writes for a token, after the blank before it. -/
def inked (w : Spelling) : Bytes := w.text ++ blankAfter w.type

/-- What the loop writes, by the last byte so far and whether a newline was
the last token. -/
def written (last : Option UInt8) (nl : Bool) : List Spelling → Bytes
  | [] => []
  | w :: ws =>
    if w.type = .newline then
      if nl then written last true ws else ch '\n' :: written (some (ch '\n')) true ws
    else
      blankBefore last w.type ++
        (inked w ++ written (lastOf (lastOf last (blankBefore last w.type)) (inked w)) false ws)

/-- Each token but newlines is read in front of what is written after it, of
which two characters matter. -/
def separate (last : Option UInt8) (nl : Bool) : List Spelling → Bool
  | [] => true
  | w :: ws =>
    if w.type = .newline then
      if nl then separate last true ws else separate (some (ch '\n')) true ws
    else
      let last := lastOf (lastOf last (blankBefore last w.type)) (inked w)
      readsAt w ((blankAfter w.type ++ written last false ws).take 2) && separate last false ws

/-- All tokens but newlines. -/
def solid (ws : List Spelling) : List Spelling := ws.filter (·.type != .newline)

-- the equations, before the proofs that share them
section
attribute [local simp] lastOf inked written separate solid
end

/-! ## §2 The buffer is long enough -/

/-- A token takes a character, and a keyword with a blank before it two. -/
structure Fits (w : Spelling) : Prop where
  notError : w.type ≠ .error
  nonempty : 0 < w.text.length
  keyword : spaceBefore w.type = true → 2 ≤ w.text.length

theorem not_spaceAfter_of_spaceBefore {type : TokenType} (h : spaceBefore type = true) :
    spaceAfter type = false := by
  cases type <;> first | rfl | exact absurd h (by decide)

theorem blankBefore_length (last : Option UInt8) (type : TokenType) :
    (blankBefore last type).length = if spaceBefore type && needsSpace last then 1 else 0 := by
  rw [blankBefore]
  split <;> rfl

theorem blankAfter_length (type : TokenType) :
    (blankAfter type).length = if spaceAfter type then 1 else 0 := by
  rw [blankAfter]
  split <;> rfl

theorem FmtState.indented_out (s : FmtState) : s.indented.out = s.out := by
  rw [FmtState.indented]
  split
  · simp [indent]
  · rfl

theorem FmtState.indented_prevNewline (s : FmtState) : s.indented.prevNewline = s.prevNewline := by
  rw [FmtState.indented]
  split <;> rfl

theorem lastOf_append (last : Option UInt8) (text text' : Bytes) :
    lastOf last (text ++ text') = lastOf (lastOf last text) text' := by
  simp [lastOf, List.getLast?_append, Option.or_assoc]

theorem getLast?_append_eq (out text : Bytes) : (out ++ text).getLast? = lastOf out.getLast? text := by
  rw [List.getLast?_append, lastOf]

/-- The loop writes all tokens, when what is in the buffer is no more than
twice what the tokens before took. -/
theorem fmtLoop_eq (rlen : Nat) : ∀ (toks : List Token) (s : FmtState) (taken : Nat),
    (∀ tok ∈ toks, Fits (spelling tok)) → s.out.length ≤ taken * 2 →
    taken + (toks.flatMap (·.text)).length ≤ rlen →
    fmtLoop rlen s toks =
      some (s.out ++ written s.out.getLast? s.prevNewline (toks.map spelling)) := by
  intro toks
  induction toks with
  | nil => intro s taken _ _ _; simp [fmtLoop, written]
  | cons tok toks ih =>
    intro s taken hfits hout hlen
    have htok := hfits tok (List.mem_cons_self ..)
    have hrest := fun tok' h => hfits tok' (List.mem_cons_of_mem _ h)
    have herr : tok.type ≠ .error := htok.notError
    have hnonempty : 0 < tok.text.length := htok.nonempty
    simp only [List.flatMap_cons, List.length_append] at hlen
    rw [fmtLoop, if_neg herr, List.map_cons, written]
    change (if tok.type = .newline then _ else _) =
      some (s.out ++ if tok.type = .newline then _ else _)
    by_cases hnl : tok.type = .newline
    · rw [if_pos hnl, if_pos hnl, ih s.newline (taken + tok.text.length) hrest]
      · rw [FmtState.newline]
        cases hprev : s.prevNewline with
        | true => simp [hprev]
        | false => simp
      · rw [FmtState.newline]
        split
        · omega
        · simp
          omega
      · omega
    · rw [if_neg hnl, if_neg hnl]
      generalize hs : ({ s with prevNewline := false } : FmtState).indented = s'
      have hout' : s'.out = s.out := by rw [← hs, FmtState.indented_out]
      have hprev' : s'.prevNewline = false := by rw [← hs, FmtState.indented_prevNewline]
      have hbefore := blankBefore_length s.out.getLast? tok.type
      have hafter := blankAfter_length tok.type
      have hkeyword : spaceBefore tok.type = true → 2 ≤ tok.text.length := htok.keyword
      have hblanks : (blankBefore s.out.getLast? tok.type).length + tok.text.length + 1 ≤
          tok.text.length * 2 ∧ (blankBefore s.out.getLast? tok.type).length + tok.text.length +
            (blankAfter tok.type).length ≤ tok.text.length * 2 := by
        rw [hbefore, hafter]
        cases hspace : spaceBefore tok.type with
        | true =>
          have := hkeyword hspace
          simp only [not_spaceAfter_of_spaceBefore hspace]
          constructor
          · split <;> omega
          · split <;> simp <;> omega
        | false => constructor <;> simp <;> (try split) <;> omega
      simp only [FmtState.push, hout']
      rw [if_neg (by rw [List.length_append]; omega)]
      rw [ih _ (taken + tok.text.length) hrest]
      · simp only [getLast?_append_eq, List.append_assoc, hprev', inked, lastOf_append]
        rfl
      · simp only [List.length_append]
        omega
      · omega

/-! ## §3 The tokens of a source -/

/-- A word that is a keyword with a blank before it has two characters. -/
theorem keywords_long : ∀ entry ∈ keywords, spaceBefore entry.2 = true → 2 ≤ entry.1.length := by
  decide

theorem signs_plain : ∀ type ∈ signTypes, spaceBefore type = false := by decide

theorem fits_of_reads {w : Spelling} {r : Bytes} (h : Reads w r) : Fits w := by
  obtain ⟨c, cs, htext, -, -, -, htakes⟩ := h.starts
  refine ⟨h.notError, by simp [htext], fun hspace => ?_⟩
  have htype : w.type = (takes c (cs ++ r)).1 := by rw [htakes]
  rcases takes_cases c (cs ++ r) with ⟨-, hnl⟩ | hword | hsign
  · rw [htype, hnl] at hspace
    cases hspace
  · rw [takesWord, htakes] at hword
    obtain ⟨hkeyword, hrest⟩ := Prod.mk.inj hword
    rw [← hrest] at hkeyword
    have hcs : (cs ++ r).take ((cs ++ r).length - r.length) = cs := by simp
    rw [hcs, ← htext] at hkeyword
    have hne : keywordType w.text ≠ .ident := by
      intro hident
      rw [hkeyword, hident] at hspace
      cases hspace
    exact keywords_long _ (mem_keywords hne) (hkeyword ▸ hspace)
  · rw [htype, signs_plain _ hsign] at hspace
    cases hspace

theorem text_of_newline {w : Spelling} {r : Bytes} (h : Reads w r) (hnl : w.type = .newline) :
    w.text = [ch '\n'] := by
  obtain ⟨c, cs, htext, -, -, -, htakes⟩ := h.starts
  have htype : (takes c (cs ++ r)).1 = .newline := by rw [htakes, hnl]
  obtain ⟨rfl, hrest⟩ := newline_of_takes htype
  have hcs : cs ++ r = r := (Prod.mk.inj (hrest.symm.trans htakes)).2
  have hnil : cs = [] := by simpa using hcs
  rw [htext, hnil]

/-- The tokens of a text without errors are read where they stand. -/
theorem spellings_reads (cs : Bytes) :
    (∀ w ∈ spellings cs, w.type ≠ .error) → ∀ w ∈ spellings cs, ∃ r, Reads w r := by
  induction cs using step_induction with
  | hnil => simp [spellings_nil]
  | @hstep cs rest ws hs ih =>
    rw [spellings_step hs]
    intro hclean w hw
    have herr := hclean w hw
    rcases List.mem_append.mp hw with hfirst | hrest
    · cases hs with
      | blank h => cases hfirst
      | line cs => cases hfirst
      | block h => cases hfirst
      | unclosed h =>
        rw [List.mem_singleton.mp hfirst] at herr
        exact absurd rfl herr
      | token h =>
        rw [List.mem_singleton.mp hfirst] at herr ⊢
        exact ⟨_, (h.reads herr).2⟩
    · exact ih (fun w hw => hclean w (List.mem_append_right _ hw)) w hrest

/-! ## §4 Characters that are counted -/

/-- How many characters of the tokens `p` accepts. -/
def counted (p : UInt8 → Bool) (ws : List Spelling) : Nat := (ws.flatMap (·.text)).countP p

-- the equations, before the proofs that share them
section
attribute [local simp] counted
end

theorem counted_append (p : UInt8 → Bool) (ws ws' : List Spelling) :
    counted p (ws ++ ws') = counted p ws + counted p ws' := by
  simp [counted]

/-- The tokens have no more characters than the text. -/
theorem counted_spellings_le (p : UInt8 → Bool) (cs : Bytes) :
    (∀ w ∈ spellings cs, w.type ≠ .error) → counted p (spellings cs) ≤ cs.countP p := by
  induction cs using step_induction with
  | hnil => simp [spellings_nil, counted]
  | @hstep cs rest ws hs ih =>
    rw [spellings_step hs]
    intro hclean
    have hrest := ih fun w hw => hclean w (List.mem_append_right _ hw)
    have hsuffix : rest.countP p ≤ cs.countP p := hs.suffix.sublist.countP_le
    rw [counted_append]
    cases hs with
    | blank h => simpa [counted] using hrest.trans hsuffix
    | line cs => simpa [counted] using hrest.trans hsuffix
    | block h => simpa [counted] using hrest.trans hsuffix
    | unclosed h => exact absurd rfl (hclean _ (List.mem_append_left _ (List.mem_singleton_self _)))
    | token h =>
      have herr := hclean _ (List.mem_append_left _ (List.mem_singleton_self _))
      have htext := congrArg (List.countP p) (h.reads herr).1
      rw [List.countP_append] at htext
      simp only [counted, List.flatMap_cons, List.flatMap_nil, List.append_nil] at hrest ⊢
      omega

/-- A source that the tokenizer takes without errors. -/
structure CleanSource where
  text : Bytes
  clean : ∀ w ∈ spellings text, w.type ≠ .error

/-- What is written for a clean source is `written`. -/
theorem cmdFmt_eq (source : CleanSource) :
    cmdFmt source.text = some (written none false (spellings source.text)) := by
  have hcounted := counted_spellings_le (fun _ => true) source.text source.clean
  rw [cmdFmt, fmtLoop_eq source.text.length _ {} 0]
  · rfl
  · intro tok htok
    obtain ⟨r, hr⟩ := spellings_reads _ source.clean (spelling tok) (List.mem_map_of_mem htok)
    exact fits_of_reads hr
  · simp
  · simpa [counted, spellings, spelling, Function.comp_def, List.flatMap_map] using hcounted

/-! ## §5 Walking over what is written -/

theorem reads_take_iff (w : Spelling) (r : Bytes) : Reads w (r.take 2) ↔ Reads w r := by
  have hhead : (r.take 2).head? = r.head? := by cases r <;> simp
  have hdigit : Stops isDigit (r.take 2).tail ↔ Stops isDigit r.tail := by
    match r with
    | [] => simp
    | [c] => simp
    | c :: d :: cs => simp
  have hempty : r.take 2 = [] ↔ r = [] := by cases r <;> simp
  constructor
  · intro h
    exact h.exchange (.of_head hhead.symm fun _ => hdigit.mp) fun _ => hempty.mpr
  · intro h
    exact h.exchange (.of_head hhead fun _ => hdigit.mpr) fun _ => hempty.mp

theorem spellings_blankBefore (last : Option UInt8) (type : TokenType) (r : Bytes) :
    spellings (blankBefore last type ++ r) = spellings r := by
  rw [blankBefore]
  split
  · exact spellings_step (.blank (by decide))
  · rfl

theorem spellings_blankAfter (type : TokenType) (r : Bytes) :
    spellings (blankAfter type ++ r) = spellings r := by
  rw [blankAfter]
  split
  · exact spellings_step (.blank (by decide))
  · rfl

/-- Newlines in a row are one. -/
def squeeze (nl : Bool) : List Spelling → List Spelling
  | [] => []
  | w :: ws =>
    if w.type = .newline then if nl then squeeze true ws else w :: squeeze true ws
    else w :: squeeze false ws

-- the equations, before the proofs that share them
section
attribute [local simp] squeeze
end

theorem solid_squeeze (ws : List Spelling) : ∀ nl, solid (squeeze nl ws) = solid ws := by
  induction ws with
  | nil => intro nl; rfl
  | cons w ws ih =>
    intro nl
    have htrue : solid (squeeze true ws) = solid ws := ih true
    have hfalse : solid (squeeze false ws) = solid ws := ih false
    rw [solid] at htrue hfalse ⊢
    rw [squeeze]
    by_cases hnl : w.type = .newline
    · cases nl <;> simp [solid, hnl, htrue]
    · simp [solid, hnl, hfalse]

theorem mem_squeeze {w : Spelling} (ws : List Spelling) :
    ∀ {nl : Bool}, w ∈ squeeze nl ws → w ∈ ws := by
  induction ws with
  | nil => intro nl h; exact h
  | cons v ws ih =>
    intro nl h
    rw [squeeze] at h
    split_ifs at h
    · exact List.mem_cons_of_mem _ (ih h)
    · exact List.mem_cons.mpr ((List.mem_cons.mp h).imp_right ih)
    · exact List.mem_cons.mpr ((List.mem_cons.mp h).imp_right ih)

theorem written_squeeze (ws : List Spelling) :
    ∀ last nl, written last nl (squeeze nl ws) = written last nl ws := by
  induction ws with
  | nil => intro last nl; rfl
  | cons w ws ih =>
    intro last nl
    rw [squeeze]
    by_cases hnl : w.type = .newline
    · cases nl <;> simp [written, hnl, ih]
    · simp [written, hnl, ih]

/-- Tokens that are read at some place of some text. -/
def Readable (ws : List Spelling) : Prop := ∀ w ∈ ws, ∃ r, Reads w r

theorem Readable.tail {w : Spelling} {ws : List Spelling} (h : Readable (w :: ws)) : Readable ws :=
  fun v hv => h v (List.mem_cons_of_mem _ hv)

theorem newline_of_reads {w : Spelling} {r : Bytes} (h : Reads w r) (hnl : w.type = .newline) :
    w = ⟨.newline, [ch '\n']⟩ := by
  have htext := text_of_newline h hnl
  cases w
  cases hnl
  cases htext
  rfl

theorem spellings_written (ws : List Spelling) (hws : Readable ws) :
    ∀ last nl, separate last nl ws = true → spellings (written last nl ws) = squeeze nl ws := by
  induction ws with
  | nil => intro last nl _; exact spellings_nil
  | cons w ws ih =>
    intro last nl hsep
    rw [separate] at hsep
    rw [written, squeeze]
    by_cases hnl : w.type = .newline
    · rw [if_pos hnl] at hsep ⊢
      rw [if_pos hnl]
      cases nl with
      | true => exact ih hws.tail _ _ hsep
      | false =>
        obtain ⟨r, hr⟩ := hws w (List.mem_cons_self ..)
        have hrest := ih hws.tail _ _ (by simpa using hsep)
        simp only [Bool.false_eq_true, if_false]
        rw [spellings_step (.newline _), hrest, newline_of_reads hr hnl]
        rfl
    · rw [if_neg hnl] at hsep ⊢
      rw [if_neg hnl]
      simp only [Bool.and_eq_true, readsAt_iff, reads_take_iff] at hsep
      generalize lastOf (lastOf last (blankBefore last w.type)) (inked w) = last' at hsep ⊢
      rw [spellings_blankBefore, inked, List.append_assoc, spellings_step hsep.1.step,
        spellings_blankAfter]
      exact congrArg (w :: ·) (ih hws.tail _ _ hsep.2)

/-! ## §6 Nothing has become a comment -/

/-- A character that is neither a blank nor a newline. -/
def isInk (c : UInt8) : Bool := !isBlank c && c != ch '\n'

theorem counted_solid {ws : List Spelling} (hws : Readable ws) :
    counted isInk (solid ws) = counted isInk ws := by
  induction ws with
  | nil => rfl
  | cons w ws ih =>
    have hrest := ih hws.tail
    by_cases hnl : w.type = .newline
    · obtain ⟨r, hr⟩ := hws w (List.mem_cons_self ..)
      have hnone : w.text.countP isInk = 0 := by
        rw [text_of_newline hr hnl]
        decide
      simpa [solid, hnl, counted, hnone] using hrest
    · simpa [solid, hnl, counted] using hrest

theorem countP_blankBefore (last : Option UInt8) (type : TokenType) :
    (blankBefore last type).countP isInk = 0 := by
  rw [blankBefore]
  split <;> decide

theorem countP_blankAfter (type : TokenType) : (blankAfter type).countP isInk = 0 := by
  rw [blankAfter]
  split <;> decide

/-- The characters that are written are those of the tokens. -/
theorem countP_written (ws : List Spelling) :
    ∀ last nl, (written last nl ws).countP isInk = counted isInk (solid ws) := by
  have hnewline : isInk (ch '\n') = false := by decide
  induction ws with
  | nil => intro last nl; rfl
  | cons w ws ih =>
    intro last nl
    rw [written]
    by_cases hnl : w.type = .newline
    · cases nl <;> simp [hnl, ih, solid, hnewline]
    · simp only [if_neg hnl, inked, List.countP_append, countP_blankBefore, countP_blankAfter, ih]
      simp [solid, hnl, counted]

theorem clean_of_solid {ws ws' : List Spelling} (hws : Readable ws) (h : solid ws' = solid ws) :
    ∀ w ∈ ws', w.type ≠ .error := by
  intro w hw herr
  have hmem : w ∈ solid ws' := List.mem_filter.mpr ⟨hw, by rw [herr]; rfl⟩
  rw [h] at hmem
  obtain ⟨r, hr⟩ := hws w (List.mem_filter.mp hmem).1
  exact hr.notError herr

/-- A text with all the characters of its tokens does not start with a comment. -/
theorem not_comment {ws : List Spelling} {cs rest : Bytes} (hws : Readable ws)
    (hsolid : solid (spellings cs) = solid ws) (hink : cs.countP isInk = counted isInk (solid ws))
    (hs : Step cs [] rest) : cs.countP isInk = rest.countP isInk := by
  have hclean := clean_of_solid hws hsolid
  have hcs := spellings_step hs
  rw [List.nil_append] at hcs
  rw [hcs] at hsolid hclean
  have hle := counted_spellings_le isInk rest hclean
  have hmono : rest.countP isInk ≤ cs.countP isInk := hs.suffix.sublist.countP_le
  rw [← hsolid, counted_solid (spellings_reads rest hclean)] at hink
  omega

/-- The first token of a text with all the characters of its tokens. -/
theorem reads_of_solid {w : Spelling} {ws : List Spelling} {r : Bytes} (hws : Readable (w :: ws))
    (hnl : w.type ≠ .newline) (hink : (w.text ++ r).countP isInk = counted isInk (solid (w :: ws)))
    (hsolid : solid (spellings (w.text ++ r)) = solid (w :: ws)) :
    Reads w r ∧ solid (spellings r) = solid ws := by
  obtain ⟨r', hw⟩ := hws w (List.mem_cons_self ..)
  obtain ⟨c, cs, htext, hblank, -, -, htakes⟩ := hw.starts
  have hcons : solid (w :: ws) = w :: solid ws := by simp [solid, hnl]
  have hinkc : c ≠ ch '\n' := by
    rintro rfl
    exact hnl (Prod.mk.inj htakes).1.symm
  obtain ⟨us, rest, hs, -⟩ := exists_step c (cs ++ r)
  have hsame : Step (w.text ++ r) [] rest → _ := not_comment hws hsolid hink
  rw [htext, List.cons_append] at hsolid hsame
  generalize hds : cs ++ r = ds at hs hsolid hsame
  have hcount : (c :: ds).countP isInk = ds.countP isInk + 1 := by
    simp [isInk, hblank, hinkc]
  cases hs with
  | blank h => exact absurd (h.symm.trans hblank) (by decide)
  | line cs' =>
    have := (afterLine_suffix cs').sublist.countP_le (p := isInk)
    have := hsame (.line cs')
    simp only [List.countP_cons] at this hcount
    omega
  | @block cs' _ h =>
    have := (afterBlock_suffix h).sublist.countP_le (p := isInk)
    have := hsame (.block h)
    simp only [List.countP_cons] at this hcount
    omega
  | unclosed h =>
    rw [spellings_step (.unclosed h), hcons] at hsolid
    exact absurd (congrArg Spelling.type (List.cons.inj hsolid).1).symm hw.notError
  | token h =>
    rw [spellings_step (.token h), hcons] at hsolid
    have hnl' : (takes c ds).1 ≠ .newline := fun heq => hinkc (newline_of_takes heq).1
    have hfirst : solid ([spelled c ds (takes c ds).1 (takes c ds).2] ++ spellings (takes c ds).2) =
        spelled c ds (takes c ds).1 (takes c ds).2 :: solid (spellings (takes c ds).2) := by
      simp [solid, spelled, hnl']
    rw [hfirst] at hsolid
    obtain ⟨hspelled, hrest⟩ := List.cons.inj hsolid
    have hreads := h.reads (by
      have htype := congrArg Spelling.type hspelled
      exact fun herr => hw.notError (htype.symm.trans herr))
    rw [hspelled, htext, List.cons_append, ← hds] at hreads
    have hr : (takes c (cs ++ r)).2 = r := List.append_cancel_left (List.cons.inj hreads.1).2
    rw [hr] at hreads
    rw [← hds, hr] at hrest
    exact ⟨hreads.2, hrest⟩

theorem separate_of_solid (ws : List Spelling) (hws : Readable ws) :
    ∀ last nl, solid (spellings (written last nl ws)) = solid ws → separate last nl ws = true := by
  induction ws with
  | nil => intro last nl _; rfl
  | cons w ws ih =>
    intro last nl hsolid
    have hink := countP_written (w :: ws) last nl
    rw [written] at hsolid hink
    rw [separate]
    by_cases hnl : w.type = .newline
    · have hdrop : solid (w :: ws) = solid ws := by simp [solid, hnl]
      rw [if_pos hnl] at hsolid ⊢
      rw [hdrop] at hsolid
      cases nl with
      | true => exact ih hws.tail _ _ hsolid
      | false =>
        simp only [Bool.false_eq_true, if_false] at hsolid ⊢
        rw [spellings_step (.newline _)] at hsolid
        exact ih hws.tail _ _ (by simpa [solid] using hsolid)
    · rw [if_neg hnl] at hsolid hink ⊢
      generalize lastOf (lastOf last (blankBefore last w.type)) (inked w) = last' at hsolid hink ⊢
      rw [spellings_blankBefore, inked, List.append_assoc] at hsolid
      rw [List.countP_append, countP_blankBefore, Nat.zero_add, inked, List.append_assoc] at hink
      obtain ⟨hreads, hrest⟩ := reads_of_solid hws hnl hink hsolid
      rw [spellings_blankAfter] at hrest
      dsimp only
      rw [(readsAt_iff _ _).mpr ((reads_take_iff _ _).mpr hreads), Bool.true_and]
      exact ih hws.tail _ _ hrest

/-! ## §7 The formatter -/

/-- Formatting keeps the types and texts of the tokens but for newlines, and
formatting again changes nothing, exactly when each token still ends where it
did in front of what the formatter puts after it. -/
theorem fmt_preserves_iff (source : CleanSource) :
    (∃ out, cmdFmt source.text = some out ∧
        solid (spellings out) = solid (spellings source.text) ∧ cmdFmt out = some out) ↔
      separate none false (spellings source.text) = true := by
  have hreadable : Readable (spellings source.text) := spellings_reads _ source.clean
  constructor
  · rintro ⟨out, hout, hsolid, -⟩
    rw [cmdFmt_eq, Option.some.injEq] at hout
    rw [← hout] at hsolid
    exact separate_of_solid _ hreadable _ _ hsolid
  · intro hsep
    have hspellings := spellings_written _ hreadable none false hsep
    have hclean : ∀ w ∈ spellings (written none false (spellings source.text)), w.type ≠ .error := by
      rw [hspellings]
      exact fun w hw => source.clean w (mem_squeeze _ hw)
    have hagain := cmdFmt_eq ⟨_, hclean⟩
    rw [hspellings, written_squeeze] at hagain
    exact ⟨_, cmdFmt_eq source, by rw [hspellings, solid_squeeze], hagain⟩

/-- `let x` is written as one word. -/
theorem let_runs_together :
    ¬ ∀ source : CleanSource, ∃ out, cmdFmt source.text = some out ∧
      solid (spellings out) = solid (spellings source.text) ∧ cmdFmt out = some out := by
  intro h
  obtain ⟨out, hout, hsolid, -⟩ := h ⟨bytes "let x", by decide⟩
  have hwritten : cmdFmt (bytes "let x") = some (bytes "letx") := by decide
  obtain rfl := Option.some.inj (hwritten.symm.trans hout)
  exact absurd (congrArg List.length hsolid) (by decide)

end Aether.Command
