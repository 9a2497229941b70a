/-
Aether.Lexing.Walk — the tokenizer walks over the text.

`Step` is one step: a blank, a comment or a token. The spellings of a text
are those of any walk over its beginning, and then those of what is left
(`spellings_walk`).
-/
import Aether.Lexing.Lookahead

namespace Aether.Lexing

open Aether.Lib.Scanner

/-! ## §1 The next token -/

theorem skipBlank (c : UInt8) (cs : Bytes) :
    (skipWhitespaceInline 1 (c :: cs)).2 =
      if isBlank c then (skipWhitespaceInline 1 cs).2 else c :: cs := by
  rw [skipWhitespaceInline, isBlank]
  by_cases hspace : c = ch ' '
  · rw [if_pos hspace, skipWhitespaceInline_rest]
    simp [hspace]
  · rw [if_neg hspace]
    by_cases htab : c = ch '\t'
    · rw [if_pos htab, skipWhitespaceInline_rest]
      simp [htab]
    · rw [if_neg htab]
      simp [hspace, htab]

theorem afterLine_length_le (cs : Bytes) : (afterLine cs).length ≤ cs.length := skipLine_le 1 cs 1

theorem afterBlock_length_le {cs rest : Bytes} (h : afterBlock cs = some rest) :
    rest.length ≤ cs.length := by
  rw [afterBlock] at h
  split at h
  · cases h
    exact skipBlockComment_le 1 1 1 cs
  · cases h

theorem tail_length_lt {c : UInt8} {cs : Bytes} (h : cs.head? = some c) :
    cs.tail.length < cs.length := by
  cases cs with
  | nil => cases h
  | cons d ds => simp

theorem nextOf_shorter (fuel : Nat) : ∀ {cs : Bytes} {w : Spelling} {rest : Bytes},
    nextOf fuel cs = some (w, rest) → rest.length < cs.length := by
  induction fuel with
  | zero => intro cs w rest h; cases h
  | succ fuel ih =>
    intro cs w rest h
    have hskip := skipWhitespaceInline_le cs 1
    rw [nextOf] at h
    cases hcs : (skipWhitespaceInline 1 cs).2 with
    | nil => rw [hcs] at h; cases h
    | cons c ds =>
      rw [hcs] at h hskip
      simp only [List.length_cons] at h hskip
      split_ifs at h with hline hblock
      · have := ih h
        have := afterLine_length_le ds.tail
        have := tail_length_lt hline.2
        omega
      · have htail := tail_length_lt hblock.2
        split at h
        · next rest' hrest =>
          have := ih h
          have := afterBlock_length_le hrest
          omega
        · cases h
          have := skipBlockComment_le 1 1 1 ds.tail
          omega
      · rw [readToken_eq] at h
        cases h
        have := (takes_suffix c ds).length_le
        omega

theorem nextOf_fuel (fuel : Nat) : ∀ {fuel' : Nat} {cs : Bytes}, cs.length < fuel →
    cs.length < fuel' → nextOf fuel cs = nextOf fuel' cs := by
  induction fuel with
  | zero => intro fuel' cs h; omega
  | succ fuel ih =>
    intro fuel' cs h h'
    obtain ⟨fuel', rfl⟩ : ∃ k, fuel' = k + 1 := ⟨fuel' - 1, by omega⟩
    have hskip := skipWhitespaceInline_le cs 1
    rw [nextOf, nextOf]
    cases hcs : (skipWhitespaceInline 1 cs).2 with
    | nil => rfl
    | cons c ds =>
      rw [hcs, List.length_cons] at hskip
      dsimp only
      split_ifs with hline hblock
      · have := afterLine_length_le ds.tail
        have := tail_length_lt hline.2
        exact ih (by omega) (by omega)
      · have htail := tail_length_lt hblock.2
        cases hrest : afterBlock ds.tail with
        | none => rfl
        | some rest =>
          have := afterBlock_length_le hrest
          exact ih (by omega) (by omega)
      · rfl

/-- What the tokenizer reads next. -/
def next (cs : Bytes) : Option (Spelling × Bytes) := nextOf (cs.length + 1) cs

theorem next_blank {c : UInt8} {cs : Bytes} (h : isBlank c = true) : next (c :: cs) = next cs := by
  have hfuel : next cs = nextOf (cs.length + 1 + 1) cs := nextOf_fuel _ (by omega) (by omega)
  rw [hfuel, next, List.length_cons, nextOf, nextOf, skipBlank, if_pos h]

theorem next_of_not_blank {c : UInt8} {cs : Bytes} (h : isBlank c = false) :
    next (c :: cs) =
      if c = ch '/' ∧ cs.head? = some (ch '/') then next (afterLine cs.tail)
      else if c = ch '/' ∧ cs.head? = some (ch '*') then
        match afterBlock cs.tail with
        | some rest => next rest
        | none => some (⟨.error, bytes "Unclosed block comment '/* ... */'"⟩,
            (skipBlockComment 1 1 1 cs.tail).2.2.2)
      else some (spelled c cs (takes c cs).1 (takes c cs).2, (takes c cs).2) := by
  rw [next, nextOf, skipBlank, if_neg (by simp [h])]
  dsimp only
  have htail : cs.tail.length ≤ cs.length := by simp
  split_ifs
  · exact nextOf_fuel _ (by have := afterLine_length_le cs.tail; simp; omega) (Nat.lt_succ_self _)
  · cases hrest : afterBlock cs.tail with
    | none => rfl
    | some rest =>
      exact nextOf_fuel _ (by have := afterBlock_length_le hrest; simp; omega) (Nat.lt_succ_self _)
  · exact readToken_eq c cs

/-! ## §2 Steps -/

theorem spellings_loop (fuel : Nat) : ∀ {fuel' : Nat} {t t' : Tokenizer}, t.pos = t'.pos →
    t.pos.length < fuel → t.pos.length < fuel' →
    (tokensLoop fuel t).1.map spelling = (tokensLoop fuel' t').1.map spelling := by
  induction fuel with
  | zero => intro fuel' t t' _ h; omega
  | succ fuel ih =>
    intro fuel' t t' hpos h h'
    obtain ⟨fuel', rfl⟩ : ∃ k, fuel' = k + 1 := ⟨fuel' - 1, by omega⟩
    have hseen : ∀ u : Tokenizer, seen (tokenizerNext u) = next u.pos := fun u =>
      seen_nextFuel _ u
    have ht := hseen t
    have ht' := hseen t'
    rw [← hpos] at ht'
    rw [tokensLoop, tokensLoop]
    rw [seen] at ht ht'
    dsimp only
    cases hnext : next t.pos with
    | none =>
      rw [hnext] at ht ht'
      split at ht
      · next heof =>
        split at ht'
        · next heof' => rw [if_pos heof, if_pos heof']
        · cases ht'
      · cases ht
    | some r =>
      rw [hnext] at ht ht'
      split at ht
      · cases ht
      · next heof =>
        split at ht'
        · cases ht'
        · next heof' =>
          have hr := Option.some.inj ht
          have hr' := Option.some.inj ht'
          have hshort := nextOf_shorter _ (hnext.trans (congrArg some (Prod.eta r).symm))
          have hrest : (tokenizerNext t).2.pos = r.2 := congrArg Prod.snd hr
          have hrest' : (tokenizerNext t').2.pos = r.2 := congrArg Prod.snd hr'
          have hspell : spelling (tokenizerNext t).1 = spelling (tokenizerNext t').1 :=
            (congrArg Prod.fst hr).trans (congrArg Prod.fst hr').symm
          rw [if_neg heof, if_neg heof', List.map_cons, List.map_cons, hspell]
          exact congrArg _ (ih (hrest.trans hrest'.symm) (by rw [hrest]; omega)
            (by rw [hrest]; omega))

theorem spellings_eq (cs : Bytes) :
    spellings cs = match next cs with
      | none => []
      | some (w, rest) => w :: spellings rest := by
  have ht := seen_nextFuel (cs.length + 1) (tokenizerCreate cs)
  rw [spellings, tokensOf, tokensLoop, tokenizerNext]
  change seen (nextFuel (cs.length + 1) (tokenizerCreate cs)) = next cs at ht
  change _ = _ at ht
  rw [seen] at ht
  have hpos : (tokenizerCreate cs).pos = cs := rfl
  rw [hpos]
  dsimp only
  split at ht
  · next heof =>
    rw [if_pos heof, ← ht]
    rfl
  · next heof =>
    rw [if_neg heof, ← ht]
    dsimp only
    have hshort := nextOf_shorter _ (ht.symm : next cs = some _)
    refine congrArg (_ :: ·) (spellings_loop _ rfl ?_ ?_)
    · exact hshort
    · exact Nat.lt_succ_self _

theorem spellings_nil : spellings [] = [] := by
  rw [spellings_eq]
  rfl

/-- A character where neither a blank nor a comment starts. -/
structure AtToken (c : UInt8) (cs : Bytes) : Prop where
  blank : isBlank c = false
  line : ¬ (c = ch '/' ∧ cs.head? = some (ch '/'))
  block : ¬ (c = ch '/' ∧ cs.head? = some (ch '*'))

/-- One step of the tokenizer: what it emits, and what is left. -/
inductive Step : Bytes → List Spelling → Bytes → Prop
  | blank {c : UInt8} {cs : Bytes} (h : isBlank c = true) : Step (c :: cs) [] cs
  | line (cs : Bytes) : Step (ch '/' :: ch '/' :: cs) [] (afterLine cs)
  | block {cs rest : Bytes} (h : afterBlock cs = some rest) : Step (ch '/' :: ch '*' :: cs) [] rest
  | unclosed {cs : Bytes} (h : afterBlock cs = none) :
      Step (ch '/' :: ch '*' :: cs) [⟨.error, bytes "Unclosed block comment '/* ... */'"⟩]
        (skipBlockComment 1 1 1 cs).2.2.2
  | token {c : UInt8} {cs : Bytes} (h : AtToken c cs) :
      Step (c :: cs) [spelled c cs (takes c cs).1 (takes c cs).2] (takes c cs).2

/-- A number of steps. -/
inductive Walk : Bytes → List Spelling → Bytes → Prop
  | refl (cs : Bytes) : Walk cs [] cs
  | step {cs mid rest : Bytes} {ws ws' : List Spelling} (h : Step cs ws mid) (h' : Walk mid ws' rest) :
      Walk cs (ws ++ ws') rest

theorem AtToken.next {c : UInt8} {cs : Bytes} (h : AtToken c cs) :
    next (c :: cs) = some (spelled c cs (takes c cs).1 (takes c cs).2, (takes c cs).2) := by
  rw [next_of_not_blank h.blank, if_neg h.line, if_neg h.block]

/-- The end of the line is a token of its own. -/
theorem Step.newline (cs : Bytes) : Step (ch '\n' :: cs) [⟨.newline, [ch '\n']⟩] cs := by
  have hat : AtToken (ch '\n') cs :=
    ⟨by decide, fun h => absurd h.1 (by decide), fun h => absurd h.1 (by decide)⟩
  have htext : textBetween (ch '\n' :: cs) cs = [ch '\n'] := textBetween_append [ch '\n'] cs
  have hstep := Step.token hat
  have htakes : takes (ch '\n') cs = (.newline, cs) := rfl
  simpa [htakes, spelled, htext] using hstep

theorem Reads.step {w : Spelling} {r : Bytes} (h : Reads w r) : Step (w.text ++ r) [w] r := by
  obtain ⟨c, cs, htext, hblank, hline, hblock, htakes⟩ := h.starts
  have hstep := Step.token ⟨hblank, hline, hblock⟩
  have htaken := textBetween_append w.text r
  rw [htext, List.cons_append] at htaken
  rw [htakes, spelled, if_neg h.notError, htaken, ← htext] at hstep
  rwa [htext, List.cons_append]

theorem not_line_of_block (cs : Bytes) :
    ¬ (ch '/' = ch '/' ∧ (ch '*' :: cs).head? = some (ch '/')) := by
  rintro ⟨-, hhead⟩
  exact absurd (Option.some.inj hhead) (by decide)

theorem spellings_step {cs rest : Bytes} {ws : List Spelling} (h : Step cs ws rest) :
    spellings cs = ws ++ spellings rest := by
  cases h with
  | blank h => rw [spellings_eq, next_blank h, ← spellings_eq, List.nil_append]
  | line cs =>
    rw [spellings_eq, next_of_not_blank (by decide), if_pos ⟨rfl, rfl⟩, ← spellings_eq,
      List.nil_append]
    rfl
  | @block ds _ h =>
    rw [spellings_eq, next_of_not_blank (by decide), if_neg (not_line_of_block ds),
      if_pos ⟨rfl, rfl⟩, List.tail_cons, h]
    dsimp only
    rw [← spellings_eq, List.nil_append]
  | @unclosed ds h =>
    rw [spellings_eq, next_of_not_blank (by decide), if_neg (not_line_of_block ds),
      if_pos ⟨rfl, rfl⟩, List.tail_cons, h]
    rfl
  | token h =>
    rw [spellings_eq, h.next]
    rfl

theorem spellings_walk {cs rest : Bytes} {ws : List Spelling} (h : Walk cs ws rest) :
    spellings cs = ws ++ spellings rest := by
  induction h with
  | refl cs => rfl
  | step h _ ih => rw [spellings_step h, ih, List.append_assoc]

/-! ## §3 What is left is the end of the text -/

theorem afterLine_cons (c : UInt8) (cs : Bytes) :
    afterLine (c :: cs) = if c = ch '\n' then cs else afterLine cs := by
  rw [afterLine, skipLine]
  split_ifs
  · rfl
  · exact skipLine_rest cs 1 _

theorem afterLine_suffix (cs : Bytes) : afterLine cs <:+ cs := by
  induction cs with
  | nil => exact List.suffix_rfl
  | cons c cs ih =>
    rw [afterLine_cons]
    split_ifs
    · exact List.suffix_cons c cs
    · exact ih.trans (List.suffix_cons c cs)

theorem skipBlockComment_suffix (depth line col : Nat) (cs : Bytes) :
    (skipBlockComment depth line col cs).2.2.2 <:+ cs := by
  fun_induction skipBlockComment depth line col cs with
  | case1 => exact List.suffix_rfl
  | case2 => exact List.suffix_rfl
  | case3 => exact List.nil_suffix
  | case4 => exact List.nil_suffix
  | case5 depth line col c c' cs h ih => exact (ih.trans (List.suffix_cons c' cs)).trans (List.suffix_cons c _)
  | case6 depth line col c c' cs h h' ih => exact (ih.trans (List.suffix_cons c' cs)).trans (List.suffix_cons c _)
  | case7 depth line col c' cs h h' ih => exact ih.trans (List.suffix_cons _ _)
  | case8 depth line col c c' cs h h' hc ih => exact ih.trans (List.suffix_cons c _)

theorem skipBlockComment_open (depth line col : Nat) (cs : Bytes)
    (h : (skipBlockComment depth line col cs).1 ≠ 0) :
    (skipBlockComment depth line col cs).2.2.2 = [] := by
  fun_induction skipBlockComment depth line col cs with
  | case1 => exact absurd rfl h
  | case2 => rfl
  | case3 => rfl
  | case4 => rfl
  | case5 _ _ _ _ _ _ _ ih => exact ih h
  | case6 _ _ _ _ _ _ _ _ ih => exact ih h
  | case7 _ _ _ _ _ _ _ ih => exact ih h
  | case8 _ _ _ _ _ _ _ _ _ ih => exact ih h

theorem afterBlock_suffix {cs rest : Bytes} (h : afterBlock cs = some rest) : rest <:+ cs := by
  rw [afterBlock] at h
  split at h
  · cases h
    exact skipBlockComment_suffix 1 1 1 cs
  · cases h

theorem Step.suffix {cs rest : Bytes} {ws : List Spelling} (h : Step cs ws rest) : rest <:+ cs := by
  cases h with
  | blank h => exact List.suffix_cons _ _
  | line cs => exact ((afterLine_suffix cs).trans (List.suffix_cons _ _)).trans (List.suffix_cons _ _)
  | block h => exact ((afterBlock_suffix h).trans (List.suffix_cons _ _)).trans (List.suffix_cons _ _)
  | unclosed h =>
    exact ((skipBlockComment_suffix 1 1 1 _).trans (List.suffix_cons _ _)).trans (List.suffix_cons _ _)
  | token h => exact (takes_suffix _ _).trans (List.suffix_cons _ _)

/-- A step leaves less of the text. -/
theorem Step.shorter {cs rest : Bytes} {ws : List Spelling} (h : Step cs ws rest) :
    rest.length < cs.length := by
  cases h with
  | blank => simp
  | line cs =>
    have := afterLine_length_le cs
    simp only [List.length_cons]
    omega
  | block h =>
    have := afterBlock_length_le h
    simp only [List.length_cons]
    omega
  | @unclosed cs =>
    have := skipBlockComment_le 1 1 1 cs
    simp only [List.length_cons]
    omega
  | @token c cs =>
    have := (takes_suffix c cs).length_le
    simp only [List.length_cons]
    omega

theorem Walk.suffix {cs rest : Bytes} {ws : List Spelling} (h : Walk cs ws rest) : rest <:+ cs := by
  induction h with
  | refl cs => exact List.suffix_rfl
  | step h _ ih => exact ih.trans h.suffix

/-! ## §4 Induction over the steps -/

theorem exists_step (c : UInt8) (cs : Bytes) :
    ∃ ws rest, Step (c :: cs) ws rest ∧ rest.length ≤ cs.length := by
  cases hblank : isBlank c with
  | true => exact ⟨_, _, .blank hblank, le_rfl⟩
  | false =>
    by_cases hline : c = ch '/' ∧ cs.head? = some (ch '/')
    · obtain ⟨rfl, hhead⟩ := hline
      obtain ⟨ds, rfl⟩ := List.head?_eq_some_iff.mp hhead
      refine ⟨_, _, .line ds, ?_⟩
      have := afterLine_length_le ds
      simp
      omega
    · by_cases hopen : c = ch '/' ∧ cs.head? = some (ch '*')
      · obtain ⟨rfl, hhead⟩ := hopen
        obtain ⟨ds, rfl⟩ := List.head?_eq_some_iff.mp hhead
        cases hrest : afterBlock ds with
        | some rest =>
          refine ⟨_, _, .block hrest, ?_⟩
          have := afterBlock_length_le hrest
          simp
          omega
        | none =>
          refine ⟨_, _, .unclosed hrest, ?_⟩
          have := skipBlockComment_le 1 1 1 ds
          simp
          omega
      · exact ⟨_, _, .token ⟨hblank, hline, hopen⟩, (takes_suffix c cs).length_le⟩

/-- What holds of the empty text and is kept by each step backwards holds. -/
theorem step_induction {P : Bytes → Prop} (hnil : P [])
    (hstep : ∀ {cs rest : Bytes} {ws : List Spelling}, Step cs ws rest → P rest → P cs)
    (cs : Bytes) : P cs := by
  generalize hn : cs.length = n
  induction n using Nat.strong_induction_on generalizing cs with
  | h n ih =>
    cases cs with
    | nil => exact hnil
    | cons c cs =>
      obtain ⟨ws, rest, hs, hlen⟩ := exists_step c cs
      rw [List.length_cons] at hn
      exact hstep hs (ih rest.length (by omega) rest rfl)

/-- A token that is no error is its text, read in front of the rest. -/
theorem AtToken.reads {c : UInt8} {cs : Bytes} (h : AtToken c cs) (hne : (takes c cs).1 ≠ .error) :
    (spelled c cs (takes c cs).1 (takes c cs).2).text ++ (takes c cs).2 = c :: cs ∧
      Reads (spelled c cs (takes c cs).1 (takes c cs).2) (takes c cs).2 := by
  obtain ⟨ds, hds⟩ := takes_suffix c cs
  have htext : (spelled c cs (takes c cs).1 (takes c cs).2).text = c :: ds := by
    rw [spelled, if_neg hne]
    have htaken := textBetween_append (c :: ds) (takes c cs).2
    rwa [List.cons_append, hds] at htaken
  refine ⟨by rw [htext, List.cons_append, hds], hne, c, ds, htext, h.blank, ?_, ?_, ?_⟩
  · rw [hds]
    exact h.line
  · rw [hds]
    exact h.block
  · rw [hds]
    rfl

end Aether.Lexing
