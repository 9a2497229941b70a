/-
Aether.Lexing.CommentTheorems — deleting a line comment.

The skipper of `tokenizer.c` takes the end of the line with the comment, so
the newline token is lost and deleting the comment brings it back. Only at
the end of the text does a comment leave the tokens alone
(`line_comment_transparent_iff`).
-/
import Aether.Lexing.Walk

namespace Aether.Lexing

open Aether.Lib.Scanner

/-! ## §1 Comments -/

/-- A line comment of a text: the tokenizer comes to its slashes after some
tokens, and it goes on up to the end of its line. -/
structure LineComment where
  before : Bytes
  body : Bytes
  after : Bytes
  tokens : List Spelling
  reached : Walk (before ++ ch '/' :: ch '/' :: (body ++ after)) tokens
    (ch '/' :: ch '/' :: (body ++ after))
  inLine : ch '\n' ∉ body
  lineEnd : ∀ c ∈ after.head?, c = ch '\n'

namespace LineComment

/-- The text from the slashes on. -/
def text (k : LineComment) : Bytes := ch '/' :: ch '/' :: (k.body ++ k.after)

def source (k : LineComment) : Bytes := k.before ++ k.text

/-- The text without the comment; the end of the line stays. -/
def deleted (k : LineComment) : Bytes := k.before ++ k.after

/-- An operator of one character stands right before the slashes. -/
def AfterOperator (k : LineComment) : Prop :=
  ∃ ws c, Walk k.source ws (c :: k.text) ∧ AtToken c k.text ∧ (takes c k.text).1 ∈ bareTypes

end LineComment

/-! ## §2 Steps with another end of the text -/

section Exchange

variable {r r' : Bytes}

theorem afterLine_exchange (hr : r ≠ []) : ∀ {ds ds' : Bytes}, afterLine (ds ++ r) = ds' ++ r →
    afterLine (ds ++ r') = ds' ++ r'
  | [], ds', h => by
    have hlen : (afterLine r).length < r.length := by
      cases r with
      | nil => exact absurd rfl hr
      | cons c cs =>
        rw [afterLine_cons]
        split_ifs
        · simp
        · exact Nat.lt_succ_of_le (afterLine_length_le cs)
    rw [List.nil_append] at h
    rw [h, List.length_append] at hlen
    omega
  | d :: ds, ds', h => by
    rw [List.cons_append, afterLine_cons] at h ⊢
    split_ifs at h ⊢
    · rw [List.append_cancel_right h]
    · exact afterLine_exchange hr h

theorem skipBlockComment_short (depth line col : Nat) (c : UInt8) (cs : Bytes) :
    (skipBlockComment (depth + 1) line col (c :: cs)).2.2.2.length ≤ cs.length := by
  cases cs with
  | nil =>
    rw [skipBlockComment]
    split_ifs <;> exact Nat.le_refl _
  | cons c' cs =>
    rw [skipBlockComment]
    split_ifs
    · exact Nat.le_succ_of_le (skipBlockComment_le _ _ _ cs)
    · exact Nat.le_succ_of_le (skipBlockComment_le _ _ _ cs)
    · exact skipBlockComment_le _ _ _ (c' :: cs)
    · exact skipBlockComment_le _ _ _ (c' :: cs)

/-- A block comment that is closed before the rest. -/
theorem skipBlockComment_exchange (hr : r ≠ []) : ∀ (ds : Bytes) {ds' : Bytes}
    (depth line col : Nat), (skipBlockComment depth line col (ds ++ r)).1 = 0 →
    (skipBlockComment depth line col (ds ++ r)).2.2.2 = ds' ++ r →
    (skipBlockComment depth line col (ds ++ r')).1 = 0 ∧
      (skipBlockComment depth line col (ds ++ r')).2.2.2 = ds' ++ r'
  | ds, ds', 0, line, col, _, h => by
    rw [skipBlockComment] at h ⊢
    have hds : ds = ds' := List.append_cancel_right h
    exact ⟨rfl, by rw [hds]⟩
  | [], ds', depth + 1, line, col, _, h => by
    obtain ⟨c, cs, rfl⟩ := List.exists_cons_of_ne_nil hr
    have hshort := skipBlockComment_short depth line col c cs
    rw [List.nil_append] at h
    rw [h] at hshort
    simp at hshort
    omega
  | [d], ds', depth + 1, line, col, _, h => by
    obtain ⟨c, cs, rfl⟩ := List.exists_cons_of_ne_nil hr
    have hlen : (skipBlockComment (depth + 1) line col (d :: c :: cs)).2.2.2.length ≤ cs.length := by
      rw [skipBlockComment]
      split_ifs
      · exact skipBlockComment_le _ _ _ cs
      · exact skipBlockComment_le _ _ _ cs
      · exact skipBlockComment_short _ _ _ c cs
      · exact skipBlockComment_short _ _ _ c cs
    rw [List.singleton_append] at h
    rw [h] at hlen
    simp at hlen
    omega
  | d :: e :: ds, ds', depth + 1, line, col, hzero, h => by
    rw [List.cons_append, List.cons_append, skipBlockComment] at hzero h ⊢
    split_ifs at hzero h ⊢
    · exact skipBlockComment_exchange hr ds depth _ _ hzero h
    · exact skipBlockComment_exchange hr ds (depth + 2) _ _ hzero h
    · exact skipBlockComment_exchange hr (e :: ds) (depth + 1) _ _ hzero h
    · exact skipBlockComment_exchange hr (e :: ds) (depth + 1) _ _ hzero h

end Exchange

theorem Step.token_of_takes {c : UInt8} {cs rest : Bytes} {type : TokenType} (h : AtToken c cs)
    (htakes : takes c cs = (type, rest)) : Step (c :: cs) [spelled c cs type rest] rest := by
  have hstep := Step.token h
  rwa [htakes] at hstep

/-- The text of a token does not depend on what follows it. -/
theorem spelled_exchange {c : UInt8} {ds ds' r : Bytes} {type : TokenType}
    (h : ds' ++ r <:+ ds ++ r) (r' : Bytes) :
    spelled c (ds ++ r) type (ds' ++ r) = spelled c (ds ++ r') type (ds' ++ r') := by
  obtain ⟨m, hm⟩ := h
  rw [← List.append_assoc] at hm
  obtain rfl := List.append_cancel_right hm
  have htaken : ∀ rest : Bytes, textBetween (c :: (m ++ ds' ++ rest)) (ds' ++ rest) = c :: m := by
    intro rest
    rw [List.append_assoc]
    exact textBetween_append (c :: m) (ds' ++ rest)
  rw [spelled, spelled, htaken, htaken]

/-- A rest of the text may stand in for another behind any token, and after a
slash it opens no comment unless the other one has a mark of a comment there. -/
structure StandsIn (r r' : Bytes) : Prop where
  notEmpty : r ≠ []
  shadows : Shadows r r'
  mark : ∀ k, k = ch '/' ∨ k = ch '*' → r'.head? = some k →
    r.head? = some (ch '/') ∨ r.head? = some (ch '*')

/-- The end of the line stands in for a line comment. -/
theorem StandsIn.of_comment {cs r' : Bytes} (hr' : Stops (fun c => c != ch '\n') r') :
    StandsIn (ch '/' :: ch '/' :: cs) r' where
  notEmpty := List.cons_ne_nil _ _
  shadows := .of_comment hr'
  mark _ _ _ := .inl rfl

section StandsIn

variable {r r' : Bytes}

theorem AtToken.exchange {c : UInt8} {ds : Bytes} (h : AtToken c (ds ++ r)) (hr : StandsIn r r') :
    AtToken c (ds ++ r') := by
  cases ds with
  | nil =>
    have hnot : ∀ k, k = ch '/' ∨ k = ch '*' → ¬ (c = ch '/' ∧ r'.head? = some k) := by
      intro k hk hopen
      rcases hr.mark k hk hopen.2 with hslash | hstar
      · exact h.line ⟨hopen.1, hslash⟩
      · exact h.block ⟨hopen.1, hstar⟩
    exact ⟨h.blank, hnot _ (.inl rfl), hnot _ (.inr rfl)⟩
  | cons d ds => exact ⟨h.blank, h.line, h.block⟩

/-- One step up to somewhere before the rest, or up to it, does not depend
on the rest: another one may stand in for it. -/
theorem Step.exchange {ds ds' : Bytes} {ws : List Spelling} (hr : StandsIn r r')
    (h : Step (ds ++ r) ws (ds' ++ r))
    (hend : ds' = [] → r' = [] → ∀ w ∈ ws, w.type ∉ bareTypes) :
    Step (ds ++ r') ws (ds' ++ r') := by
  have hshort := h.shorter
  generalize htext : ds ++ r = text at h
  generalize hrest : ds' ++ r = rest at h
  match ds with
  | [] =>
    rw [List.nil_append, List.length_append] at hshort
    omega
  | d :: ds =>
    cases h with
    | blank h =>
      obtain ⟨rfl, htl⟩ := List.cons.inj htext
      obtain rfl : ds = ds' := List.append_cancel_right (htl.trans hrest.symm)
      exact .blank h
    | line cs' =>
      obtain ⟨rfl, htl⟩ := List.cons.inj htext
      match ds with
      | [] =>
        have hlen := afterLine_length_le cs'
        rw [← hrest, List.length_append, show r = ch '/' :: cs' from htl, List.length_cons] at hlen
        omega
      | e :: ds =>
        obtain ⟨rfl, hds⟩ := List.cons.inj htl
        rw [← show ds ++ r = cs' from hds] at hrest
        have hline := Step.line (ds ++ r')
        rwa [afterLine_exchange hr.notEmpty hrest.symm] at hline
    | @block cs' _ h =>
      obtain ⟨rfl, htl⟩ := List.cons.inj htext
      match ds with
      | [] =>
        have hlen := afterBlock_length_le h
        rw [← hrest, List.length_append, show r = ch '*' :: cs' from htl, List.length_cons] at hlen
        omega
      | e :: ds =>
        obtain ⟨rfl, hds⟩ := List.cons.inj htl
        rw [← show ds ++ r = cs' from hds, afterBlock] at h
        split at h
        · next hzero =>
          have hrest' := (Option.some.inj h).trans hrest.symm
          obtain ⟨hzero', hafter⟩ : (skipBlockComment 1 1 1 (ds ++ r')).1 = 0 ∧ _ :=
            skipBlockComment_exchange hr.notEmpty ds 1 1 1 hzero hrest'
          have hblock : afterBlock (ds ++ r') = some (ds' ++ r') := by
            rw [afterBlock, if_pos hzero', hafter]
          exact .block hblock
        · cases h
    | @unclosed cs' h =>
      have hopen : (skipBlockComment 1 1 1 cs').1 ≠ 0 := by
        intro hzero
        rw [afterBlock, if_pos hzero] at h
        cases h
      rw [skipBlockComment_open 1 1 1 cs' hopen] at hrest
      exact absurd (List.append_eq_nil_iff.mp hrest).2 hr.notEmpty
    | @token c cs' h =>
      obtain ⟨rfl, hcs⟩ := List.cons.inj htext
      rw [← show ds ++ r = cs' from hcs] at h hrest hend ⊢
      have htakes : takes d (ds ++ r) = ((takes d (ds ++ r)).1, ds' ++ r) :=
        Prod.ext rfl hrest.symm
      have hnew : takes d (ds ++ r') = ((takes d (ds ++ r)).1, ds' ++ r') := by
        refine takes_exchange hr.shadows (fun hbare hnil => ?_) htakes
        obtain ⟨hds', hr⟩ := List.append_eq_nil_iff.mp hnil
        exact absurd hbare (hend hds' hr _ (List.mem_singleton_self _))
      have hstep := Step.token_of_takes (h.exchange hr) hnew
      rw [← spelled_exchange (hrest ▸ takes_suffix d (ds ++ r)) r'] at hstep
      rw [← hrest]
      exact hstep

end StandsIn

/-- A step over an operator of one character. -/
theorem Step.of_bare {cs rest : Bytes} {ws : List Spelling} (h : Step cs ws rest) {w : Spelling}
    (hw : w ∈ ws) (hbare : w.type ∈ bareTypes) :
    ∃ c, cs = c :: rest ∧ AtToken c rest ∧ (takes c rest).1 ∈ bareTypes := by
  cases h with
  | blank => cases hw
  | line => cases hw
  | block => cases hw
  | unclosed =>
    obtain rfl := List.mem_singleton.mp hw
    exact absurd hbare (by simp [bareTypes])
  | @token c cs h =>
    obtain rfl := List.mem_singleton.mp hw
    have hrest := (takes_bare hbare).1
    rw [hrest]
    exact ⟨c, rfl, h, hbare⟩

/-- A walk to before the rest. Only the last step can tell what stands in
its place, when an operator of one character comes to the end of the text. -/
theorem Walk.exchange {r r' : Bytes} (hr : StandsIn r r') {text rest : Bytes}
    {ws : List Spelling} (h : Walk text ws rest) : ∀ {ds ds' : Bytes},
    text = ds ++ r → rest = ds' ++ r →
    (ds' = [] → r' = [] → ∀ ws' c, Walk text ws' (c :: rest) → AtToken c rest →
      (takes c rest).1 ∉ bareTypes) →
    Walk (ds ++ r') ws (ds' ++ r') := by
  induction h with
  | refl text =>
    intro ds ds' htext hrest _
    obtain rfl := List.append_cancel_right (htext.symm.trans hrest)
    exact .refl _
  | @step text mid rest ws ws' hstep hwalk ih =>
    intro ds ds' htext hrest hend
    have hsuffix := hstep.suffix
    rw [htext] at hsuffix
    obtain ⟨dm, hmid⟩ : ∃ dm, mid = dm ++ r := by
      refine exists_append_of_suffix hsuffix ?_
      have := hwalk.suffix.length_le
      rw [hrest, List.length_append] at this
      omega
    refine .step ?_ (ih hmid hrest fun hds' hnil ws' c hw => hend hds' hnil _ c (.step hstep hw))
    subst hmid
    rw [htext] at hstep
    refine hstep.exchange hr fun hdm hnil w hw hbare => ?_
    -- the step ends right before the rest, and so is the last one
    subst hdm
    rw [List.nil_append] at hstep hwalk
    have hds' : ds' = [] := by
      have hlen := hwalk.suffix.length_le
      rw [hrest, List.length_append] at hlen
      exact List.length_eq_zero_iff.mp (by omega)
    subst hds'
    obtain ⟨c, htext', hat, htype⟩ := hstep.of_bare hw hbare
    subst hrest
    rw [htext, htext'] at hend
    exact hend rfl hnil [] c (.refl _) hat htype

/-! ## §3 Deleting a comment -/

namespace LineComment

variable (k : LineComment)

theorem stops_after : Stops (fun c => c != ch '\n') k.after := by
  intro c hc
  simp [k.lineEnd c hc]

/-- The comment is skipped with the end of its line. -/
theorem spellings_text : spellings k.text = spellings k.after.tail := by
  have hline : afterLine (k.body ++ k.after) = k.after.tail := by
    have hbody := k.inLine
    generalize k.body = body at hbody
    induction body with
    | nil =>
      rw [List.nil_append]
      cases hafter : k.after with
      | nil => rfl
      | cons c cs =>
        rw [afterLine_cons, if_pos (k.lineEnd c (by rw [hafter]; rfl))]
        rfl
    | cons c body ih =>
      have hne : c ≠ ch '\n' := fun hc => hbody (hc ▸ List.mem_cons_self ..)
      rw [List.cons_append, afterLine_cons, if_neg hne]
      exact ih fun h => hbody (List.mem_cons_of_mem _ h)
  rw [text, spellings_step (.line _), hline, List.nil_append]

theorem spellings_source : spellings k.source = k.tokens ++ spellings k.after.tail := by
  rw [source, ← spellings_text]
  exact spellings_walk k.reached

/-- The end of the line is a token of its own. -/
theorem spellings_newline (cs : Bytes) :
    spellings (ch '\n' :: cs) = ⟨.newline, [ch '\n']⟩ :: spellings cs := by
  rw [spellings_step (.newline cs)]
  rfl

end LineComment

/-- Deleting a line comment leaves the types and texts of the tokens as they
are exactly when the comment ends with the text and no operator of one
character, which would then end the text, stands right before it. -/
theorem line_comment_transparent_iff (k : LineComment) :
    spellings k.deleted = spellings k.source ↔ k.after = [] ∧ ¬ k.AfterOperator := by
  cases hafter : k.after with
  | cons c cs =>
    -- the newline token is in the one text only
    have hc : c = ch '\n' := k.lineEnd c (by rw [hafter]; rfl)
    have hwalk : Walk k.deleted k.tokens k.after :=
      k.reached.exchange (.of_comment k.stops_after) rfl (List.nil_append _).symm fun _ hnil => by simp [hafter] at hnil
    rw [spellings_walk hwalk, k.spellings_source, hafter, hc, LineComment.spellings_newline]
    simp
  | nil =>
    rw [k.spellings_source, hafter, List.tail_nil, spellings_nil, List.append_nil]
    by_cases hop : k.AfterOperator
    · refine iff_of_false ?_ fun h => h.2 hop
      obtain ⟨ws, c, hwalk, hat, hbare⟩ := hop
      obtain ⟨hrest, hend⟩ := takes_bare hbare
      have htakes : takes c k.text = ((takes c k.text).1, k.text) := Prod.ext rfl hrest
      have htokens : k.tokens = ws ++ [spelled c k.text (takes c k.text).1 k.text] := by
        have hsource := k.spellings_source
        rw [hafter, List.tail_nil, spellings_nil, List.append_nil] at hsource
        rw [← hsource, spellings_walk hwalk, spellings_step (.token_of_takes hat htakes),
          k.spellings_text, hafter, List.tail_nil, spellings_nil, List.append_nil]
      have hshort : Walk k.deleted ws (c :: k.after) :=
        hwalk.exchange (.of_comment k.stops_after) rfl List.singleton_append.symm fun h => nomatch h
      have hlast : AtToken c [] := ⟨hat.blank, by simp, by simp⟩
      rw [spellings_walk hshort, hafter, spellings_step (.token_of_takes hlast hend), spellings_nil,
        List.append_nil, htokens]
      intro heq
      have htype := congrArg Spelling.type (List.cons.inj (List.append_cancel_left heq)).1
      have hne : (takes c k.text).1 ≠ .error := fun herr => absurd (herr ▸ hbare) (by decide)
      exact hne htype.symm
    · have hwalk : Walk k.deleted k.tokens k.after :=
        k.reached.exchange (.of_comment k.stops_after) rfl (List.nil_append _).symm fun _ _ ws c hw hat hbare =>
          hop ⟨ws, c, hw, hat, hbare⟩
      rw [spellings_walk hwalk, hafter, spellings_nil, List.append_nil]
      simp [hop]

/-- `return // done` and a newline: the newline token is lost. -/
def returnComment : LineComment where
  before := bytes "return "
  body := bytes " done"
  after := bytes "\n1"
  tokens := [⟨.kwReturn, bytes "return"⟩]
  reached := by
    have hword : AtToken (ch 'r') (bytes "eturn // done\n1") :=
      ⟨by decide, by decide, by decide⟩
    have hspace : Step (ch ' ' :: bytes "// done\n1") [] (bytes "// done\n1") := .blank (by decide)
    exact .step (.token_of_takes hword
      (by decide : takes _ _ = (_, ch ' ' :: bytes "// done\n1"))) (.step hspace (.refl _))
  inLine := by decide
  lineEnd := by
    have hhead : (bytes "\n1").head? = some (ch '\n') := by decide
    intro c hc
    exact (Option.some.inj (hhead.symm.trans hc)).symm

theorem comment_not_transparent :
    ¬ ∀ k : LineComment, spellings k.deleted = spellings k.source := by
  intro h
  have hlength := congrArg List.length (h returnComment)
  revert hlength
  decide

end Aether.Lexing
