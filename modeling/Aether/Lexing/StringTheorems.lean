/-
Aether.Lexing.StringTheorems — string tokens and their closing quotes.

A string that is closed before the end of the source is a token from quote to
quote. The loop of `scan_string` also ends with the source, and no branch
tells the two ends apart: a string without a closing quote is a string token
as well (`strings_closed_iff`).
-/
import Aether.Lexing.PointerTheorems

namespace Aether.Lexing

open Aether.Lib.Scanner

/-! ## §1 Closed strings -/

/-- Text between two quotes: a backslash escapes the character behind it, and
no quote stands unescaped. -/
inductive QuotedText : Bytes → Prop
  | nil : QuotedText []
  | plain {c : UInt8} {cs : Bytes} (hquote : c ≠ ch '"') (hback : c ≠ ch '\\') (h : QuotedText cs) :
      QuotedText (c :: cs)
  | escape (c : UInt8) {cs : Bytes} (h : QuotedText cs) : QuotedText (ch '\\' :: c :: cs)

/-- A text in quotes whose only unescaped quotes are the first and the last. -/
def ClosedString (text : Bytes) : Prop :=
  ∃ body, QuotedText body ∧ text = ch '"' :: body ++ [ch '"']

/-- Behind an opening quote, a closing one comes before the end of the text. -/
def Closes (cs : Bytes) : Prop := ∃ body rest, QuotedText body ∧ cs = body ++ ch '"' :: rest

theorem QuotedText.scanStringLoop {body : Bytes} (h : QuotedText body) (rest : Bytes) :
    (scanStringLoop 1 1 (body ++ ch '"' :: rest)).2.2 = rest := by
  induction h with
  | nil => exact scanStringLoop_quote 1 1 rest
  | plain hquote hback _ ih =>
    rw [List.cons_append, scanStringLoop_other 1 1 _ hquote hback]
    exact ih
  | escape c _ ih =>
    rw [List.cons_append, List.cons_append, scanStringLoop_escape]
    exact ih

/-- Where nothing closes the string the loop runs to the end of the text. -/
theorem scanStringLoop_of_not_closes (line col : Nat) (cs : Bytes) (h : ¬ Closes cs) :
    (scanStringLoop line col cs).2.2 = [] := by
  fun_induction scanStringLoop line col cs with
  | case1 => rfl
  | case2 line col cs => exact absurd ⟨[], cs, .nil, rfl⟩ h
  | case3 => rfl
  | case4 line col c' cs' hquote ih =>
    refine ih fun hcloses => h ?_
    obtain ⟨body, rest, hbody, rfl⟩ := hcloses
    exact ⟨ch '\\' :: c' :: body, rest, .escape c' hbody, rfl⟩
  | case5 line col c cs hquote hback ih =>
    refine ih fun hcloses => h ?_
    obtain ⟨body, rest, hbody, rfl⟩ := hcloses
    exact ⟨c :: body, rest, .plain hquote hback hbody, rfl⟩

/-! ## §2 String tokens -/

/-- The token that starts with the quote before `cs`. -/
def stringSpelling (cs : Bytes) : Spelling :=
  spelled (ch '"') cs .stringLiteral (takesString cs).2

theorem atToken_quote (cs : Bytes) : AtToken (ch '"') cs :=
  ⟨rfl, fun h => absurd h.1 (by decide), fun h => absurd h.1 (by decide)⟩

theorem next_quote (cs : Bytes) :
    next (ch '"' :: cs) = some (stringSpelling cs, (takesString cs).2) :=
  (atToken_quote cs).next

/-- The text is that of a closed string exactly when a quote closes it. -/
theorem closedString_stringSpelling_iff (cs : Bytes) :
    ClosedString (stringSpelling cs).text ↔ Closes cs := by
  constructor
  · intro hclosed
    by_contra hopen
    have htext : (stringSpelling cs).text = ch '"' :: cs := by
      have hall := textBetween_append (ch '"' :: cs) []
      rw [List.append_nil] at hall
      rw [stringSpelling, spelled, if_neg (by decide), takesString,
        scanStringLoop_of_not_closes 1 1 cs hopen, hall]
    obtain ⟨body, hbody, heq⟩ := hclosed
    rw [htext] at heq
    exact hopen ⟨body, [], hbody, (List.cons.inj heq).2⟩
  · rintro ⟨body, rest, hbody, rfl⟩
    refine ⟨body, hbody, ?_⟩
    have htext := textBetween_append (ch '"' :: body ++ [ch '"']) rest
    rw [stringSpelling, spelled, if_neg (by decide), takesString, hbody.scanStringLoop, ← htext,
      List.append_assoc]
    rfl

theorem twoCharType_ne_string {c next : UInt8} {rest : Bytes} {r : Nat × TokenType}
    (h : twoCharType c next rest = some r) : r.2 ≠ .stringLiteral := by
  revert h
  fun_cases twoCharType c next rest <;> intro h <;> cases h <;> split_ifs <;> decide

theorem singleCharType_ne_string {c : UInt8} {type : TokenType} (h : singleCharType c = some type) :
    type ≠ .stringLiteral := by
  revert h
  fun_cases singleCharType c <;> intro h <;> cases h <;> decide

/-- Only a quote starts a string token. -/
theorem quote_of_takes {c : UInt8} {cs : Bytes} (h : (takes c cs).1 = .stringLiteral) :
    c = ch '"' := by
  by_cases hc : c ∈ startsOperator
  · obtain ⟨f, hf, htakes⟩ := takes_operator hc cs
    exfalso
    rw [htakes] at h
    cases cs with
    | nil =>
      obtain ⟨f', hf', hend, -⟩ := takesOperator_nil c hc
      obtain rfl : f' = f := Option.some.inj (hf'.symm.trans hf)
      rw [hend] at h
      cases h
    | cons next rest =>
      obtain ⟨f', r, hf', htype, hafter⟩ := takesOperator_cons c hc next rest
      obtain rfl : f' = f := Option.some.inj (hf'.symm.trans hf)
      rw [hafter, atEnd] at h
      split_ifs at h
      exact twoCharType_ne_string htype h
  · unfold takes at h
    split_ifs at h with _ _ _ _ _ _ _ hquote
    · cases h
    · change keywordType _ = _ at h
      have hall : ∀ entry ∈ keywords, entry.2 ≠ .stringLiteral := by decide
      exact absurd h (hall _ (mem_keywords (by rw [h]; decide)))
    · rcases takesNumber_type c cs with hnumber | hnumber <;> rw [hnumber] at h <;> cases h
    · exact hquote
    · rw [takesChar_type] at h
      cases h
    · rw [(takesOperator_none c hc).1] at h
      dsimp only [takesSingle] at h
      cases htype : singleCharType c with
      | some type =>
        rw [htype] at h
        exact absurd h (singleCharType_ne_string htype)
      | none =>
        rw [htype] at h
        dsimp only at h
        split_ifs at h
        cases h

/-- A string token of the text is one that the tokenizer comes to. -/
theorem exists_walk_of_string {w : Spelling} (htype : w.type = .stringLiteral) (cs : Bytes) :
    w ∈ spellings cs → ∃ ws ds, Walk cs ws (ch '"' :: ds) ∧ w = stringSpelling ds := by
  refine step_induction (P := fun cs => w ∈ spellings cs →
    ∃ ws ds, Walk cs ws (ch '"' :: ds) ∧ w = stringSpelling ds) ?_ ?_ cs
  · intro h
    rw [spellings_nil] at h
    cases h
  · intro cs rest ws hstep ih h
    rw [spellings_step hstep] at h
    rcases List.mem_append.mp h with hmem | hmem
    · cases hstep with
      | blank => cases hmem
      | line => cases hmem
      | block => cases hmem
      | unclosed =>
        obtain rfl := List.mem_singleton.mp hmem
        cases htype
      | @token c cs hat =>
        obtain rfl := List.mem_singleton.mp hmem
        obtain rfl : c = ch '"' := quote_of_takes htype
        exact ⟨[], cs, .refl _, rfl⟩
    · obtain ⟨ws', ds, hwalk, hw⟩ := ih hmem
      exact ⟨ws ++ ws', ds, .step hstep hwalk, hw⟩

/-! ## §3 Strings that are not closed -/

/-- Every string token is closed, and where a string is not closed before
the end of the source the token is an error. -/
structure StringsClosed (source : Bytes) : Prop where
  closed : ∀ w ∈ spellings source, w.type = .stringLiteral → ClosedString w.text
  error : ∀ ws cs, Walk source ws (ch '"' :: cs) → ¬ Closes cs →
    ∃ w rest, next (ch '"' :: cs) = some (w, rest) ∧ w.type = .error

/-- The tokenizer is right about strings exactly when it comes to none that
the source leaves open. -/
theorem strings_closed_iff (source : Bytes) :
    StringsClosed source ↔ ∀ ws cs, Walk source ws (ch '"' :: cs) → Closes cs := by
  constructor
  · intro h ws cs hwalk
    by_contra hopen
    obtain ⟨w, rest, hnext, herr⟩ := h.error ws cs hwalk hopen
    rw [next_quote] at hnext
    cases hnext
    cases herr
  · intro h
    refine ⟨fun w hw htype => ?_, fun ws cs hwalk hopen => absurd (h ws cs hwalk) hopen⟩
    obtain ⟨ws, ds, hwalk, rfl⟩ := exists_walk_of_string htype source hw
    exact (closedString_stringSpelling_iff ds).mpr (h ws ds hwalk)

/-- `"a` to the end of the source is a string token. -/
theorem not_always_closed : ¬ ∀ source, StringsClosed source := by
  intro h
  have hspellings : spellings (bytes "\"a") = [⟨.stringLiteral, bytes "\"a"⟩] := by decide
  obtain ⟨body, -, htext⟩ := (h (bytes "\"a")).closed ⟨.stringLiteral, bytes "\"a"⟩
    (by rw [hspellings]; exact List.mem_singleton_self _) rfl
  have hlast := congrArg List.getLast? htext
  rw [List.getLast?_concat] at hlast
  exact absurd hlast (by decide)

end Aether.Lexing
