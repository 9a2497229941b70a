/-
Aether.Lexing.Lookahead — how far a token looks past its end.

Nothing of the rest counts but its head, for a numeral also whether a digit
follows a point. `Shadows r r'` is enough for `r'` to stand in for `r` after
a token (`Reads.exchange`).
-/
import Aether.Lexing.Takes

namespace Aether.Lexing

open Aether.Lib.Scanner

/-! ## §1 A rest that may stand in for another -/

/-- Where a token stops before `r`, it stops before `r'`: no character test
tells them apart that knows a slash from the end of a line. -/
structure Shadows (r r' : Bytes) : Prop where
  stop : ∀ {p : UInt8 → Bool}, p (ch '/') = true ∨ p (ch '\n') = false → Stops p r → Stops p r'
  point : r.head? = some (ch '.') → Stops isDigit r.tail → Stops isDigit r'.tail
  empty : r = [] → r' = []

section Exchange

variable {r r' : Bytes}

theorem steady_run (h : Shadows r r') {β : Type} {p : UInt8 → Bool} (b : β)
    (hp : p (ch '/') = true ∨ p (ch '\n') = false) : Steady r r' (takeRun p b) :=
  .takeRun (h.stop hp) b

theorem steady_exponent (h : Shadows r r') : Steady r r' takesExponent :=
  .onHead (h.stop (.inr (by decide)))
    (.onHead (h.stop (.inr (by decide))) (steady_run h true (.inr (by decide)))
      (steady_run h true (.inr (by decide))))
    (.done false)

/-- A point and a digit. -/
def startsFraction (cs : Bytes) : Bool := cs.head?.any (isChar (ch '.')) && cs.tail.head?.any isDigit

theorem skipFraction_eq (cs : Bytes) :
    skipFraction cs =
      if startsFraction cs then takeRun isDigitOrUnderscore true cs.tail else (false, cs) := by
  match cs with
  | [] => rfl
  | [c] => simp [skipFraction, startsFraction]
  | c :: d :: cs =>
    by_cases hc : c = ch '.' ∧ isDigit d = true
    · simp [skipFraction, startsFraction, isChar, hc, takeRun]
    · rw [skipFraction, if_neg hc, if_neg]
      simpa [startsFraction, isChar] using hc

theorem not_startsFraction (h : Shadows r r') {ds : Bytes} (hds : startsFraction (ds ++ r) = false) :
    startsFraction (ds ++ r') = false := by
  match ds with
  | [] =>
    rw [List.nil_append] at hds ⊢
    simp only [startsFraction, Bool.and_eq_false_iff] at hds ⊢
    by_cases hpoint : Stops (isChar (ch '.')) r
    · have hstops := h.stop (.inr (by decide)) hpoint
      refine .inl ?_
      cases r' with
      | nil => rfl
      | cons c cs => simpa using hstops
    · refine .inr ?_
      obtain ⟨cs, rfl⟩ : ∃ cs, r = ch '.' :: cs := by
        cases r with
        | nil => simp at hpoint
        | cons c cs => exact ⟨cs, by simpa [isChar] using hpoint⟩
      have hdigit : Stops isDigit cs := by
        cases cs with
        | nil => simp
        | cons d cs => simpa [isChar] using hds
      have hstops := h.point rfl hdigit
      cases htail : r'.tail with
      | nil => rfl
      | cons d cs => simpa [htail] using hstops
  | [d] =>
    simp only [startsFraction, List.singleton_append, List.head?_cons, List.tail_cons,
      Bool.and_eq_false_iff] at hds ⊢
    refine hds.imp_right fun hdigit => ?_
    have hstops : Stops isDigit r := by
      cases r with
      | nil => simp
      | cons c cs => simpa using hdigit
    have hstops' := h.stop (.inr (by decide)) hstops
    cases r' with
    | nil => rfl
    | cons c cs => simpa using hstops'
  | d :: e :: ds => exact hds

theorem steady_fraction (h : Shadows r r') : Steady r r' skipFraction where
  suffix cs := by
    rw [skipFraction_eq]
    split
    · exact (List.dropWhile_suffix _).trans (List.tail_suffix cs)
    · exact List.suffix_rfl
  exchange {b ds ds'} hds := by
    have hrun := steady_run h true (p := isDigitOrUnderscore) (.inr (by decide))
    rw [skipFraction_eq] at hds ⊢
    cases hstart : startsFraction (ds ++ r) with
    | false =>
      rw [hstart] at hds
      obtain ⟨rfl, hrest⟩ := Prod.mk.inj hds
      obtain rfl := List.append_cancel_right hrest
      rw [not_startsFraction h hstart]
      rfl
    | true =>
      rw [hstart, if_pos rfl] at hds
      have hlen := (hrun.suffix (ds ++ r).tail).length_le
      rw [hds] at hlen
      match ds with
      | [] =>
        cases r with
        | nil => cases hstart
        | cons c cs => simp at hlen; omega
      | [d] =>
        -- the digit of the rest would be taken
        exfalso
        cases r with
        | nil => simp [startsFraction] at hstart
        | cons c cs =>
          have hdigit : isDigitOrUnderscore c = true := by
            simp only [startsFraction, List.singleton_append, List.tail_cons, List.head?_cons,
              Option.any_some, Bool.and_eq_true] at hstart
            rw [isDigitOrUnderscore, hstart.2, Bool.true_or]
          have hshort := (List.dropWhile_suffix isDigitOrUnderscore (l := cs)).length_le
          have hrest := (Prod.mk.inj hds).2
          simp only [List.singleton_append, List.tail_cons, List.dropWhile_cons, hdigit,
            if_true] at hrest
          rw [hrest] at hshort
          simp at hshort
          omega
      | d :: e :: ds =>
        have hsame : startsFraction (d :: e :: ds ++ r') = true := hstart
        rw [hsame, if_pos rfl]
        exact hrun.exchange hds

theorem steady_decimal (h : Shadows r r') : Steady r r' takesDecimal :=
  (steady_run h () (p := isDigitOrUnderscore) (.inr (by decide))).andThen fun _ =>
    (steady_fraction h).andThen fun hasFraction =>
      (steady_exponent h).andThen fun hasExponent =>
        .done (if hasFraction || hasExponent then TokenType.floatLiteral else .intLiteral)

theorem steady_number (h : Shadows r r') (c : UInt8) : Steady r r' (takesNumber c) := by
  unfold takesNumber
  split
  · exact .onHead (h.stop (.inr (by decide))) (steady_run h _ (.inr (by decide)))
      (.onHead (h.stop (.inr (by decide))) (steady_run h _ (.inr (by decide)))
        (.onHead (h.stop (.inr (by decide))) (steady_run h _ (.inr (by decide)))
          (steady_decimal h)))
  · exact steady_decimal h

theorem scanStringLoop_suffix (line col : Nat) (cs : Bytes) :
    (scanStringLoop line col cs).2.2 <:+ cs := by
  fun_induction scanStringLoop line col cs with
  | case1 => exact List.suffix_rfl
  | case2 => exact List.suffix_cons _ _
  | case3 => exact List.nil_suffix
  | case4 line col hq c' cs' ih => exact (ih.trans (List.suffix_cons _ _)).trans (List.suffix_cons _ _)
  | case5 line col c cs hq hb ih => exact ih.trans (List.suffix_cons _ _)

theorem scanStringLoop_quote (line col : Nat) (cs : Bytes) :
    (scanStringLoop line col (ch '"' :: cs)).2.2 = cs := by
  rw [scanStringLoop.eq_def]
  dsimp only
  rw [if_pos rfl]

theorem scanStringLoop_escape (line col : Nat) (c : UInt8) (cs : Bytes) :
    (scanStringLoop line col (ch '\\' :: c :: cs)).2.2 = (scanStringLoop 1 1 cs).2.2 := by
  rw [scanStringLoop.eq_def]
  exact scanStringLoop_rest _ _ _ _ _

theorem scanStringLoop_other (line col : Nat) {c : UInt8} (cs : Bytes) (hq : c ≠ ch '"')
    (hb : c ≠ ch '\\') :
    (scanStringLoop line col (c :: cs)).2.2 = (scanStringLoop 1 1 cs).2.2 := by
  rw [scanStringLoop.eq_def]
  dsimp only
  rw [if_neg hq, if_neg hb]
  exact scanStringLoop_rest _ _ _ _ _

theorem scanStringLoop_short (line col : Nat) (c : UInt8) (cs : Bytes) :
    (scanStringLoop line col (c :: cs)).2.2.length ≤ cs.length := by
  by_cases hq : c = ch '"'
  · rw [hq, scanStringLoop_quote]
  · by_cases hb : c = ch '\\'
    · subst hb
      cases cs with
      | nil => exact Nat.le_refl _
      | cons d ds =>
        rw [scanStringLoop_escape]
        exact Nat.le_succ_of_le (scanStringLoop_suffix 1 1 ds).length_le
    · rw [scanStringLoop_other line col cs hq hb]
      exact (scanStringLoop_suffix 1 1 cs).length_le

/-- Text that is scanned up to the rest, which is at its end when the rest
is empty. -/
theorem scanStringLoop_exchange (hempty : r = [] → r' = []) : ∀ (ds : Bytes) {line col : Nat}
    {ds' : Bytes}, (scanStringLoop line col (ds ++ r)).2.2 = ds' ++ r →
      (scanStringLoop line col (ds ++ r')).2.2 = ds' ++ r'
  | [], line, col, ds', hds => by
    cases r with
    | nil =>
      rw [hempty rfl]
      exact hds
    | cons c cs =>
      have hshort := scanStringLoop_short line col c cs
      rw [List.nil_append] at hds
      rw [hds] at hshort
      simp at hshort
      omega
  | [c], line, col, ds', hds => by
    by_cases hq : c = ch '"'
    · subst hq
      rw [List.singleton_append, scanStringLoop_quote] at hds ⊢
      have hnil : ds' = [] := by simpa using hds
      rw [hnil, List.nil_append]
    · by_cases hb : c = ch '\\'
      · subst hb
        cases r with
        | nil =>
          rw [hempty rfl]
          exact hds
        | cons d cs =>
          rw [List.singleton_append, scanStringLoop_escape] at hds
          have hshort := (scanStringLoop_suffix 1 1 cs).length_le
          rw [hds] at hshort
          simp at hshort
          omega
      · rw [List.singleton_append, scanStringLoop_other line col _ hq hb] at hds ⊢
        exact scanStringLoop_exchange hempty [] hds
  | c :: d :: ds, line, col, ds', hds => by
    by_cases hq : c = ch '"'
    · subst hq
      rw [List.cons_append, scanStringLoop_quote] at hds ⊢
      rw [List.append_cancel_right hds]
    · by_cases hb : c = ch '\\'
      · subst hb
        rw [List.cons_append, List.cons_append, scanStringLoop_escape] at hds ⊢
        exact scanStringLoop_exchange hempty ds hds
      · rw [List.cons_append, scanStringLoop_other line col _ hq hb] at hds ⊢
        exact scanStringLoop_exchange hempty (d :: ds) hds

theorem steady_string (h : Shadows r r') : Steady r r' takesString where
  suffix cs := scanStringLoop_suffix 1 1 cs
  exchange {b ds ds'} hds := by
    obtain ⟨rfl, hrest⟩ := Prod.mk.inj hds
    exact Prod.ext rfl (scanStringLoop_exchange h.empty ds hrest)

theorem steady_char (h : Shadows r r') : Steady r r' takesChar := by
  have hbody : Steady r r' takesCharBody :=
    .onHead (h.stop (.inr (by decide)))
      (.onHead (h.stop (.inr (by decide)))
        (.onHead (h.stop (.inr (by decide)))
          (.onHead (h.stop (.inr (by decide))) (.done ()) (.done ()))
          (.takeAny h.empty ()))
        (.takeAny h.empty ()))
      (.takeAny h.empty ())
  have hquote : Steady r r'
      (onHead (isChar (ch '\'')) (done TokenType.charLiteral) (done .charLiteral)) :=
    .onHead (h.stop (.inr (by decide))) (.done _) (.done _)
  exact hbody.andThen fun _ => hquote

theorem steady_word (h : Shadows r r') (c : UInt8) : Steady r r' (takesWord c) :=
  (steady_run h () (p := isIdentContinue) (.inr (by decide))).withTaken fun _ taken =>
    keywordType (c :: taken)

theorem steady_unicode (h : Shadows r r') : Steady r r' takesUnicode :=
  (Steady.takeAny h.empty ()).andThen fun _ =>
    steady_run h TokenType.unicodeOp (p := isUtf8Continuation) (.inr (by decide))

theorem steady_operator (h : Shadows r r') {c : UInt8} {f : Bytes → TokenType × Bytes}
    (hf : takesOperator c = some f) : Steady r r' f := by
  have goesOn : ∀ (k : UInt8) (type : TokenType) {g : Bytes → TokenType × Bytes},
      isChar k (ch '\n') = false → Steady r r' g →
      Steady r r' (onHead (isChar k) (done type) g) :=
    fun k type g hk hg => .onHead (h.stop (.inr hk)) (.done type) hg
  by_cases hc : c ∈ startsOperator
  · rcases startsOperator_cases hc with
      rfl | rfl | rfl | rfl | rfl | rfl | rfl | rfl | rfl | rfl | rfl <;> cases hf
    · exact goesOn _ _ (by decide) (.done _)
    · exact goesOn _ _ (by decide) (.done _)
    · exact goesOn _ _ (by decide) (goesOn _ _ (by decide) (.done _))
    · exact goesOn _ _ (by decide) (goesOn _ _ (by decide) (.done _))
    · exact goesOn _ _ (by decide) (.done _)
    · exact .done _
    · exact goesOn _ _ (by decide) (goesOn _ _ (by decide) (goesOn _ _ (by decide) (.done _)))
    · exact goesOn _ _ (by decide) (goesOn _ _ (by decide) (.done _))
    · exact goesOn _ _ (by decide) (goesOn _ _ (by decide) (.done _))
    · exact .onHead (h.stop (.inr (by decide))) (goesOn _ _ (by decide) (.done _)) (.done _)
    · exact goesOn _ _ (by decide) (.done _)
  · rw [(takesOperator_none c hc).1] at hf
    cases hf

theorem steady_single (h : Shadows r r') (c : UInt8) : Steady r r' (takesSingle c) := by
  unfold takesSingle
  split
  · exact .done _
  · split
    · exact steady_unicode h
    · exact .done _

theorem takesOperatorName_suffix (cs : Bytes) : (takesOperatorName cs).2 <:+ cs :=
  (List.dropWhile_suffix _).trans (List.drop_suffix 2 cs)

theorem takes_suffix (c : UInt8) (cs : Bytes) : (takes c cs).2 <:+ cs := by
  have hsame : Shadows cs cs := ⟨fun _ h => h, fun _ h => h, fun h => h⟩
  unfold takes
  split_ifs
  · exact List.suffix_rfl
  · exact List.suffix_rfl
  · exact List.suffix_rfl
  · exact List.suffix_rfl
  · exact takesOperatorName_suffix cs
  · exact (steady_word hsame c).suffix cs
  · exact (steady_number hsame c).suffix cs
  · exact (steady_string hsame).suffix cs
  · exact (steady_char hsame).suffix cs
  · cases hop : takesOperator c with
    | some f =>
      dsimp only
      rw [atEnd]
      split
      · exact List.nil_suffix
      · exact (steady_operator hsame hop).suffix cs
    | none => exact (steady_single hsame c).suffix cs

theorem takes_operatorName {cs : Bytes} (h : cs.take 2 = bytes "p_") :
    takes (ch 'o') cs = takesOperatorName cs := by
  unfold takes
  rw [if_neg (by decide), if_neg (by decide), if_neg (by decide), if_neg (by decide), if_pos ⟨rfl, h⟩]

theorem takes_o {cs : Bytes} (h : cs.take 2 ≠ bytes "p_") :
    takes (ch 'o') cs = takesWord (ch 'o') cs := by
  unfold takes
  rw [if_neg (by decide), if_neg (by decide), if_neg (by decide), if_neg (by decide),
    if_neg (fun hop => h hop.2), if_pos (by decide)]

theorem exists_of_take_op {cs : Bytes} (h : cs.take 2 = bytes "p_") :
    ∃ cs', cs = ch 'p' :: ch '_' :: cs' := by
  match cs, h with
  | [], h => exact absurd (congrArg List.length h) (by decide)
  | [c], h => exact absurd (congrArg List.length h) (by simp; decide)
  | c :: d :: cs, h =>
    have hcd : [c, d] = [ch 'p', ch '_'] := h
    obtain ⟨rfl, hd⟩ := List.cons.inj hcd
    exact ⟨cs, by rw [(List.cons.inj hd).1]⟩

/-- `op_` at the start of a name is within the name. -/
theorem operatorName_inside {ds ds' : Bytes} {type : TokenType}
    (hds : takes (ch 'o') (ds ++ r) = (type, ds' ++ r)) (hop : (ds ++ r).take 2 = bytes "p_") :
    ∃ ds₂, ds = ch 'p' :: ch '_' :: ds₂ := by
  rw [takes_operatorName hop] at hds
  obtain ⟨cs', hcs'⟩ := exists_of_take_op hop
  have hlen := (List.dropWhile_suffix (fun c => !isOpDelimiter c) (l := (ds ++ r).drop 2)).length_le
  rw [(Prod.mk.inj hds).2, List.length_drop] at hlen
  have htotal := congrArg List.length hcs'
  simp only [List.length_append, List.length_cons] at hlen htotal
  match ds, hcs' with
  | [], _ => simp only [List.length_nil] at hlen htotal; omega
  | [d], _ => simp only [List.length_cons, List.length_nil] at hlen htotal; omega
  | d :: e :: ds₂, hcs' =>
    obtain ⟨rfl, htail⟩ := List.cons.inj hcs'
    obtain ⟨rfl, -⟩ := List.cons.inj htail
    exact ⟨ds₂, rfl⟩

/-- A word that ends before the rest is gone on with by no other one. -/
theorem not_operatorName (h : Shadows r r') {ds ds' : Bytes} {type : TokenType}
    (hds : takes (ch 'o') (ds ++ r) = (type, ds' ++ r)) (hop : (ds ++ r).take 2 ≠ bytes "p_") :
    (ds ++ r').take 2 ≠ bytes "p_" := by
  intro hop'
  obtain ⟨cs', hcs'⟩ := exists_of_take_op hop'
  rw [takes_o hop] at hds
  have hrest : (ds ++ r).dropWhile isIdentContinue = ds' ++ r := (Prod.mk.inj hds).2
  have hstop : ds.all isIdentContinue = true → Stops isIdentContinue r' := by
    intro hall
    have hdrop : (ds ++ r).dropWhile isIdentContinue = r.dropWhile isIdentContinue := by
      rw [List.dropWhile_append, List.dropWhile_eq_nil_iff.mpr (List.all_eq_true.mp hall)]
      rfl
    have hnil : ds' = [] := by
      have hlen := (List.dropWhile_suffix isIdentContinue (l := r)).length_le
      rw [← hdrop, hrest, List.length_append] at hlen
      exact List.length_eq_zero_iff.mp (by omega)
    rw [hdrop, hnil, List.nil_append] at hrest
    exact h.stop (.inr (by decide)) (hrest ▸ stops_dropWhile _ _)
  match ds with
  | [] =>
    have hstops := hstop rfl
    rw [show r' = ch 'p' :: ch '_' :: cs' from hcs', stops_cons] at hstops
    exact absurd hstops (by decide)
  | [d] =>
    obtain ⟨rfl, hr'⟩ := List.cons.inj hcs'
    have hstops := hstop (by decide)
    rw [show r' = ch '_' :: cs' from hr', stops_cons] at hstops
    exact absurd hstops (by decide)
  | d :: e :: ds => exact hop hop'

/-- After a token, one rest may stand in for another. An operator of one
character must not come to the end of the text. -/
theorem takes_exchange (h : Shadows r r') {c : UInt8} {ds ds' : Bytes} {type : TokenType}
    (hend : type ∈ bareTypes → ds' ++ r' = [] → ds' ++ r = [])
    (hds : takes c (ds ++ r) = (type, ds' ++ r)) : takes c (ds ++ r') = (type, ds' ++ r') := by
  by_cases ho : c = ch 'o'
  · subst ho
    by_cases hop : (ds ++ r).take 2 = bytes "p_"
    · obtain ⟨ds₂, rfl⟩ := operatorName_inside hds hop
      rw [takes_operatorName rfl] at hds ⊢
      exact (steady_run h TokenType.ident (p := fun c => !isOpDelimiter c) (.inl rfl)).exchange hds
    · have hop' := not_operatorName h hds hop
      rw [takes_o hop] at hds
      rw [takes_o hop']
      exact (steady_word h _).exchange hds
  · have hname : ∀ cs : Bytes, ¬ (c = ch 'o' ∧ cs.take 2 = bytes "p_") := fun _ hop => ho hop.1
    unfold takes at hds ⊢
    rw [if_neg (hname _)] at hds ⊢
    split_ifs at hds ⊢
    · exact (Steady.done TokenType.newline).exchange hds
    · exact (Steady.done TokenType.backslash).exchange hds
    · exact (Steady.done TokenType.slash).exchange hds
    · exact (Steady.done TokenType.hash).exchange hds
    · exact (steady_word h c).exchange hds
    · exact (steady_number h c).exchange hds
    · exact (steady_string h).exchange hds
    · exact (steady_char h).exchange hds
    · cases hop : takesOperator c with
      | none =>
        rw [hop] at hds
        exact (steady_single h c).exchange hds
      | some f =>
        rw [hop] at hds
        dsimp only at hds ⊢
        rw [atEnd] at hds
        split at hds
        · next hbare =>
          -- both rests are empty
          obtain ⟨-, hnil⟩ := Prod.mk.inj hds
          have hr := (List.append_eq_nil_iff.mp hnil.symm).2
          rw [hr] at hbare hds
          rw [h.empty hr, atEnd, if_pos hbare]
          exact hds
        · next hbare =>
          have hf := (steady_operator h hop).exchange hds
          rw [hf, atEnd, if_neg]
          rintro ⟨htype, hnil⟩
          refine hbare ?_
          rw [hds]
          exact ⟨htype, hend htype hnil⟩

end Exchange

theorem Shadows.of_head {r r' : Bytes} (hhead : r'.head? = r.head?)
    (hdigit : r.head? = some (ch '.') → Stops isDigit r.tail → Stops isDigit r'.tail) :
    Shadows r r' where
  stop _ hr := by rwa [Stops, hhead]
  point := hdigit
  empty hr := by
    rw [hr] at hhead
    exact List.head?_eq_none_iff.mp hhead

/-- The end of the line stands in for a comment. -/
theorem Shadows.of_comment {cs r' : Bytes} (hr' : Stops (fun c => c != ch '\n') r') :
    Shadows (ch '/' :: cs) r' where
  stop {p} hp hr := by
    have hslash : p (ch '/') = false := stops_cons.mp hr
    rw [hslash] at hp
    have hnewline := hp.resolve_left Bool.false_ne_true
    cases r' with
    | nil => simp
    | cons c cs =>
      have hc : c = ch '\n' := by simpa using hr'
      rw [hc, stops_cons, hnewline]
  point hr := by
    have hne : ch '/' = ch '.' := Option.some.inj hr
    exact absurd hne (by decide)
  empty hr := by cases hr

/-! ## §2 Tokens that are read back -/

/-- The token is what the tokenizer reads at its own text, before `r`. -/
structure Reads (w : Spelling) (r : Bytes) : Prop where
  notError : w.type ≠ .error
  starts : ∃ c cs, w.text = c :: cs ∧ isBlank c = false ∧
    ¬ (c = ch '/' ∧ (cs ++ r).head? = some (ch '/')) ∧
    ¬ (c = ch '/' ∧ (cs ++ r).head? = some (ch '*')) ∧
    takes c (cs ++ r) = (w.type, r)

theorem Reads.exchange {w : Spelling} {r r' : Bytes} (hreads : Reads w r) (h : Shadows r r')
    (hend : w.type ∈ bareTypes → r' = [] → r = []) : Reads w r' := by
  obtain ⟨c, cs, htext, hblank, hline, hblock, htakes⟩ := hreads.starts
  have hslash : c = ch '/' → cs = [] := by
    rintro rfl
    have hrest : cs ++ r = r := (Prod.mk.inj htakes).2
    simpa using hrest
  have hnot : ∀ k : UInt8, isChar k (ch '/') = true ∨ isChar k (ch '\n') = false →
      ¬ (c = ch '/' ∧ (cs ++ r).head? = some k) → ¬ (c = ch '/' ∧ (cs ++ r').head? = some k) := by
    rintro k hk hno ⟨hc, hhead⟩
    rw [hslash hc, List.nil_append] at hhead hno
    have hstops : Stops (isChar k) r := by
      intro d hd
      have hne : d ≠ k := fun heq => hno ⟨hc, by rw [← heq]; exact hd⟩
      simpa [isChar] using hne
    have hstops' := h.stop hk hstops k hhead
    simp [isChar] at hstops'
  have htakes' : takes c (cs ++ r') = (w.type, [] ++ r') :=
    takes_exchange h hend (htakes : _ = (_, [] ++ r))
  exact ⟨hreads.notError, c, cs, htext, hblank, hnot _ (.inl (by decide)) hline,
    hnot _ (.inr (by decide)) hblock, htakes'⟩

end Aether.Lexing
