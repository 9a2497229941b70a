/-
Aether.Lib.Scanner — scanners that look a little way past what they take.

A scanner gives a result and the rest of the text. It is `Steady` for two
rests when the second may stand in for the first after any text that is
scanned up to there: what it takes and what it answers stay the same. The
rules follow the way scanners are put together.
-/
import Mathlib.Data.List.TakeWhile
import Mathlib.Tactic.Common

namespace Aether.Lib.Scanner

variable {α β γ : Type}

/-! ## §1 Runs of accepted characters -/

/-- The text does not start with a character that `p` accepts. -/
def Stops (p : α → Bool) (cs : List α) : Prop := ∀ c ∈ cs.head?, p c = false

@[simp] theorem stops_nil (p : α → Bool) : Stops p [] := by simp [Stops]

@[simp] theorem stops_cons {p : α → Bool} {c : α} {cs : List α} :
    Stops p (c :: cs) ↔ p c = false := by simp [Stops]

theorem dropWhile_of_stops {p : α → Bool} {cs : List α} (h : Stops p cs) : cs.dropWhile p = cs := by
  cases cs with
  | nil => rfl
  | cons c cs => simp [stops_cons.mp h]

theorem stops_dropWhile (p : α → Bool) (cs : List α) : Stops p (cs.dropWhile p) := by
  induction cs with
  | nil => simp
  | cons c cs ih =>
    rw [List.dropWhile_cons]
    split
    · exact ih
    · next h => simpa using h

/-- All of `ds` is accepted and the rest stops. -/
theorem dropWhile_append_eq_iff {p : α → Bool} {ds r : List α} :
    (ds ++ r).dropWhile p = r ↔ ds.all p = true ∧ Stops p r := by
  constructor
  · intro h
    refine ⟨?_, h ▸ stops_dropWhile p (ds ++ r)⟩
    have htake := List.takeWhile_append_dropWhile (p := p) (l := ds ++ r)
    rw [h] at htake
    have hds := List.append_cancel_right htake
    rw [List.all_eq_true, ← hds]
    exact fun c hc => List.mem_takeWhile_imp hc
  · rintro ⟨hall, hstop⟩
    rw [List.dropWhile_append, List.dropWhile_eq_nil_iff.mpr (List.all_eq_true.mp hall)]
    exact dropWhile_of_stops hstop

/-! ## §2 Steady scanners -/

/-- A test of the first character, which is taken when it passes. -/
def onHead (p : α → Bool) (f g : List α → β × List α) : List α → β × List α
  | [] => g []
  | c :: cs => if p c then f cs else g (c :: cs)

theorem onHead_of_stops {p : α → Bool} {f g : List α → β × List α} {cs : List α} (h : Stops p cs) :
    onHead p f g cs = g cs := by
  cases cs with
  | nil => rfl
  | cons c cs => rw [onHead, if_neg (by simpa using h)]

/-- Nothing is taken. -/
def done (b : β) : List α → β × List α := fun cs => (b, cs)

/-- All accepted characters are taken. -/
def takeRun (p : α → Bool) (b : β) : List α → β × List α := fun cs => (b, cs.dropWhile p)

/-- One more character is taken, if there is one. -/
def takeAny (b : β) : List α → β × List α := onHead (fun _ => true) (done b) (done b)

/-- After text that `f` scans up to the rest `r`, or up to somewhere before
it, the rest `r'` changes neither the answer nor the place. -/
structure Steady (r r' : List α) (f : List α → β × List α) : Prop where
  suffix : ∀ cs, (f cs).2 <:+ cs
  exchange : ∀ {b : β} {ds ds' : List α}, f (ds ++ r) = (b, ds' ++ r) →
    f (ds ++ r') = (b, ds' ++ r')

variable {r r' : List α}

theorem not_append_suffix {cs ds : List α} (hlt : cs.length < r.length) : ¬ ds ++ r <:+ cs := by
  intro h
  have := h.length_le
  rw [List.length_append] at this
  omega

/-- A suffix of `ds ++ r` no shorter than `r` ends in `r`. -/
theorem exists_append_of_suffix {ds cs : List α} (h : cs <:+ ds ++ r) (hlen : r.length ≤ cs.length) :
    ∃ ds', cs = ds' ++ r := by
  obtain ⟨before, hbefore⟩ := h
  have hr : r <:+ cs :=
    List.suffix_of_suffix_length_le (List.suffix_append ds r) (hbefore ▸ List.suffix_append before cs)
      hlen
  obtain ⟨ds', hds'⟩ := hr
  exact ⟨ds', hds'.symm⟩

namespace Steady

theorem done (b : β) : Steady r r' (Scanner.done b) where
  suffix cs := List.suffix_rfl
  exchange {b' ds ds'} h := by
    obtain ⟨rfl, hrest⟩ := Prod.mk.inj h
    have hds : ds = ds' := List.append_cancel_right hrest
    rw [Scanner.done, hds]

theorem takeRun {p : α → Bool} (hstop : Stops p r → Stops p r') (b : β) :
    Steady r r' (Scanner.takeRun p b) where
  suffix cs := List.dropWhile_suffix p
  exchange {b' ds ds'} h := by
    obtain ⟨hb, h⟩ := Prod.mk.inj h
    refine Prod.ext hb ?_
    change (ds ++ r').dropWhile p = ds' ++ r'
    obtain ⟨before, hbefore⟩ : ∃ before, ds = before ++ ds' := by
      obtain ⟨before, hb⟩ := List.dropWhile_suffix p (l := ds ++ r)
      rw [h, ← List.append_assoc] at hb
      exact ⟨before, (List.append_cancel_right hb).symm⟩
    subst hbefore
    rw [List.append_assoc] at h ⊢
    obtain ⟨hall, hstops⟩ := dropWhile_append_eq_iff.mp h
    refine dropWhile_append_eq_iff.mpr ⟨hall, ?_⟩
    cases ds' with
    | nil => exact hstop hstops
    | cons d ds' => simpa using hstops

/-- One scanner after another; the second may depend on the first's answer. -/
theorem andThen {f : List α → β × List α} {g : β → List α → γ × List α} (hf : Steady r r' f)
    (hg : ∀ b, Steady r r' (g b)) : Steady r r' fun cs => g (f cs).1 (f cs).2 where
  suffix cs := ((hg (f cs).1).suffix _).trans (hf.suffix cs)
  exchange {b ds ds'} h := by
    have hsuffix := hf.suffix (ds ++ r)
    have hlen : r.length ≤ (f (ds ++ r)).2.length := by
      have := ((hg (f (ds ++ r)).1).suffix (f (ds ++ r)).2).length_le
      rw [h, List.length_append] at this
      omega
    obtain ⟨mid, hmid⟩ := exists_append_of_suffix hsuffix hlen
    have hfirst : f (ds ++ r) = ((f (ds ++ r)).1, mid ++ r) := Prod.ext rfl hmid
    have hsecond := hf.exchange hfirst
    rw [hfirst] at h
    rw [hsecond]
    exact (hg _).exchange h

theorem onHead {p : α → Bool} {f g : List α → β × List α} (hstop : Stops p r → Stops p r')
    (hf : Steady r r' f) (hg : Steady r r' g) :
    Steady r r' (Scanner.onHead p f g) where
  suffix cs := by
    cases cs with
    | nil => exact hg.suffix []
    | cons c cs =>
      rw [Scanner.onHead]
      split
      · exact (hf.suffix cs).trans (List.suffix_cons c cs)
      · exact hg.suffix (c :: cs)
  exchange {b ds ds'} h := by
    cases ds with
    | cons d ds =>
      rw [List.cons_append, Scanner.onHead] at h ⊢
      by_cases hp : p d = true
      · rw [if_pos hp] at h ⊢
        exact hf.exchange h
      · rw [if_neg hp] at h ⊢
        exact @exchange _ _ _ _ _ hg b (d :: ds) ds' h
    | nil =>
      rw [List.nil_append] at h ⊢
      have hrest : g r = (b, ds' ++ r) ∧ Stops p r := by
        cases r with
        | nil => exact ⟨h, stops_nil p⟩
        | cons c cs =>
          rw [Scanner.onHead] at h
          by_cases hp : p c = true
          · -- the first character of the rest would be taken
            rw [if_pos hp] at h
            have hsuffix := hf.suffix cs
            rw [h] at hsuffix
            exact absurd hsuffix (not_append_suffix (Nat.lt_succ_self _))
          · rw [if_neg hp] at h
            exact ⟨h, by simpa using hp⟩
      have hstops := hstop hrest.2
      have hrest' : g r' = (b, ds' ++ r') := @exchange _ _ _ _ _ hg b [] ds' hrest.1
      cases r' with
      | nil => exact hrest'
      | cons c cs =>
        rw [Scanner.onHead, if_neg (by simpa using hstops)]
        exact hrest'

theorem takeAny (hempty : r = [] → r' = []) (b : β) : Steady r r' (Scanner.takeAny b) := by
  refine onHead (fun hstops => ?_) (done b) (done b)
  have hr : r = [] := by
    cases r with
    | nil => rfl
    | cons c cs => simp at hstops
  rw [hempty hr]
  exact stops_nil _

/-- The answer may depend on the text that was taken. -/
theorem withTaken {f : List α → β × List α} (hf : Steady r r' f) (k : β → List α → γ) :
    Steady r r' fun cs => (k (f cs).1 (cs.take (cs.length - (f cs).2.length)), (f cs).2) where
  suffix := hf.suffix
  exchange {b ds ds'} h := by
    obtain ⟨hb, hrest⟩ := Prod.mk.inj h
    have hf' := hf.exchange (Prod.ext rfl hrest : f (ds ++ r) = ((f (ds ++ r)).1, ds' ++ r))
    obtain ⟨before, rfl⟩ : ∃ before, ds = before ++ ds' := by
      obtain ⟨before, hbefore⟩ := hf.suffix (ds ++ r)
      rw [hrest, ← List.append_assoc] at hbefore
      exact ⟨before, (List.append_cancel_right hbefore).symm⟩
    have htake : ∀ rest : List α, (before ++ ds' ++ rest).take
        ((before ++ ds' ++ rest).length - (ds' ++ rest).length) = before := by
      intro rest
      simp
    rw [hrest, htake] at hb
    rw [hf', htake, ← hb]

end Steady

end Aether.Lib.Scanner
