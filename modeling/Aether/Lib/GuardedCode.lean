/-
Aether.Lib.GuardedCode — structured code with checks in front of it and
behind it.

`Run` follows code with all its decisions open: which branch is taken and
how often a loop turns. `canEnd` decides how code can end
(`exists_run_iff`). `Runs` follows segments of code with checks between them,
which may or may not stop the program. `Enforces` asks of all runs that the
checks in front come first, that those behind come before each return, and
that a run ends with a check that fails. `enforces_stopping_iff`,
`enforces_passing_iff` and `enforces_unchecked_iff` say when that is so.
-/
import Mathlib.Data.List.Basic

namespace Aether.Lib.GuardedCode

variable {A C : Type*}

/-! ## §1 Code and its runs -/

/-- `jump` ends the turn of a loop, and `leave` leaves the code by another
way than a return. -/
inductive Code (A : Type*) where
  | act (a : A)
  | exit
  | jump
  | leave
  | choice (left right : List (Code A))
  | loop (body : List (Code A))

inductive End where
  | fallsThrough | returned | jumped | left | stopped
  deriving DecidableEq

inductive Run : List (Code A) → List A → End → Prop where
  | nil : Run [] [] .fallsThrough
  | act {a : A} {rest : List (Code A)} {t : List A} {e : End} (h : Run rest t e) :
      Run (.act a :: rest) (a :: t) e
  | exit {rest : List (Code A)} : Run (.exit :: rest) [] .returned
  | jump {rest : List (Code A)} : Run (.jump :: rest) [] .jumped
  | leave {rest : List (Code A)} : Run (.leave :: rest) [] .left
  | choiceLeft {left right rest : List (Code A)} {t : List A} {e : End}
      (h : Run (left ++ rest) t e) : Run (.choice left right :: rest) t e
  | choiceRight {left right rest : List (Code A)} {t : List A} {e : End}
      (h : Run (right ++ rest) t e) : Run (.choice left right :: rest) t e
  | loopDone {body rest : List (Code A)} {t : List A} {e : End} (h : Run rest t e) :
      Run (.loop body :: rest) t e
  | loopTurn {body rest : List (Code A)} {t t' : List A} {e e' : End} (hbody : Run body t e)
      (hturn : e = .fallsThrough ∨ e = .jumped) (h : Run (.loop body :: rest) t' e') :
      Run (.loop body :: rest) (t ++ t') e'
  | loopLeft {body rest : List (Code A)} {t : List A} {e : End} (hbody : Run body t e)
      (hthrough : e ≠ .fallsThrough) (hjump : e ≠ .jumped) : Run (.loop body :: rest) t e

/-- Code never stops the program. -/
theorem Run.ne_stopped {code : List (Code A)} {t : List A} {e : End} (h : Run code t e) :
    e ≠ .stopped := by
  induction h with
  | nil => exact nofun
  | exit => exact nofun
  | jump => exact nofun
  | leave => exact nofun
  | act _ ih => exact ih
  | choiceLeft _ ih => exact ih
  | choiceRight _ ih => exact ih
  | loopDone _ ih => exact ih
  | loopTurn _ _ _ _ ih => exact ih
  | loopLeft _ _ _ ih => exact ih

theorem Run.append {first second : List (Code A)} {t t' : List A} {e : End}
    (h : Run first t .fallsThrough) (h' : Run second t' e) : Run (first ++ second) (t ++ t') e := by
  generalize hend : End.fallsThrough = e' at h
  induction h with
  | nil => exact h'
  | act _ ih => exact .act (ih hend)
  | exit => cases hend
  | jump => cases hend
  | leave => cases hend
  | choiceLeft _ ih =>
    have hrun := ih hend
    rw [List.append_assoc] at hrun
    exact .choiceLeft hrun
  | choiceRight _ ih =>
    have hrun := ih hend
    rw [List.append_assoc] at hrun
    exact .choiceRight hrun
  | loopDone _ ih => exact .loopDone (ih hend)
  | loopTurn hbody hturn _ _ ih =>
    rw [List.append_assoc]
    exact .loopTurn hbody hturn (ih hend)
  | loopLeft _ hthrough _ => exact absurd hend.symm hthrough

/-- What leaves the code leaves out what follows. -/
theorem Run.append_of_ne {first : List (Code A)} {t : List A} {e : End} (h : Run first t e)
    (he : e ≠ .fallsThrough) (second : List (Code A)) : Run (first ++ second) t e := by
  induction h with
  | nil => exact absurd rfl he
  | act _ ih => exact .act (ih he)
  | exit => exact .exit
  | jump => exact .jump
  | leave => exact .leave
  | choiceLeft _ ih =>
    have hrun := ih he
    rw [List.append_assoc] at hrun
    exact .choiceLeft hrun
  | choiceRight _ ih =>
    have hrun := ih he
    rw [List.append_assoc] at hrun
    exact .choiceRight hrun
  | loopDone _ ih => exact .loopDone (ih he)
  | loopTurn hbody hturn _ _ ih => exact .loopTurn hbody hturn (ih he)
  | loopLeft hbody hthrough hjump => exact .loopLeft hbody hthrough hjump

/-! ## §2 How code can end -/

mutual

def Code.canEnd : Code A → End → Bool
  | .act _, e => e == .fallsThrough
  | .exit, e => e == .returned
  | .jump, e => e == .jumped
  | .leave, e => e == .left
  | .choice left right, e => canEnd left e || canEnd right e
  | .loop body, e => e == .fallsThrough || (e != .jumped && canEnd body e)

def canEnd : List (Code A) → End → Bool
  | [], e => e == .fallsThrough
  | c :: rest, e =>
    (c.canEnd .fallsThrough && canEnd rest e) || (e != .fallsThrough && c.canEnd e)

end

theorem canEnd_append (first second : List (Code A)) (e : End) :
    canEnd (first ++ second) e =
      ((canEnd first .fallsThrough && canEnd second e) || (e != .fallsThrough && canEnd first e)) := by
  induction first with
  | nil => cases e <;> simp [canEnd]
  | cons c rest ih =>
    rw [List.cons_append, canEnd, ih, canEnd, canEnd]
    cases c.canEnd .fallsThrough <;> cases canEnd rest .fallsThrough <;> cases canEnd second e <;>
      cases e != .fallsThrough <;> simp

theorem canEnd_of_run {code : List (Code A)} {t : List A} {e : End} (h : Run code t e) :
    canEnd code e = true := by
  induction h with
  | nil => rfl
  | act _ ih => simp [canEnd, Code.canEnd, ih]
  | exit => simp [canEnd, Code.canEnd]
  | jump => simp [canEnd, Code.canEnd]
  | leave => simp [canEnd, Code.canEnd]
  | choiceLeft _ ih =>
    rw [canEnd_append] at ih
    simp only [canEnd, Code.canEnd, Bool.or_eq_true, Bool.and_eq_true] at ih ⊢
    cases ih with
    | inl h => exact Or.inl ⟨Or.inl h.1, h.2⟩
    | inr h => exact Or.inr ⟨h.1, Or.inl h.2⟩
  | choiceRight _ ih =>
    rw [canEnd_append] at ih
    simp only [canEnd, Code.canEnd, Bool.or_eq_true, Bool.and_eq_true] at ih ⊢
    cases ih with
    | inl h => exact Or.inl ⟨Or.inr h.1, h.2⟩
    | inr h => exact Or.inr ⟨h.1, Or.inr h.2⟩
  | loopDone _ ih => simp [canEnd, Code.canEnd, ih]
  | loopTurn _ _ _ _ ih => exact ih
  | loopLeft _ hthrough hjump ih => simp [canEnd, Code.canEnd, ih, hthrough, hjump]

mutual

theorem Code.exists_run {c : Code A} {e : End} (h : c.canEnd e = true) : ∃ t, Run [c] t e := by
  cases c with
  | act a =>
    obtain rfl : e = .fallsThrough := by simpa [Code.canEnd] using h
    exact ⟨[a], .act .nil⟩
  | exit =>
    obtain rfl : e = .returned := by simpa [Code.canEnd] using h
    exact ⟨[], .exit⟩
  | jump =>
    obtain rfl : e = .jumped := by simpa [Code.canEnd] using h
    exact ⟨[], .jump⟩
  | leave =>
    obtain rfl : e = .left := by simpa [Code.canEnd] using h
    exact ⟨[], .leave⟩
  | choice left right =>
    rw [Code.canEnd, Bool.or_eq_true] at h
    cases h with
    | inl h =>
      obtain ⟨t, ht⟩ := exists_run h
      exact ⟨t, .choiceLeft (by rwa [List.append_nil])⟩
    | inr h =>
      obtain ⟨t, ht⟩ := exists_run h
      exact ⟨t, .choiceRight (by rwa [List.append_nil])⟩
  | loop body =>
    by_cases hthrough : e = .fallsThrough
    · subst hthrough
      exact ⟨[], .loopDone .nil⟩
    · obtain ⟨hjump, hbody⟩ : e ≠ .jumped ∧ canEnd body e = true := by
        simpa [Code.canEnd, hthrough] using h
      obtain ⟨t, ht⟩ := exists_run hbody
      exact ⟨t, .loopLeft ht hthrough hjump⟩

theorem exists_run {code : List (Code A)} {e : End} (h : canEnd code e = true) :
    ∃ t, Run code t e := by
  cases code with
  | nil =>
    obtain rfl : e = .fallsThrough := by simpa [canEnd] using h
    exact ⟨[], .nil⟩
  | cons c rest =>
    rw [canEnd, Bool.or_eq_true, Bool.and_eq_true, Bool.and_eq_true] at h
    cases h with
    | inl h =>
      obtain ⟨t, ht⟩ := Code.exists_run h.1
      obtain ⟨t', ht'⟩ := exists_run h.2
      exact ⟨t ++ t', ht.append ht'⟩
    | inr h =>
      obtain ⟨t, ht⟩ := Code.exists_run h.2
      exact ⟨t, ht.append_of_ne (by simpa using h.1) rest⟩

end

mutual

theorem Code.canEnd_somehow (c : Code A) : ∃ e, c.canEnd e = true := by
  cases c with
  | act => exact ⟨.fallsThrough, rfl⟩
  | exit => exact ⟨.returned, rfl⟩
  | jump => exact ⟨.jumped, rfl⟩
  | leave => exact ⟨.left, rfl⟩
  | choice left right =>
    obtain ⟨e, he⟩ := canEnd_somehow left
    exact ⟨e, by rw [Code.canEnd, he, Bool.true_or]⟩
  | loop body => exact ⟨.fallsThrough, by simp [Code.canEnd]⟩

theorem canEnd_somehow (code : List (Code A)) : ∃ e, canEnd code e = true := by
  cases code with
  | nil => exact ⟨.fallsThrough, rfl⟩
  | cons c rest =>
    obtain ⟨e, he⟩ := c.canEnd_somehow
    by_cases hthrough : e = .fallsThrough
    · subst hthrough
      obtain ⟨e', he'⟩ := canEnd_somehow rest
      exact ⟨e', by rw [canEnd, he, he']; rfl⟩
    · exact ⟨e, by simp [canEnd, he, hthrough]⟩

end

/-! ## §3 Checks -/

/-- Code of a function: a check evaluates a condition, and where it stops,
it ends the program when that fails. -/
inductive Segment (A C : Type*) where
  | check (c : C) (stops : Bool)
  | code (body : List (Code A))

inductive Event (A C : Type*) where
  | did (a : A)
  | checked (c : C) (holds : Bool)

inductive Runs : List (Segment A C) → List (Event A C) → End → Prop where
  | nil : Runs [] [] .fallsThrough
  | holds {c : C} {stops : Bool} {rest : List (Segment A C)} {t : List (Event A C)} {e : End}
      (h : Runs rest t e) : Runs (.check c stops :: rest) (.checked c true :: t) e
  | passes {c : C} {rest : List (Segment A C)} {t : List (Event A C)} {e : End}
      (h : Runs rest t e) : Runs (.check c false :: rest) (.checked c false :: t) e
  | stops {c : C} {rest : List (Segment A C)} :
      Runs (.check c true :: rest) [.checked c false] .stopped
  | through {body : List (Code A)} {rest : List (Segment A C)} {acts : List A}
      {t : List (Event A C)} {e : End} (hbody : Run body acts .fallsThrough) (h : Runs rest t e) :
      Runs (.code body :: rest) (acts.map .did ++ t) e
  | leaves {body : List (Code A)} {rest : List (Segment A C)} {acts : List A} {e : End}
      (hbody : Run body acts e) (he : e ≠ .fallsThrough) :
      Runs (.code body :: rest) (acts.map .did) e

/-- The events of checks that hold. -/
def passed (cs : List C) : List (Event A C) := cs.map (.checked · true)

/-- The run ends with the first check that fails. -/
def StoppedAt (cs : List C) (t : List (Event A C)) (e : End) : Prop :=
  ∃ before c after, cs = before ++ c :: after ∧ t = passed before ++ [.checked c false] ∧ e = .stopped

/-- The checks `post` come right before a return, and the run stops at one
that fails. -/
def ExitGuarded (post : List C) (t : List (Event A C)) (e : End) : Prop :=
  (e = .returned → ∃ acts : List A, t = acts.map .did ++ passed post) ∧
    (e = .stopped → ∃ (acts : List A) (t' : List (Event A C)),
      t = acts.map .did ++ t' ∧ StoppedAt post t' e)

/-- The checks `pre` come first, and the run stops at one that fails. -/
def Guarded (pre post : List C) (t : List (Event A C)) (e : End) : Prop :=
  StoppedAt pre t e ∨ ∃ t', t = passed pre ++ t' ∧ ExitGuarded post t' e

def Enforces (pre post : List C) (code : List (Segment A C)) : Prop :=
  ∀ t e, Runs code t e → Guarded pre post t e

/-- A body between checks. -/
def checkedCode (stops : Bool) (pre post : List C) (body : List (Code A)) : List (Segment A C) :=
  pre.map (.check · stops) ++ .code body :: (post.map (.check · stops) ++ [.code [.exit]])

/-- A body without checks. -/
def uncheckedCode (body : List (Code A)) : List (Segment A C) := [.code body, .code [.exit]]

theorem checked_notMem_did (acts : List A) (c : C) (holds : Bool) :
    (.checked c holds : Event A C) ∉ acts.map .did := by
  simp

/-- Acts are no checks. -/
theorem eq_nil_of_did_eq {acts acts' : List A} {cs : List C}
    (h : (acts.map .did : List (Event A C)) = acts'.map .did ++ passed cs) : cs = [] := by
  cases cs with
  | nil => rfl
  | cons c cs =>
    refine absurd ?_ (checked_notMem_did acts c true)
    rw [h]
    simp [passed]

theorem not_stoppedAt {cs : List C} {t : List (Event A C)} {e : End} (he : e ≠ .stopped) :
    ¬ StoppedAt cs t e := fun ⟨_, _, _, _, _, hstop⟩ => he hstop

/-- A run of checks that stop. -/
theorem runs_checks {cs : List C} {rest : List (Segment A C)} {t : List (Event A C)} {e : End}
    (h : Runs (cs.map (.check · true) ++ rest) t e) :
    StoppedAt cs t e ∨ ∃ t', t = passed cs ++ t' ∧ Runs rest t' e := by
  induction cs generalizing t with
  | nil => exact Or.inr ⟨t, rfl, h⟩
  | cons c cs ih =>
    cases h with
    | holds h =>
      cases ih h with
      | inl hstop =>
        obtain ⟨before, c', after, rfl, rfl, rfl⟩ := hstop
        exact Or.inl ⟨c :: before, c', after, rfl, rfl, rfl⟩
      | inr hrest =>
        obtain ⟨t', rfl, hrun⟩ := hrest
        exact Or.inr ⟨t', rfl, hrun⟩
    | stops => exact Or.inl ⟨[], c, cs, rfl, rfl, rfl⟩

/-- Checks that hold let a run through. -/
theorem Runs.checks {cs : List C} {stops : Bool} {rest : List (Segment A C)} {t : List (Event A C)}
    {e : End} (h : Runs rest t e) : Runs (cs.map (.check · stops) ++ rest) (passed cs ++ t) e := by
  induction cs with
  | nil => exact h
  | cons c cs ih => exact .holds ih

/-- Checks that do not stop let a run through when they fail. -/
theorem Runs.failing (cs : List C) {rest : List (Segment A C)} {t : List (Event A C)} {e : End}
    (h : Runs rest t e) :
    Runs (cs.map (.check · false) ++ rest) (cs.map (.checked · false) ++ t) e := by
  induction cs with
  | nil => exact h
  | cons c cs ih => exact .passes ih

theorem runs_exit {t : List (Event A C)} {e : End} (h : Runs [.code [.exit]] t e) :
    t = [] ∧ e = .returned := by
  cases h with
  | through hbody _ => cases hbody
  | leaves hbody _ =>
    cases hbody
    exact ⟨rfl, rfl⟩

/-- What a body and the end of the function do without checks. -/
theorem runs_unchecked {body : List (Code A)} {t : List (Event A C)} {e : End}
    (h : Runs (uncheckedCode body) t e) :
    (∃ acts : List A, t = acts.map .did) ∧ canEnd (body ++ [.exit]) e = true ∧ e ≠ .stopped := by
  cases h with
  | through hbody hexit =>
    obtain ⟨rfl, rfl⟩ := runs_exit hexit
    exact ⟨⟨_, List.append_nil _⟩, canEnd_of_run (hbody.append .exit), nofun⟩
  | leaves hbody he => exact ⟨⟨_, rfl⟩, canEnd_of_run (hbody.append_of_ne he _), hbody.ne_stopped⟩

/-- Whichever way a function can end, checks that hold or do not stop let it. -/
theorem exists_runs {body : List (Code A)} {e : End} (h : canEnd (body ++ [.exit]) e = true)
    {cs : List (Segment A C)} {failed : List (Event A C)}
    (hchecks : Runs (cs ++ [.code [.exit]]) (failed ++ []) .returned) :
    ∃ acts : List A, (e = .returned ∧ Runs (.code body :: (cs ++ [.code [.exit]]))
        (acts.map .did ++ failed) e) ∨
      Runs (.code body :: (cs ++ [.code [.exit]])) (acts.map .did) e := by
  rw [canEnd_append, Bool.or_eq_true, Bool.and_eq_true, Bool.and_eq_true] at h
  cases h with
  | inl h =>
    obtain ⟨acts, hacts⟩ := exists_run h.1
    obtain rfl : e = .returned := by
      cases e <;> simp [canEnd, Code.canEnd] at h ⊢
    rw [List.append_nil] at hchecks
    exact ⟨acts, Or.inl ⟨rfl, .through hacts hchecks⟩⟩
  | inr h =>
    obtain ⟨acts, hacts⟩ := exists_run h.2
    exact ⟨acts, Or.inr (.leaves hacts (by simpa using h.1))⟩

/-! ## §4 Enforcement -/

variable {pre post : List C} {body : List (Code A)}

/-- Without checks, a function enforces nothing. -/
theorem enforces_unchecked_iff :
    Enforces pre post (uncheckedCode body) ↔
      pre = [] ∧ (post = [] ∨ canEnd (body ++ [.exit]) .returned = false) := by
  have hexit : Runs ([] ++ [Segment.code [Code.exit]] : List (Segment A C)) ([] ++ []) .returned :=
    .leaves .exit nofun
  constructor
  · intro h
    have hpre : pre = [] := by
      obtain ⟨e, he⟩ := canEnd_somehow (body ++ [.exit] : List (Code A))
      obtain ⟨acts, hruns⟩ := exists_runs he hexit
      simp only [List.append_nil] at hruns
      have hrun := hruns.elim And.right id
      cases h _ _ hrun with
      | inl hstop => exact absurd hstop (not_stoppedAt (runs_unchecked hrun).2.2)
      | inr hguard =>
        obtain ⟨t', ht, -⟩ := hguard
        cases pre with
        | nil => rfl
        | cons c cs =>
          refine absurd ?_ (checked_notMem_did acts c true)
          rw [ht]
          simp [passed]
    refine ⟨hpre, ?_⟩
    cases hreturn : canEnd (body ++ [.exit]) .returned with
    | false => exact Or.inr rfl
    | true =>
      obtain ⟨acts, hruns⟩ := exists_runs hreturn hexit
      simp only [List.append_nil] at hruns
      cases h _ _ (hruns.elim And.right id) with
      | inl hstop => exact absurd hstop (not_stoppedAt nofun)
      | inr hguard =>
        obtain ⟨t', ht, hguarded, -⟩ := hguard
        obtain ⟨acts', hacts'⟩ := hguarded rfl
        subst hpre
        rw [hacts'] at ht
        exact Or.inl (eq_nil_of_did_eq ht)
  · rintro ⟨rfl, hpost⟩ t e hrun
    obtain ⟨⟨acts, rfl⟩, hend, hstop⟩ := runs_unchecked hrun
    refine Or.inr ⟨_, rfl, ?_, fun h => absurd h hstop⟩
    intro hreturn
    subst hreturn
    cases hpost with
    | inl hnil => exact ⟨acts, by rw [hnil]; simp [passed]⟩
    | inr hno => exact absurd (hend.symm.trans hno) (by decide)

/-- Checks that stop enforce what is in front of the body, and what is
behind it where the body does not return. -/
theorem enforces_stopping_iff :
    Enforces pre post (checkedCode true pre post body) ↔
      post = [] ∨ canEnd body .returned = false := by
  constructor
  · intro h
    cases hreturn : canEnd body .returned with
    | false => exact Or.inr rfl
    | true =>
      obtain ⟨acts, hacts⟩ := exists_run hreturn
      have hrun : Runs (checkedCode true pre post body) (passed pre ++ acts.map .did) .returned :=
        Runs.checks (.leaves hacts nofun)
      cases h _ _ hrun with
      | inl hstop => exact absurd hstop (not_stoppedAt nofun)
      | inr hguard =>
        obtain ⟨t', ht, hguarded, -⟩ := hguard
        obtain ⟨acts', rfl⟩ := hguarded rfl
        exact Or.inl (eq_nil_of_did_eq (List.append_cancel_left ht))
  · intro hpost t e hrun
    cases runs_checks hrun with
    | inl hstop => exact Or.inl hstop
    | inr hrest =>
      obtain ⟨t', rfl, hrest⟩ := hrest
      refine Or.inr ⟨t', rfl, ?_⟩
      cases hrest with
      | leaves hbody he =>
        constructor
        · intro hreturn
          subst hreturn
          cases hpost with
          | inl hnil =>
            subst hnil
            exact ⟨_, (List.append_nil _).symm⟩
          | inr hno => exact absurd ((canEnd_of_run hbody).symm.trans hno) (by decide)
        · exact fun hstop => absurd hstop hbody.ne_stopped
      | through hbody hexit =>
        cases runs_checks hexit with
        | inl hstop =>
          exact ⟨fun hreturn => absurd hstop (not_stoppedAt (hreturn ▸ nofun)),
            fun _ => ⟨_, _, rfl, hstop⟩⟩
        | inr hlast =>
          obtain ⟨t'', rfl, hlast⟩ := hlast
          obtain ⟨rfl, rfl⟩ := runs_exit hlast
          exact ⟨fun _ => ⟨_, by rw [List.append_nil]⟩, nofun⟩

/-- Checks that do not stop enforce as little as none. -/
theorem enforces_passing_iff :
    Enforces pre post (checkedCode false pre post body) ↔
      pre = [] ∧ (post = [] ∨ canEnd (body ++ [.exit]) .returned = false) := by
  -- all checks may fail
  have hfailing : Runs (post.map (.check · false) ++ [Segment.code [Code.exit]] : List (Segment A C))
      (post.map (.checked · false) ++ []) .returned := Runs.failing _ (.leaves .exit nofun)
  constructor
  · intro h
    have hpre : pre = [] := by
      obtain ⟨e, he⟩ := canEnd_somehow (body ++ [.exit] : List (Code A))
      obtain ⟨acts, hruns⟩ := exists_runs he hfailing
      have hstop : e ≠ .stopped := by
        obtain ⟨t, ht⟩ := exists_run he
        exact ht.ne_stopped
      obtain ⟨t, hrun⟩ : ∃ t, Runs (.code body ::
          (post.map (.check · false) ++ [.code [.exit]]) : List (Segment A C)) t e :=
        hruns.elim (fun h => ⟨_, h.2⟩) (fun h => ⟨_, h⟩)
      cases h _ _ (Runs.failing pre hrun) with
      | inl hstopped => exact absurd hstopped (not_stoppedAt hstop)
      | inr hguard =>
        obtain ⟨t', ht, -⟩ := hguard
        cases pre with
        | nil => rfl
        | cons c cs => exact absurd (List.head_eq_of_cons_eq ht) (by simp)
    subst hpre
    refine ⟨rfl, ?_⟩
    cases hreturn : canEnd (body ++ [.exit]) .returned with
    | false => exact Or.inr rfl
    | true =>
      obtain ⟨acts, hruns⟩ := exists_runs hreturn hfailing
      have hguarded : ∀ t, Runs (checkedCode false [] post body) t .returned →
          ∃ acts' : List A, t = acts'.map .did ++ passed post := by
        intro t hrun
        cases h _ _ hrun with
        | inl hstopped => exact absurd hstopped (not_stoppedAt nofun)
        | inr hguard =>
          obtain ⟨t', ht, hguarded, -⟩ := hguard
          subst ht
          exact hguarded rfl
      cases hruns with
      | inl hthrough =>
        obtain ⟨acts', hacts'⟩ := hguarded _ hthrough.2
        obtain ⟨-, hchecks⟩ := List.append_inj' hacts' (by simp [passed])
        cases post with
        | nil => exact Or.inl rfl
        | cons c cs => exact absurd (List.head_eq_of_cons_eq hchecks) (by simp)
      | inr hleaves =>
        obtain ⟨acts', hacts'⟩ := hguarded _ hleaves
        exact Or.inl (eq_nil_of_did_eq hacts')
  · rintro ⟨rfl, hpost⟩
    cases hpost with
    | inl hnil =>
      subst hnil
      exact enforces_unchecked_iff.mpr ⟨rfl, Or.inl rfl⟩
    | inr hno =>
      intro t e hrun
      refine Or.inr ⟨t, rfl, ?_⟩
      cases hrun with
      | through hbody _ => exact absurd ((canEnd_of_run (hbody.append .exit)).symm.trans hno) (by decide)
      | leaves hbody he =>
        constructor
        · intro hreturn
          subst hreturn
          exact absurd ((canEnd_of_run (hbody.append_of_ne he _)).symm.trans hno) (by decide)
        · exact fun hstop => absurd hstop hbody.ne_stopped

end Aether.Lib.GuardedCode
