/-
Aether.Lib.Machine — runs of a deterministic machine against runs of a
specification.

* `Machine.run_related` carries a step simulation between two machines
  that answer each operation to whole runs.
* `follows_iff` is for a machine whose step may fail and which follows its
  specification only from good steps: over every run the specification is
  represented in each state if and only if every step was good.
-/
import Mathlib.Data.List.Infix
import Mathlib.Data.List.Induction

namespace Aether.Lib

/-! ## §1 Machines that answer their operations -/

/-- A deterministic machine: one step for each operation, with an answer. -/
structure Machine (σ Op Out : Type*) where
  step : σ → Op → σ × Out

namespace Machine

variable {σ τ Op Out : Type*}

/-- The state after a sequence of operations, and the answers in order. -/
def run (m : Machine σ Op Out) (s : σ) : List Op → σ × List Out
  | [] => (s, [])
  | op :: ops =>
    let (s', out) := m.step s op
    let (last, outs) := m.run s' ops
    (last, out :: outs)

/-- Two machines whose steps keep a relation between their states and
give the same answer give the same answers over every run. -/
theorem run_related {m : Machine σ Op Out} {a : Machine τ Op Out} {R : σ → τ → Prop}
    (hstep : ∀ s t op, R s t →
      R (m.step s op).1 (a.step t op).1 ∧ (m.step s op).2 = (a.step t op).2)
    {s : σ} {t : τ} (hst : R s t) (ops : List Op) :
    R (m.run s ops).1 (a.run t ops).1 ∧ (m.run s ops).2 = (a.run t ops).2 := by
  induction ops generalizing s t with
  | nil => exact ⟨hst, rfl⟩
  | cons op ops ih =>
    obtain ⟨hkeep, hanswer⟩ := hstep s t op hst
    obtain ⟨hlast, hanswers⟩ := ih hkeep
    exact ⟨hlast, by simp only [run, hanswer, hanswers]⟩

end Machine

/-! ## §2 Machines that follow a specification on good steps -/

section Follows

variable {σ τ Op : Type*} {step : σ → Op → Option σ} {spec : τ → Op → τ}
  {Keeps : σ → τ → Prop} {Fits : τ → Prop} {Good : σ → Op → Prop} {Represents : Option σ → τ → Prop}
  {s : σ} {t : τ}

/-- Every step of the run is good in the state it starts from. -/
def GoodRun (step : σ → Op → Option σ) (Good : σ → Op → Prop) (s : σ) (ops : List Op) : Prop :=
  ∀ pre op, pre ++ [op] <+: ops → ∀ s', pre.foldlM step s = some s' → Good s' op

/-- Good steps keep the relation to the specification. -/
theorem GoodRun.keeps
    (hkeep : ∀ s t op, Keeps s t → Fits (spec t op) → Good s op →
      ∃ s', step s op = some s' ∧ Keeps s' (spec t op))
    (hst : Keeps s t) {ops : List Op} (hfits : ∀ pre, pre <+: ops → Fits (pre.foldl spec t))
    (hgood : GoodRun step Good s ops) :
    ∃ s', ops.foldlM step s = some s' ∧ Keeps s' (ops.foldl spec t) := by
  induction ops using List.reverseRecOn with
  | nil => exact ⟨s, rfl, hst⟩
  | append_singleton ops op ih =>
    have hpref : ∀ {pre}, pre <+: ops → pre <+: ops ++ [op] :=
      fun h => h.trans (List.prefix_append _ _)
    obtain ⟨s', hrun, hkept⟩ :=
      ih (fun pre h => hfits pre (hpref h)) fun pre o h => hgood pre o (hpref h)
    have hlast := hfits _ (List.prefix_refl _)
    rw [List.foldl_append] at hlast ⊢
    obtain ⟨s'', hstep, hkept'⟩ :=
      hkeep s' _ op hkept hlast (hgood ops op (List.prefix_refl _) s' hrun)
    exact ⟨s'', by simp [List.foldlM_append, hrun, hstep], hkept'⟩

/-- When a good step keeps the relation and a step that is not good loses
the specification, a run follows its specification exactly when it is
good. -/
theorem follows_iff (Fits : τ → Prop)
    (hkeep : ∀ s t op, Keeps s t → Fits (spec t op) → Good s op →
      ∃ s', step s op = some s' ∧ Keeps s' (spec t op))
    (hlose : ∀ s t op, Keeps s t → Fits (spec t op) → ¬ Good s op →
      ¬ Represents (step s op) (spec t op))
    (hrep : ∀ s t, Keeps s t → Represents (some s) t)
    (hst : Keeps s t) {ops : List Op} (hfits : ∀ pre, pre <+: ops → Fits (pre.foldl spec t)) :
    (∀ pre, pre <+: ops → Represents (pre.foldlM step s) (pre.foldl spec t)) ↔
      GoodRun step Good s ops := by
  constructor
  · intro hall
    induction ops using List.reverseRecOn with
    | nil =>
      intro pre op hpre
      simp at hpre
    | append_singleton ops op ih =>
      have hpref : ∀ {pre}, pre <+: ops → pre <+: ops ++ [op] :=
        fun h => h.trans (List.prefix_append _ _)
      have hfits' : ∀ pre, pre <+: ops → Fits (pre.foldl spec t) :=
        fun pre h => hfits pre (hpref h)
      have hgood := ih hfits' fun pre h => hall pre (hpref h)
      intro pre o hpre s' hrun
      rcases List.prefix_concat_iff.mp hpre with heq | hpre'
      · obtain ⟨rfl, rfl⟩ : pre = ops ∧ o = op := by simpa using heq
        obtain ⟨s'', hrun', hkept⟩ := hgood.keeps hkeep hst hfits'
        obtain rfl : s' = s'' := Option.some.inj (hrun.symm.trans hrun')
        by_contra hbad
        have hlast := hfits _ (List.prefix_refl _)
        have hrepr := hall _ (List.prefix_refl _)
        rw [List.foldl_append] at hlast hrepr
        rw [List.foldlM_append, hrun] at hrepr
        exact hlose s' _ o hkept hlast hbad (by simpa using hrepr)
      · exact hgood pre o hpre' s' hrun
  · intro hgood pre hpre
    have hgood' : GoodRun step Good s pre := fun pre' op h => hgood pre' op (h.trans hpre)
    obtain ⟨s', hrun, hkept⟩ := hgood'.keeps hkeep hst fun pre' h => hfits pre' (h.trans hpre)
    rw [hrun]
    exact hrep s' _ hkept

end Follows

end Aether.Lib
