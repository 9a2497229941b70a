/-
Aether.Lib.ReferenceGraph — definitions that refer to one another.

`r a b` says that the definition of `a` refers to `b`. When finitely many
names have a definition, following references from `a` ends if and only if
no name that is reached lies on a cycle (`ends_iff_acyclic`).
-/
import Mathlib.Data.Fintype.Card
import Mathlib.Data.Set.Finite.Basic
import Mathlib.Logic.Relation

namespace Aether.Lib.ReferenceGraph

open Relation

variable {α : Type*} {r : α → α → Prop}

/-- No name that is reached from `a` refers to itself, directly or through
others. -/
def Acyclic (r : α → α → Prop) (a : α) : Prop := ∀ b, ReflTransGen r a b → ¬ TransGen r b b

/-- Every chain of references from `a` ends. -/
abbrev Ends (r : α → α → Prop) (a : α) : Prop := Acc (fun b a => r a b) a

theorem Acyclic.step {a b : α} (h : Acyclic r a) (hr : r a b) : Acyclic r b :=
  fun c hreach => h c (.head hr hreach)

theorem not_self {s : α → α → Prop} {a : α} (h : Acc s a) : ¬ s a a := by
  induction h with
  | intro a _ ih => exact fun hself => ih a hself hself

theorem Ends.not_cycle {a : α} (h : Ends r a) : ¬ TransGen r a a := by
  have hswap : Acc (TransGen fun b a => r a b) a := h.transGen
  intro hcycle
  rw [← transGen_swap] at hcycle
  exact not_self hswap hcycle

theorem Ends.reach {a b : α} (h : Ends r a) (hreach : ReflTransGen r a b) : Ends r b := by
  induction hreach with
  | refl => exact h
  | tail _ hstep ih => exact ih.inv hstep

theorem acyclic_of_ends {a : α} (h : Ends r a) : Acyclic r a :=
  fun _ hreach => (h.reach hreach).not_cycle

/-- Among finitely many defined names without a cycle, one is defined
after all the names below it. -/
theorem ends_of_acyclic (hfin : {a | ∃ b, r a b}.Finite) {a : α} (h : Acyclic r a) : Ends r a := by
  let S := {b | (∃ c, r b c) ∧ ReflTransGen r a b}
  have hS : Finite S := (hfin.subset fun b hb => hb.1).to_subtype
  let below (b c : S) : Prop := TransGen r c.1 b.1
  have htrans : IsTrans S below := ⟨fun _ _ _ hbc hcd => hcd.trans hbc⟩
  have hirrefl : Std.Irrefl below := ⟨fun b => h b.1 b.2.2⟩
  have hwf : WellFounded below := Finite.wellFounded_of_trans_of_irrefl below
  have hinner : ∀ b : S, Ends r b.1 := by
    intro b
    induction b using hwf.induction with
    | h b ih =>
      refine ⟨_, fun c hc => ?_⟩
      by_cases hleaf : ∃ d, r c d
      · exact ih ⟨c, hleaf, b.2.2.tail hc⟩ (.single hc)
      · exact ⟨_, fun d hd => absurd ⟨d, hd⟩ hleaf⟩
  by_cases hleaf : ∃ b, r a b
  · exact hinner ⟨a, hleaf, .refl⟩
  · exact ⟨_, fun b hb => absurd ⟨b, hb⟩ hleaf⟩

theorem ends_iff_acyclic (hfin : {a | ∃ b, r a b}.Finite) {a : α} : Ends r a ↔ Acyclic r a :=
  ⟨acyclic_of_ends, ends_of_acyclic hfin⟩

end Aether.Lib.ReferenceGraph
