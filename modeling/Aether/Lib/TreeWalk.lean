/-
Aether.Lib.TreeWalk — places in a tree and the walks of a pass.

A tree is given by its nodes and `child`, the node below a node at a step.
A place is the list of the steps that lead to it from the root. `Walk`
follows a path by the steps that `follow` allows; the walk that allows
every step reaches every place.
-/
import Mathlib.Data.List.Basic

namespace Aether.Lib.TreeWalk

variable {N S : Type*} {child : N → S → Option N} {follow : N → S → Prop}

/-- `Walk child follow node path target`: the path leads from `node` to
`target` by allowed steps. -/
inductive Walk (child : N → S → Option N) (follow : N → S → Prop) : N → List S → N → Prop where
  | here (node : N) : Walk child follow node [] node
  | step {node next target : N} {s : S} {path : List S} (hfollow : follow node s)
      (hchild : child node s = some next) (tail : Walk child follow next path target) :
      Walk child follow node (s :: path) target

/-- A path leads to one node, whichever steps are allowed. -/
theorem Walk.target_eq {follow' : N → S → Prop} {node target target' : N} {path : List S}
    (h : Walk child follow node path target) (h' : Walk child follow' node path target') :
    target = target' := by
  induction h with
  | here => cases h'; rfl
  | step _ hchild _ ih =>
    cases h' with
    | step _ hchild' tail' =>
      obtain rfl : _ = _ := Option.some.inj (hchild.symm.trans hchild')
      exact ih tail'

/-- Allowing more steps keeps a walk. -/
theorem Walk.mono {follow' : N → S → Prop} (hle : ∀ node s, follow node s → follow' node s)
    {node target : N} {path : List S} (h : Walk child follow node path target) :
    Walk child follow' node path target := by
  induction h with
  | here node => exact .here node
  | step hfollow hchild _ ih => exact .step (hle _ _ hfollow) hchild ih

end Aether.Lib.TreeWalk
