/-
Aether.Lib.CallCode — runs of labelled code that calls and returns.

A `CallCode` is a list of items, some of them labels. An item goes on, goes
to a label, or goes to a place (a return), and it may trap. What it does may
depend on its own place, which a call keeps. `At` says which items stand at
a place, `Does` what a run from a place does for a computation that ends
with a value or an error.
-/
import Mathlib.Logic.Relation
import Mathlib.Tactic.Common
import Mathlib.Data.List.Basic

namespace Aether.Lib

/-! ## §1 Code and its runs -/

/-- What an item does with the control. -/
inductive Move (L σ : Type) where
  | next (s : σ)
  | goto (label : L) (s : σ)
  | place (pc : Nat) (s : σ)

structure CallCode (ι L σ : Type) where
  items : List ι
  labelOf : ι → Option L
  /-- What an item does at its place; `none` where it traps. -/
  exec : Nat → ι → σ → Option (Move L σ)

namespace CallCode

variable {ι L σ : Type} [DecidableEq L]

/-- The place of the first label of a name. -/
def find (c : CallCode ι L σ) (l : L) : Option Nat :=
  c.items.findIdx? fun e => c.labelOf e == some l

def land (c : CallCode ι L σ) (pc : Nat) : Move L σ → Option (Nat × σ)
  | .next s => some (pc + 1, s)
  | .goto l s => (c.find l).map fun pc' => (pc', s)
  | .place pc' s => some (pc', s)

/-- One step, from a place that holds an item that does not trap. -/
def step (c : CallCode ι L σ) (a : Nat × σ) : Option (Nat × σ) := do
  let item ← c.items[a.1]?
  let move ← c.exec a.1 item a.2
  c.land a.1 move

def Reaches (c : CallCode ι L σ) : Nat × σ → Nat × σ → Prop :=
  Relation.ReflTransGen fun a b => c.step a = some b

/-- The run comes to an item that traps. -/
def Traps (c : CallCode ι L σ) (a : Nat × σ) : Prop :=
  ∃ b item, c.Reaches a b ∧ c.items[b.1]? = some item ∧ c.exec b.1 item b.2 = none

section Rules

variable {c : CallCode ι L σ} {pc pc' : Nat} {e : ι} {es es' : List ι} {s s' : σ} {l : L}
  {a b : Nat × σ}

theorem Reaches.refl (c : CallCode ι L σ) (a : Nat × σ) : c.Reaches a a :=
  Relation.ReflTransGen.refl

theorem Reaches.trans {d : Nat × σ} (h : c.Reaches a b) (h' : c.Reaches b d) : c.Reaches a d :=
  Relation.ReflTransGen.trans h h'

theorem Reaches.traps (h : c.Reaches a b) (h' : c.Traps b) : c.Traps a := by
  obtain ⟨d, item, hreach, hitem, hexec⟩ := h'
  exact ⟨d, item, h.trans hreach, hitem, hexec⟩

theorem Reaches.next (item : c.items[pc]? = some e) (move : c.exec pc e s = some (.next s')) :
    c.Reaches (pc, s) (pc + 1, s') :=
  .single (by simp [step, item, move, land])

theorem Reaches.goto (item : c.items[pc]? = some e) (move : c.exec pc e s = some (.goto l s'))
    (found : c.find l = some pc') : c.Reaches (pc, s) (pc', s') :=
  .single (by simp [step, item, move, land, found])

theorem Reaches.place (item : c.items[pc]? = some e)
    (move : c.exec pc e s = some (.place pc' s')) : c.Reaches (pc, s) (pc', s') :=
  .single (by simp [step, item, move, land])

/-- A run that came to where no step goes on, at the end of the code or at a trap. -/
def Halts (c : CallCode ι L σ) (a b : Nat × σ) : Prop := c.Reaches a b ∧ c.step b = none

/-! ## §2 Items at a place -/

def At (c : CallCode ι L σ) : Nat → List ι → Prop
  | _, [] => True
  | pc, e :: es => c.items[pc]? = some e ∧ c.At (pc + 1) es

omit [DecidableEq L] in
theorem at_append : c.At pc (es ++ es') ↔ c.At pc es ∧ c.At (pc + es.length) es' := by
  induction es generalizing pc with
  | nil => simp [At]
  | cons e es ih => simp [At, ih, and_assoc, Nat.add_assoc, Nat.add_comm 1]

omit [DecidableEq L] in
theorem at_of_split {pre post : List ι} (h : c.items = pre ++ es ++ post) :
    c.At pre.length es := by
  induction es generalizing pre with
  | nil => trivial
  | cons e es ih =>
    have hrest := @ih (pre ++ [e]) (by simp [h])
    exact ⟨by simp [h], by simpa using hrest⟩

/-- The state after items that all go on. -/
def line (c : CallCode ι L σ) : Nat → List ι → σ → Option σ
  | _, [], s => some s
  | pc, e :: es, s =>
    match c.exec pc e s with
    | some (.next s') => c.line (pc + 1) es s'
    | _ => none

theorem Reaches.line (hat : c.At pc es) (h : c.line pc es s = some s') :
    c.Reaches (pc, s) (pc + es.length, s') := by
  induction es generalizing pc s with
  | nil =>
    obtain rfl : s = s' := Option.some.inj h
    exact .refl c _
  | cons e es ih =>
    rw [CallCode.line] at h
    split at h
    · rename_i t move
      have hrest := ih hat.2 h
      rw [List.length_cons, Nat.add_comm es.length, ← Nat.add_assoc]
      exact (Reaches.next hat.1 move).trans hrest
    · cases h

/-- No two labels are one. -/
def UniqueLabels (c : CallCode ι L σ) : Prop :=
  (c.items.filterMap c.labelOf).Nodup

omit [DecidableEq L] in
theorem nodup_split {labelOf : ι → Option L} {pre post : List ι}
    (h : ((pre ++ e :: post).filterMap labelOf).Nodup) (he : labelOf e = some l) :
    ∀ x ∈ pre, labelOf x ≠ some l := by
  intro x hx hl
  rw [List.filterMap_append, List.filterMap_cons_some he] at h
  have hdisjoint := (List.nodup_append.mp h).2.2
  exact hdisjoint l (List.mem_filterMap.mpr ⟨x, hx, hl⟩) l (by simp) rfl

theorem find_of_at (hunique : c.UniqueLabels) (item : c.items[pc]? = some e)
    (he : c.labelOf e = some l) : c.find l = some pc := by
  obtain ⟨hlt, hget⟩ := List.getElem?_eq_some_iff.mp item
  have hsplit : c.items = c.items.take pc ++ e :: c.items.drop (pc + 1) := by
    rw [← hget, List.getElem_cons_drop, List.take_append_drop]
  have hpre : ∀ x ∈ c.items.take pc, c.labelOf x ≠ some l := by
    rw [UniqueLabels, hsplit] at hunique
    exact nodup_split hunique he
  have hnone : (c.items.take pc).findIdx? (fun x => c.labelOf x == some l) = none := by
    rw [List.findIdx?_eq_none_iff]
    intro x hx
    simpa using hpre x hx
  rw [find, hsplit, List.findIdx?_append, hnone]
  simp [List.findIdx?_cons, he, Nat.min_eq_left (Nat.le_of_lt hlt)]

end Rules

/-! ## §3 Code for a computation -/

section Does

variable {ε α β : Type} (trap : ε → Prop)

/-- A run from `a` does what the computation does: it comes to where `Q`
holds of the value, or it traps. An error that is no trap says nothing. -/
def Does (c : CallCode ι L σ) (a : Nat × σ) (r : Except ε α) (Q : α → Nat × σ → Prop) : Prop :=
  match r with
  | .ok v => ∃ b, c.Reaches a b ∧ Q v b
  | .error x => trap x → c.Traps a

variable {trap} {c : CallCode ι L σ} {a b : Nat × σ} {r : Except ε α} {f : α → Except ε β}
  {Q : α → Nat × σ → Prop} {R : β → Nat × σ → Prop}

theorem Does.ok {v : α} (h : c.Reaches a b) (hb : Q v b) : c.Does trap a (.ok v) Q := ⟨b, h, hb⟩

theorem Does.after (h : c.Reaches a b) (h' : c.Does trap b r Q) : c.Does trap a r Q := by
  cases r with
  | ok v =>
    obtain ⟨d, hreach, hd⟩ := h'
    exact ⟨d, h.trans hreach, hd⟩
  | error x => exact fun hx => h.traps (h' hx)

theorem Does.bind_of_eq (h : c.Does trap a r Q)
    (h' : ∀ v b, r = .ok v → Q v b → c.Does trap b (f v) R) : c.Does trap a (r >>= f) R := by
  cases r with
  | ok v =>
    obtain ⟨b, hreach, hb⟩ := h
    exact (h' v b rfl hb).after hreach
  | error x => exact h

theorem Does.bind (h : c.Does trap a r Q) (h' : ∀ v b, Q v b → c.Does trap b (f v) R) :
    c.Does trap a (r >>= f) R :=
  h.bind_of_eq fun v b _ => h' v b

theorem Does.mono {Q' : α → Nat × σ → Prop} (h : c.Does trap a r Q)
    (hQ : ∀ v b, Q v b → Q' v b) : c.Does trap a r Q' := by
  cases r with
  | ok v =>
    obtain ⟨b, hreach, hb⟩ := h
    exact ⟨b, hreach, hQ v b hb⟩
  | error x => exact h

end Does

end CallCode

end Aether.Lib
