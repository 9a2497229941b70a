/-
Aether.Lib.Listing — runs of labelled code.

A `Listing` is a list of items, some of them labels, with what each does to
a state: go on, go to a label, or leave for an address. `Ends` is a run to
the end of the list or out of it. Where each item of one listing stands for
some items of another and a step keeps a relation between the states, an
ending of the one is an ending of the other (`Ends.simulated`).
-/
import Mathlib.Data.List.Basic

namespace Aether.Lib

/-! ## §1 Listings and their runs -/

/-- What an item does with the control. -/
inductive Flow (L α σ : Type*) where
  | next (s : σ)
  | goto (label : L) (s : σ)
  | leave (address : α) (s : σ)

structure Listing (ι L α σ : Type*) where
  items : List ι
  labelOf : ι → Option L
  exec : ι → σ → Flow L α σ

namespace Listing

section Runs

variable {ι L α σ : Type*} [DecidableEq L]

/-- The place of the first label of a name. -/
def find (c : Listing ι L α σ) (l : L) : Option Nat :=
  c.items.findIdx? fun e => c.labelOf e == some l

-- the equations, before the proofs that share them
section
attribute [local simp] find
end

/-- A run from an item to the end of the list, or out of it to an address. -/
inductive Ends (c : Listing ι L α σ) : Nat → σ → Option α → σ → Prop where
  | fell (s : σ) : Ends c c.items.length s none s
  | next {i : Nat} {e : ι} {s s' r : σ} {o : Option α} (item : c.items[i]? = some e)
      (flow : c.exec e s = .next s') (rest : Ends c (i + 1) s' o r) : Ends c i s o r
  | goto {i j : Nat} {e : ι} {l : L} {s s' r : σ} {o : Option α} (item : c.items[i]? = some e)
      (flow : c.exec e s = .goto l s') (found : c.find l = some j) (rest : Ends c j s' o r) :
      Ends c i s o r
  | left {i : Nat} {e : ι} {a : α} {s s' : σ} (item : c.items[i]? = some e)
      (flow : c.exec e s = .leave a s') : Ends c i s (some a) s'

/-- A run has one ending. -/
theorem Ends.unique {c : Listing ι L α σ} {i : Nat} {s r r' : σ} {o o' : Option α}
    (h : c.Ends i s o r) (h' : c.Ends i s o' r') : o = o' ∧ r = r' := by
  induction h with
  | fell s =>
    cases h' with
    | fell => exact ⟨rfl, rfl⟩
    | next item | goto item | left item => simp at item
  | next item flow _ ih =>
    cases h' with
    | fell => simp at item
    | next item' flow' rest' =>
      obtain rfl : _ = _ := Option.some.inj (item.symm.trans item')
      obtain rfl : _ = _ := Flow.next.inj (flow.symm.trans flow')
      exact ih rest'
    | goto item' flow' | left item' flow' =>
      obtain rfl : _ = _ := Option.some.inj (item.symm.trans item')
      exact absurd (flow.symm.trans flow') (by simp)
  | goto item flow found _ ih =>
    cases h' with
    | fell => simp at item
    | goto item' flow' found' rest' =>
      obtain rfl : _ = _ := Option.some.inj (item.symm.trans item')
      obtain ⟨rfl, rfl⟩ := Flow.goto.inj (flow.symm.trans flow')
      obtain rfl : _ = _ := Option.some.inj (found.symm.trans found')
      exact ih rest'
    | next item' flow' | left item' flow' =>
      obtain rfl : _ = _ := Option.some.inj (item.symm.trans item')
      exact absurd (flow.symm.trans flow') (by simp)
  | left item flow =>
    cases h' with
    | fell => simp at item
    | left item' flow' =>
      obtain rfl : _ = _ := Option.some.inj (item.symm.trans item')
      obtain ⟨rfl, rfl⟩ := Flow.leave.inj (flow.symm.trans flow')
      exact ⟨rfl, rfl⟩
    | next item' flow' | goto item' flow' =>
      obtain rfl : _ = _ := Option.some.inj (item.symm.trans item')
      exact absurd (flow.symm.trans flow') (by simp)

/-- What a stretch of items does, up to the first that does not go on. -/
def flows (exec : ι → σ → Flow L α σ) : List ι → σ → Flow L α σ
  | [], s => .next s
  | e :: es, s =>
    match exec e s with
    | .next s' => flows exec es s'
    | flow => flow

-- the equations, before the proofs that share them
section
attribute [local simp] flows
end

omit [DecidableEq L] in
theorem flows_append (exec : ι → σ → Flow L α σ) (es es' : List ι) (s : σ) :
    flows exec (es ++ es') s =
      match flows exec es s with
      | .next s' => flows exec es' s'
      | flow => flow := by
  induction es generalizing s with
  | nil => rfl
  | cons e es ih =>
    rw [List.cons_append, flows, flows]
    cases exec e s with
    | next s' => exact ih s'
    | goto | leave => rfl

/-- A run through a stretch of the items. -/
theorem Ends.stretch {c : Listing ι L α σ} {pre post : List ι} {es : List ι} {s r : σ}
    {o : Option α} (hitems : c.items = pre ++ es ++ post)
    (h : match flows c.exec es s with
      | .next s' => c.Ends (pre.length + es.length) s' o r
      | .goto l s' => ∃ j, c.find l = some j ∧ c.Ends j s' o r
      | .leave a s' => o = some a ∧ r = s') :
    c.Ends pre.length s o r := by
  induction es generalizing pre s with
  | nil => simpa [flows] using h
  | cons e es ih =>
    have item : c.items[pre.length]? = some e := by simp [hitems]
    rw [flows] at h
    cases hflow : c.exec e s with
    | next s' =>
      rw [hflow] at h
      have hrest := @ih (pre ++ [e]) s' (by simp [hitems])
        (by simpa [Nat.add_assoc, Nat.add_comm 1] using h)
      exact .next item hflow (by simpa using hrest)
    | goto l s' =>
      rw [hflow] at h
      obtain ⟨j, found, rest⟩ := h
      exact .goto item hflow found rest
    | leave a s' =>
      rw [hflow] at h
      obtain ⟨rfl, rfl⟩ := h
      exact .left item hflow

theorem Ends.stretch_goto {c : Listing ι L α σ} {pre post es : List ι} {s s' r : σ}
    {o : Option α} {l : L} {j : Nat} (hitems : c.items = pre ++ es ++ post)
    (hflows : flows c.exec es s = .goto l s') (found : c.find l = some j) (rest : c.Ends j s' o r) :
    c.Ends pre.length s o r := by
  refine Ends.stretch hitems ?_
  rw [hflows]
  exact ⟨j, found, rest⟩

theorem Ends.stretch_leave {c : Listing ι L α σ} {pre post es : List ι} {s s' : σ} {a : α}
    (hitems : c.items = pre ++ es ++ post) (hflows : flows c.exec es s = .leave a s') :
    c.Ends pre.length s (some a) s' := by
  refine Ends.stretch hitems ?_
  rw [hflows]
  exact ⟨rfl, rfl⟩

/-- A run from the one point can go on from the other. -/
def Goes (c : Listing ι L α σ) (i : Nat) (s : σ) (j : Nat) (t : σ) : Prop :=
  ∀ o r, c.Ends j t o r → c.Ends i s o r

theorem Goes.refl (c : Listing ι L α σ) (i : Nat) (s : σ) : c.Goes i s i s := fun _ _ h => h

theorem Goes.trans {c : Listing ι L α σ} {i j k : Nat} {s t u : σ} (h : c.Goes i s j t)
    (h' : c.Goes j t k u) : c.Goes i s k u := fun o r hend => h o r (h' o r hend)

theorem Goes.stretch {c : Listing ι L α σ} {pre post es : List ι} {s s' : σ}
    (hitems : c.items = pre ++ es ++ post) (hflows : flows c.exec es s = .next s') :
    c.Goes pre.length s (pre ++ es).length s' := by
  intro o r hend
  refine Ends.stretch hitems ?_
  rw [hflows, ← List.length_append]
  exact hend

theorem Goes.jump {c : Listing ι L α σ} {pre post es : List ι} {s s' : σ} {l : L} {j : Nat}
    (hitems : c.items = pre ++ es ++ post) (hflows : flows c.exec es s = .goto l s')
    (found : c.find l = some j) : c.Goes pre.length s j s' :=
  fun _ _ hend => .stretch_goto hitems hflows found hend

omit [DecidableEq L] in
/-- A stretch of the items, by where it begins. -/
theorem items_of_isPrefix {c : Listing ι L α σ} {i : Nat} {e : ι} {es : List ι}
    (hes : e :: es <+: c.items.drop i) :
    ∃ pre post, c.items = pre ++ (e :: es) ++ post ∧ pre.length = i := by
  obtain ⟨post, hpost⟩ := hes
  have hlen : i ≤ c.items.length := by
    by_contra hlt
    rw [List.drop_eq_nil_of_le (by omega)] at hpost
    cases hpost
  refine ⟨c.items.take i, post, ?_, by rw [List.length_take]; omega⟩
  rw [List.append_assoc, hpost, List.take_append_drop]

theorem Goes.line {c : Listing ι L α σ} (es : List ι) {i j : Nat} {s s' : σ}
    (hes : es <+: c.items.drop i) (hflows : flows c.exec es s = .next s')
    (hj : i + es.length = j) : c.Goes i s j s' := by
  subst hj
  cases es with
  | nil =>
    obtain rfl : s = s' := Flow.next.inj hflows
    exact .refl c i s
  | cons e es =>
    obtain ⟨pre, post, hitems, rfl⟩ := items_of_isPrefix hes
    have hgoes := Goes.stretch hitems hflows
    rwa [List.length_append] at hgoes

theorem Goes.lineJump {c : Listing ι L α σ} (es : List ι) {i j : Nat} {s s' : σ} {l : L}
    (hes : es <+: c.items.drop i) (hflows : flows c.exec es s = .goto l s')
    (found : c.find l = some j) : c.Goes i s j s' := by
  cases es with
  | nil => cases hflows
  | cons e es =>
    obtain ⟨pre, post, hitems, rfl⟩ := items_of_isPrefix hes
    exact Goes.jump hitems hflows found

theorem Ends.lineLeave {c : Listing ι L α σ} {es : List ι} {i : Nat} {s s' : σ} {a : α}
    (hes : es <+: c.items.drop i) (hflows : flows c.exec es s = .leave a s') :
    c.Ends i s (some a) s' := by
  cases es with
  | nil => cases hflows
  | cons e es =>
    obtain ⟨pre, post, hitems, rfl⟩ := items_of_isPrefix hes
    exact .stretch_leave hitems hflows

omit [DecidableEq L] in
/-- A stretch of a stretch. -/
theorem isPrefix_drop {whole es items : List ι} {i k : Nat} (hwhole : whole <+: items.drop i)
    (hes : es <+: whole.drop k) : es <+: items.drop (i + k) := by
  obtain ⟨post, hpost⟩ := hwhole
  rw [← List.drop_drop, ← hpost, List.drop_append]
  exact hes.trans (List.prefix_append _ _)

/-- The same endings from the one point and from the other. -/
def Meets (c : Listing ι L α σ) (i : Nat) (s : σ) (j : Nat) (t : σ) : Prop :=
  ∀ o r, c.Ends i s o r ↔ c.Ends j t o r

theorem Meets.trans {c : Listing ι L α σ} {i j k : Nat} {s t u : σ} (h : c.Meets i s j t)
    (h' : c.Meets j t k u) : c.Meets i s k u := fun o r => (h o r).trans (h' o r)

/-- A run that begins with an item has done the item. -/
theorem Ends.inversion {c : Listing ι L α σ} {i : Nat} {e : ι} {s r : σ} {o : Option α}
    (item : c.items[i]? = some e) (h : c.Ends i s o r) :
    match c.exec e s with
    | .next s' => c.Ends (i + 1) s' o r
    | .goto l s' => ∃ j, c.find l = some j ∧ c.Ends j s' o r
    | .leave a s' => o = some a ∧ r = s' := by
  cases h with
  | fell => simp at item
  | next item' flow rest =>
    obtain rfl : _ = _ := Option.some.inj (item'.symm.trans item)
    rw [flow]
    exact rest
  | goto item' flow found rest =>
    obtain rfl : _ = _ := Option.some.inj (item'.symm.trans item)
    rw [flow]
    exact ⟨_, found, rest⟩
  | left item' flow =>
    obtain rfl : _ = _ := Option.some.inj (item'.symm.trans item)
    rw [flow]
    exact ⟨rfl, rfl⟩

theorem Ends.through {c : Listing ι L α σ} {pre post : List ι} {es : List ι} {s r : σ}
    {o : Option α} (hitems : c.items = pre ++ es ++ post) (h : c.Ends pre.length s o r) :
    match flows c.exec es s with
    | .next s' => c.Ends (pre ++ es).length s' o r
    | .goto l s' => ∃ j, c.find l = some j ∧ c.Ends j s' o r
    | .leave a s' => o = some a ∧ r = s' := by
  induction es generalizing pre s with
  | nil => simpa [flows] using h
  | cons e es ih =>
    have item : c.items[pre.length]? = some e := by simp [hitems]
    have hinv := h.inversion item
    rw [flows]
    cases hflow : c.exec e s with
    | next s' =>
      rw [hflow] at hinv
      have hrest := ih (show c.items = (pre ++ [e]) ++ es ++ post by simp [hitems])
        (show c.Ends (pre ++ [e]).length s' o r by simpa using hinv)
      simpa [List.append_assoc] using hrest
    | goto | leave =>
      rw [hflow] at hinv
      exact hinv

theorem Meets.stretch {c : Listing ι L α σ} {pre post es : List ι} {s s' : σ}
    (hitems : c.items = pre ++ es ++ post) (hflows : flows c.exec es s = .next s') :
    c.Meets pre.length s (pre ++ es).length s' := by
  intro o r
  refine ⟨fun h => ?_, Goes.stretch hitems hflows o r⟩
  have hthrough := h.through hitems
  rwa [hflows] at hthrough

theorem Meets.jump {c : Listing ι L α σ} {pre post es : List ι} {s s' : σ} {l : L} {j : Nat}
    (hitems : c.items = pre ++ es ++ post) (hflows : flows c.exec es s = .goto l s')
    (found : c.find l = some j) : c.Meets pre.length s j s' := by
  intro o r
  refine ⟨fun h => ?_, Goes.jump hitems hflows found o r⟩
  have hthrough := h.through hitems
  rw [hflows] at hthrough
  obtain ⟨j', found', hends⟩ := hthrough
  rwa [Option.some.inj (found.symm.trans found')]

/-- What a run from `i` does: it comes to `j`, goes to a label, or leaves. -/
def Does (c : Listing ι L α σ) (i : Nat) (s : σ) (j : Nat) : Flow L α σ → Prop
  | .next t => c.Goes i s j t
  | .goto l t => ∀ k, c.find l = some k → c.Goes i s k t
  | .leave a t => c.Ends i s (some a) t

theorem Does.stretch {c : Listing ι L α σ} {pre post es : List ι} (s : σ)
    (hitems : c.items = pre ++ es ++ post) :
    c.Does pre.length s (pre ++ es).length (flows c.exec es s) := by
  cases hflows : flows c.exec es s with
  | next t => exact Goes.stretch hitems hflows
  | goto l t => exact fun k found => Goes.jump hitems hflows found
  | leave a t => exact Ends.stretch_leave hitems hflows

theorem Does.after {c : Listing ι L α σ} {i j k : Nat} {s t : σ} {flow : Flow L α σ}
    (h : c.Goes i s j t) (h' : c.Does j t k flow) : c.Does i s k flow := by
  cases flow with
  | next u => exact h.trans h'
  | goto l u => exact fun m found => h.trans (h' m found)
  | leave a u => exact h _ _ h'

/-- The place of a label that is not among the items before it. -/
theorem find_of_fresh {c : Listing ι L α σ} {pre post : List ι} {e : ι} {l : L}
    (hitems : c.items = pre ++ e :: post) (he : c.labelOf e = some l)
    (hfresh : ∀ x ∈ pre, c.labelOf x ≠ some l) : c.find l = some pre.length := by
  have hnone : pre.findIdx? (fun x => c.labelOf x == some l) = none := by
    rw [List.findIdx?_eq_none_iff]
    intro x hx
    simpa using hfresh x hx
  simp [find, hitems, List.findIdx?_append, hnone, List.findIdx?_cons, he]

end Runs

/-! ## §2 One listing for another -/

section Simulation

variable {ι κ L α σ τ : Type*} [DecidableEq L] {R : σ → τ → Prop} {f : ι → List κ}

/-- The same control in related states. -/
def FlowRelated (R : σ → τ → Prop) : Flow L α σ → Flow L α τ → Prop
  | .next s, .next t => R s t
  | .goto l s, .goto m t => l = m ∧ R s t
  | .leave a s, .leave b t => a = b ∧ R s t
  | _, _ => False

/-- Where the items for the `i`-th one begin. -/
def start (f : ι → List κ) (items : List ι) (i : Nat) : Nat := ((items.take i).flatMap f).length

-- the equations, before the proofs that share them
section
attribute [local simp] start
end

/-- A label stands for a label of its name, and no other item for a label. -/
def KeepsLabels (c : Listing ι L α σ) (d : Listing κ L α τ) (f : ι → List κ) : Prop :=
  ∀ e ∈ c.items, (c.labelOf e = none → ∀ k ∈ f e, d.labelOf k = none) ∧
    ∀ l, c.labelOf e = some l → ∃ k, f e = [k] ∧ d.labelOf k = some l

theorem findIdx?_flatMap {p : ι → Bool} {q : κ → Bool} {items : List ι}
    (hlabel : ∀ e ∈ items, p e = true → ∃ k, f e = [k] ∧ q k = true)
    (hother : ∀ e ∈ items, p e = false → ∀ k ∈ f e, q k = false) :
    (items.flatMap f).findIdx? q = (items.findIdx? p).map (start f items) := by
  induction items with
  | nil => rfl
  | cons e items ih =>
    have ih' := ih (fun x hx => hlabel x (by simp [hx])) (fun x hx => hother x (by simp [hx]))
    rw [List.flatMap_cons, List.findIdx?_append, List.findIdx?_cons]
    cases hp : p e with
    | true =>
      obtain ⟨k, hk, hq⟩ := hlabel e (by simp) hp
      simp [hk, hq, start]
    | false =>
      have hnone : (f e).findIdx? q = none := by
        rw [List.findIdx?_eq_none_iff]
        exact hother e (by simp) hp
      rw [hnone, ih']
      cases items.findIdx? p <;> simp [start, Nat.add_comm]

theorem find_of_keepsLabels {c : Listing ι L α σ} {d : Listing κ L α τ}
    (hitems : d.items = c.items.flatMap f) (hkeeps : KeepsLabels c d f) (l : L) :
    d.find l = (c.find l).map (start f c.items) := by
  rw [find, hitems]
  apply findIdx?_flatMap
  · intro e he hp
    obtain ⟨k, hk, hl⟩ := (hkeeps e he).2 l (by simpa using hp)
    exact ⟨k, hk, by simp [hl]⟩
  · intro e he hp k hk
    have hne : c.labelOf e ≠ some l := by simpa using hp
    cases hlabel : c.labelOf e with
    | none => simp [(hkeeps e he).1 hlabel k hk]
    | some m =>
      obtain ⟨k', hk', hl⟩ := (hkeeps e he).2 m hlabel
      obtain rfl : k = k' := by simpa [hk'] using hk
      have hml : m ≠ l := fun h => hne (h ▸ hlabel)
      simp [hl, hml]

theorem Ends.simulated {c : Listing ι L α σ} {d : Listing κ L α τ}
    (hitems : d.items = c.items.flatMap f) (hkeeps : KeepsLabels c d f)
    (hstep : ∀ e ∈ c.items, ∀ s t, R s t → FlowRelated R (c.exec e s) (flows d.exec (f e) t))
    {i : Nat} {s r : σ} {o : Option α} (h : c.Ends i s o r) {t : τ} (hst : R s t) :
    ∃ u, d.Ends (start f c.items i) t o u ∧ R r u := by
  -- the items for the `i`-th one stand between those before it and those after it
  have hsplit : ∀ i e, c.items[i]? = some e →
      d.items = (c.items.take i).flatMap f ++ f e ++ (c.items.drop (i + 1)).flatMap f := by
    intro i e item
    obtain ⟨hi, rfl⟩ := List.getElem?_eq_some_iff.mp item
    calc d.items = (c.items.take i ++ c.items.drop i).flatMap f := by
          rw [hitems, List.take_append_drop]
      _ = _ := by
          rw [List.drop_eq_getElem_cons hi, List.flatMap_append, List.flatMap_cons,
            List.append_assoc]
  have hnext : ∀ i e, c.items[i]? = some e →
      start f c.items (i + 1) = start f c.items i + (f e).length := by
    intro i e item
    simp [start, List.take_add_one, item]
  induction h generalizing t with
  | fell s =>
    refine ⟨t, ?_, hst⟩
    have hlength : start f c.items c.items.length = d.items.length := by simp [start, hitems]
    rw [hlength]
    exact .fell t
  | @next i e s s' r o item flow rest ih =>
    have hflow := hstep e (List.mem_of_getElem? item) s t hst
    rw [flow] at hflow
    cases hf : flows d.exec (f e) t with
    | next t' =>
      rw [hf] at hflow
      obtain ⟨u, hu, hru⟩ := ih (t := t') hflow
      refine ⟨u, Ends.stretch (hsplit i e item) ?_, hru⟩
      rw [hf]
      rw [hnext i e item] at hu
      exact hu
    | goto | leave => rw [hf] at hflow; exact hflow.elim
  | @goto i j e l s s' r o item flow found rest ih =>
    have hflow := hstep e (List.mem_of_getElem? item) s t hst
    rw [flow] at hflow
    cases hf : flows d.exec (f e) t with
    | goto m t' =>
      rw [hf] at hflow
      obtain ⟨rfl, hs't'⟩ := hflow
      obtain ⟨u, hu, hru⟩ := ih (t := t') hs't'
      refine ⟨u, Ends.stretch (hsplit i e item) ?_, hru⟩
      rw [hf]
      exact ⟨_, by rw [find_of_keepsLabels hitems hkeeps, found]; rfl, hu⟩
    | next | leave => rw [hf] at hflow; exact hflow.elim
  | @left i e a s s' item flow =>
    have hflow := hstep e (List.mem_of_getElem? item) s t hst
    rw [flow] at hflow
    cases hf : flows d.exec (f e) t with
    | leave b t' =>
      rw [hf] at hflow
      obtain ⟨rfl, hs't'⟩ := hflow
      refine ⟨t', Ends.stretch (hsplit i e item) ?_, hs't'⟩
      rw [hf]
      exact ⟨rfl, rfl⟩
    | next | goto => rw [hf] at hflow; exact hflow.elim

end Simulation

end Listing

end Aether.Lib
