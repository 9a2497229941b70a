/-
Aether.Lib.LinearProbing — open addressing with linear probing, over any
key type, any home position and a table of `cap` slots.

A table is a function `slot : Nat → Option K`; only the positions below
`cap` count. The probe sequence of a key starts at its home position and
visits the slots cyclically. `Wf` is the invariant under which a lookup
may stop at the first free slot: every stored key is reached from its
home through occupied slots only, and is stored once.

Four results carry a hash table's proof:

* `probe_of_stored` / `probe_of_absent` — what a probe answers under `Wf`.
* `Wf.insert` — filling the free slot a probe ended at keeps `Wf`.
* `Wf.erase` — freeing a slot keeps `Wf` when no other stored key's probe
  path runs through it (`Blocks`); `probe_of_blocked` is the converse, a
  key whose path ran through the freed slot is no longer found.
* `probe_ends` / `occupied_of_full` — what a probe does in a table of any
  content, `Wf` or not.
-/
import Mathlib.Data.Nat.ModEq
import Mathlib.Logic.Function.Basic
import Mathlib.Tactic.Ring

namespace Aether.Lib.LinearProbing

variable {K : Type*} {cap : Nat}

/-! ## §1 Probe positions -/

/-- The `d`-th slot probed from the home position `h`. -/
def probeAt (cap h d : Nat) : Nat := (h + d) % cap

-- the equations, before the proofs that share them
section
attribute [local simp] probeAt
end

theorem probeAt_lt (hc : 0 < cap) (h d : Nat) : probeAt cap h d < cap :=
  Nat.mod_lt _ hc

theorem probeAt_zero {h : Nat} (hh : h < cap) : probeAt cap h 0 = h :=
  Nat.mod_eq_of_lt hh

/-- Stepping to the next slot modulo `cap` is probing one further. -/
theorem succ_probeAt (h d : Nat) : (probeAt cap h d + 1) % cap = probeAt cap h (d + 1) := by
  rw [probeAt, Nat.mod_add_mod]
  rfl

/-- `cap` probes from the same home never visit a slot twice. -/
theorem probeAt_inj {h d e : Nat} (hd : d < cap) (he : e < cap)
    (heq : probeAt cap h d = probeAt cap h e) : d = e := by
  have hmod : d ≡ e [MOD cap] := Nat.ModEq.add_left_cancel' h heq
  exact Nat.ModEq.eq_of_lt_of_lt hmod hd he

/-- `cap` probes from any home visit every slot. -/
theorem exists_probeAt {i : Nat} (hi : i < cap) (h : Nat) :
    ∃ d < cap, probeAt cap h d = i := by
  have hc : 0 < cap := by omega
  refine ⟨(i + (cap - h % cap)) % cap, Nat.mod_lt _ hc, ?_⟩
  have hlt : h % cap < cap := Nat.mod_lt _ hc
  calc probeAt cap h ((i + (cap - h % cap)) % cap)
      = (h % cap + (i + (cap - h % cap))) % cap := by
        rw [probeAt, Nat.add_mod_mod, Nat.mod_add_mod]
    _ = (i + cap) % cap := by congr 1; omega
    _ = i := by rw [Nat.add_mod_right, Nat.mod_eq_of_lt hi]

/-! ## §2 The probe loop -/

/-- How a probe ends: at the key, at a free slot, or after all its turns. -/
inductive Found where
  | hit (i : Nat)
  | free (i : Nat)
  | full
  deriving DecidableEq, Repr

/-- Probe for `k` from slot `i`, at most `turns` slots. -/
def probe [DecidableEq K] (cap : Nat) (slot : Nat → Option K) (k : K) : Nat → Nat → Found
  | 0, _ => .full
  | turns + 1, i =>
    match slot i with
    | none => .free i
    | some k' => if k' = k then .hit i else probe cap slot k turns ((i + 1) % cap)

-- the equations, before the proofs that share them
section
attribute [local simp] probe
end

/-- The first `d` slots probed from `h` are all occupied. -/
def Filled (cap : Nat) (slot : Nat → Option K) (h d : Nat) : Prop :=
  ∀ e < d, slot (probeAt cap h e) ≠ none

/-- A probe runs past slots that hold other keys. -/
theorem probe_skip [DecidableEq K] {slot : Nat → Option K} {k : K} {h : Nat} :
    ∀ (n turns d : Nat),
      (∀ e, d ≤ e → e < d + n →
        slot (probeAt cap h e) ≠ none ∧ slot (probeAt cap h e) ≠ some k) →
      probe cap slot k (n + turns) (probeAt cap h d)
        = probe cap slot k turns (probeAt cap h (d + n))
  | 0, turns, d, _ => by simp
  | n + 1, turns, d, hpass => by
    obtain ⟨hne, hnk⟩ := hpass d (Nat.le_refl d) (by omega)
    obtain ⟨k', hk'⟩ := Option.ne_none_iff_exists'.mp hne
    have hkk : k' ≠ k := fun h => hnk (by rw [hk', h])
    have hrest := probe_skip n turns (d + 1) fun e h1 h2 => hpass e (by omega) (by omega)
    rw [show n + 1 + turns = (n + turns) + 1 by omega, probe, hk']
    simp only [if_neg hkk, succ_probeAt, hrest]
    congr 2
    omega

theorem probe_hit [DecidableEq K] {slot : Nat → Option K} {k : K} {h d turns : Nat}
    (hd : d < turns) (hslot : slot (probeAt cap h d) = some k)
    (hpass : ∀ e < d, slot (probeAt cap h e) ≠ none ∧ slot (probeAt cap h e) ≠ some k) :
    probe cap slot k turns (probeAt cap h 0) = .hit (probeAt cap h d) := by
  obtain ⟨r, rfl⟩ : ∃ r, turns = d + (r + 1) := ⟨turns - d - 1, by omega⟩
  rw [probe_skip d (r + 1) 0 fun e _ he => hpass e (by omega), Nat.zero_add, probe, hslot]
  simp

theorem probe_free [DecidableEq K] {slot : Nat → Option K} {k : K} {h d turns : Nat}
    (hd : d < turns) (hslot : slot (probeAt cap h d) = none)
    (hpass : ∀ e < d, slot (probeAt cap h e) ≠ none ∧ slot (probeAt cap h e) ≠ some k) :
    probe cap slot k turns (probeAt cap h 0) = .free (probeAt cap h d) := by
  obtain ⟨r, rfl⟩ : ∃ r, turns = d + (r + 1) := ⟨turns - d - 1, by omega⟩
  rw [probe_skip d (r + 1) 0 fun e _ he => hpass e (by omega), Nat.zero_add, probe, hslot]

theorem probe_full [DecidableEq K] {slot : Nat → Option K} {k : K} {h turns : Nat}
    (hpass : ∀ e < turns, slot (probeAt cap h e) ≠ none ∧ slot (probeAt cap h e) ≠ some k) :
    probe cap slot k turns (probeAt cap h 0) = .full := by
  have hskip : probe cap slot k (turns + 0) (probeAt cap h 0)
      = probe cap slot k 0 (probeAt cap h (0 + turns)) :=
    probe_skip turns 0 0 fun e _ he => hpass e (by omega)
  simpa [probe] using hskip

/-! ## §3 The invariant -/

/-- Every stored key is reached from its home through occupied slots, and
is stored once. -/
structure Wf (cap : Nat) (home : K → Nat) (slot : Nat → Option K) : Prop where
  reach : ∀ i < cap, ∀ k, slot i = some k →
    ∃ d < cap, probeAt cap (home k) d = i ∧ Filled cap slot (home k) d
  unique : ∀ i < cap, ∀ j < cap, ∀ k, slot i = some k → slot j = some k → i = j

/-- Slot `i` lies on the probe path from the home of the key in slot `j`
to `j`. -/
def Blocks (cap : Nat) (home : K → Nat) (slot : Nat → Option K) (i j : Nat) : Prop :=
  ∃ k d e, slot j = some k ∧ d < cap ∧ e < d ∧
    probeAt cap (home k) d = j ∧ probeAt cap (home k) e = i

variable {home : K → Nat} {slot : Nat → Option K}

theorem Wf.empty : Wf cap home (fun _ => none) :=
  ⟨fun _ _ _ h => by simp at h, fun _ _ _ _ _ h => by simp at h⟩

/-- A stored key's probe ends at its slot. -/
theorem probe_of_stored [DecidableEq K] (hwf : Wf cap home slot) {i : Nat} {k : K}
    (hi : i < cap) (hik : slot i = some k) :
    probe cap slot k cap (probeAt cap (home k) 0) = .hit i := by
  obtain ⟨d, hd, rfl, hfill⟩ := hwf.reach i hi k hik
  refine probe_hit hd hik fun e he => ⟨hfill e he, fun hek => ?_⟩
  have hc : 0 < cap := by omega
  have hee := hwf.unique _ (probeAt_lt hc _ _) _ hi k hek hik
  have := probeAt_inj (by omega) hd hee
  omega

/-- An absent key's probe ends at the first free slot of its path, or
finds the whole table occupied. -/
theorem probe_of_absent [DecidableEq K] {k : K} (h : Nat) (habs : ∀ i < cap, slot i ≠ some k) :
    (∃ d < cap, probe cap slot k cap (probeAt cap h 0) = .free (probeAt cap h d)
        ∧ slot (probeAt cap h d) = none ∧ Filled cap slot h d)
      ∨ (probe cap slot k cap (probeAt cap h 0) = .full ∧ ∀ i < cap, slot i ≠ none) := by
  by_cases hfree : ∃ d < cap, slot (probeAt cap h d) = none
  · left
    classical
    -- the first free slot of the path
    obtain ⟨hd, hnone⟩ := Nat.find_spec hfree
    have hfirst : Filled cap slot h (Nat.find hfree) := fun e he hnn =>
      Nat.find_min hfree he ⟨by omega, hnn⟩
    refine ⟨_, hd, probe_free hd hnone fun e he => ⟨hfirst e he, ?_⟩, hnone, hfirst⟩
    exact habs _ (probeAt_lt (by omega) _ _)
  · right
    push Not at hfree
    refine ⟨probe_full fun e he => ⟨hfree e he, habs _ (probeAt_lt (by omega) _ _)⟩, ?_⟩
    intro i hi
    obtain ⟨d, hd, rfl⟩ := exists_probeAt hi h
    exact hfree d hd

/-- Storing an absent key at the free slot its probe ended at keeps the
invariant. -/
theorem Wf.insert (hwf : Wf cap home slot) {k : K} {d : Nat} (hd : d < cap)
    (habs : ∀ i < cap, slot i ≠ some k) (hfill : Filled cap slot (home k) d) :
    Wf cap home (Function.update slot (probeAt cap (home k) d) (some k)) := by
  have hkeep : ∀ h n, Filled cap slot h n →
      Filled cap (Function.update slot (probeAt cap (home k) d) (some k)) h n := by
    intro h n hf e he
    by_cases hp : probeAt cap h e = probeAt cap (home k) d
    · simp [hp]
    · simpa [Function.update_of_ne hp] using hf e he
  constructor
  · intro i hi k' hk'
    by_cases hid : i = probeAt cap (home k) d
    · subst hid
      obtain rfl : k = k' := by simpa using hk'
      exact ⟨d, hd, rfl, hkeep _ _ hfill⟩
    · rw [Function.update_of_ne hid] at hk'
      obtain ⟨d', hd', hat, hf⟩ := hwf.reach i hi k' hk'
      exact ⟨d', hd', hat, hkeep _ _ hf⟩
  · intro i hi j hj k' hik hjk
    by_cases hid : i = probeAt cap (home k) d <;> by_cases hjd : j = probeAt cap (home k) d
    · rw [hid, hjd]
    · rw [Function.update_of_ne hjd] at hjk
      rw [hid, Function.update_self, Option.some_inj] at hik
      exact absurd (hik ▸ hjk) (habs j hj)
    · rw [Function.update_of_ne hid] at hik
      rw [hjd, Function.update_self, Option.some_inj] at hjk
      exact absurd (hjk ▸ hik) (habs i hi)
    · rw [Function.update_of_ne hid] at hik
      rw [Function.update_of_ne hjd] at hjk
      exact hwf.unique i hi j hj k' hik hjk

/-- Freeing a slot that lies on no other stored key's probe path keeps
the invariant. -/
theorem Wf.erase (hwf : Wf cap home slot) {i : Nat}
    (hclear : ∀ j < cap, j ≠ i → ¬ Blocks cap home slot i j) :
    Wf cap home (Function.update slot i none) := by
  have hother : ∀ j k, Function.update slot i none j = some k → j ≠ i ∧ slot j = some k := by
    intro j k hj
    by_cases hji : j = i
    · subst hji; simp at hj
    · exact ⟨hji, by rwa [Function.update_of_ne hji] at hj⟩
  constructor
  · intro j hj k hk
    obtain ⟨hji, hjk⟩ := hother j k hk
    obtain ⟨d, hd, hat, hf⟩ := hwf.reach j hj k hjk
    refine ⟨d, hd, hat, fun e he => ?_⟩
    have hei : probeAt cap (home k) e ≠ i := fun hei =>
      hclear j hj hji ⟨k, d, e, hjk, hd, he, hat, hei⟩
    rw [Function.update_of_ne hei]
    exact hf e he
  · intro a ha b hb k hak hbk
    exact hwf.unique a ha b hb k (hother a k hak).2 (hother b k hbk).2

/-- A key whose probe path ran through a freed slot is found no more. -/
theorem probe_of_blocked [DecidableEq K] (hwf : Wf cap home slot) {i j : Nat} (hi : i < cap)
    (hj : j < cap) {k : K} (hjk : slot j = some k) (hblk : Blocks cap home slot i j) :
    ∃ l < cap, probe cap (Function.update slot i none) k cap (probeAt cap (home k) 0) = .free l := by
  obtain ⟨k', d, e, hjk', hd, hed, hat, hei⟩ := hblk
  obtain rfl : k = k' := by rw [hjk] at hjk'; exact Option.some.inj hjk'
  have hij : i ≠ j := by
    rintro rfl
    have := probeAt_inj (by omega) hd (hei.trans hat.symm)
    omega
  have hne : ∀ n < d, probeAt cap (home k) n ≠ j := fun n hn hnj => by
    have := probeAt_inj (by omega) hd (hnj.trans hat.symm)
    omega
  -- the key sits in slot `j` only, so the probe passes other keys until slot `i`
  obtain ⟨d', hd', hat', hfill⟩ := hwf.reach j hj k hjk
  obtain rfl : d = d' := probeAt_inj hd hd' (hat.trans hat'.symm)
  have hpass : ∀ n < e, Function.update slot i none (probeAt cap (home k) n) ≠ none ∧
      Function.update slot i none (probeAt cap (home k) n) ≠ some k := by
    intro n hn
    have hni : probeAt cap (home k) n ≠ i := fun h => by
      have := probeAt_inj (by omega) (by omega) (h.trans hei.symm)
      omega
    rw [Function.update_of_ne hni]
    refine ⟨hfill n (by omega), fun hnk => hne n (by omega) ?_⟩
    exact hwf.unique _ (probeAt_lt (by omega) _ _) _ hj k hnk hjk
  exact ⟨_, probeAt_lt (by omega) _ _, probe_free (by omega) (by rw [hei]; simp) hpass⟩

/-! ## §4 A table of any content -/

section AnyTable

variable [DecidableEq K] {slot : Nat → Option K} {k : K}

/-- A probe ends inside the table, at the key or at a free slot, or has
visited all its slots. -/
theorem probe_ends (hc : 0 < cap) : ∀ (turns i : Nat), i < cap →
    (∃ j < cap, probe cap slot k turns i = .hit j ∧ slot j = some k) ∨
      (∃ j < cap, probe cap slot k turns i = .free j ∧ slot j = none) ∨
      probe cap slot k turns i = .full
  | 0, _, _ => .inr (.inr rfl)
  | turns + 1, i, hi => by
    rw [probe]
    cases hslot : slot i with
    | none => exact .inr (.inl ⟨i, hi, rfl, hslot⟩)
    | some k' =>
      by_cases hk : k' = k
      · subst hk
        exact .inl ⟨i, hi, by simp, hslot⟩
      · simp only [if_neg hk]
        exact probe_ends hc turns _ (Nat.mod_lt _ hc)

/-- A probe that ends at no slot has run past occupied ones only. -/
theorem filled_of_full {h : Nat} : ∀ (turns d : Nat),
    probe cap slot k turns (probeAt cap h d) = .full →
      ∀ e < turns, slot (probeAt cap h (d + e)) ≠ none
  | 0, _, _ => fun e he => absurd he (Nat.not_lt_zero e)
  | turns + 1, d, hfull => by
    intro e he
    rw [probe, succ_probeAt] at hfull
    cases hslot : slot (probeAt cap h d) with
    | none => simp [hslot] at hfull
    | some k' =>
      have hk : k' ≠ k := fun hk => by simp [hslot, hk] at hfull
      simp only [hslot, if_neg hk] at hfull
      cases e with
      | zero => simp [hslot]
      | succ e =>
        have hrest := filled_of_full turns (d + 1) hfull e (by omega)
        rwa [show d + 1 + e = d + (e + 1) by omega] at hrest

/-- A probe of `cap` slots that ends at none has found every slot
occupied. -/
theorem occupied_of_full {h : Nat} (hfull : probe cap slot k cap (probeAt cap h 0) = .full)
    {i : Nat} (hi : i < cap) : slot i ≠ none := by
  obtain ⟨d, hd, rfl⟩ := exists_probeAt hi h
  have hfilled := filled_of_full cap 0 hfull d hd
  rwa [Nat.zero_add] at hfilled

end AnyTable

end Aether.Lib.LinearProbing
