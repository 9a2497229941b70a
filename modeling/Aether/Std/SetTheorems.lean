/-
Aether.Std.SetTheorems — the set of `std/collections.ae` against a
mathematical finite set.

`Set.toMap` reads a set as a hash map all of whose values are 0; putting a
key is putting it with the value 0 (`step_toMap`), so a set follows its
finite set wherever the map follows its finite map.

Only a remove leaves the finite set: it frees its slot without a
tombstone. A put into a full set is harmless here, since the key is then a
member already. `set_refines_iff`: on a run with at most `capacity`
members, every state represents the finite set if and only if no remove
frees a slot on another member's probe path.
-/
import Aether.Std.HashMapTheorems
import Aether.Std.Set

namespace Aether.Std

open Lib Lib.LinearProbing

/-! ## §1 The finite set -/

/-- The members. -/
abbrev Members := Finset Bytes

def Members.step (m : Members) : SetOp → Members
  | .put key => insert key m
  | .contains _ => m
  | .remove key => m.erase key

def Members.run (ops : List SetOp) : Members := ops.foldl Members.step ∅

/-- Every query answers as the finite set, and the count is the number of
members. -/
def RepresentsSet (table : Option Set) (m : Members) : Prop :=
  ∃ s, table = some s ∧ (∀ key, setContains s key = some (decide (key ∈ m))) ∧
    (setLen s).toNat = m.card

/-! ## §2 A set is a map of zeros -/

/-- The set as a hash map with the value 0 in every slot. -/
def Set.toMap (s : Set) : HashMap where
  keys := s.keys
  values := List.replicate s.capacity.toNat 0
  occupied := s.occupied
  count := s.count
  capacity := s.capacity

/-- The operation on the map. -/
def SetOp.toMapOp : SetOp → HashMapOp
  | .put key => .put key 0
  | .contains key => .containsKey key
  | .remove key => .remove key

theorem setProbeLoop_eq (s : Set) (key : Bytes) (stop : UInt64 → Bool) (turns : Nat)
    (index : UInt64) :
    setProbeLoop s key stop turns index = probeLoop s.toMap key stop turns index := by
  induction turns generalizing index with
  | zero => rfl
  | succ turns ih =>
    simp only [setProbeLoop, probeLoop, ih]
    rfl

theorem probePut_toMap (s : Set) (key : Bytes) : s.probePut key = s.toMap.probePut key :=
  setProbeLoop_eq ..

theorem probeGet_toMap (s : Set) (key : Bytes) : s.probeGet key = s.toMap.probeGet key :=
  setProbeLoop_eq ..

theorem setContains_toMap (s : Set) (key : Bytes) :
    setContains s key = hashMapContainsKey s.toMap key := by
  unfold setContains hashMapContainsKey
  exact congrArg (Option.map _) (probeGet_toMap s key)

@[simp] theorem toMap_valueAt (s : Set) (i : Nat) : s.toMap.valueAt i = 0 := by
  simp only [HashMap.valueAt, Set.toMap, List.getD_eq_getElem?_getD, List.getElem?_replicate]
  split <;> rfl

/-- Each operation on the set is the operation on the map. -/
theorem step_toMap (s : Set) (op : SetOp) :
    (s.step op).map Set.toMap = s.toMap.step op.toMapOp := by
  cases op with
  | put key =>
    simp only [Set.step, SetOp.toMapOp, HashMap.step, setPut, hashMapPut, probePut_toMap]
    by_cases hfull : s.count ≥ s.capacity
    · have hfull' : s.toMap.count ≥ s.toMap.capacity := hfull
      rw [if_pos hfull, if_pos hfull']
      rfl
    · have hroom' : ¬ s.toMap.count ≥ s.toMap.capacity := hfull
      rw [if_neg hfull, if_neg hroom', Option.map_map]
      congr 1
      funext p
      cases p with
      | found index => simp [Set.toMap]
      | free index => simp [Set.toMap]
      | wrapped => rfl
  | contains key =>
    simp only [Set.step, SetOp.toMapOp, HashMap.step, setContains_toMap, Option.map_map]
    rfl
  | remove key =>
    simp only [Set.step, SetOp.toMapOp, HashMap.step, setRemove, hashMapRemove, probeGet_toMap,
      Option.map_map]
    congr 1
    funext p
    cases p <;> rfl

theorem exists_of_step_toMap {s : Set} {op : SetOp} {t : HashMap}
    (hstep : s.toMap.step op.toMapOp = some t) : ∃ s', s.step op = some s' ∧ s'.toMap = t := by
  rw [← step_toMap] at hstep
  exact Option.map_eq_some_iff.mp hstep

/-! ## §3 A finite set is a finite map of zeros -/

/-- The finite map gives 0 to exactly the members. -/
def KeyMap.Zeros (k : KeyMap) (m : Members) : Prop :=
  ∀ key, k.lookup key = if key ∈ m then some 0 else none

theorem KeyMap.Zeros.keys_eq {k : KeyMap} {m : Members} (h : k.Zeros m) : k.keys = m := by
  ext key
  rw [Finmap.mem_keys, ← Finmap.lookup_isSome, h key]
  split <;> simp [*]

theorem KeyMap.Zeros.step {k : KeyMap} {m : Members} (h : k.Zeros m) (op : SetOp) :
    (k.step op.toMapOp).Zeros (m.step op) := by
  intro key'
  cases op with
  | put key =>
    rw [SetOp.toMapOp, KeyMap.step, Members.step]
    by_cases hk : key' = key
    · subst hk; simp
    · rw [Finmap.lookup_insert_of_ne _ hk, h key']
      simp [hk]
  | contains key => exact h key'
  | remove key =>
    rw [SetOp.toMapOp, KeyMap.step, Members.step]
    by_cases hk : key' = key
    · subst hk; simp
    · rw [Finmap.lookup_erase_ne hk, h key']
      simp [hk]

/-- A map of zeros answers a get with 0 whenever its probe ends. -/
theorem hashMapGet_toMap {s : Set} {key : Bytes} {b : Bool}
    (h : hashMapContainsKey s.toMap key = some b) : hashMapGet s.toMap key = some 0 := by
  obtain ⟨p, hp, -⟩ := Option.map_eq_some_iff.mp h
  rw [hashMapGet, hp]
  cases p <;> simp

/-- A set represents its members exactly when its map represents their
zeros. -/
theorem representsSet_iff {s : Set} {m : Members} {k : KeyMap} (h : k.Zeros m) :
    RepresentsSet (some s) m ↔ Represents (some s.toMap) k := by
  have hlook : ∀ key, (k.lookup key).isSome = decide (key ∈ m) ∧ (k.lookup key).getD 0 = 0 := by
    intro key
    rw [h key]
    split <;> simp [*]
  constructor
  · rintro ⟨s', hs, hcontains, hlen⟩
    obtain rfl := Option.some.inj hs
    refine ⟨s.toMap, rfl, fun key => ?_, by rw [h.keys_eq]; exact hlen⟩
    have hmem := hcontains key
    rw [setContains_toMap] at hmem
    rw [(hlook key).1, (hlook key).2]
    exact ⟨hmem, hashMapGet_toMap hmem⟩
  · rintro ⟨t, ht, hall, hlen⟩
    obtain rfl := Option.some.inj ht
    refine ⟨s, rfl, fun key => ?_, by rw [← h.keys_eq]; exact hlen⟩
    rw [setContains_toMap, (hall key).1, (hlook key).1]

/-! ## §4 One step -/

/-- The steps under which the set follows the finite set: a remove is
harmless when no other member's probe path runs through its slot. -/
def Set.StepOk (s : Set) : SetOp → Prop
  | .put _ => True
  | .contains _ => True
  | .remove key =>
    ∀ i < s.toMap.cap, ∀ j < s.toMap.cap, s.toMap.slot i = some key → j ≠ i →
      ¬ Blocks s.toMap.cap s.toMap.home s.toMap.slot i j

/-- The relation a run keeps. -/
def Set.Keeps (capacity : UInt64) (s : Set) (m : Members) : Prop :=
  ∃ k : KeyMap, k.Zeros m ∧ HashMap.Keeps capacity s.toMap k

/-- When the members fit the capacity, a put finds room or its key. -/
theorem Set.put_stepOk {capacity : UInt64} {s : Set} {m : Members} {k : KeyMap}
    (hzeros : k.Zeros m) (hkeep : HashMap.Keeps capacity s.toMap k) (key : Bytes)
    (hfits : (insert key m).card ≤ capacity.toNat) : s.toMap.StepOk (.put key 0) := by
  obtain ⟨hinv, hholds, hcap⟩ := hkeep
  by_cases hroom : s.toMap.count < s.toMap.capacity
  · exact .inl hroom
  · have hmem : key ∈ m := by
      by_contra hnew
      have hcount : s.toMap.count.toNat = m.card := by
        rw [hinv.count_eq, HashMap.card_live hinv hholds, hzeros.keys_eq]
      have hfull : s.toMap.cap ≤ s.toMap.count.toNat :=
        UInt64.le_iff_toNat_le.mp (UInt64.not_lt.mp hroom)
      rw [Finset.card_insert_of_notMem hnew] at hfits
      omega
    have hlook : k.lookup key = some 0 := by rw [hzeros key, if_pos hmem]
    exact .inr ((hholds key 0).mp hlook)

/-- Apart from puts, a step of the set is good when the map's is. -/
theorem Set.stepOk_toMap {capacity : UInt64} {s : Set} {m : Members} {k : KeyMap}
    (hzeros : k.Zeros m) (hkeep : HashMap.Keeps capacity s.toMap k) {op : SetOp}
    (hfits : (m.step op).card ≤ capacity.toNat) : s.toMap.StepOk op.toMapOp ↔ s.StepOk op := by
  cases op with
  | put key => exact ⟨fun _ => trivial, fun _ => Set.put_stepOk hzeros hkeep key hfits⟩
  | contains key => exact Iff.rfl
  | remove key => exact Iff.rfl

theorem Set.step_keeps {capacity : UInt64} {s : Set} {m : Members} {op : SetOp}
    (hkeep : Set.Keeps capacity s m) (hfits : (m.step op).card ≤ capacity.toNat)
    (hok : s.StepOk op) : ∃ s', s.step op = some s' ∧ Set.Keeps capacity s' (m.step op) := by
  obtain ⟨k, hzeros, hmap⟩ := hkeep
  have hok' := (Set.stepOk_toMap hzeros hmap hfits).mpr hok
  obtain ⟨t, hstep, hinv, hholds⟩ := HashMap.step_keeps hmap.1 hmap.2.1 hok'
  obtain ⟨s', hs, rfl⟩ := exists_of_step_toMap hstep
  exact ⟨s', hs, _, hzeros.step op, hinv, hholds, (HashMap.step_cap hstep).trans hmap.2.2⟩

theorem Set.step_breaks {capacity : UInt64} {s : Set} {m : Members} {op : SetOp}
    (hkeep : Set.Keeps capacity s m) (hfits : (m.step op).card ≤ capacity.toNat)
    (hbad : ¬ s.StepOk op) : ¬ RepresentsSet (s.step op) (m.step op) := by
  obtain ⟨k, hzeros, hmap⟩ := hkeep
  have hbad' : ¬ s.toMap.StepOk op.toMapOp := fun h =>
    hbad ((Set.stepOk_toMap hzeros hmap hfits).mp h)
  have hfits' : (k.step op.toMapOp).keys.card ≤ s.toMap.cap := by
    rw [(hzeros.step op).keys_eq, hmap.2.2]
    exact hfits
  intro hrep
  obtain ⟨s', hs, -⟩ := id hrep
  rw [hs, representsSet_iff (hzeros.step op)] at hrep
  refine HashMap.step_breaks hmap.1 hmap.2.1 hfits' hbad' ?_
  rw [← step_toMap, hs]
  exact hrep

/-! ## §5 Runs -/

theorem newSetLoop_toMap (s : Set) :
    ∀ n, newSetLoop n s =
      { s with
        keys := s.keys ++ List.replicate n []
        occupied := s.occupied ++ List.replicate n false }
  | 0 => by simp [newSetLoop]
  | n + 1 => by
    rw [newSetLoop, newSetLoop_toMap _ n]
    simp [List.replicate_succ]

theorem newSet_toMap (capacity : UInt64) : (newSet capacity).toMap = newHashMap capacity := by
  simp [newSet, newSetLoop_toMap, newHashMap, newHashMapLoop_eq, Set.toMap]

theorem newSet_keeps {capacity : UInt64} (hcap : 1 ≤ capacity) :
    Set.Keeps capacity (newSet capacity) ∅ := by
  refine ⟨∅, fun key => by simp, ?_⟩
  rw [newSet_toMap]
  exact ⟨newHashMap_inv hcap, newHashMap_holds capacity, newHashMap_cap capacity⟩

/-- Every step of the run is `StepOk` in the state it starts from. -/
def SetRunOk (capacity : UInt64) (ops : List SetOp) : Prop :=
  ∀ pre op, pre ++ [op] <+: ops → ∀ s, (newSet capacity).run pre = some s → s.StepOk op

/-- On a run whose members never exceed the capacity, the set follows the
finite set throughout if and only if every step is `StepOk`. -/
theorem set_refines_iff (capacity : UInt64) (hcap : 1 ≤ capacity) (ops : List SetOp)
    (hmembers : ∀ pre, pre <+: ops → (Members.run pre).card ≤ capacity.toNat) :
    (∀ pre, pre <+: ops → RepresentsSet ((newSet capacity).run pre) (Members.run pre)) ↔
      SetRunOk capacity ops := by
  have hrep : ∀ s m, Set.Keeps capacity s m → RepresentsSet (some s) m := by
    rintro s m ⟨k, hzeros, hmap⟩
    exact (representsSet_iff hzeros).mpr (HashMap.represents hmap.1 hmap.2.1)
  exact follows_iff (fun m => m.card ≤ capacity.toNat) (fun _ _ _ => Set.step_keeps)
    (fun _ _ _ => Set.step_breaks) hrep (newSet_keeps hcap) hmembers

/-- A key put twice, in a set with room to spare. -/
def putTwiceOps : List SetOp := [.put (bytes "a"), .put (bytes "b"), .put (bytes "a")]

theorem set_refines_iff_putTwice :
    (∀ pre, pre <+: putTwiceOps → RepresentsSet ((newSet 4).run pre) (Members.run pre)) ↔
      SetRunOk 4 putTwiceOps := by
  refine set_refines_iff 4 (by decide) putTwiceOps fun pre hpre => ?_
  have hall : ∀ pre ∈ putTwiceOps.inits, (Members.run pre).card ≤ (4 : UInt64).toNat := by
    decide
  exact hall pre (List.mem_inits _ _ |>.mpr hpre)

/-- `"a"` and `"c"` share the home slot of a set of two; removing `"a"`
breaks the probe path of `"c"`. -/
def collideSetOps : List SetOp := [.put (bytes "a"), .put (bytes "c"), .remove (bytes "a")]

theorem set_loses_member :
    ¬ ∀ (capacity : UInt64) (ops : List SetOp), 1 ≤ capacity →
      (∀ pre, pre <+: ops → (Members.run pre).card ≤ capacity.toNat) →
      ∀ pre, pre <+: ops → RepresentsSet ((newSet capacity).run pre) (Members.run pre) := by
  intro hclaim
  have hmembers : ∀ pre ∈ collideSetOps.inits, (Members.run pre).card ≤ (2 : UInt64).toNat := by
    decide
  obtain ⟨s, hs, hcontains, -⟩ := hclaim 2 collideSetOps (by decide)
    (fun pre hpre => hmembers pre (List.mem_inits _ _ |>.mpr hpre)) collideSetOps
    (List.prefix_refl _)
  have hspec : decide (bytes "c" ∈ Members.run collideSetOps) = true := by decide
  have hcode : ((newSet 2).run collideSetOps).bind (setContains · (bytes "c")) = some false := by
    decide
  have hmem := hcontains (bytes "c")
  rw [hspec] at hmem
  rw [hs] at hcode
  exact absurd (hmem.symm.trans hcode) (by decide)

end Aether.Std
