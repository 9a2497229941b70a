/-
Aether.Std.HashMapTheorems — the hash map of `std/collections.ae` against
a mathematical finite map.

`KeyMap` is the finite map, `KeyMap.step` what each operation does to it,
and `Represents` says that every lookup answers as the finite map does and
that `count` is the number of live keys. `HashMap.Inv` is the invariant:
array lengths, the count, and `LinearProbing.Wf` of the occupied slots.

The map does not refine the finite map on every run. Two kinds of step
leave the invariant, and `StepOk` excludes exactly these:

* a put into a full table returns before it looks for the key, so a live
  key keeps its old value;
* a remove frees its slot without a tombstone, so a key whose probe path
  ran through that slot is lost.

`hashMap_refines_iff`: on a run with at most `capacity` live keys, every
state represents the finite map if and only if every step is `StepOk`.
-/
import Mathlib.Data.Finmap
import Aether.Lib.LinearProbing
import Aether.Lib.Machine
import Aether.Std.Collections

namespace Aether.Std

open Lib Lib.LinearProbing

/-! ## §1 The finite map -/

/-- The live keys and their values. -/
abbrev KeyMap := Finmap fun _ : Bytes => UInt64

def KeyMap.step (m : KeyMap) : HashMapOp → KeyMap
  | .put key value => m.insert key value
  | .get _ => m
  | .containsKey _ => m
  | .remove key => m.erase key

def KeyMap.run (ops : List HashMapOp) : KeyMap := ops.foldl KeyMap.step ∅

/-- Every lookup of the table answers as the finite map, and its count is
the number of live keys. -/
def Represents (table : Option HashMap) (m : KeyMap) : Prop :=
  ∃ t, table = some t ∧
    (∀ key, hashMapContainsKey t key = some (m.lookup key).isSome ∧
      hashMapGet t key = some ((m.lookup key).getD 0)) ∧
    (hashMapLen t).toNat = m.keys.card

/-! ## §2 The table as probing slots -/

/-- The number of slots. -/
def HashMap.cap (t : HashMap) : Nat := t.capacity.toNat

/-- The key stored in slot `i`, if the slot is occupied. -/
def HashMap.slot (t : HashMap) (i : Nat) : Option Bytes :=
  if t.isOccupied i then some (t.keyAt i) else none

/-- The slot a key's probe starts at. -/
def HashMap.home (t : HashMap) (key : Bytes) : Nat := (t.startIndex key).toNat

/-- The occupied slots. -/
def HashMap.live (t : HashMap) : Finset Nat :=
  (Finset.range t.cap).filter fun i => t.isOccupied i = true

structure HashMap.Inv (t : HashMap) : Prop where
  cap_pos : 0 < t.cap
  keys_length : t.keys.length = t.cap
  values_length : t.values.length = t.cap
  occupied_length : t.occupied.length = t.cap
  count_eq : t.count.toNat = t.live.card
  wf : Wf t.cap t.home t.slot

/-- The occupied slots hold the live keys with their values. -/
def HashMap.Holds (t : HashMap) (m : KeyMap) : Prop :=
  ∀ key value, m.lookup key = some value ↔
    ∃ i < t.cap, t.slot i = some key ∧ t.valueAt i = value

theorem HashMap.cap_lt (t : HashMap) : t.cap < 2 ^ 64 := t.capacity.toNat_lt

theorem HashMap.home_lt {t : HashMap} (hcap : 0 < t.cap) (key : Bytes) : t.home key < t.cap := by
  rw [HashMap.home, HashMap.startIndex, UInt64.toNat_mod]
  exact Nat.mod_lt _ hcap

theorem HashMap.startIndex_eq (t : HashMap) (key : Bytes) :
    t.startIndex key = UInt64.ofNat (t.home key) := by
  simp [HashMap.home]

theorem HashMap.isOccupied_iff {t : HashMap} {i : Nat} :
    t.isOccupied i = true ↔ t.slot i ≠ none := by
  simp [HashMap.slot]

theorem HashMap.mem_live {t : HashMap} {i : Nat} :
    i ∈ t.live ↔ i < t.cap ∧ t.slot i ≠ none := by
  simp [HashMap.live, HashMap.isOccupied_iff]

theorem toNat_ofNat_slot {t : HashMap} {i : Nat} (hi : i < t.cap) : (UInt64.ofNat i).toNat = i :=
  UInt64.toNat_ofNat_of_lt' (Nat.lt_trans hi t.cap_lt)

/-- The next index of the loops is the next slot modulo the capacity: the
64-bit addition cannot wrap below the capacity. -/
theorem next_index {t : HashMap} {i : Nat} (hi : i < t.cap) :
    (UInt64.ofNat i + 1) % t.capacity = UInt64.ofNat ((i + 1) % t.cap) := by
  have hlt := t.cap_lt
  have hmod : (i + 1) % t.cap < 2 ^ 64 := by
    have := Nat.mod_lt (i + 1) (by omega : 0 < t.cap)
    omega
  apply UInt64.toNat_inj.mp
  rw [UInt64.toNat_mod, UInt64.toNat_add, toNat_ofNat_slot hi,
    UInt64.toNat_ofNat_of_lt' (by simpa using hmod)]
  have h1 : (UInt64.toNat 1) = 1 := rfl
  rw [h1, Nat.mod_eq_of_lt (by omega : i + 1 < 2 ^ 64)]
  rfl

/-! ## §3 The loops are probes -/

/-- The probe loop of put: a table that is full of other keys keeps it
running. -/
def probeOf? : Found → Option Probe
  | .hit i => some (.found (UInt64.ofNat i))
  | .free i => some (.free (UInt64.ofNat i))
  | .full => none

/-- The probe loop with the start index as its stop. -/
def probeOf : Found → Probe
  | .hit i => .found (UInt64.ofNat i)
  | .free i => .free (UInt64.ofNat i)
  | .full => .wrapped

theorem probeLoop_step {t : HashMap} {key : Bytes} {stop : UInt64 → Bool} {turns i : Nat}
    (hi : i < t.cap) :
    probeLoop t key stop (turns + 1) (UInt64.ofNat i) =
      match t.slot i with
      | none => some (.free (UInt64.ofNat i))
      | some key' =>
        if key' = key then some (.found (UInt64.ofNat i))
        else if stop (UInt64.ofNat ((i + 1) % t.cap)) then some .wrapped
        else probeLoop t key stop turns (UInt64.ofNat ((i + 1) % t.cap)) := by
  rw [probeLoop, toNat_ofNat_slot hi]
  cases hocc : t.isOccupied i with
  | false => simp [HashMap.slot, hocc]
  | true => simp [HashMap.slot, hocc, next_index hi]

theorem probeLoop_noStop {t : HashMap} {key : Bytes} :
    ∀ (turns i : Nat), i < t.cap →
      probeLoop t key (fun _ => false) turns (UInt64.ofNat i)
        = probeOf? (probe t.cap t.slot key turns i)
  | 0, _, _ => rfl
  | turns + 1, i, hi => by
    rw [probeLoop_step hi, probe]
    cases hslot : t.slot i with
    | none => rfl
    | some key' =>
      by_cases hk : key' = key
      · simp [hk, probeOf?]
      · have hnext : (i + 1) % t.cap < t.cap := Nat.mod_lt _ (by omega)
        simp [hk, probeLoop_noStop turns _ hnext]

/-- With the start index as stop, `cap` turns always end the loop. -/
theorem probeLoop_start {t : HashMap} {key : Bytes} {h : Nat} (hcap : 0 < t.cap) :
    ∀ (turns d : Nat), d + turns + 1 = t.cap →
      probeLoop t key (fun i => i == UInt64.ofNat (probeAt t.cap h 0)) (turns + 1)
          (UInt64.ofNat (probeAt t.cap h d))
        = some (probeOf (probe t.cap t.slot key (turns + 1) (probeAt t.cap h d))) := by
  intro turns
  induction turns with
  | zero =>
    intro d hd
    -- the last turn: the next index is the start again
    have hwrap : (probeAt t.cap h d + 1) % t.cap = probeAt t.cap h 0 := by
      rw [succ_probeAt, show d + 1 = t.cap by omega]
      simp [probeAt]
    rw [probeLoop_step (probeAt_lt hcap h d), probe, hwrap]
    cases hslot : t.slot (probeAt t.cap h d) with
    | none => rfl
    | some key' =>
      by_cases hk : key' = key
      · simp [hk, probeOf]
      · simp [hk, probeOf, probe]
  | succ turns ih =>
    intro d hd
    have hne : UInt64.ofNat (probeAt t.cap h (d + 1)) ≠ UInt64.ofNat (probeAt t.cap h 0) := by
      intro heq
      have heq' := congrArg UInt64.toNat heq
      rw [toNat_ofNat_slot (probeAt_lt hcap h (d + 1)), toNat_ofNat_slot (probeAt_lt hcap h 0)]
        at heq'
      have := probeAt_inj (by omega) hcap heq'
      omega
    rw [probeLoop_step (probeAt_lt hcap h d), probe, succ_probeAt]
    cases hslot : t.slot (probeAt t.cap h d) with
    | none => rfl
    | some key' =>
      by_cases hk : key' = key
      · simp [hk, probeOf]
      · simp only [if_neg hk, beq_iff_eq, if_neg hne]
        exact ih (d + 1) (by omega)

theorem HashMap.probePut_eq {t : HashMap} (hcap : 0 < t.cap) (key : Bytes) :
    t.probePut key = probeOf? (probe t.cap t.slot key t.cap (probeAt t.cap (t.home key) 0)) := by
  have hhome := HashMap.home_lt hcap key
  rw [HashMap.probePut, t.startIndex_eq key]
  exact (probeLoop_noStop t.cap _ hhome).trans (by rw [probeAt_zero hhome])

theorem HashMap.probeGet_eq {t : HashMap} (hcap : 0 < t.cap) (key : Bytes) :
    t.probeGet key
      = some (probeOf (probe t.cap t.slot key t.cap (probeAt t.cap (t.home key) 0))) := by
  have hzero := probeAt_zero (HashMap.home_lt hcap key)
  have hstart : t.startIndex key = UInt64.ofNat (probeAt t.cap (t.home key) 0) := by
    rw [hzero, t.startIndex_eq key]
  have hloop : probeLoop t key _ (t.cap - 1 + 1) _ = _ :=
    probeLoop_start (h := t.home key) hcap (t.cap - 1) 0 (by omega)
  rw [show t.cap - 1 + 1 = t.cap by omega] at hloop
  rw [HashMap.probeGet, hstart]
  exact hloop

/-! ## §4 What a probe answers under the invariant -/

theorem HashMap.probeGet_stored {t : HashMap} (hinv : t.Inv) {i : Nat} {key : Bytes}
    (hi : i < t.cap) (hslot : t.slot i = some key) :
    t.probeGet key = some (.found (UInt64.ofNat i)) := by
  rw [HashMap.probeGet_eq hinv.cap_pos, probe_of_stored hinv.wf hi hslot]
  rfl

theorem HashMap.probePut_stored {t : HashMap} (hinv : t.Inv) {i : Nat} {key : Bytes}
    (hi : i < t.cap) (hslot : t.slot i = some key) :
    t.probePut key = some (.found (UInt64.ofNat i)) := by
  rw [HashMap.probePut_eq hinv.cap_pos, probe_of_stored hinv.wf hi hslot]
  rfl

theorem HashMap.probeGet_absent {t : HashMap} (hinv : t.Inv) {key : Bytes}
    (habs : ∀ i < t.cap, t.slot i ≠ some key) :
    t.probeGet key = some .wrapped ∨ ∃ i, t.probeGet key = some (.free i) := by
  rw [HashMap.probeGet_eq hinv.cap_pos]
  rcases probe_of_absent (t.home key) habs with ⟨d, _, hprobe, _⟩ | ⟨hprobe, _⟩
  · exact .inr ⟨_, by rw [hprobe]; rfl⟩
  · exact .inl (by rw [hprobe]; rfl)

/-- A table below its capacity has a free slot, so put's loop ends. -/
theorem HashMap.probePut_absent {t : HashMap} (hinv : t.Inv) (hroom : t.count < t.capacity)
    {key : Bytes} (habs : ∀ i < t.cap, t.slot i ≠ some key) :
    ∃ d < t.cap, t.probePut key = some (.free (UInt64.ofNat (probeAt t.cap (t.home key) d))) ∧
      t.slot (probeAt t.cap (t.home key) d) = none ∧ Filled t.cap t.slot (t.home key) d := by
  rw [HashMap.probePut_eq hinv.cap_pos]
  rcases probe_of_absent (t.home key) habs with ⟨d, hd, hprobe, hnone, hfill⟩ | ⟨_, hfull⟩
  · exact ⟨d, hd, by rw [hprobe]; rfl, hnone, hfill⟩
  · have hlive : t.live = Finset.range t.cap := by
      ext i
      simpa [HashMap.mem_live] using hfull i
    have hcount : t.count.toNat = t.cap := by rw [hinv.count_eq, hlive, Finset.card_range]
    have := UInt64.lt_iff_toNat_lt.mp hroom
    rw [hcount] at this
    exact absurd this (Nat.lt_irrefl _)

theorem HashMap.containsKey_stored {t : HashMap} (hinv : t.Inv) {i : Nat} {key : Bytes}
    (hi : i < t.cap) (hslot : t.slot i = some key) : hashMapContainsKey t key = some true := by
  simp [hashMapContainsKey, HashMap.probeGet_stored hinv hi hslot]

theorem HashMap.get_stored {t : HashMap} (hinv : t.Inv) {i : Nat} {key : Bytes}
    (hi : i < t.cap) (hslot : t.slot i = some key) : hashMapGet t key = some (t.valueAt i) := by
  simp [hashMapGet, HashMap.probeGet_stored hinv hi hslot, toNat_ofNat_slot hi]

theorem HashMap.containsKey_absent {t : HashMap} (hinv : t.Inv) {key : Bytes}
    (habs : ∀ i < t.cap, t.slot i ≠ some key) : hashMapContainsKey t key = some false := by
  rcases HashMap.probeGet_absent hinv habs with h | ⟨i, h⟩ <;> simp [hashMapContainsKey, h]

theorem HashMap.get_absent {t : HashMap} (hinv : t.Inv) {key : Bytes}
    (habs : ∀ i < t.cap, t.slot i ≠ some key) : hashMapGet t key = some 0 := by
  rcases HashMap.probeGet_absent hinv habs with h | ⟨i, h⟩ <;> simp [hashMapGet, h]

/-! ## §5 A table that holds a finite map answers as it -/

theorem HashMap.Holds.stored {t : HashMap} {m : KeyMap} (hholds : t.Holds m) {i : Nat}
    {key : Bytes} (hi : i < t.cap) (hslot : t.slot i = some key) :
    m.lookup key = some (t.valueAt i) :=
  (hholds key (t.valueAt i)).mpr ⟨i, hi, hslot, rfl⟩

theorem HashMap.Holds.absent {t : HashMap} {m : KeyMap} (hholds : t.Holds m) {key : Bytes}
    (hnone : m.lookup key = none) : ∀ i < t.cap, t.slot i ≠ some key := by
  intro i hi hslot
  simp [hholds.stored hi hslot] at hnone

theorem HashMap.Holds.lookup_none {t : HashMap} {m : KeyMap} (hholds : t.Holds m) {key : Bytes}
    (habs : ∀ i < t.cap, t.slot i ≠ some key) : m.lookup key = none := by
  cases hlook : m.lookup key with
  | none => rfl
  | some value =>
    obtain ⟨i, hi, hslot, _⟩ := (hholds key value).mp hlook
    exact absurd hslot (habs i hi)

/-- The live slots are as many as the live keys: a key is stored once. -/
theorem HashMap.card_live {t : HashMap} {m : KeyMap} (hinv : t.Inv) (hholds : t.Holds m) :
    t.live.card = m.keys.card := by
  have hslot : ∀ i ∈ t.live, t.slot i = some (t.keyAt i) := by
    intro i hi
    have hocc : t.isOccupied i = true := HashMap.isOccupied_iff.mpr (HashMap.mem_live.mp hi).2
    simp [HashMap.slot, hocc]
  refine Finset.card_bij (fun i _ => t.keyAt i) ?_ ?_ ?_
  · intro i hi
    have hlook := hholds.stored (HashMap.mem_live.mp hi).1 (hslot i hi)
    exact Finmap.mem_keys.mpr (Finmap.lookup_isSome.mp (by simp [hlook]))
  · intro i hi j hj heq
    have hj' : t.slot j = some (t.keyAt i) := by rw [heq]; exact hslot j hj
    exact hinv.wf.unique i (HashMap.mem_live.mp hi).1 j (HashMap.mem_live.mp hj).1 _
      (hslot i hi) hj'
  · intro key hkey
    obtain ⟨value, hlook⟩ := Option.isSome_iff_exists.mp
      (Finmap.lookup_isSome.mpr (Finmap.mem_keys.mp hkey))
    obtain ⟨i, hi, hik, _⟩ := (hholds key value).mp hlook
    have hlive : i ∈ t.live := HashMap.mem_live.mpr ⟨hi, by simp [hik]⟩
    exact ⟨i, hlive, Option.some.inj ((hslot i hlive).symm.trans hik)⟩

theorem HashMap.represents {t : HashMap} {m : KeyMap} (hinv : t.Inv) (hholds : t.Holds m) :
    Represents (some t) m := by
  refine ⟨t, rfl, fun key => ?_, ?_⟩
  · cases hlook : m.lookup key with
    | none =>
      exact ⟨HashMap.containsKey_absent hinv (hholds.absent hlook),
        HashMap.get_absent hinv (hholds.absent hlook)⟩
    | some value =>
      obtain ⟨i, hi, hslot, rfl⟩ := (hholds key value).mp hlook
      exact ⟨HashMap.containsKey_stored hinv hi hslot, HashMap.get_stored hinv hi hslot⟩
  · rw [hashMapLen, hinv.count_eq, HashMap.card_live hinv hholds]

/-! ## §6 The three updates of a slot -/

/-- Put on a stored key: only the value changes. -/
def HashMap.assign (t : HashMap) (i : Nat) (value : UInt64) : HashMap :=
  { t with values := t.values.set i value }

/-- Put on an absent key: slot `i` is filled. -/
def HashMap.fill (t : HashMap) (i : Nat) (key : Bytes) (value : UInt64) : HashMap :=
  { t with
    keys := t.keys.set i key
    values := t.values.set i value
    occupied := t.occupied.set i true
    count := t.count + 1 }

/-- Remove: slot `i` is freed, its key and value stay behind. -/
def HashMap.release (t : HashMap) (i : Nat) : HashMap :=
  { t with occupied := t.occupied.set i false, count := t.count - 1 }

@[simp] theorem HashMap.assign_cap (t : HashMap) (i : Nat) (v : UInt64) :
    (t.assign i v).cap = t.cap := rfl

@[simp] theorem HashMap.fill_cap (t : HashMap) (i : Nat) (k : Bytes) (v : UInt64) :
    (t.fill i k v).cap = t.cap := rfl

@[simp] theorem HashMap.release_cap (t : HashMap) (i : Nat) : (t.release i).cap = t.cap := rfl

@[simp] theorem HashMap.assign_home (t : HashMap) (i : Nat) (v : UInt64) :
    (t.assign i v).home = t.home := rfl

@[simp] theorem HashMap.fill_home (t : HashMap) (i : Nat) (k : Bytes) (v : UInt64) :
    (t.fill i k v).home = t.home := rfl

@[simp] theorem HashMap.release_home (t : HashMap) (i : Nat) : (t.release i).home = t.home := rfl

@[simp] theorem HashMap.assign_slot (t : HashMap) (i : Nat) (v : UInt64) :
    (t.assign i v).slot = t.slot := rfl

@[simp] theorem HashMap.release_valueAt (t : HashMap) (i j : Nat) :
    (t.release i).valueAt j = t.valueAt j := rfl

theorem getD_set {α : Type} {xs : List α} {i j : Nat} {x d : α} (hi : i < xs.length) :
    (xs.set i x).getD j d = if j = i then x else xs.getD j d := by
  rw [List.getD_eq_getElem?_getD, List.getElem?_set, List.getD_eq_getElem?_getD]
  by_cases hij : i = j
  · subst hij; simp [hi]
  · simp [hij, Ne.symm hij]

theorem HashMap.assign_valueAt {t : HashMap} (hinv : t.Inv) {i : Nat} (hi : i < t.cap)
    (v : UInt64) (j : Nat) : (t.assign i v).valueAt j = if j = i then v else t.valueAt j :=
  getD_set (by rw [hinv.values_length]; exact hi)

theorem HashMap.fill_valueAt {t : HashMap} (hinv : t.Inv) {i : Nat} (hi : i < t.cap)
    (k : Bytes) (v : UInt64) (j : Nat) :
    (t.fill i k v).valueAt j = if j = i then v else t.valueAt j :=
  getD_set (by rw [hinv.values_length]; exact hi)

theorem HashMap.fill_slot {t : HashMap} (hinv : t.Inv) {i : Nat} (hi : i < t.cap)
    (k : Bytes) (v : UInt64) : (t.fill i k v).slot = Function.update t.slot i (some k) := by
  have hocc : ∀ j, (t.fill i k v).isOccupied j = if j = i then true else t.isOccupied j :=
    fun j => getD_set (by rw [hinv.occupied_length]; exact hi)
  have hkey : ∀ j, (t.fill i k v).keyAt j = if j = i then k else t.keyAt j :=
    fun j => getD_set (by rw [hinv.keys_length]; exact hi)
  funext j
  by_cases hj : j = i
  · subst hj; simp [HashMap.slot, hocc, hkey]
  · simp [HashMap.slot, hocc, hkey, hj]

theorem HashMap.release_slot {t : HashMap} (hinv : t.Inv) {i : Nat} (hi : i < t.cap) :
    (t.release i).slot = Function.update t.slot i none := by
  have hocc : ∀ j, (t.release i).isOccupied j = if j = i then false else t.isOccupied j :=
    fun j => getD_set (by rw [hinv.occupied_length]; exact hi)
  have hkey : ∀ j, (t.release i).keyAt j = t.keyAt j := fun _ => rfl
  funext j
  by_cases hj : j = i
  · subst hj; simp [HashMap.slot, hocc]
  · simp [HashMap.slot, hocc, hkey, hj]

theorem HashMap.Inv.assign {t : HashMap} (hinv : t.Inv) (i : Nat) (v : UInt64) :
    (t.assign i v).Inv where
  cap_pos := hinv.cap_pos
  keys_length := hinv.keys_length
  values_length := by
    rw [HashMap.assign_cap, ← hinv.values_length]
    exact List.length_set
  occupied_length := hinv.occupied_length
  count_eq := hinv.count_eq
  wf := hinv.wf

theorem HashMap.Inv.fill {t : HashMap} (hinv : t.Inv) (hroom : t.count < t.capacity)
    {key : Bytes} {d : Nat} (hd : d < t.cap) (habs : ∀ i < t.cap, t.slot i ≠ some key)
    (hnone : t.slot (probeAt t.cap (t.home key) d) = none)
    (hfill : Filled t.cap t.slot (t.home key) d) (v : UInt64) :
    (t.fill (probeAt t.cap (t.home key) d) key v).Inv := by
  have hi : probeAt t.cap (t.home key) d < t.cap := probeAt_lt hinv.cap_pos _ _
  have hslot := HashMap.fill_slot hinv hi key v
  generalize hat : probeAt t.cap (t.home key) d = i at *
  have hlive : (t.fill i key v).live = insert i t.live := by
    ext j
    rw [Finset.mem_insert, HashMap.mem_live, HashMap.mem_live, hslot]
    by_cases hj : j = i
    · subst hj; simp [hi]
    · simp [hj]
  have hfresh : i ∉ t.live := by simp [HashMap.mem_live, hnone]
  have hcount : (t.count + 1).toNat = t.count.toNat + 1 := by
    have hlt := UInt64.lt_iff_toNat_lt.mp hroom
    have hmax := t.capacity.toNat_lt
    rw [UInt64.toNat_add]
    exact Nat.mod_eq_of_lt (by change t.count.toNat + 1 < 2 ^ 64; omega)
  exact {
    cap_pos := hinv.cap_pos
    keys_length := by
      rw [HashMap.fill_cap, ← hinv.keys_length]
      exact List.length_set
    values_length := by
      rw [HashMap.fill_cap, ← hinv.values_length]
      exact List.length_set
    occupied_length := by
      rw [HashMap.fill_cap, ← hinv.occupied_length]
      exact List.length_set
    count_eq := by
      rw [hlive, Finset.card_insert_of_notMem hfresh, ← hinv.count_eq]
      exact hcount
    wf := by
      rw [HashMap.fill_cap, HashMap.fill_home, hslot, ← hat]
      exact hinv.wf.insert hd habs hfill }

theorem HashMap.Inv.release {t : HashMap} (hinv : t.Inv) {i : Nat} {key : Bytes} (hi : i < t.cap)
    (hslot : t.slot i = some key)
    (hclear : ∀ j < t.cap, j ≠ i → ¬ Blocks t.cap t.home t.slot i j) : (t.release i).Inv := by
  have hupd := HashMap.release_slot hinv hi
  have hlive : (t.release i).live = t.live.erase i := by
    ext j
    rw [Finset.mem_erase, HashMap.mem_live, HashMap.mem_live, hupd]
    by_cases hj : j = i
    · subst hj; simp
    · simp [hj]
  have hmem : i ∈ t.live := HashMap.mem_live.mpr ⟨hi, by simp [hslot]⟩
  have hpos : 0 < t.count.toNat := by
    rw [hinv.count_eq]
    exact Finset.card_pos.mpr ⟨i, hmem⟩
  have hcount : (t.count - 1).toNat = t.count.toNat - 1 :=
    UInt64.toNat_sub_of_le _ _ (UInt64.le_iff_toNat_le.mpr hpos)
  exact {
    cap_pos := hinv.cap_pos
    keys_length := hinv.keys_length
    values_length := hinv.values_length
    occupied_length := by
      rw [HashMap.release_cap, ← hinv.occupied_length]
      exact List.length_set
    count_eq := by
      rw [hlive, Finset.card_erase_of_mem hmem, ← hinv.count_eq]
      exact hcount
    wf := by
      rw [HashMap.release_cap, HashMap.release_home, hupd]
      exact hinv.wf.erase hclear }

/-! ## §7 One step -/

/-- The steps under which the table follows the finite map. A put into a
full table is harmless only when it stores the value the key has; a
remove is harmless only when no other key's probe path runs through its
slot. -/
def HashMap.StepOk (t : HashMap) : HashMapOp → Prop
  | .put key value =>
    t.count < t.capacity ∨ ∃ i < t.cap, t.slot i = some key ∧ t.valueAt i = value
  | .get _ => True
  | .containsKey _ => True
  | .remove key =>
    ∀ i < t.cap, ∀ j < t.cap, t.slot i = some key → j ≠ i → ¬ Blocks t.cap t.home t.slot i j

theorem HashMap.put_full {t : HashMap} (hfull : ¬ t.count < t.capacity) (key : Bytes)
    (value : UInt64) : hashMapPut t key value = some t := by
  rw [hashMapPut, if_pos (UInt64.not_lt.mp hfull)]

theorem HashMap.put_stored {t : HashMap} (hinv : t.Inv) (hroom : t.count < t.capacity) {i : Nat}
    {key : Bytes} (hi : i < t.cap) (hslot : t.slot i = some key) (value : UInt64) :
    hashMapPut t key value = some (t.assign i value) := by
  rw [hashMapPut, if_neg (UInt64.not_le.mpr hroom), HashMap.probePut_stored hinv hi hslot]
  simp [toNat_ofNat_slot hi, HashMap.assign]

theorem HashMap.put_absent {t : HashMap} (hinv : t.Inv) (hroom : t.count < t.capacity)
    {key : Bytes} (habs : ∀ i < t.cap, t.slot i ≠ some key) (value : UInt64) :
    ∃ d < t.cap, hashMapPut t key value
        = some (t.fill (probeAt t.cap (t.home key) d) key value) ∧
      t.slot (probeAt t.cap (t.home key) d) = none ∧ Filled t.cap t.slot (t.home key) d := by
  obtain ⟨d, hd, hprobe, hnone, hfill⟩ := HashMap.probePut_absent hinv hroom habs
  refine ⟨d, hd, ?_, hnone, hfill⟩
  rw [hashMapPut, if_neg (UInt64.not_le.mpr hroom), hprobe]
  simp [toNat_ofNat_slot (probeAt_lt hinv.cap_pos (t.home key) d), HashMap.fill]

theorem HashMap.remove_stored {t : HashMap} (hinv : t.Inv) {i : Nat} {key : Bytes}
    (hi : i < t.cap) (hslot : t.slot i = some key) :
    hashMapRemove t key = some (t.release i) := by
  simp [hashMapRemove, HashMap.probeGet_stored hinv hi hslot, toNat_ofNat_slot hi,
    HashMap.release]

theorem HashMap.remove_absent {t : HashMap} (hinv : t.Inv) {key : Bytes}
    (habs : ∀ i < t.cap, t.slot i ≠ some key) : hashMapRemove t key = some t := by
  rcases HashMap.probeGet_absent hinv habs with h | ⟨i, h⟩ <;> simp [hashMapRemove, h]

theorem HashMap.Holds.assign {t : HashMap} {m : KeyMap} (hinv : t.Inv) (hholds : t.Holds m)
    {i : Nat} {key : Bytes} (hi : i < t.cap) (hslot : t.slot i = some key) (value : UInt64) :
    (t.assign i value).Holds (m.insert key value) := by
  intro key' value'
  simp only [HashMap.assign_cap, HashMap.assign_slot, HashMap.assign_valueAt hinv hi]
  by_cases hk : key' = key
  · subst hk
    rw [Finmap.lookup_insert, Option.some_inj]
    constructor
    · rintro rfl
      exact ⟨i, hi, hslot, if_pos rfl⟩
    · rintro ⟨j, hj, hjk, hval⟩
      rwa [hinv.wf.unique j hj i hi key' hjk hslot, if_pos rfl] at hval
  · rw [Finmap.lookup_insert_of_ne _ hk, hholds key' value']
    have hne : ∀ j, t.slot j = some key' → j ≠ i := by
      rintro j hjk rfl
      exact hk (Option.some.inj (hjk.symm.trans hslot))
    constructor
    · rintro ⟨j, hj, hjk, hval⟩
      exact ⟨j, hj, hjk, by rwa [if_neg (hne j hjk)]⟩
    · rintro ⟨j, hj, hjk, hval⟩
      exact ⟨j, hj, hjk, by rwa [if_neg (hne j hjk)] at hval⟩

theorem HashMap.Holds.fill {t : HashMap} {m : KeyMap} (hinv : t.Inv) (hholds : t.Holds m)
    {i : Nat} {key : Bytes} (hi : i < t.cap) (hnone : t.slot i = none)
    (habs : ∀ j < t.cap, t.slot j ≠ some key) (value : UInt64) :
    (t.fill i key value).Holds (m.insert key value) := by
  intro key' value'
  simp only [HashMap.fill_cap, HashMap.fill_slot hinv hi, HashMap.fill_valueAt hinv hi]
  by_cases hk : key' = key
  · subst hk
    rw [Finmap.lookup_insert, Option.some_inj]
    constructor
    · rintro rfl
      exact ⟨i, hi, Function.update_self .., if_pos rfl⟩
    · rintro ⟨j, hj, hjk, hval⟩
      by_cases hji : j = i
      · rwa [if_pos hji] at hval
      · rw [Function.update_of_ne hji] at hjk
        exact absurd hjk (habs j hj)
  · rw [Finmap.lookup_insert_of_ne _ hk, hholds key' value']
    constructor
    · rintro ⟨j, hj, hjk, hval⟩
      have hji : j ≠ i := by rintro rfl; simp [hnone] at hjk
      exact ⟨j, hj, by rwa [Function.update_of_ne hji], by rwa [if_neg hji]⟩
    · rintro ⟨j, hj, hjk, hval⟩
      have hji : j ≠ i := by
        rintro rfl
        rw [Function.update_self] at hjk
        exact hk (Option.some.inj hjk).symm
      rw [Function.update_of_ne hji] at hjk
      exact ⟨j, hj, hjk, by rwa [if_neg hji] at hval⟩

theorem HashMap.Holds.release {t : HashMap} {m : KeyMap} (hinv : t.Inv) (hholds : t.Holds m)
    {i : Nat} {key : Bytes} (hi : i < t.cap) (hslot : t.slot i = some key) :
    (t.release i).Holds (m.erase key) := by
  intro key' value'
  simp only [HashMap.release_cap, HashMap.release_slot hinv hi, HashMap.release_valueAt]
  by_cases hk : key' = key
  · subst hk
    rw [Finmap.lookup_erase]
    constructor
    · intro h; simp at h
    · rintro ⟨j, hj, hjk, _⟩
      by_cases hji : j = i
      · subst hji; simp at hjk
      · rw [Function.update_of_ne hji] at hjk
        exact absurd (hinv.wf.unique j hj i hi key' hjk hslot) hji
  · rw [Finmap.lookup_erase_ne hk, hholds key' value']
    constructor
    · rintro ⟨j, hj, hjk, hval⟩
      have hji : j ≠ i := by
        rintro rfl
        exact hk (Option.some.inj (hjk.symm.trans hslot))
      exact ⟨j, hj, by rwa [Function.update_of_ne hji], hval⟩
    · rintro ⟨j, hj, hjk, hval⟩
      have hji : j ≠ i := by rintro rfl; simp at hjk
      exact ⟨j, hj, by rwa [Function.update_of_ne hji] at hjk, hval⟩

/-- Storing the value a key has changes nothing. -/
theorem HashMap.Holds.insert_same {t : HashMap} {m : KeyMap} (hholds : t.Holds m) {i : Nat}
    {key : Bytes} {value : UInt64} (hi : i < t.cap) (hslot : t.slot i = some key)
    (hval : t.valueAt i = value) : m.insert key value = m := by
  apply Finmap.ext_lookup
  intro key'
  by_cases hk : key' = key
  · subst hk
    rw [Finmap.lookup_insert, hholds.stored hi hslot, hval]
  · rw [Finmap.lookup_insert_of_ne _ hk]

/-- A step that is `StepOk` ends, and the table then holds the updated
finite map. -/
theorem HashMap.step_keeps {t : HashMap} {m : KeyMap} (hinv : t.Inv) (hholds : t.Holds m)
    {op : HashMapOp} (hok : t.StepOk op) :
    ∃ t', t.step op = some t' ∧ t'.Inv ∧ t'.Holds (m.step op) := by
  cases op with
  | put key value =>
    by_cases hroom : t.count < t.capacity
    · by_cases hstored : ∃ i < t.cap, t.slot i = some key
      · obtain ⟨i, hi, hslot⟩ := hstored
        exact ⟨_, HashMap.put_stored hinv hroom hi hslot value, hinv.assign i value,
          hholds.assign hinv hi hslot value⟩
      · have habs : ∀ i < t.cap, t.slot i ≠ some key := fun i hi h => hstored ⟨i, hi, h⟩
        obtain ⟨d, hd, hput, hnone, hfill⟩ := HashMap.put_absent hinv hroom habs value
        exact ⟨_, hput, hinv.fill hroom hd habs hnone hfill value,
          hholds.fill hinv (probeAt_lt hinv.cap_pos _ _) hnone habs value⟩
    · obtain ⟨i, hi, hslot, hval⟩ := hok.resolve_left hroom
      refine ⟨t, HashMap.put_full hroom key value, hinv, ?_⟩
      rwa [KeyMap.step, hholds.insert_same hi hslot hval]
  | get key =>
    obtain ⟨_, ht, hlook, _⟩ := HashMap.represents hinv hholds
    obtain rfl := Option.some.inj ht
    exact ⟨t, by simp [HashMap.step, (hlook key).2], hinv, hholds⟩
  | containsKey key =>
    obtain ⟨_, ht, hlook, _⟩ := HashMap.represents hinv hholds
    obtain rfl := Option.some.inj ht
    exact ⟨t, by simp [HashMap.step, (hlook key).1], hinv, hholds⟩
  | remove key =>
    by_cases hstored : ∃ i < t.cap, t.slot i = some key
    · obtain ⟨i, hi, hslot⟩ := hstored
      exact ⟨_, HashMap.remove_stored hinv hi hslot,
        hinv.release hi hslot fun j hj hji => hok i hi j hj hslot hji,
        hholds.release hinv hi hslot⟩
    · have habs : ∀ i < t.cap, t.slot i ≠ some key := fun i hi h => hstored ⟨i, hi, h⟩
      refine ⟨t, HashMap.remove_absent hinv habs, hinv, ?_⟩
      have hsame : m.erase key = m := by
        apply Finmap.ext_lookup
        intro key'
        by_cases hk : key' = key
        · subst hk
          rw [Finmap.lookup_erase, hholds.lookup_none habs]
        · rw [Finmap.lookup_erase_ne hk]
      rwa [KeyMap.step, hsame]

theorem KeyMap.card_insert {m : KeyMap} {key : Bytes} (hnone : m.lookup key = none)
    (value : UInt64) : (m.insert key value).keys.card = m.keys.card + 1 := by
  have hkeys : (m.insert key value).keys = insert key m.keys := by
    ext key'
    simp [Finmap.mem_keys]
  have hfresh : key ∉ m.keys := by
    rw [Finmap.mem_keys]
    exact Finmap.lookup_eq_none.mp hnone
  rw [hkeys, Finset.card_insert_of_notMem hfresh]

/-- A step that is not `StepOk` leaves the finite map, as long as the live
keys fit the table. -/
theorem HashMap.step_breaks {t : HashMap} {m : KeyMap} (hinv : t.Inv) (hholds : t.Holds m)
    {op : HashMapOp} (hlive : (m.step op).keys.card ≤ t.cap) (hbad : ¬ t.StepOk op) :
    ¬ Represents (t.step op) (m.step op) := by
  cases op with
  | get key => exact absurd trivial hbad
  | containsKey key => exact absurd trivial hbad
  | put key value =>
    obtain ⟨hfull, hother⟩ := not_or.mp hbad
    rintro ⟨t', ht', hlook, -⟩
    obtain rfl : t = t' := by
      rw [HashMap.step, HashMap.put_full hfull] at ht'
      exact Option.some.inj ht'
    by_cases hstored : ∃ i < t.cap, t.slot i = some key
    · -- the key keeps its old value
      obtain ⟨i, hi, hslot⟩ := hstored
      have hget := (hlook key).2
      rw [HashMap.get_stored hinv hi hslot, KeyMap.step, Finmap.lookup_insert] at hget
      exact hother ⟨i, hi, hslot, by simpa using hget⟩
    · -- a new key would exceed the capacity
      have habs : ∀ i < t.cap, t.slot i ≠ some key := fun i hi h => hstored ⟨i, hi, h⟩
      have hcard : (m.step (.put key value)).keys.card = t.count.toNat + 1 := by
        rw [KeyMap.step, KeyMap.card_insert (hholds.lookup_none habs), hinv.count_eq,
          HashMap.card_live hinv hholds]
      have hge : t.cap ≤ t.count.toNat := UInt64.le_iff_toNat_le.mp (UInt64.not_lt.mp hfull)
      omega
  | remove key =>
    have hblocked : ∃ i < t.cap, ∃ j < t.cap, t.slot i = some key ∧ j ≠ i ∧
        Blocks t.cap t.home t.slot i j := by
      by_contra hno
      exact hbad fun i hi j hj hslot hji hblk => hno ⟨i, hi, j, hj, hslot, hji, hblk⟩
    obtain ⟨i, hi, j, hj, hslot, hji, hblk⟩ := hblocked
    obtain ⟨key', hjk⟩ : ∃ key', t.slot j = some key' := by
      obtain ⟨key', _, _, hjk, _⟩ := hblk
      exact ⟨key', hjk⟩
    have hk : key' ≠ key := by
      rintro rfl
      exact hji (hinv.wf.unique j hj i hi key' hjk hslot)
    rintro ⟨t', ht', hlook, -⟩
    obtain rfl : t.release i = t' := by
      rw [HashMap.step, HashMap.remove_stored hinv hi hslot] at ht'
      exact Option.some.inj ht'
    -- the key of slot `j` is still live, but its probe now ends at a free slot
    have hcontains := (hlook key').1
    obtain ⟨l, hl, hprobe⟩ := probe_of_blocked hinv.wf hi hj hjk hblk
    have hget : (t.release i).probeGet key' = some (.free (UInt64.ofNat l)) := by
      rw [HashMap.probeGet_eq (by simpa using hinv.cap_pos), HashMap.release_slot hinv hi]
      simp only [HashMap.release_cap, HashMap.release_home, hprobe]
      rfl
    rw [KeyMap.step, Finmap.lookup_erase_ne hk, hholds.stored hj hjk] at hcontains
    simp [hashMapContainsKey, hget] at hcontains

/-! ## §8 Runs -/

theorem newHashMapLoop_eq (t : HashMap) :
    ∀ n, newHashMapLoop n t =
      { t with
        keys := t.keys ++ List.replicate n []
        values := t.values ++ List.replicate n 0
        occupied := t.occupied ++ List.replicate n false }
  | 0 => by simp [newHashMapLoop]
  | n + 1 => by
    rw [newHashMapLoop, newHashMapLoop_eq _ n]
    simp [List.replicate_succ]

theorem newHashMap_slot (capacity : UInt64) : (newHashMap capacity).slot = fun _ => none := by
  funext i
  have hocc : (newHashMap capacity).isOccupied i = false := by
    simp only [newHashMap, newHashMapLoop_eq, HashMap.isOccupied, List.nil_append,
      List.getD_eq_getElem?_getD, List.getElem?_replicate]
    split <;> rfl
  simp [HashMap.slot, hocc]

theorem newHashMap_cap (capacity : UInt64) : (newHashMap capacity).cap = capacity.toNat := by
  simp [newHashMap, newHashMapLoop_eq, HashMap.cap]

theorem newHashMap_inv {capacity : UInt64} (hcap : 1 ≤ capacity) : (newHashMap capacity).Inv where
  cap_pos := by
    rw [newHashMap_cap]
    exact UInt64.le_iff_toNat_le.mp hcap
  keys_length := by rw [newHashMap_cap]; simp [newHashMap, newHashMapLoop_eq]
  values_length := by rw [newHashMap_cap]; simp [newHashMap, newHashMapLoop_eq]
  occupied_length := by rw [newHashMap_cap]; simp [newHashMap, newHashMapLoop_eq]
  count_eq := by
    have hlive : (newHashMap capacity).live = ∅ := by
      ext i
      simp [HashMap.mem_live, newHashMap_slot]
    rw [hlive]
    simp [newHashMap, newHashMapLoop_eq]
  wf := by rw [newHashMap_slot]; exact Wf.empty

theorem newHashMap_holds (capacity : UInt64) : (newHashMap capacity).Holds ∅ := by
  intro key value
  simp [newHashMap_slot]

theorem HashMap.step_cap {t t' : HashMap} {op : HashMapOp} (hstep : t.step op = some t') :
    t'.cap = t.cap := by
  cases op with
  | put key value =>
    simp only [HashMap.step, hashMapPut] at hstep
    split at hstep
    · rw [Option.some.inj hstep]
    · obtain ⟨p, _, rfl⟩ := Option.map_eq_some_iff.mp hstep
      cases p <;> rfl
  | get key =>
    obtain ⟨_, _, rfl⟩ := Option.map_eq_some_iff.mp hstep
    rfl
  | containsKey key =>
    obtain ⟨_, _, rfl⟩ := Option.map_eq_some_iff.mp hstep
    rfl
  | remove key =>
    obtain ⟨p, _, rfl⟩ := Option.map_eq_some_iff.mp hstep
    cases p <;> rfl

/-- Every step of the run is `StepOk` in the state it starts from. -/
def RunOk (capacity : UInt64) (ops : List HashMapOp) : Prop :=
  ∀ pre op, pre ++ [op] <+: ops → ∀ t, (newHashMap capacity).run pre = some t → t.StepOk op

/-- The relation a run keeps: the table's invariant, the keys and values
it holds, and its size. -/
def HashMap.Keeps (capacity : UInt64) (t : HashMap) (m : KeyMap) : Prop :=
  t.Inv ∧ t.Holds m ∧ t.cap = capacity.toNat

/-- On a run whose live keys never exceed the capacity, the table follows
the finite map throughout if and only if every step is `StepOk`. -/
theorem hashMap_refines_iff (capacity : UInt64) (hcap : 1 ≤ capacity) (ops : List HashMapOp)
    (hlive : ∀ pre, pre <+: ops → (KeyMap.run pre).keys.card ≤ capacity.toNat) :
    (∀ pre, pre <+: ops → Represents ((newHashMap capacity).run pre) (KeyMap.run pre)) ↔
      RunOk capacity ops := by
  have hkeep : ∀ t m op, HashMap.Keeps capacity t m → (m.step op).keys.card ≤ capacity.toNat →
      t.StepOk op → ∃ t', t.step op = some t' ∧ HashMap.Keeps capacity t' (m.step op) := by
    rintro t m op ⟨hinv, hholds, htcap⟩ _ hok
    obtain ⟨t', hstep, hinv', hholds'⟩ := HashMap.step_keeps hinv hholds hok
    exact ⟨t', hstep, hinv', hholds', (HashMap.step_cap hstep).trans htcap⟩
  have hlose : ∀ t m op, HashMap.Keeps capacity t m → (m.step op).keys.card ≤ capacity.toNat →
      ¬ t.StepOk op → ¬ Represents (t.step op) (m.step op) := by
    rintro t m op ⟨hinv, hholds, htcap⟩ hfits hbad
    exact HashMap.step_breaks hinv hholds (htcap ▸ hfits) hbad
  have hrep : ∀ t m, HashMap.Keeps capacity t m → Represents (some t) m :=
    fun t m h => HashMap.represents h.1 h.2.1
  have hnew : HashMap.Keeps capacity (newHashMap capacity) ∅ :=
    ⟨newHashMap_inv hcap, newHashMap_holds capacity, newHashMap_cap capacity⟩
  exact follows_iff (fun m => m.keys.card ≤ capacity.toNat) hkeep hlose hrep hnew hlive

/-- Two puts and an overwrite, in a table with room to spare. -/
def overwriteOps : List HashMapOp :=
  [.put (bytes "a") 1, .put (bytes "b") 2, .put (bytes "a") 3]

theorem overwriteOps_live : ∀ pre, pre <+: overwriteOps →
    (KeyMap.run pre).keys.card ≤ (4 : UInt64).toNat := by
  intro pre hpre
  have hall : ∀ pre ∈ overwriteOps.inits, (KeyMap.run pre).keys.card ≤ (4 : UInt64).toNat := by
    decide
  exact hall pre (List.mem_inits _ _ |>.mpr hpre)

theorem hashMap_refines_iff_overwrite :
    (∀ pre, pre <+: overwriteOps → Represents ((newHashMap 4).run pre) (KeyMap.run pre)) ↔
      RunOk 4 overwriteOps :=
  hashMap_refines_iff 4 (by decide) overwriteOps overwriteOps_live

/-- `"a"` and `"c"` share the home slot of a table of two; removing `"a"`
breaks the probe path of `"c"`. -/
def collideOps : List HashMapOp :=
  [.put (bytes "a") 1, .put (bytes "c") 2, .remove (bytes "a")]

theorem hashMap_loses_key :
    ¬ ∀ (capacity : UInt64) (ops : List HashMapOp), 1 ≤ capacity →
      (∀ pre, pre <+: ops → (KeyMap.run pre).keys.card ≤ capacity.toNat) →
      ∀ pre, pre <+: ops → Represents ((newHashMap capacity).run pre) (KeyMap.run pre) := by
  intro hclaim
  have hlive : ∀ pre ∈ collideOps.inits, (KeyMap.run pre).keys.card ≤ (2 : UInt64).toNat := by
    decide
  obtain ⟨t, ht, hlook, -⟩ := hclaim 2 collideOps (by decide)
    (fun pre hpre => hlive pre (List.mem_inits _ _ |>.mpr hpre)) collideOps (List.prefix_refl _)
  have hspec : ((KeyMap.run collideOps).lookup (bytes "c")).isSome = true := by decide
  have hcode : ((newHashMap 2).run collideOps).bind (hashMapContainsKey · (bytes "c"))
      = some false := by decide
  have hrep := (hlook (bytes "c")).1
  rw [hspec] at hrep
  rw [ht] at hcode
  exact absurd (hrep.symm.trans hcode) (by decide)

end Aether.Std
