/-
Aether.Std.ProbingTheorems — the probe loops of the hash map and the set
end in every reachable state.

A removal may break a probe path, so the paths of the stored keys are no
invariant. What every operation keeps is the size of the arrays and that
`count` is the number of occupied slots (`HashMap.Sized`): where put runs
its loop there is a free slot, and the loop visits every slot.
-/
import Aether.Std.SetTheorems

namespace Aether.Std

open Lib Lib.LinearProbing

/-! ## §1 The loops -/

/-- The indices at which a probe loop tests `self.occupied[index]`. -/
def probeIndices (occupied : List Bool) (keys : List Bytes) (capacity : UInt64) (key : Bytes)
    (stop : UInt64 → Bool) : Nat → UInt64 → List UInt64
  | 0, _ => []
  | turns + 1, index =>
    index ::
      (if occupied.getD index.toNat false = true ∧ keys.getD index.toNat [] ≠ key ∧
          stop ((index + 1) % capacity) = false then
        probeIndices occupied keys capacity key stop turns ((index + 1) % capacity)
      else [])

/-- The slot a probe loop ends at. -/
def Probe.index? : Probe → Option UInt64
  | .found index => some index
  | .free index => some index
  | .wrapped => none

/-- The loops of a table end within `capacity` turns and stay inside its
arrays, and its count is right. -/
structure ProbesEnd (occupied : List Bool) (keys : List Bytes) (count capacity : UInt64)
    (probePut probeGet : Bytes → Option Probe) : Prop where
  occupied_length : occupied.length = capacity.toNat
  keys_length : keys.length = capacity.toNat
  counted : count.toNat = occupied.count true
  put_ends : count < capacity → ∀ key, probePut key ≠ none
  get_ends : ∀ key, probeGet key ≠ none
  put_inside : ∀ key, ∀ i ∈ probeIndices occupied keys capacity key (fun _ => false)
    capacity.toNat (hashString key % capacity), i < capacity
  get_inside : ∀ key, ∀ i ∈ probeIndices occupied keys capacity key
    (fun i => i == hashString key % capacity) capacity.toNat (hashString key % capacity), i < capacity
  put_slot : count < capacity → ∀ key p, probePut key = some p → ∀ i ∈ p.index?, i < capacity
  get_slot : ∀ key p, probeGet key = some p → ∀ i ∈ p.index?, i < capacity
  -- the subtraction of a removal
  count_pos : ∀ key i, probeGet key = some (.found i) → 1 ≤ count
  -- the addition of a put
  count_room : count < capacity → (count + 1).toNat = count.toNat + 1

theorem probeIndices_lt {occupied : List Bool} {keys : List Bytes} {capacity : UInt64} {key : Bytes}
    {stop : UInt64 → Bool} (hcap : 0 < capacity) (turns : Nat) (index : UInt64)
    (hindex : index < capacity) :
    ∀ i ∈ probeIndices occupied keys capacity key stop turns index, i < capacity := by
  induction turns generalizing index with
  | zero => simp [probeIndices]
  | succ turns ih =>
    intro i hi
    rw [probeIndices] at hi
    rcases List.mem_cons.mp hi with rfl | hi
    · exact hindex
    · split at hi
      · exact ih _ (UInt64.mod_lt _ hcap) i hi
      · simp at hi

/-! ## §2 The invariant -/

/-- The sizes of the arrays, and what `count` counts. -/
structure HashMap.Sized (t : HashMap) : Prop where
  cap_pos : 0 < t.cap
  keys_length : t.keys.length = t.cap
  values_length : t.values.length = t.cap
  occupied_length : t.occupied.length = t.cap
  count_eq : t.count.toNat = t.occupied.count true

theorem HashMap.slot_eq_none_iff {t : HashMap} {j : Nat} :
    t.slot j = none ↔ t.isOccupied j = false := by
  simp [HashMap.slot]

theorem HashMap.count_succ {t : HashMap} (hroom : t.count < t.capacity) :
    (t.count + 1).toNat = t.count.toNat + 1 := by
  have hlt := UInt64.lt_iff_toNat_lt.mp hroom
  have hcap := t.capacity.toNat_lt
  rw [UInt64.toNat_add]
  exact Nat.mod_eq_of_lt (by simp; omega)

theorem HashMap.getElem_occupied {t : HashMap} {j : Nat} (hj : j < t.occupied.length) :
    t.occupied[j] = t.isOccupied j := by
  simp [HashMap.isOccupied, hj]

namespace HashMap.Sized

variable {t : HashMap} (h : t.Sized)

include h

theorem capacity_pos : 0 < t.capacity := UInt64.lt_iff_toNat_lt.mpr h.cap_pos

/-- While `count` is below the capacity, a slot is free. -/
theorem exists_free (hroom : t.count < t.capacity) : ∃ i < t.cap, t.slot i = none := by
  by_contra hnone
  have hall : ∀ b ∈ t.occupied, true = b := by
    intro b hb
    obtain ⟨i, hi, rfl⟩ := List.mem_iff_getElem.mp hb
    have hocc : t.isOccupied i = true := by
      rw [HashMap.isOccupied_iff]
      intro hfree
      exact hnone ⟨i, by rwa [← h.occupied_length], hfree⟩
    simpa [HashMap.isOccupied, hi] using hocc.symm
  have hcount := List.count_eq_length.mpr hall
  have hlt := UInt64.lt_iff_toNat_lt.mp hroom
  rw [h.count_eq, hcount, h.occupied_length] at hlt
  exact Nat.lt_irrefl _ hlt

/-- Where the loop of put ends. -/
theorem probePut_cases (hroom : t.count < t.capacity) (key : Bytes) :
    ∃ j < t.cap, (t.probePut key = some (.found (UInt64.ofNat j)) ∧ t.slot j = some key) ∨
      (t.probePut key = some (.free (UInt64.ofNat j)) ∧ t.slot j = none) := by
  rw [HashMap.probePut_eq h.cap_pos]
  obtain ⟨j, hj, hprobe, hslot⟩ | ⟨j, hj, hprobe, hslot⟩ | hfull :=
    probe_ends (k := key) h.cap_pos t.cap _
      (probeAt_lt h.cap_pos (t.home key) 0)
  · exact ⟨j, hj, .inl ⟨by rw [hprobe]; rfl, hslot⟩⟩
  · exact ⟨j, hj, .inr ⟨by rw [hprobe]; rfl, hslot⟩⟩
  · obtain ⟨i, hi, hfree⟩ := h.exists_free hroom
    exact absurd hfree (occupied_of_full hfull hi)

/-- Where the loop of get, contains and remove ends. -/
theorem probeGet_cases (key : Bytes) : t.probeGet key = some .wrapped ∨ ∃ j < t.cap,
    (t.probeGet key = some (.found (UInt64.ofNat j)) ∧ t.slot j = some key) ∨
      (t.probeGet key = some (.free (UInt64.ofNat j)) ∧ t.slot j = none) := by
  rw [HashMap.probeGet_eq h.cap_pos]
  obtain ⟨j, hj, hprobe, hslot⟩ | ⟨j, hj, hprobe, hslot⟩ | hfull :=
    probe_ends (k := key) h.cap_pos t.cap _
      (probeAt_lt h.cap_pos (t.home key) 0)
  · exact .inr ⟨j, hj, .inl ⟨by rw [hprobe]; rfl, hslot⟩⟩
  · exact .inr ⟨j, hj, .inr ⟨by rw [hprobe]; rfl, hslot⟩⟩
  · exact .inl (by rw [hfull]; rfl)

/-- An occupied slot is counted. -/
theorem count_pos {j : Nat} {key : Bytes} (hj : j < t.cap) (hslot : t.slot j = some key) :
    1 ≤ t.count := by
  have hocc : t.isOccupied j = true := HashMap.isOccupied_iff.mpr (by simp [hslot])
  have hmem : true ∈ t.occupied := by
    rw [← hocc, ← HashMap.getElem_occupied (by rwa [h.occupied_length])]
    exact List.getElem_mem _
  have hpos := List.count_pos_iff.mpr hmem
  rw [← h.count_eq] at hpos
  exact UInt64.le_iff_toNat_le.mpr hpos

/-! ## §3 One operation -/

theorem assign (i : Nat) (value : UInt64) : (t.assign i value).Sized where
  cap_pos := h.cap_pos
  keys_length := h.keys_length
  values_length := (List.length_set ..).trans h.values_length
  occupied_length := h.occupied_length
  count_eq := h.count_eq

theorem fill (hroom : t.count < t.capacity) {i : Nat} (hi : i < t.cap) (hfree : t.slot i = none)
    (key : Bytes) (value : UInt64) : (t.fill i key value).Sized where
  cap_pos := h.cap_pos
  keys_length := (List.length_set ..).trans h.keys_length
  values_length := (List.length_set ..).trans h.values_length
  occupied_length := (List.length_set ..).trans h.occupied_length
  count_eq := by
    have hlen : i < t.occupied.length := by rwa [h.occupied_length]
    have hocc : t.occupied[i] = false := by
      rw [HashMap.getElem_occupied hlen]
      exact HashMap.slot_eq_none_iff.mp hfree
    simp [HashMap.fill, HashMap.count_succ hroom, h.count_eq, List.count_set, hocc, hlen]

theorem release {i : Nat} {key : Bytes} (hi : i < t.cap) (hslot : t.slot i = some key) :
    (t.release i).Sized where
  cap_pos := h.cap_pos
  keys_length := h.keys_length
  values_length := h.values_length
  occupied_length := (List.length_set ..).trans h.occupied_length
  count_eq := by
    have hlen : i < t.occupied.length := by rwa [h.occupied_length]
    have hocc : t.occupied[i] = true := by
      rw [HashMap.getElem_occupied hlen]
      exact HashMap.isOccupied_iff.mpr (by simp [hslot])
    have hpos := h.count_pos hi hslot
    simp [HashMap.release, UInt64.toNat_sub_of_le _ _ hpos, h.count_eq, List.count_set, hocc, hlen]

/-- Put returns: it leaves a full table as it is, overwrites the value of
a stored key, and fills a free slot otherwise. -/
theorem put (key : Bytes) (value : UInt64) :
    ∃ t', hashMapPut t key value = some t' ∧ t'.Sized ∧ t'.capacity = t.capacity := by
  by_cases hroom : t.count < t.capacity
  · obtain ⟨j, hj, ⟨hprobe, -⟩ | ⟨hprobe, hfree⟩⟩ := h.probePut_cases hroom key
    · refine ⟨t.assign j value, ?_, h.assign j value, rfl⟩
      simp [hashMapPut, UInt64.not_le.mpr hroom, hprobe, toNat_ofNat_slot hj, HashMap.assign]
    · refine ⟨t.fill j key value, ?_, h.fill hroom hj hfree key value, rfl⟩
      simp [hashMapPut, UInt64.not_le.mpr hroom, hprobe, toNat_ofNat_slot hj, HashMap.fill]
  · exact ⟨t, HashMap.put_full hroom key value, h, rfl⟩

theorem probeGet_ends (key : Bytes) : ∃ p, t.probeGet key = some p := by
  obtain hprobe | ⟨j, hj, ⟨hprobe, -⟩ | ⟨hprobe, -⟩⟩ := h.probeGet_cases key
  · exact ⟨_, hprobe⟩
  · exact ⟨_, hprobe⟩
  · exact ⟨_, hprobe⟩

/-- Remove returns: it frees the slot of a key it finds. -/
theorem remove (key : Bytes) :
    ∃ t', hashMapRemove t key = some t' ∧ t'.Sized ∧ t'.capacity = t.capacity := by
  obtain hprobe | ⟨j, hj, ⟨hprobe, hslot⟩ | ⟨hprobe, -⟩⟩ := h.probeGet_cases key
  · exact ⟨t, by simp [hashMapRemove, hprobe], h, rfl⟩
  · refine ⟨t.release j, ?_, h.release hj hslot, rfl⟩
    simp [hashMapRemove, hprobe, toNat_ofNat_slot hj, HashMap.release]
  · exact ⟨t, by simp [hashMapRemove, hprobe], h, rfl⟩

/-- Every operation returns and keeps the invariant. -/
theorem step (op : HashMapOp) :
    ∃ t', t.step op = some t' ∧ t'.Sized ∧ t'.capacity = t.capacity := by
  cases op with
  | put key value => exact h.put key value
  | get key =>
    obtain ⟨p, hp⟩ := h.probeGet_ends key
    exact ⟨t, by simp [HashMap.step, hashMapGet, hp], h, rfl⟩
  | containsKey key =>
    obtain ⟨p, hp⟩ := h.probeGet_ends key
    exact ⟨t, by simp [HashMap.step, hashMapContainsKey, hp], h, rfl⟩
  | remove key => exact h.remove key

theorem run (ops : List HashMapOp) :
    ∃ t', t.run ops = some t' ∧ t'.Sized ∧ t'.capacity = t.capacity := by
  induction ops generalizing t with
  | nil => exact ⟨t, rfl, h, rfl⟩
  | cons op ops ih =>
    obtain ⟨t₁, hstep, hsized, hcap⟩ := h.step op
    obtain ⟨t₂, hrun, hsized', hcap'⟩ := ih hsized
    refine ⟨t₂, ?_, hsized', hcap'.trans hcap⟩
    simpa [HashMap.run, hstep] using hrun

/-- What the invariant says of the probe loops. -/
theorem probesEnd : ProbesEnd t.occupied t.keys t.count t.capacity t.probePut t.probeGet where
  occupied_length := h.occupied_length
  keys_length := h.keys_length
  counted := h.count_eq
  put_ends hroom key := by
    obtain ⟨j, -, ⟨hprobe, -⟩ | ⟨hprobe, -⟩⟩ := h.probePut_cases hroom key
    · simp [hprobe]
    · simp [hprobe]
  get_ends key := by
    obtain ⟨p, hp⟩ := h.probeGet_ends key
    simp [hp]
  put_inside key := probeIndices_lt h.capacity_pos _ _ (UInt64.mod_lt _ h.capacity_pos)
  get_inside key := probeIndices_lt h.capacity_pos _ _ (UInt64.mod_lt _ h.capacity_pos)
  put_slot hroom key p hp i hi := by
    obtain ⟨j, hj, ⟨hprobe, -⟩ | ⟨hprobe, -⟩⟩ := h.probePut_cases hroom key
    all_goals
      obtain rfl := Option.some.inj (hprobe.symm.trans hp)
      obtain rfl : UInt64.ofNat j = i := by simpa [Probe.index?] using hi
      exact UInt64.lt_iff_toNat_lt.mpr (by rwa [toNat_ofNat_slot hj])
  get_slot key p hp i hi := by
    obtain hprobe | ⟨j, hj, ⟨hprobe, -⟩ | ⟨hprobe, -⟩⟩ := h.probeGet_cases key
    · obtain rfl := Option.some.inj (hprobe.symm.trans hp)
      simp [Probe.index?] at hi
    all_goals
      obtain rfl := Option.some.inj (hprobe.symm.trans hp)
      obtain rfl : UInt64.ofNat j = i := by simpa [Probe.index?] using hi
      exact UInt64.lt_iff_toNat_lt.mpr (by rwa [toNat_ofNat_slot hj])
  count_pos key i hp := by
    obtain hprobe | ⟨j, hj, ⟨hprobe, hslot⟩ | ⟨hprobe, -⟩⟩ := h.probeGet_cases key
    · simp [hprobe] at hp
    · exact h.count_pos hj hslot
    · simp [hprobe] at hp
  count_room := HashMap.count_succ

end HashMap.Sized

/-! ## §4 Runs -/

theorem newHashMap_sized {capacity : UInt64} (hcap : 1 ≤ capacity) :
    (newHashMap capacity).Sized where
  cap_pos := (newHashMap_inv hcap).cap_pos
  keys_length := (newHashMap_inv hcap).keys_length
  values_length := (newHashMap_inv hcap).values_length
  occupied_length := (newHashMap_inv hcap).occupied_length
  count_eq := by simp [newHashMap, newHashMapLoop_eq, List.count_replicate]

theorem newHashMap_capacity (capacity : UInt64) : (newHashMap capacity).capacity = capacity := by
  simp [newHashMap, newHashMapLoop_eq]

/-- A run on the set is the run on its map. -/
theorem exists_run_toMap {s : Set} (hsized : s.toMap.Sized) (ops : List SetOp) :
    ∃ s', s.run ops = some s' ∧ s'.toMap.Sized ∧ s'.capacity = s.capacity := by
  induction ops generalizing s with
  | nil => exact ⟨s, rfl, hsized, rfl⟩
  | cons op ops ih =>
    obtain ⟨t, hstep, ht, hcap⟩ := hsized.step op.toMapOp
    obtain ⟨s₁, hstep', rfl⟩ := exists_of_step_toMap hstep
    obtain ⟨s₂, hrun, hsized', hcap'⟩ := ih ht
    refine ⟨s₂, ?_, hsized', hcap'.trans hcap⟩
    simpa [Set.run, hstep'] using hrun

theorem Set.probesEnd {s : Set} (hsized : s.toMap.Sized) :
    ProbesEnd s.occupied s.keys s.count s.capacity s.probePut s.probeGet := by
  rw [funext (probePut_toMap s), funext (probeGet_toMap s)]
  exact hsized.probesEnd

/-- In every state a sequence of operations reaches from a fresh map or
set, the probe loops end within `capacity` turns and stay inside the
arrays, and `count` is the number of occupied slots. -/
theorem probing_ends (capacity : UInt64) (hcap : 1 ≤ capacity) :
    (∀ ops, ∃ t, (newHashMap capacity).run ops = some t ∧ t.capacity = capacity ∧
      t.values.length = capacity.toNat ∧
      ProbesEnd t.occupied t.keys t.count t.capacity t.probePut t.probeGet) ∧
    (∀ ops, ∃ s, (newSet capacity).run ops = some s ∧ s.capacity = capacity ∧
      ProbesEnd s.occupied s.keys s.count s.capacity s.probePut s.probeGet) := by
  have hnew := newHashMap_sized hcap
  refine ⟨fun ops => ?_, fun ops => ?_⟩
  · obtain ⟨t, hrun, hsized, hcapacity⟩ := hnew.run ops
    rw [newHashMap_capacity] at hcapacity
    refine ⟨t, hrun, hcapacity, ?_, hsized.probesEnd⟩
    rw [hsized.values_length, HashMap.cap, hcapacity]
  · rw [← newSet_toMap] at hnew
    obtain ⟨s, hrun, hsized, hcapacity⟩ := exists_run_toMap hnew ops
    refine ⟨s, hrun, hcapacity.trans ?_, Set.probesEnd hsized⟩
    exact (congrArg HashMap.capacity (newSet_toMap capacity)).trans (newHashMap_capacity capacity)

/-- A full table of two whose first key is removed and put again. -/
theorem probing_ends_two : ∃ t, (newHashMap 2).run
      (collideOps ++ [.put (bytes "a") 3, .put (bytes "e") 4]) = some t ∧ t.capacity = 2 ∧
      t.values.length = (2 : UInt64).toNat ∧
      ProbesEnd t.occupied t.keys t.count t.capacity t.probePut t.probeGet :=
  (probing_ends 2 (by decide)).1 _

end Aether.Std
