/-
Aether.VectorTheorems — the vectors of an arena do not disturb each other.

A vector's items are in a region that the arena took for it, apart from the
regions of the others (`Vectors.Inv`). A call writes into its own vector's
region or into a region that is new, so what the other vectors hold stays.
`vectors_hold`: after any calls each vector holds the list that its own calls
made.
-/
import Aether.Vector
import Aether.ArenaTheorems

namespace Aether.Memory

open Lib
open ByteMemory (SameOn)

/-! ## §1 Calls of the arena -/

/-- Regions that were taken stay, and the bytes of the others stay too. -/
structure Heap.Keeps (others : Region → Prop) (h h' : Heap) : Prop where
  inv : Inv h'.state
  taken : ∀ t ∈ h.state.taken, t ∈ h'.state.taken
  same : ∀ t ∈ h.state.taken, others t.region → SameOn t.region h.mem h'.mem

/-- A region that was not taken before. -/
structure Heap.Takes (h h' : Heap) (r : Region) : Prop extends Heap.Keeps (fun _ => True) h h' where
  held : ∃ t ∈ h'.state.taken, t.region = r
  apart : ∀ t ∈ h.state.taken, t.region.Apart r
  bound : r.stop < 2 ^ 64

section

variable {malloc malloc' : Malloc} {h h' h'' : Heap} {size p : UInt64} {others : Region → Prop}
  {v v' : Vector} {item : Bytes}

theorem Heap.Keeps.trans (hkeep : h.Keeps others h') (hkeep' : h'.Keeps others h'') :
    h.Keeps others h'' where
  inv := hkeep'.inv
  taken := fun t ht => hkeep'.taken t (hkeep.taken t ht)
  same := fun t ht hother =>
    (hkeep.same t ht hother).trans (hkeep'.same t (hkeep.taken t ht) hother)

theorem Heap.Keeps.weaken {fewer : Region → Prop} (hkeep : h.Keeps others h')
    (hfewer : ∀ r, fewer r → others r) : h.Keeps fewer h' where
  inv := hkeep.inv
  taken := hkeep.taken
  same := fun t ht hother => hkeep.same t ht (hfewer _ hother)

/-- The answer does not reach beyond the end of the address space. -/
theorem bound_of_alloc {s : State} {a : Arena} (hinv : Inv s)
    (hmalloc : Sound malloc s.arena.blocks) (hok : size = 0 ∨ AllocMeets s.arena size)
    (h : arenaAlloc malloc s.arena size = (a, some p)) : p.toNat + size.toNat < 2 ^ 64 := by
  unfold arenaAlloc arenaAllocUnzeroed at h
  split at h
  · cases h
  · next hsize =>
    obtain ⟨hround, hwrap, hfits⟩ := hok.resolve_left hsize
    have hword : size.toNat + (16 : UInt64).toNat ≤ 2 ^ 64 := by
      show size.toNat + 16 ≤ 2 ^ 64
      omega
    have hpadded := (alignUp_spec (k := 4) rfl hword).2.1
    by_cases hroom : s.arena.ptr + alignUp size 16 ≤ s.arena.stop
    · simp only [if_neg (UInt64.not_lt.mpr hroom)] at h
      cases h
      omega
    · rw [if_neg hroom] at hfits
      simp only [if_pos (UInt64.not_le.mp hroom)] at h
      cases hgrow : arenaGrow malloc s.arena (alignUp size 16) with
      | none =>
        rw [hgrow] at h
        cases h
      | some b =>
        rw [hgrow] at h
        cases h
        obtain ⟨-, -, hstop, hbound⟩ := hinv.grow hmalloc hfits hgrow
        omega

theorem Heap.alloc_none (hinv : Inv h.state) (hmalloc : Sound malloc h.state.arena.blocks)
    (hok : Meets h.state.arena (.alloc size)) (heq : h.alloc malloc size = (h', none)) :
    h.Keeps (fun _ => True) h' := by
  have hinv' := hinv.alloc hmalloc hok
  unfold Heap.alloc at heq
  cases hcall : arenaAlloc malloc h.state.arena size with
  | mk a answer =>
    rw [hcall] at heq hinv'
    cases answer with
    | none =>
      cases heq
      exact ⟨hinv', fun _ ht => ht, fun _ _ _ => .rfl⟩
    | some p => cases heq

theorem Heap.alloc_some (hinv : Inv h.state) (hmalloc : Sound malloc h.state.arena.blocks)
    (hok : Meets h.state.arena (.alloc size)) (heq : h.alloc malloc size = (h', some p)) :
    h.Takes h' ⟨p.toNat, size.toNat⟩ := by
  have hinv' := hinv.alloc hmalloc hok
  unfold Heap.alloc at heq
  cases hcall : arenaAlloc malloc h.state.arena size with
  | mk a answer =>
    have hbound := bound_of_alloc (p := p) (a := a) hinv hmalloc hok
    rw [hcall] at heq hinv' hbound
    cases answer with
    | none => cases heq
    | some q =>
      cases heq
      have hapart := (List.pairwise_cons.mp hinv'.correct.apart).1
      have hothers : ∀ t ∈ h.state.taken, t.region.Apart ⟨p.toNat, size.toNat⟩ := fun t ht =>
        (hapart _ (List.mem_map_of_mem ht)).symm
      refine ⟨⟨hinv', fun t ht => List.mem_cons_of_mem _ ht, fun t ht _ => ?_⟩,
        ⟨_, List.mem_cons_self, rfl⟩, hothers, hbound rfl⟩
      refine ByteMemory.sameOn_write ?_
      rw [List.length_replicate]
      exact hothers t ht

/-- A size that the code computes. -/
theorem Serves.meets {a : Arena} {n : Nat} (h : Serves a n) (hsize : size.toNat = n) :
    Meets a (.alloc size) := by
  subst hsize
  simpa only [UInt64.ofNat_toNat] using h.2

/-! ## §2 One vector -/

def Vector.region (v : Vector) : Region where
  start := v.data.toNat
  size := v.cap.toNat * v.elemSize.toNat

/-- The vector has a region of the arena, with room for its items. -/
structure Vector.Placed (v : Vector) (h : Heap) : Prop where
  elem : 0 < v.elemSize.toNat
  cap : 0 < v.cap.toNat
  len : v.len.toNat ≤ v.cap.toNat
  held : ∃ t ∈ h.state.taken, t.region = v.region
  bound : v.region.stop < 2 ^ 64

theorem Vector.Placed.keep (hv : v.Placed h) (hkeep : h.Keeps others h') : v.Placed h' where
  elem := hv.elem
  cap := hv.cap
  len := hv.len
  held := by
    obtain ⟨t, ht, hregion⟩ := hv.held
    exact ⟨t, hkeep.taken t ht, hregion⟩
  bound := hv.bound

/-- An item is inside the region. -/
theorem Vector.item_inside {i : Nat} (hi : i < v.cap.toNat) :
    Region.Inside ⟨v.data.toNat + i * v.elemSize.toNat, v.elemSize.toNat⟩ v.region := by
  have hle : (i + 1) * v.elemSize.toNat ≤ v.cap.toNat * v.elemSize.toNat :=
    Nat.mul_le_mul_right _ hi
  rw [Nat.succ_mul] at hle
  simp only [Region.Inside, Region.stop, Vector.region]
  omega

theorem Vector.Placed.items_same (hv : v.Placed h) (hkeep : h.Keeps others h')
    (hother : others v.region) : v.items h'.mem = v.items h.mem := by
  obtain ⟨t, ht, hregion⟩ := hv.held
  have hsame := hkeep.same t ht (hregion ▸ hother)
  rw [hregion] at hsame
  refine List.map_congr_left fun i hi => ?_
  have hlen := hv.len
  have hi := List.mem_range.mp hi
  exact hsame.read (Vector.item_inside (by omega))

theorem Vector.Placed.slot_toNat (hv : v.Placed h) {index : UInt64}
    (hindex : index.toNat < v.cap.toNat) :
    (v.slot index).toNat = v.data.toNat + index.toNat * v.elemSize.toNat := by
  have hin := (Vector.item_inside hindex).2
  have hbound := hv.bound
  simp only [Region.stop] at hin hbound
  have hmul : (index * v.elemSize).toNat = index.toNat * v.elemSize.toNat := by
    rw [UInt64.toNat_mul, Nat.mod_eq_of_lt]
    omega
  rw [Vector.slot, UInt64.toNat_add, hmul, Nat.mod_eq_of_lt]
  omega

/-- Items at different places do not overlap. -/
theorem items_apart {i j e : Nat} (a : Nat) (h : i ≠ j) :
    Region.Apart ⟨a + i * e, e⟩ ⟨a + j * e, e⟩ := by
  simp only [Region.Apart, Region.stop]
  rcases Nat.lt_or_gt_of_ne h with hlt | hlt
  · have hle := Nat.mul_le_mul_right e hlt
    rw [Nat.succ_mul] at hle
    omega
  · have hle := Nat.mul_le_mul_right e hlt
    rw [Nat.succ_mul] at hle
    omega

theorem Vector.item_write {mem : ByteMemory} (hitem : item.length = v.elemSize.toNat) (i j : Nat) :
    v.item (mem.write (v.data.toNat + i * v.elemSize.toNat) item) j =
      if j = i then item else v.item mem j := by
  unfold Vector.item
  split
  · next heq =>
    rw [heq, ← hitem]
    exact ByteMemory.read_write
  · next hne =>
    refine SameOn.read (r := ⟨_, v.elemSize.toNat⟩) (ByteMemory.sameOn_write ?_)
      ⟨Nat.le_refl _, Nat.le_refl _⟩
    rw [hitem]
    exact items_apart _ hne

/-- Storing an item changes nothing outside the vector's region. -/
theorem Vector.keeps_store (hinv : Inv h.state) {i : Nat} (hi : i < v.cap.toNat)
    (hitem : item.length = v.elemSize.toNat) :
    h.Keeps (fun r => r.Apart v.region)
      { h with mem := h.mem.write (v.data.toNat + i * v.elemSize.toNat) item } where
  inv := hinv
  taken := fun _ ht => ht
  same := by
    intro t ht hother
    refine ByteMemory.sameOn_write ?_
    rw [hitem]
    exact hother.inside ⟨Nat.le_refl _, Nat.le_refl _⟩ (Vector.item_inside hi)

/-- The size of the new region, where it fits a word. -/
theorem newSize_toNat (hbound : v.cap.toNat * 2 * v.elemSize.toNat < 2 ^ 64)
    (helem : 0 < v.elemSize.toNat) :
    (v.cap * 2).toNat = v.cap.toNat * 2 ∧
      (v.cap * 2 * v.elemSize).toNat = v.cap.toNat * 2 * v.elemSize.toNat := by
  have hle := Nat.le_mul_of_pos_right (v.cap.toNat * 2) helem
  have hcap : (v.cap * 2).toNat = v.cap.toNat * 2 := by
    rw [UInt64.toNat_mul]
    exact Nat.mod_eq_of_lt (Nat.lt_of_le_of_lt hle hbound)
  refine ⟨hcap, ?_⟩
  rw [UInt64.toNat_mul, hcap]
  exact Nat.mod_eq_of_lt hbound

/-- A vector that moved: its items are as they were, in a region of its own. -/
structure Grown (h h' : Heap) (v v' : Vector) : Prop where
  keeps : h.Keeps (fun _ => True) h'
  placed : v'.Placed h'
  apart : ∀ t ∈ h.state.taken, t.region.Apart v'.region
  items : v'.items h'.mem = v.items h.mem
  room : v'.len.toNat < v'.cap.toNat
  elemSize : v'.elemSize = v.elemSize

theorem vectorGrow_some (hv : v.Placed h) (hinv : Inv h.state)
    (hmalloc : Sound malloc h.state.arena.blocks)
    (hserves : Serves h.state.arena (v.cap.toNat * 2 * v.elemSize.toNat))
    (heq : vectorGrow malloc h v = (h', some v')) : Grown h h' v v' := by
  obtain ⟨hcap, hsize⟩ := newSize_toNat hserves.1 hv.elem
  unfold vectorGrow at heq
  simp only at heq
  split at heq
  · cases heq
  · next g newData halloc =>
    cases heq
    have htakes := Heap.alloc_some hinv hmalloc (hserves.meets hsize) halloc
    rw [hsize] at htakes
    have hlen := hv.len
    have hcapPos := hv.cap
    have hused : (v.len * v.elemSize).toNat = v.len.toNat * v.elemSize.toNat := by
      have hle := Nat.mul_le_mul_right v.elemSize.toNat hlen
      have hbound := hv.bound
      simp only [Vector.region, Region.stop] at hbound
      rw [UInt64.toNat_mul, Nat.mod_eq_of_lt]
      omega
    have hregion : (Vector.region { v with data := newData, cap := v.cap * 2 }) =
        ⟨newData.toNat, v.cap.toNat * 2 * v.elemSize.toNat⟩ := by
      simp only [Vector.region, hcap]
    -- what is copied stays inside the new region
    have hcopied : Region.Inside ⟨newData.toNat, (g.mem.read v.data.toNat
        (v.len * v.elemSize).toNat).length⟩
        ⟨newData.toNat, v.cap.toNat * 2 * v.elemSize.toNat⟩ := by
      have hle : v.len.toNat * v.elemSize.toNat ≤ v.cap.toNat * 2 * v.elemSize.toNat :=
        Nat.mul_le_mul_right _ (by omega)
      simp only [Region.Inside, Region.stop, ByteMemory.length_read, hused]
      omega
    refine ⟨⟨htakes.inv, htakes.taken, fun t ht hother => ?_⟩, ⟨hv.elem, ?_, ?_, ?_, ?_⟩,
      fun t ht => ?_, ?_, ?_, rfl⟩
    · refine (htakes.same t ht hother).trans (ByteMemory.sameOn_write ?_)
      exact (htakes.apart t ht).inside ⟨Nat.le_refl _, Nat.le_refl _⟩ hcopied
    · show 0 < (v.cap * 2).toNat
      omega
    · show v.len.toNat ≤ (v.cap * 2).toNat
      omega
    · rw [hregion]
      exact htakes.held
    · rw [hregion]
      exact htakes.bound
    · rw [hregion]
      exact htakes.apart t ht
    · rw [← hv.items_same htakes.toKeeps trivial]
      refine List.map_congr_left fun i hi => ?_
      have hi := List.mem_range.mp hi
      have hle : (i + 1) * v.elemSize.toNat ≤ v.len.toNat * v.elemSize.toNat :=
        Nat.mul_le_mul_right _ hi
      rw [Nat.succ_mul, ← hused] at hle
      exact ByteMemory.read_copy hle
    · show v.len.toNat < (v.cap * 2).toNat
      omega

theorem vectorGrow_none (hv : v.Placed h) (hinv : Inv h.state)
    (hmalloc : Sound malloc h.state.arena.blocks)
    (hserves : Serves h.state.arena (v.cap.toNat * 2 * v.elemSize.toNat))
    (heq : vectorGrow malloc h v = (h', none)) : h.Keeps (fun _ => True) h' := by
  obtain ⟨hcap, hsize⟩ := newSize_toNat hserves.1 hv.elem
  unfold vectorGrow at heq
  simp only at heq
  split at heq
  · next g halloc =>
    cases heq
    exact Heap.alloc_none hinv hmalloc (hserves.meets hsize) halloc
  · cases heq

/-- A call on a vector: it keeps its place, or has one that is new, and holds
these items. -/
structure Changed (h h' : Heap) (v v' : Vector) (items : List Bytes) : Prop where
  keeps : h.Keeps (fun r => r.Apart v.region) h'
  placed : v'.Placed h'
  apart : ∀ t ∈ h.state.taken, t.region.Apart v.region → t.region.Apart v'.region
  items : v'.items h'.mem = items

/-- Storing behind the last item. -/
theorem Vector.Placed.append (hv : v.Placed h) (hinv : Inv h.state)
    (hroom : v.len.toNat < v.cap.toNat) (hitem : item.length = v.elemSize.toNat) :
    Changed h { h with mem := h.mem.write (v.slot v.len).toNat item } v
      { v with len := v.len + 1 } (v.items h.mem ++ [item]) := by
  have hlen : (v.len + 1).toNat = v.len.toNat + 1 := by
    have hlt := v.cap.toNat_lt
    rw [UInt64.toNat_add]
    exact Nat.mod_eq_of_lt (by simp; omega)
  rw [hv.slot_toNat hroom]
  refine ⟨Vector.keeps_store hinv hroom hitem, ⟨hv.elem, hv.cap, ?_, hv.held, hv.bound⟩,
    fun _ _ hother => hother, ?_⟩
  · show (v.len + 1).toNat ≤ v.cap.toNat
    omega
  · simp only [Vector.items, hlen, List.range_succ, List.map_append, List.map_cons, List.map_nil]
    congr 1
    · refine List.map_congr_left fun i hi => ?_
      have hi := List.mem_range.mp hi
      exact (Vector.item_write hitem _ _).trans (if_neg (by omega))
    · exact congrArg (· :: []) ((Vector.item_write hitem _ _).trans (if_pos rfl))

theorem vectorPush_changed (hv : v.Placed h) (hinv : Inv h.state)
    (hitem : item.length = v.elemSize.toNat)
    (hgrow : v.cap ≤ v.len → Sound malloc h.state.arena.blocks ∧
      Serves h.state.arena (v.cap.toNat * 2 * v.elemSize.toNat))
    {answer : Option UInt64} (heq : vectorPush malloc h v item = (h', v', answer)) :
    Changed h h' v v' (if answer.isSome then v.items h.mem ++ [item] else v.items h.mem) := by
  unfold vectorPush at heq
  by_cases hfull : v.cap ≤ v.len
  · obtain ⟨hmalloc, hserves⟩ := hgrow hfull
    simp only [ge_iff_le, hfull, if_true] at heq
    split at heq
    · next g hnone =>
      cases heq
      have hkeeps := vectorGrow_none hv hinv hmalloc hserves hnone
      exact ⟨hkeeps.weaken fun _ _ => trivial, hv.keep hkeeps, fun _ _ hother => hother,
        hv.items_same hkeeps trivial⟩
    · next g w hsome =>
      cases heq
      have hgrown := vectorGrow_some hv hinv hmalloc hserves hsome
      have happend := hgrown.placed.append hgrown.keeps.inv hgrown.room (hgrown.elemSize ▸ hitem)
      refine ⟨⟨happend.keeps.inv, fun t ht => happend.keeps.taken t (hgrown.keeps.taken t ht),
        fun t ht _ => ?_⟩, happend.placed, fun t ht _ => hgrown.apart t ht, ?_⟩
      · exact (hgrown.keeps.same t ht trivial).trans
          (happend.keeps.same t (hgrown.keeps.taken t ht) (hgrown.apart t ht))
      · rw [happend.items, hgrown.items]
        rfl
  · simp only [ge_iff_le, hfull, if_false] at heq
    cases heq
    exact hv.append hinv (UInt64.lt_iff_toNat_lt.mp (UInt64.not_le.mp hfull)) hitem

theorem vectorSet_changed (hv : v.Placed h) (hinv : Inv h.state)
    (hitem : item.length = v.elemSize.toNat) (index : UInt64) :
    Changed h (vectorSet h v index item) v v ((v.items h.mem).set index.toNat item) := by
  unfold vectorSet
  split
  · next hout =>
    have hle : (v.items h.mem).length ≤ index.toNat := by
      simpa [Vector.items] using UInt64.le_iff_toNat_le.mp hout
    refine ⟨⟨hinv, fun _ ht => ht, fun _ _ _ => .rfl⟩, hv, fun _ _ hother => hother, ?_⟩
    exact (List.set_eq_of_length_le hle).symm
  · next hin =>
    have hlt : index.toNat < v.len.toNat := UInt64.lt_iff_toNat_lt.mp (UInt64.not_le.mp hin)
    have hlen := hv.len
    have hcap : index.toNat < v.cap.toNat := by omega
    rw [hv.slot_toNat hcap]
    have hkeeps := Vector.keeps_store hinv hcap hitem
    refine ⟨hkeeps, ⟨hv.elem, hv.cap, hv.len, hv.held, hv.bound⟩, fun _ _ hother => hother, ?_⟩
    refine List.ext_getElem (by simp [Vector.items]) fun j hj _ => ?_
    simp only [Vector.items, List.getElem_map, List.getElem_range, List.getElem_set]
    refine (Vector.item_write hitem _ _).trans ?_
    simp only [eq_comm]

theorem vectorPop_changed (hv : v.Placed h) (hinv : Inv h.state) :
    Changed h h v (vectorPop v) (v.items h.mem).dropLast := by
  have hkeeps : h.Keeps (fun r => r.Apart v.region) h := ⟨hinv, fun _ ht => ht, fun _ _ _ => .rfl⟩
  unfold vectorPop
  split
  · next hpos =>
    have hlen := hv.len
    have hpos : 0 < v.len.toNat := UInt64.lt_iff_toNat_lt.mp hpos
    have hless : (v.len - 1).toNat = v.len.toNat - 1 :=
      UInt64.toNat_sub_of_le _ _ (UInt64.le_iff_toNat_le.mpr hpos)
    refine ⟨hkeeps, ⟨hv.elem, hv.cap, ?_, hv.held, hv.bound⟩, fun _ _ hother => hother, ?_⟩
    · show (v.len - 1).toNat ≤ v.cap.toNat
      omega
    · obtain ⟨n, hn⟩ : ∃ n, v.len.toNat = n + 1 := ⟨v.len.toNat - 1, by omega⟩
      simp only [Vector.items, hless, hn, Nat.add_sub_cancel, List.range_succ, List.map_append,
        List.map_cons, List.map_nil, List.dropLast_concat]
      rfl
  · next hzero =>
    have hnone : v.items h.mem = [] := by
      have hlen : v.len.toNat = 0 :=
        Nat.le_zero.mp (UInt64.le_iff_toNat_le.mp (UInt64.not_lt.mp hzero))
      simp [Vector.items, hlen]
    exact ⟨hkeeps, hv, fun _ _ hother => hother, by rw [hnone]; rfl⟩

theorem vectorClear_changed (hv : v.Placed h) (hinv : Inv h.state) :
    Changed h h v (vectorClear v) [] where
  keeps := ⟨hinv, fun _ ht => ht, fun _ _ _ => .rfl⟩
  placed := ⟨hv.elem, hv.cap, Nat.zero_le _, hv.held, hv.bound⟩
  apart := fun _ _ hother => hother
  items := rfl

/-- The arena answers NULL for no bytes. -/
theorem Heap.alloc_pos (heq : h.alloc malloc size = (h', some p)) : 0 < size.toNat := by
  refine Nat.pos_of_ne_zero fun hzero => ?_
  obtain rfl : size = 0 := UInt64.toNat_inj.mp hzero
  simp [Heap.alloc, arenaAlloc, arenaAllocUnzeroed] at heq

/-- A new vector. -/
structure Created (h h' : Heap) (v : Vector) : Prop where
  keeps : h.Keeps (fun _ => True) h'
  placed : v.Placed h'
  apart : ∀ t ∈ h.state.taken, t.region.Apart v.region
  items : v.items h'.mem = []

theorem vectorCreate_created {elemSize : UInt64} (hinv : Inv h.state)
    (hmalloc : Sound malloc h.state.arena.blocks)
    (hserves : Serves h.state.arena sizeofVector.toNat)
    (hmalloc' : Sound malloc' (h.alloc malloc sizeofVector).1.state.arena.blocks)
    (hserves' : Serves (h.alloc malloc sizeofVector).1.state.arena
      (vecInitCap.toNat * elemSize.toNat)) {answer : Option Vector}
    (heq : vectorCreate malloc malloc' h elemSize = (h', answer)) :
    h.Keeps (fun _ => True) h' ∧ ∀ v, answer = some v → Created h h' v := by
  have hmul : (vecInitCap * elemSize).toNat = vecInitCap.toNat * elemSize.toNat := by
    rw [UInt64.toNat_mul]
    exact Nat.mod_eq_of_lt hserves'.1
  unfold vectorCreate at heq
  split at heq
  · next g hnone =>
    cases heq
    exact ⟨Heap.alloc_none hinv hmalloc (hserves.meets rfl) hnone, fun v hv => by cases hv⟩
  · next g q hsome =>
    have hfirst := Heap.alloc_some hinv hmalloc (hserves.meets rfl) hsome
    rw [hsome] at hmalloc' hserves'
    split at heq
    · next g' hnone =>
      cases heq
      have hsecond := Heap.alloc_none hfirst.inv hmalloc' (hserves'.meets hmul) hnone
      exact ⟨hfirst.toKeeps.trans hsecond, fun v hv => by cases hv⟩
    · next g' data hdata =>
      cases heq
      have hsecond := Heap.alloc_some hfirst.inv hmalloc' (hserves'.meets hmul) hdata
      have hpos := Heap.alloc_pos hdata
      rw [hmul] at hsecond hpos
      refine ⟨hfirst.toKeeps.trans hsecond.toKeeps, fun v hv => ?_⟩
      cases hv
      refine ⟨hfirst.toKeeps.trans hsecond.toKeeps, ⟨Nat.pos_of_mul_pos_left hpos,
        (by decide : 0 < vecInitCap.toNat), Nat.zero_le _, hsecond.held, hsecond.bound⟩, fun t ht => ?_, rfl⟩
      exact hsecond.apart t (hfirst.taken t ht)

theorem arenaStrndup_keeps {text : Bytes} {len : UInt64} (hinv : Inv h.state)
    (hlen : len.toNat ≤ text.length) (hmalloc : Sound malloc h.state.arena.blocks)
    (hserves : Serves h.state.arena (len.toNat + 1)) :
    h.Keeps (fun _ => True) (arenaStrndup malloc h text len).1 := by
  have hsize : (len + 1).toNat = len.toNat + 1 := by
    rw [UInt64.toNat_add]
    exact Nat.mod_eq_of_lt hserves.1
  unfold arenaStrndup
  split
  · next g hnone => exact Heap.alloc_none hinv hmalloc (hserves.meets hsize) hnone
  · next g cpy hsome =>
    have htakes := Heap.alloc_some hinv hmalloc (hserves.meets hsize) hsome
    refine ⟨htakes.inv, htakes.taken, fun t ht hother => ?_⟩
    refine (htakes.same t ht hother).trans (ByteMemory.sameOn_write ?_)
    have happart := htakes.apart t ht
    rw [hsize] at happart
    simpa [hlen] using happart

end

/-! ## §3 The vectors of an arena -/

/-- Every vector has its place, and no two places overlap. -/
structure Vectors.Inv (s : Vectors) : Prop where
  heap : Memory.Inv s.heap.state
  placed : ∀ (i : Nat) (v : Vector), s.vectors[i]? = some v → v.Placed s.heap
  apart : ∀ (i j : Nat) (v w : Vector), i ≠ j → s.vectors[i]? = some v →
    s.vectors[j]? = some w → v.region.Apart w.region

section

variable {s : Vectors} {h' : Heap} {v v' : Vector}

theorem Vectors.getElem?_contents (s : Vectors) (j : Nat) :
    s.contents[j]? = s.vectors[j]?.map (Vector.items s.heap.mem) := by
  simp [Vectors.contents]

/-- Nothing but the arena changed. -/
theorem Vectors.Inv.keep (hs : s.Inv) (hkeep : s.heap.Keeps (fun _ => True) h') :
    Vectors.Inv { s with heap := h' } ∧ Vectors.contents { s with heap := h' } = s.contents := by
  refine ⟨⟨hkeep.inv, fun i v hv => (hs.placed i v hv).keep hkeep, hs.apart⟩, ?_⟩
  refine List.map_congr_left fun v hv => ?_
  obtain ⟨i, hi⟩ := List.mem_iff_getElem?.mp hv
  exact (hs.placed i v hi).items_same hkeep trivial

/-- One vector changed. -/
theorem Vectors.Inv.change (hs : s.Inv) {i : Nat} (hv : s.vectors[i]? = some v)
    {f : List Bytes → List Bytes} (hchanged : Changed s.heap h' v v' (f (v.items s.heap.mem))) :
    Vectors.Inv { heap := h', vectors := s.vectors.set i v' } ∧
      Vectors.contents { heap := h', vectors := s.vectors.set i v' } = s.contents.modify i f := by
  have hlt : i < s.vectors.length := (List.getElem?_eq_some_iff.mp hv).1
  -- every other vector stays where it is
  have hothers : ∀ (j : Nat) (w : Vector), i ≠ j → s.vectors[j]? = some w →
      w.Placed h' ∧ w.items h'.mem = w.items s.heap.mem ∧ w.region.Apart v'.region := by
    intro j w hne hw
    have hplaced := hs.placed j w hw
    have hapart := hs.apart j i w v (Ne.symm hne) hw hv
    obtain ⟨t, ht, hregion⟩ := hplaced.held
    refine ⟨hplaced.keep hchanged.keeps, hplaced.items_same hchanged.keeps hapart, ?_⟩
    exact hregion ▸ hchanged.apart t ht (hregion ▸ hapart)
  refine ⟨⟨hchanged.keeps.inv, fun j w hw => ?_, fun j k w x hne hw hx => ?_⟩, ?_⟩
  · by_cases heq : i = j
    · subst heq
      obtain rfl : v' = w := by simpa [hlt] using hw
      exact hchanged.placed
    · exact (hothers j w heq (by simpa [List.getElem?_set_ne heq] using hw)).1
  · by_cases hj : i = j
    · subst hj
      obtain rfl : v' = w := by simpa [hlt] using hw
      exact (hothers k x hne (by simpa [List.getElem?_set_ne hne] using hx)).2.2.symm
    · have hw' : s.vectors[j]? = some w := by simpa [List.getElem?_set_ne hj] using hw
      by_cases hk : i = k
      · subst hk
        obtain rfl : v' = x := by simpa [hlt] using hx
        exact (hothers j w hj hw').2.2
      · exact hs.apart j k w x hne hw' (by simpa [List.getElem?_set_ne hk] using hx)
  · refine List.ext_getElem? fun j => ?_
    rw [Vectors.getElem?_contents, List.getElem?_modify, Vectors.getElem?_contents]
    by_cases heq : i = j
    · subst heq
      rw [hv, List.getElem?_set_self hlt]
      simp [hchanged.items]
    · simp only [List.getElem?_set_ne heq, if_neg heq]
      cases hw : s.vectors[j]? with
      | none => rfl
      | some w => simp [(hothers j w heq hw).2.1]

/-- One vector more. -/
theorem Vectors.Inv.create (hs : s.Inv) (hcreated : Created s.heap h' v) :
    Vectors.Inv { heap := h', vectors := s.vectors ++ [v] } ∧
      Vectors.contents { heap := h', vectors := s.vectors ++ [v] } = s.contents ++ [[]] := by
  obtain ⟨hinv, hcontents⟩ := hs.keep hcreated.keeps
  -- a vector of the longer list is one from before, or the new one
  have hcases : ∀ (j : Nat) (w : Vector), (s.vectors ++ [v])[j]? = some w →
      s.vectors[j]? = some w ∨ (j = s.vectors.length ∧ w = v) := by
    intro j w hw
    rcases Nat.lt_or_ge j s.vectors.length with hlt | hge
    · exact .inl (by rwa [List.getElem?_append_left hlt] at hw)
    · rw [List.getElem?_append_right hge] at hw
      obtain ⟨hj, hw⟩ := List.getElem?_eq_some_iff.mp hw
      have hlast : j = s.vectors.length := by
        simp only [List.length_singleton] at hj
        omega
      exact .inr ⟨hlast, by simpa using hw.symm⟩
  have hapart : ∀ (j : Nat) (w : Vector), s.vectors[j]? = some w → w.region.Apart v.region := by
    intro j w hw
    obtain ⟨t, ht, hregion⟩ := (hs.placed j w hw).held
    exact hregion ▸ hcreated.apart t ht
  refine ⟨⟨hcreated.keeps.inv, fun j w hw => ?_, fun j k w x hne hw hx => ?_⟩, ?_⟩
  · rcases hcases j w hw with hold | ⟨-, rfl⟩
    · exact hinv.placed j w hold
    · exact hcreated.placed
  · rcases hcases j w hw with hold | ⟨hj, rfl⟩
    · rcases hcases k x hx with hold' | ⟨-, rfl⟩
      · exact hs.apart j k w x hne hold hold'
      · exact hapart j w hold
    · rcases hcases k x hx with hold' | ⟨hk, -⟩
      · exact (hapart k x hold').symm
      · exact absurd (hj.trans hk.symm) hne
  · rw [← hcontents]
    simp [Vectors.contents, hcreated.items]

end

/-! ## §4 Runs -/

/-- A call keeps the invariant, and does to the lists what it means unless it
answers NULL. -/
theorem Vectors.Inv.step {s : Vectors} {malloc malloc' : Malloc} {call : VectorCall} (hs : s.Inv)
    (hsound : call.Sound malloc malloc' s) :
    (s.step malloc malloc' call).1.Inv ∧ (s.step malloc malloc' call).1.contents =
      if (s.step malloc malloc' call).2 then call.apply s.contents else s.contents := by
  cases call with
  | create elemSize =>
    obtain ⟨hmalloc, hserves, hmalloc', hserves'⟩ := hsound
    cases heq : vectorCreate malloc malloc' s.heap elemSize with
    | mk h answer =>
      obtain ⟨hkeep, hcreated⟩ :=
        vectorCreate_created hs.heap hmalloc hserves hmalloc' hserves' heq
      simp only [Vectors.step, heq]
      cases answer with
      | none => exact hs.keep hkeep
      | some v => exact hs.create (hcreated v rfl)
  | push i item =>
    obtain hv | ⟨v, hv⟩ := Option.eq_none_or_eq_some s.vectors[i]?
    · simp only [Vectors.step, hv]
      exact ⟨hs, rfl⟩
    · obtain ⟨hitem, hgrow⟩ := hsound v hv
      cases heq : vectorPush malloc s.heap v item with
      | mk h r =>
        obtain ⟨w, answer⟩ := r
        have hchanged := vectorPush_changed (hs.placed i v hv) hs.heap hitem hgrow heq
        simp only [Vectors.step, hv, heq]
        cases answer with
        | none =>
          obtain ⟨hinv, hcontents⟩ := hs.change (f := fun items => items) hv hchanged
          exact ⟨hinv, hcontents.trans (List.modify_id i _)⟩
        | some slot => exact hs.change (f := fun items => items ++ [item]) hv hchanged
  | set i index item =>
    obtain hv | ⟨v, hv⟩ := Option.eq_none_or_eq_some s.vectors[i]?
    · simp only [Vectors.step, hv]
      exact ⟨hs, rfl⟩
    · have hchanged := vectorSet_changed (hs.placed i v hv) hs.heap (hsound v hv) index
      have hsame : s.vectors.set i v = s.vectors := by
        obtain ⟨hlt, hget⟩ := List.getElem?_eq_some_iff.mp hv
        rw [← hget, List.set_getElem_self]
      have hstep := hs.change (f := fun items => items.set index.toNat item) hv hchanged
      rw [hsame] at hstep
      simp only [Vectors.step, hv]
      exact hstep
  | pop i =>
    obtain hv | ⟨v, hv⟩ := Option.eq_none_or_eq_some s.vectors[i]?
    · simp only [Vectors.step, hv]
      exact ⟨hs, rfl⟩
    · simp only [Vectors.step, hv]
      exact hs.change hv (vectorPop_changed (hs.placed i v hv) hs.heap)
  | clear i =>
    obtain hv | ⟨v, hv⟩ := Option.eq_none_or_eq_some s.vectors[i]?
    · simp only [Vectors.step, hv]
      exact ⟨hs, rfl⟩
    · simp only [Vectors.step, hv]
      exact hs.change (f := fun _ => []) hv (vectorClear_changed (hs.placed i v hv) hs.heap)
  | strndup text len =>
    obtain ⟨hlen, hmalloc, hserves⟩ := hsound
    obtain ⟨hinv, hcontents⟩ := hs.keep (arenaStrndup_keeps hs.heap hlen hmalloc hserves)
    refine ⟨hinv, hcontents.trans ?_⟩
    exact (ite_self _).symm

theorem VectorRun.answered {calls : List VectorCall} {s : Vectors} {malloc malloc' : Malloc}
    {call : VectorCall} (h : VectorRun calls s) (hsound : call.Sound malloc malloc' s)
    (hanswer : (s.step malloc malloc' call).2 = true) :
    VectorRun (calls ++ [call]) (s.step malloc malloc' call).1 := by
  have hrun := h.step hsound
  rwa [if_pos hanswer] at hrun

theorem VectorRun.holds {calls : List VectorCall} {s : Vectors} (h : VectorRun calls s) :
    s.Inv ∧ s.contents = calls.foldl VectorCall.apply [] := by
  induction h with
  | create harena =>
    exact ⟨⟨inv_reachable harena, fun i v hv => by simp at hv, fun i j v w _ hv => by simp at hv⟩, rfl⟩
  | step _ hsound ih =>
    obtain ⟨hinv, hcontents⟩ := ih.1.step hsound
    refine ⟨hinv, hcontents.trans ?_⟩
    rw [ih.2]
    split
    · rw [List.foldl_append]
      rfl
    · rfl

/-- The address that `vectorGet` answers is that of the item. -/
theorem vectorGet_reads {h : Heap} {v : Vector} (hv : v.Placed h) (index : UInt64) :
    (vectorGet v index).map (fun p => h.mem.read p.toNat v.elemSize.toNat) =
      (v.items h.mem)[index.toNat]? := by
  unfold vectorGet
  split
  · next hout =>
    have hle : (v.items h.mem).length ≤ index.toNat := by
      simpa [Vector.items] using UInt64.le_iff_toNat_le.mp hout
    rw [List.getElem?_eq_none hle]
    rfl
  · next hin =>
    have hlt : index.toNat < v.len.toNat := UInt64.lt_iff_toNat_lt.mp (UInt64.not_le.mp hin)
    have hlen := hv.len
    rw [Option.map_some, hv.slot_toNat (by omega)]
    simp [Vector.items, Vector.item, hlt]

/-- No vectors yet, in an arena of one block. -/
def noVectors : Vectors where
  heap := { state := { arena := oneBlock, taken := [] }, mem := fun _ => 0 }
  vectors := []

/-- The call, where the arena asks for no block. -/
def Vectors.call (s : Vectors) (call : VectorCall) : Vectors :=
  (s.step (fun _ => none) (fun _ => none) call).1

/-- Two vectors, of items of one byte and of two. -/
def twoVectors : Vectors := (noVectors.call (.create 1)).call (.create 2)

end Aether.Memory
