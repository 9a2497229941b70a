/-
Aether.Lib.Regions — regions of memory that a bump allocator gives out.

`Bumped` is the state of such an allocator: the block it takes from, the
blocks before it, the cursor and the regions that were taken. `take`, `grow`
and `restart` are the rules for its operations; `Bumped.inside` and
`Bumped.apart` are what the regions have.
-/
import Mathlib.Data.Nat.Bitwise
import Mathlib.Data.List.Pairwise

namespace Aether.Lib

/-! ## §1 Alignment -/

/-- A mask of high bits rounds down to a power of two. -/
theorem and_highBits {x k w : Nat} (hx : x < 2 ^ w) :
    x &&& (2 ^ w - (2 ^ k - 1 + 1)) = x / 2 ^ k * 2 ^ k := by
  by_cases hk : k ≤ w
  · have hlt : 2 ^ k - 1 < 2 ^ w := by
      have hle := Nat.pow_le_pow_right (by omega : 0 < 2) hk
      have hpos := Nat.two_pow_pos k
      omega
    apply Nat.eq_of_testBit_eq
    intro i
    rw [← Nat.shiftRight_eq_div_pow, ← Nat.shiftLeft_eq, Nat.testBit_and,
      Nat.testBit_two_pow_sub_succ hlt, Nat.testBit_two_pow_sub_one, Nat.testBit_shiftLeft,
      Nat.testBit_shiftRight]
    by_cases hki : k ≤ i
    · have hadd : k + (i - k) = i := by omega
      by_cases hiw : i < w
      · simp [hki, hiw, hadd]
      · have hbit := Nat.testBit_lt_two_pow (Nat.lt_of_lt_of_le hx
          (Nat.pow_le_pow_right (by omega : 0 < 2) (Nat.le_of_not_lt hiw)))
        simp [hadd, hbit]
    · have hik : i < k := Nat.lt_of_not_le hki
      simp [hki, hik]
  · have hle := Nat.pow_le_pow_right (by omega : 0 < 2) (Nat.le_of_not_le hk)
    have hsub : 2 ^ w - (2 ^ k - 1 + 1) = 0 := by omega
    rw [hsub, Nat.and_zero, Nat.div_eq_of_lt (Nat.lt_of_lt_of_le hx hle), Nat.zero_mul]

/-- The next multiple of `a`, which is not far. -/
theorem le_roundUp {x a : Nat} (ha : 0 < a) :
    x ≤ (x + (a - 1)) / a * a ∧ (x + (a - 1)) / a * a ≤ x + (a - 1) := by
  have hdiv := Nat.div_add_mod' (x + (a - 1)) a
  have hmod := Nat.mod_lt (x + (a - 1)) ha
  omega

/-! ## §2 Regions -/

structure Region where
  start : Nat
  size : Nat
  deriving DecidableEq, Repr

namespace Region

def stop (r : Region) : Nat := r.start + r.size

def Inside (r b : Region) : Prop := b.start ≤ r.start ∧ r.stop ≤ b.stop

def Apart (r s : Region) : Prop := r.stop ≤ s.start ∨ s.stop ≤ r.start

instance (r b : Region) : Decidable (r.Inside b) := inferInstanceAs (Decidable (_ ∧ _))

instance (r s : Region) : Decidable (r.Apart s) := inferInstanceAs (Decidable (_ ∨ _))

variable {r s b c : Region}

theorem Apart.symm (h : r.Apart s) : s.Apart r := Or.symm h

/-- Regions in different blocks. -/
theorem Apart.inside (h : b.Apart c) (hr : r.Inside b) (hs : s.Inside c) : r.Apart s := by
  simp only [Apart, Inside] at *
  omega

end Region

/-! ## §3 Packed regions -/

/-- Regions of the given sizes, one right behind the other. -/
def packed : Nat → List Nat → List Region
  | _, [] => []
  | start, size :: sizes => ⟨start, size⟩ :: packed (start + size) sizes

def packedEnd : Nat → List Nat → Nat
  | start, [] => start
  | start, size :: sizes => packedEnd (start + size) sizes

theorem le_packedEnd (start : Nat) (sizes : List Nat) : start ≤ packedEnd start sizes := by
  induction sizes generalizing start with
  | nil => exact Nat.le_refl _
  | cons size sizes ih => exact Nat.le_trans (Nat.le_add_right _ _) (ih (start + size))

theorem packed_inside {start : Nat} {sizes : List Nat} {r : Region} (hr : r ∈ packed start sizes) :
    start ≤ r.start ∧ r.stop ≤ packedEnd start sizes := by
  induction sizes generalizing start with
  | nil => simp [packed] at hr
  | cons size sizes ih =>
    cases List.mem_cons.mp hr with
    | inl h =>
      subst h
      exact ⟨Nat.le_refl _, le_packedEnd _ sizes⟩
    | inr h =>
      obtain ⟨hstart, hstop⟩ := ih h
      exact ⟨Nat.le_trans (Nat.le_add_right _ _) hstart, hstop⟩

theorem packed_apart (start : Nat) (sizes : List Nat) :
    (packed start sizes).Pairwise Region.Apart := by
  induction sizes generalizing start with
  | nil => exact .nil
  | cons size sizes ih =>
    exact .cons (fun r hr => .inl (packed_inside hr).1) (ih (start + size))

theorem packedEnd_replicate (start n size : Nat) :
    packedEnd start (List.replicate n size) = start + n * size := by
  induction n generalizing start with
  | zero => simp [packedEnd]
  | succ n ih =>
    rw [List.replicate_succ, packedEnd, ih, Nat.succ_mul]
    omega

/-! ## §4 Bump allocation -/

/-- `regions` were taken from `block`, up to `cursor`, and from older blocks. -/
structure Bumped (block : Region) (older : List Region) (cursor : Nat) (regions : List Region) :
    Prop where
  start_le : block.start ≤ cursor
  blocks : ∀ b ∈ older, block.Apart b
  held : ∀ r ∈ regions, (r.Inside block ∧ r.stop ≤ cursor) ∨ ∃ b ∈ older, r.Inside b
  apart : regions.Pairwise Region.Apart

namespace Bumped

variable {block new r : Region} {older regions : List Region} {cursor cursor' : Nat}

/-- Each region is inside a block. -/
theorem inside (h : Bumped block older cursor regions) (hr : r ∈ regions) :
    ∃ b ∈ block :: older, r.Inside b := by
  rcases h.held r hr with ⟨hin, _⟩ | ⟨b, hb, hin⟩
  · exact ⟨block, List.mem_cons_self, hin⟩
  · exact ⟨b, List.mem_cons_of_mem _ hb, hin⟩

/-- A region of the block, from the cursor on. -/
theorem take (h : Bumped block older cursor regions) (hstart : cursor ≤ r.start)
    (hstop : r.stop ≤ block.stop) (hcursor : r.stop ≤ cursor') :
    Bumped block older cursor' (r :: regions) := by
  have hin : r.Inside block := ⟨Nat.le_trans h.start_le hstart, hstop⟩
  have hle : cursor ≤ cursor' :=
    Nat.le_trans hstart (Nat.le_trans (Nat.le_add_right _ _) hcursor)
  refine ⟨Nat.le_trans h.start_le hle, h.blocks, ?_, ?_⟩
  · intro s hs
    rcases List.mem_cons.mp hs with rfl | hs
    · exact .inl ⟨hin, hcursor⟩
    · rcases h.held s hs with ⟨hsin, hsle⟩ | hold
      · exact .inl ⟨hsin, Nat.le_trans hsle hle⟩
      · exact .inr hold
  · refine List.pairwise_cons.mpr ⟨fun s hs => ?_, h.apart⟩
    rcases h.held s hs with ⟨_, hsle⟩ | ⟨b, hb, hsin⟩
    · exact .inr (Nat.le_trans hsle hstart)
    · exact (h.blocks b hb).inside hin hsin

/-- A new block, apart from all others. -/
theorem grow {older' : List Region} (h : Bumped block older cursor regions)
    (hkeep : ∀ b ∈ block :: older, b ∈ older') (hnew : ∀ b ∈ older', new.Apart b) :
    Bumped new older' new.start regions := by
  refine ⟨Nat.le_refl _, hnew, fun r hr => ?_, h.apart⟩
  obtain ⟨b, hb, hin⟩ := h.inside hr
  exact .inr ⟨b, hkeep b hb, hin⟩

/-- The cursor back at the start of a block, and nothing taken. -/
theorem restart (block : Region) : Bumped block [] block.start [] :=
  ⟨Nat.le_refl _, nofun, nofun, .nil⟩

end Bumped

end Aether.Lib
