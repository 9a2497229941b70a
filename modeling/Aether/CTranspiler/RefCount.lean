/-
Aether.CTranspiler.RefCount — runs of `rc` values in the emitted C.

`heap v` puts `v` into the first word of a new cell, and
`__aether_rc_release` takes that word for the count. A copy and an assignment
are copies of the pointer, since no call of `__aether_rc_retain` is ever
printed, and a variable is released where the end of its block is printed:
not when control leaves by a `return`, and not a parameter.
-/
import Mathlib.Data.List.Basic

namespace Aether.CTranspiler.RefCount

/-! ## §1 Cells and variables -/

/-- A cell, and the value that was stored there. -/
structure Cell where
  word : UInt64
  stored : UInt64
  freed : Bool
  /-- A freed cell was released. -/
  fault : Bool

/-- The owners are the variables in the order of their declarations; one whose
scope was left owns nothing. -/
structure State where
  cells : List Cell
  owners : List (Option Nat)

namespace State

def start : State := ⟨[], []⟩

def owner (s : State) (i : Nat) : Option Nat := s.owners[i]?.join

/-- How many live variables point to a cell. -/
def count (s : State) (a : Nat) : Nat := s.owners.count (some a)

end State

/-! ## §2 Steps -/

/-- `__aether_rc_release` -/
def rcRelease (c : Cell) : Cell :=
  if c.freed then { c with fault := true }
  else
    let word := if c.word > 0 then c.word - 1 else c.word
    { c with word := word, freed := word == 0 }

inductive Op where
  /-- `let x: rc T = heap value` -/
  | create (value : UInt64)
  /-- `let y: rc T = x` -/
  | copy (i : Nat)
  /-- `x = y` -/
  | assign (i j : Nat)
  /-- The scope of a variable is left, with or without the call of its
  release. -/
  | leave (i : Nat) (released : Bool)

def step (s : State) : Op → Option State
  | .create value =>
    some ⟨s.cells ++ [⟨value, value, false, false⟩], s.owners ++ [some s.cells.length]⟩
  | .copy i => (s.owner i).map fun a => { s with owners := s.owners ++ [some a] }
  | .assign i j =>
    match s.owner i, s.owner j with
    | some _, some b => some { s with owners := s.owners.set i (some b) }
    | _, _ => none
  | .leave i released => (s.owner i).map fun a =>
    ⟨if released then s.cells.modify a rcRelease else s.cells, s.owners.set i none⟩

/-! ## §3 What is to hold -/

structure SoundCell (c : Cell) (owners : Nat) : Prop where
  noFault : c.fault = false
  freed : c.freed = true ↔ owners = 0
  reads : 0 < owners → c.word = c.stored

/-- A cell is freed once its last owner is gone, and holds its value until
then. -/
def Sound (s : State) : Prop := ∀ a c, s.cells[a]? = some c → SoundCell c (s.count a)

/-- Variables point to cells. -/
def Within (s : State) : Prop := ∀ a, some a ∈ s.owners → a < s.cells.length

/-- A step keeps that: a release is that of the only owner of a 0 or a 1, and
where no release is called another owner stays. -/
def Keeps (s : State) : Op → Prop
  | .create _ => True
  | .copy _ => True
  | .assign i j => s.owner i = s.owner j ∨ ∀ a, s.owner i = some a → 1 < s.count a
  | .leave i true =>
    ∀ a c, s.owner i = some a → s.cells[a]? = some c → s.count a = 1 ∧ c.stored ≤ 1
  | .leave i false => ∀ a, s.owner i = some a → 1 < s.count a

/-- Every state of a run is sound. -/
def SoundAlong : State → List Op → Prop
  | s, [] => Sound s
  | s, op :: ops => Sound s ∧ ∀ s', step s op = some s' → SoundAlong s' ops

/-- Every step of a run meets its condition. -/
def KeepsAlong : State → List Op → Prop
  | _, [] => True
  | s, op :: ops => ∀ s', step s op = some s' → Keeps s op ∧ KeepsAlong s' ops

/-! ## §4 Counting owners -/

section

variable {s s' : State} {i a : Nat}

theorem mem_of_owner (h : s.owner i = some a) : some a ∈ s.owners := by
  rw [State.owner, Option.join_eq_some_iff] at h
  exact List.mem_of_getElem? h

theorem count_pos_of_owner (h : s.owner i = some a) : 0 < s.count a :=
  List.count_pos_iff.mpr (mem_of_owner h)

theorem count_set (h : s.owner i = some a) (o : Option Nat) (x : Nat) :
    (s.owners.set i o).count (some x) + (if a = x then 1 else 0) =
      s.count x + (if o = some x then 1 else 0) := by
  rw [State.owner, Option.join_eq_some_iff] at h
  obtain ⟨hlt, hget⟩ := List.getElem?_eq_some_iff.mp h
  have hmem : a = x → 0 < s.owners.count (some x) := by
    rintro rfl
    exact List.count_pos_iff.mpr (List.mem_of_getElem? h)
  rw [List.count_set hlt, hget, State.count]
  by_cases hx : a = x
  · have hpos := hmem hx
    simp [hx]
    omega
  · simp [hx]

/-! ## §5 Steps and runs -/

/-- A live cell is not freed. -/
theorem SoundCell.live {c : Cell} {n : Nat} (h : SoundCell c n) (hn : 0 < n) : c.freed = false := by
  cases hfreed : c.freed with
  | false => rfl
  | true =>
    have hzero := h.freed.mp hfreed
    omega

/-- With other owners in the place of some. -/
theorem SoundCell.of_pos {c : Cell} {n m : Nat} (h : SoundCell c n) (hn : 0 < n) (hm : 0 < m) :
    SoundCell c m where
  noFault := h.noFault
  freed := by
    rw [h.live hn]
    simp
    omega
  reads := fun _ => h.reads hn

/-- One owner is lost without a release. -/
theorem SoundCell.lose_iff {c : Cell} {n : Nat} (h : SoundCell c n) (hn : 0 < n) :
    SoundCell c (n - 1) ↔ 1 < n := by
  constructor
  · intro hless
    by_contra hone
    have hfreed := hless.freed.mpr (by omega)
    rw [h.live hn] at hfreed
    cases hfreed
  · intro hone
    exact h.of_pos hn (by omega)

/-- What is left of a word after a release. -/
def released (word : UInt64) : UInt64 := if word > 0 then word - 1 else word

theorem released_eq_zero_iff (word : UInt64) : released word = 0 ↔ word ≤ 1 := by
  unfold released
  split <;> grind

theorem released_ne {word : UInt64} (h : ¬ word ≤ 1) : released word ≠ word := by
  unfold released
  split <;> grind

/-- One owner is lost by a release. -/
theorem SoundCell.release_iff {c : Cell} {n : Nat} (h : SoundCell c n) (hn : 0 < n) :
    SoundCell (rcRelease c) (n - 1) ↔ n = 1 ∧ c.stored ≤ 1 := by
  have hcode : rcRelease c = ⟨released c.stored, c.stored, released c.stored == 0, c.fault⟩ := by
    rw [rcRelease, h.live hn, ← h.reads hn]
    rfl
  have hsmall : (released c.stored == 0) = true ↔ c.stored ≤ 1 := by
    rw [beq_iff_eq, released_eq_zero_iff]
  rw [hcode]
  constructor
  · intro hless
    by_cases hone : n = 1
    · exact ⟨hone, hsmall.mp (hless.freed.mpr (by omega))⟩
    · have hread := hless.reads (by omega)
      by_cases hstored : c.stored ≤ 1
      · have hzero := hless.freed.mp (hsmall.mpr hstored)
        omega
      · exact absurd hread (released_ne hstored)
  · intro ⟨hone, hstored⟩
    exact ⟨h.noFault, by simp [hsmall.mpr hstored, hone], fun hpos => by omega⟩

theorem exists_cell (hwithin : Within s) (h : s.owner i = some a) : ∃ c, s.cells[a]? = some c :=
  ⟨_, List.getElem?_eq_getElem (hwithin a (mem_of_owner h))⟩

/-- The counts after the owner `i` of `a` was set to `o`. -/
theorem sound_set_iff {cells : List Cell} (h : s.owner i = some a) (o : Option Nat) :
    Sound ⟨cells, s.owners.set i o⟩ ↔ ∀ x c, cells[x]? = some c →
      SoundCell c (s.count x + (if o = some x then 1 else 0) - (if a = x then 1 else 0)) := by
  refine forall₃_congr fun x c _ => iff_of_eq (congrArg (SoundCell c) ?_)
  have hset := count_set h o x
  show (s.owners.set i o).count (some x) = _
  omega

theorem step_within {op : Op} (hwithin : Within s) (hstep : step s op = some s') : Within s' := by
  have hset {i b : Nat} {o : Option Nat} (ho : ∀ b, o = some b → b < s.cells.length) :
      some b ∈ s.owners.set i o → b < s.cells.length := by
    intro hmem
    rcases List.mem_or_eq_of_mem_set hmem with hmem | heq
    · exact hwithin b hmem
    · exact ho b heq.symm
  cases op with
  | create value =>
    cases hstep
    intro b hb
    rw [List.length_append, List.length_singleton]
    rcases List.mem_append.mp hb with hb | hb
    · have := hwithin b hb
      omega
    · obtain rfl := Option.some.inj (List.mem_singleton.mp hb)
      omega
  | copy j =>
    obtain ⟨b, hb, rfl⟩ := Option.map_eq_some_iff.mp hstep
    intro x hx
    rcases List.mem_append.mp hx with hx | hx
    · exact hwithin x hx
    · obtain rfl := Option.some.inj (List.mem_singleton.mp hx)
      exact hwithin x (mem_of_owner hb)
  | assign j k =>
    simp only [step] at hstep
    split at hstep
    · next b hb =>
      cases hstep
      intro x hx
      refine hset ?_ hx
      intro y hy
      obtain rfl := Option.some.inj hy
      exact hwithin _ (mem_of_owner hb)
    · cases hstep
  | leave j released =>
    obtain ⟨b, hb, rfl⟩ := Option.map_eq_some_iff.mp hstep
    intro x hx
    have hlt : x < s.cells.length := hset (fun y hy => by cases hy) hx
    cases released with
    | true => simpa using hlt
    | false => exact hlt

/-- A step keeps a sound state sound exactly if it meets its condition. -/
theorem step_sound_iff {op : Op} (hsound : Sound s) (hwithin : Within s)
    (hstep : step s op = some s') : Sound s' ↔ Keeps s op := by
  cases op with
  | create value =>
    cases hstep
    refine iff_of_true ?_ trivial
    intro x c hc
    have hnew : s.count s.cells.length = 0 := by
      refine List.count_eq_zero.mpr fun hmem => ?_
      have := hwithin _ hmem
      omega
    have hcount : State.count ⟨s.cells ++ [⟨value, value, false, false⟩],
        s.owners ++ [some s.cells.length]⟩ x = s.count x + if s.cells.length = x then 1 else 0 := by
      simp [State.count, List.count_append, List.count_singleton]
    rw [hcount]
    by_cases hx : s.cells.length = x
    · rw [← hx, List.getElem?_concat_length] at hc
      cases hc
      rw [← hx, hnew, if_pos rfl]
      exact ⟨rfl, by simp, fun _ => rfl⟩
    · rw [if_neg hx]
      have hlt := (List.getElem?_eq_some_iff.mp hc).1
      rw [List.length_append, List.length_singleton] at hlt
      rw [List.getElem?_append_left (by omega)] at hc
      exact hsound x c hc
  | copy j =>
    obtain ⟨b, hb, rfl⟩ := Option.map_eq_some_iff.mp hstep
    refine iff_of_true ?_ trivial
    intro x c hc
    have hcount : State.count ⟨s.cells, s.owners ++ [some b]⟩ x = s.count x + if b = x then 1 else 0 := by
      simp [State.count, List.count_append, List.count_singleton]
    rw [hcount]
    by_cases hx : b = x
    · rw [← hx] at hc ⊢
      exact (hsound b c hc).of_pos (count_pos_of_owner hb) (by simp)
    · rw [if_neg hx]
      exact hsound x c hc
  | assign j k =>
    simp only [step] at hstep
    split at hstep
    · next a b ha hb =>
      cases hstep
      rw [sound_set_iff ha, Keeps, ha, hb]
      obtain ⟨c, hc⟩ := exists_cell hwithin ha
      have hpos := count_pos_of_owner ha
      constructor
      · intro hafter
        by_cases hab : a = b
        · exact .inl (by rw [hab])
        · refine .inr fun x hx => ?_
          obtain rfl := Option.some.inj hx
          have hcell := hafter a c hc
          rw [if_neg (fun h => hab (Option.some.inj h).symm), if_pos rfl] at hcell
          exact ((hsound a c hc).lose_iff hpos).mp hcell
      · intro hkeeps x d hd
        have hcell := hsound x d hd
        by_cases hab : a = b
        · rw [hab, show s.count x + (if some b = some x then 1 else 0) - (if b = x then 1 else 0) =
            s.count x by by_cases hx : b = x <;> simp [hx]]
          exact hcell
        · have hmore : 1 < s.count a := hkeeps.elim (fun h => absurd (Option.some.inj h) hab)
            fun h => h a rfl
          by_cases hxa : a = x
          · rw [if_neg (fun h => hab (hxa.trans (Option.some.inj h).symm)), if_pos hxa]
            rw [hxa] at hpos hmore
            exact (hcell.lose_iff hpos).mpr hmore
          · rw [if_neg hxa]
            by_cases hxb : b = x
            · rw [hxb] at hb
              exact hcell.of_pos (count_pos_of_owner hb) (by simp [hxb])
            · simpa [hxb] using hcell
    · cases hstep
  | leave j released =>
    obtain ⟨a, ha, rfl⟩ := Option.map_eq_some_iff.mp hstep
    rw [sound_set_iff ha]
    obtain ⟨c, hc⟩ := exists_cell hwithin ha
    have hpos := count_pos_of_owner ha
    have hold := hsound a c hc
    cases released with
    | true =>
      simp only [Keeps, ha, Option.some.injEq, if_true]
      constructor
      · rintro hafter x d rfl hd
        obtain rfl := Option.some.inj (hc.symm.trans hd)
        have hcell := hafter a (rcRelease c) (by simp [hc])
        simp only [reduceCtorEq, if_false, if_true, Nat.add_zero] at hcell
        exact (hold.release_iff hpos).mp hcell
      · intro hkeeps x d hd
        simp only [reduceCtorEq, if_false, Nat.add_zero]
        by_cases hx : a = x
        · rw [← hx, List.getElem?_modify_eq, hc] at hd
          cases hd
          rw [if_pos hx, ← hx]
          exact (hold.release_iff hpos).mpr (hkeeps a c rfl hc)
        · have hsame : s.cells[x]? = some d := by simpa [List.getElem?_modify, hx] using hd
          rw [if_neg hx]
          exact hsound x d hsame
    | false =>
      simp only [Keeps, ha, Option.some.injEq, Bool.false_eq_true, if_false]
      constructor
      · rintro hafter x rfl
        have hcell := hafter a c hc
        simp only [reduceCtorEq, if_false, if_true, Nat.add_zero] at hcell
        exact (hold.lose_iff hpos).mp hcell
      · intro hkeeps x d hd
        simp only [reduceCtorEq, if_false, Nat.add_zero]
        have hcell := hsound x d hd
        by_cases hx : a = x
        · rw [if_pos hx]
          rw [hx] at hpos hkeeps
          exact (hcell.lose_iff hpos).mpr (hkeeps x rfl)
        · rw [if_neg hx]
          exact hcell

end

theorem SoundAlong.sound {s : State} {ops : List Op} (h : SoundAlong s ops) : Sound s := by
  cases ops with
  | nil => exact h
  | cons op ops => exact h.1

theorem soundAlong_iff {s : State} (hsound : Sound s) (hwithin : Within s) (ops : List Op) :
    SoundAlong s ops ↔ KeepsAlong s ops := by
  induction ops generalizing s with
  | nil => exact iff_of_true hsound trivial
  | cons op ops ih =>
    rw [SoundAlong, KeepsAlong, and_iff_right hsound]
    refine forall₂_congr fun s' hstep => ?_
    constructor
    · intro h
      exact ⟨(step_sound_iff hsound hwithin hstep).mp h.sound,
        (ih h.sound (step_within hwithin hstep)).mp h⟩
    · intro ⟨hkeeps, hrest⟩
      have hsound' := (step_sound_iff hsound hwithin hstep).mpr hkeeps
      exact (ih hsound' (step_within hwithin hstep)).mpr hrest

theorem sound_start : Sound State.start := fun a c h => by simp [State.start] at h

theorem within_start : Within State.start := fun a h => by cases h

/-- Cells are freed with their last owners and read as they were stored, in
every state of a run, exactly if every step of the run meets its condition. -/
theorem rc_sound_iff (ops : List Op) :
    SoundAlong State.start ops ↔ KeepsAlong State.start ops :=
  soundAlong_iff sound_start within_start ops

/-- `{ let x: rc u64 = heap 42 }`: the cell is never freed. -/
theorem heap42_leaks : ¬ SoundAlong State.start [.create 42, .leave 0 true] := by
  rw [soundAlong_iff sound_start within_start]
  intro h
  obtain ⟨_, hstored⟩ := ((h _ rfl).2 _ rfl).1 0 ⟨42, 42, false, false⟩ rfl rfl
  exact absurd hstored (by decide)

end Aether.CTranspiler.RefCount
