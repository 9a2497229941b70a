/-
Aether.Lib.ByteReader — little-endian fields and C strings in a byte
sequence, read with every index checked.

A reader over memory it does not own is an `Access` computation: it
answers with a value, or with the index of the first byte it would have
read past the end. `InBounds` says that it never does, and comes with one
rule for each way of composing readers. The writer's side is `littleEndian`
and `overwrite`, the copy of a block into a buffer.

* `readBytes_append` / `readLE_append` — a block or field is read back
  from where it was laid down.
* `inBounds_readBytes`, `inBounds_cStringAt`, `inBounds_strEq` — when a
  block, a string, a string comparison stays inside the data.
-/
import Mathlib.Algebra.Group.Nat.Defs
import Mathlib.Data.List.TakeWhile
import Mathlib.Tactic.Ring

namespace Aether.Lib.ByteReader

/-! ## §1 Little-endian numbers -/

/-- The `n` low bytes of `v`, least significant first. -/
def littleEndian : Nat → Nat → List UInt8
  | 0, _ => []
  | n + 1, v => UInt8.ofNat v :: littleEndian n (v / 256)

def fromLittleEndian : List UInt8 → Nat
  | [] => 0
  | b :: bs => b.toNat + 256 * fromLittleEndian bs

-- the equations, before the proofs that share them
section
attribute [local simp] littleEndian fromLittleEndian
end

@[simp] theorem length_littleEndian (n v : Nat) : (littleEndian n v).length = n := by
  induction n generalizing v with
  | zero => rfl
  | succ n ih => simp [littleEndian, ih]

theorem fromLittleEndian_littleEndian (n v : Nat) : fromLittleEndian (littleEndian n v) = v % 256 ^ n := by
  induction n generalizing v with
  | zero => simp [littleEndian, fromLittleEndian, Nat.mod_one]
  | succ n ih =>
    have hsplit : v % (256 * 256 ^ n) = v % 256 + 256 * (v / 256 % 256 ^ n) := Nat.mod_mul
    rw [littleEndian, fromLittleEndian, ih, pow_succ, mul_comm (256 ^ n), hsplit]
    simp

theorem fromLittleEndian_littleEndian_of_lt {n v : Nat} (h : v < 256 ^ n) :
    fromLittleEndian (littleEndian n v) = v := by
  rw [fromLittleEndian_littleEndian, Nat.mod_eq_of_lt h]

/-! ## §2 Copying a block into a buffer -/

/-- `memcpy(buf + off, block, …)`. -/
def overwrite (buf : List UInt8) (off : Nat) (block : List UInt8) : List UInt8 :=
  buf.take off ++ block ++ buf.drop (off + block.length)

/-- Overwriting a block by one of the same length. -/
theorem overwrite_append {a old new c : List UInt8} {off : Nat} (hoff : off = a.length)
    (hlen : new.length = old.length) : overwrite (a ++ old ++ c) off new = a ++ new ++ c := by
  subst hoff
  rw [overwrite, hlen]
  simp

/-! ## §3 Checked reads -/

/-- A value, or the index of the byte outside the data. -/
abbrev Access := Except Nat

def byteAt (data : List UInt8) (i : Nat) : Access UInt8 :=
  match data[i]? with
  | some b => .ok b
  | none => .error i

/-- The `n` bytes from `off` on. -/
def readBytes (data : List UInt8) (off n : Nat) : Access (List UInt8) :=
  if n = 0 ∨ off + n ≤ data.length then .ok ((data.drop off).take n)
  else .error (max off data.length)

/-- The number in the `n` bytes from `off` on. -/
def readLE (n : Nat) (data : List UInt8) (off : Nat) : Access Nat := do
  return fromLittleEndian (← readBytes data off n)

/-- The C string that starts at `p`. -/
def cStringAt (data : List UInt8) (p : Nat) : Access (List UInt8) :=
  let s := (data.drop p).takeWhile (· ≠ 0)
  if p + s.length < data.length then .ok s else .error (max p data.length)

/-- `strcmp(data + p, s) == 0`: the comparison stops at the first
difference and reads no byte after it. -/
def strEq (data : List UInt8) (p : Nat) : List UInt8 → Access Bool
  | [] => do return (← byteAt data p) == 0
  | c :: cs => do
    if (← byteAt data p) == c then strEq data (p + 1) cs else return false

-- the equations, before the proofs that share them
section
attribute [local simp] byteAt readLE cStringAt strEq
end

/-! ## §4 Staying inside the data -/

/-- The computation reads no byte outside the data. -/
def InBounds {α : Type*} (x : Access α) : Prop := ∃ a, x = .ok a

section

variable {α β : Type} {data : List UInt8}

@[simp] theorem inBounds_pure (a : α) : InBounds (pure a : Access α) := ⟨a, rfl⟩

@[simp] theorem inBounds_ok (a : α) : InBounds (.ok a : Access α) := ⟨a, rfl⟩

@[simp] theorem not_inBounds_error (i : Nat) : ¬ InBounds (.error i : Access α) := by
  intro h
  obtain ⟨a, ha⟩ := h
  cases ha

@[simp] theorem ok_bind (a : α) (f : α → Access β) : ((.ok a : Access α) >>= f) = f a := rfl

@[simp] theorem error_bind (i : Nat) (f : α → Access β) :
    ((.error i : Access α) >>= f) = .error i := rfl

theorem inBounds_bind {x : Access α} {f : α → Access β} :
    InBounds (x >>= f) ↔ ∃ a, x = .ok a ∧ InBounds (f a) := by
  cases x with
  | error i => simp
  | ok a => simp

theorem inBounds_map {x : Access α} {f : α → β} : InBounds (f <$> x) ↔ InBounds x := by
  cases x with
  | error i =>
    show InBounds (.error i : Access β) ↔ _
    simp
  | ok a =>
    show InBounds (.ok (f a) : Access β) ↔ _
    simp

theorem inBounds_byteAt {i : Nat} : InBounds (byteAt data i) ↔ i < data.length := by
  unfold byteAt
  split
  · next h => simpa using (List.getElem?_eq_some_iff.mp h).1
  · next h => simpa using h

theorem inBounds_readBytes {off n : Nat} :
    InBounds (readBytes data off n) ↔ n = 0 ∨ off + n ≤ data.length := by
  unfold readBytes
  split
  · next h => simpa using h
  · next h => simpa using h

theorem readBytes_ok {off n : Nat} (h : n = 0 ∨ off + n ≤ data.length) :
    readBytes data off n = .ok ((data.drop off).take n) := if_pos h

theorem readLE_ok {off n : Nat} (h : n = 0 ∨ off + n ≤ data.length) :
    readLE n data off = .ok (fromLittleEndian ((data.drop off).take n)) := by
  rw [readLE, readBytes_ok h]
  rfl

theorem inBounds_readLE {off n : Nat} :
    InBounds (readLE n data off) ↔ n = 0 ∨ off + n ≤ data.length := by
  rw [readLE, inBounds_bind, ← inBounds_readBytes]
  constructor
  · intro h
    obtain ⟨bs, hbs, _⟩ := h
    exact ⟨bs, hbs⟩
  · intro h
    obtain ⟨bs, hbs⟩ := h
    exact ⟨bs, hbs, inBounds_pure _⟩

/-- A block is read back from where it stands. -/
theorem readBytes_append {a b c : List UInt8} {off n : Nat} (hdata : data = a ++ b ++ c)
    (hoff : off = a.length) (hn : n = b.length) : readBytes data off n = .ok b := by
  subst hdata hoff hn
  rw [readBytes_ok (.inr (by simp))]
  simp

/-! ## §5 C strings -/

/-- A NUL byte stands at `p` or after it. -/
def Terminated (data : List UInt8) (p : Nat) : Prop := ∃ k, p ≤ k ∧ data[k]? = some 0

theorem Terminated.lt {p : Nat} (h : Terminated data p) : p < data.length := by
  obtain ⟨k, hk, hz⟩ := h
  have := (List.getElem?_eq_some_iff.mp hz).1
  omega

theorem Terminated.mono {p q : Nat} (h : Terminated data q) (hpq : p ≤ q) :
    Terminated data p := by
  obtain ⟨k, hk, hz⟩ := h
  exact ⟨k, by omega, hz⟩

theorem Terminated.succ {p : Nat} (h : Terminated data p) (hp : data[p]? ≠ some 0) :
    Terminated data (p + 1) := by
  obtain ⟨k, hk, hz⟩ := h
  have hne : k ≠ p := fun heq => hp (heq ▸ hz)
  exact ⟨k, by omega, hz⟩

theorem terminated_iff {p : Nat} : Terminated data p ↔ 0 ∈ data.drop p := by
  rw [List.mem_iff_getElem?]
  simp only [List.getElem?_drop]
  constructor
  · intro h
    obtain ⟨k, hk, hz⟩ := h
    exact ⟨k - p, by rwa [Nat.add_sub_cancel' hk]⟩
  · intro h
    obtain ⟨i, hi⟩ := h
    exact ⟨p + i, by omega, hi⟩

/-- A string is in bounds exactly when its NUL is. -/
theorem inBounds_cStringAt {p : Nat} : InBounds (cStringAt data p) ↔ Terminated data p := by
  rw [terminated_iff]
  by_cases h : 0 ∈ data.drop p
  · have hlt : ((data.drop p).takeWhile (· ≠ 0)).length < (data.drop p).length := by
      by_contra hge
      have hall : (data.drop p).takeWhile (· ≠ 0) = data.drop p :=
        (List.takeWhile_sublist _).eq_of_length_le (by omega)
      have hzero := List.takeWhile_eq_self_iff.mp hall 0 h
      simp at hzero
    rw [List.length_drop] at hlt
    rw [cStringAt, if_pos (by omega)]
    simp [h]
  · have hall : (data.drop p).takeWhile (· ≠ 0) = data.drop p := by
      refine List.takeWhile_eq_self_iff.mpr fun b hb => ?_
      simpa using fun hzero : b = 0 => h (hzero ▸ hb)
    rw [cStringAt, hall, List.length_drop, if_neg (by omega)]
    simp [h]

/-- A string that stands in the data before a NUL is read back. -/
theorem cStringAt_append {a s c : List UInt8} {p : Nat} (hdata : data = a ++ (s ++ 0 :: c))
    (hp : p = a.length) (hs : 0 ∉ s) : cStringAt data p = .ok s := by
  have htake : (data.drop p).takeWhile (· ≠ 0) = s := by
    rw [hdata, hp, List.drop_left, List.takeWhile_append_of_pos]
    · simp
    · intro b hb
      simpa using fun hzero : b = 0 => hs (hzero ▸ hb)
  rw [cStringAt, htake, if_pos]
  rw [hdata, hp]
  simp

/-! ## §6 Comparing with a C string -/

theorem byteAt_append {a c : List UInt8} {b : UInt8} {i : Nat} (hdata : data = a ++ b :: c)
    (hi : i = a.length) : byteAt data i = .ok b := by
  simp [byteAt, hdata, hi]

theorem byteAt_eq_ok {i : Nat} {b : UInt8} : byteAt data i = .ok b ↔ data[i]? = some b := by
  unfold byteAt
  split
  · next h => simp [h]
  · next h => simp [h]

/-- A comparison with a NUL-free string stays inside a terminated string. -/
theorem inBounds_strEq {p : Nat} {s : List UInt8} (hs : 0 ∉ s) (h : Terminated data p) :
    InBounds (strEq data p s) := by
  induction s generalizing p with
  | nil =>
    rw [strEq, inBounds_bind]
    obtain ⟨b, hb⟩ := inBounds_byteAt.mpr h.lt
    exact ⟨b, hb, inBounds_pure _⟩
  | cons c cs ih =>
    rw [strEq, inBounds_bind]
    obtain ⟨b, hb⟩ := inBounds_byteAt.mpr h.lt
    refine ⟨b, hb, ?_⟩
    split
    · next heq =>
      have hbc : b = c := by simpa using heq
      have hnonzero : data[p]? ≠ some 0 := by
        rw [byteAt_eq_ok.mp hb, hbc]
        simpa using fun hzero : c = 0 => hs (hzero ▸ List.mem_cons_self)
      exact ih (fun hmem => hs (List.mem_cons_of_mem _ hmem)) (h.succ hnonzero)
    · exact inBounds_pure _

/-- A comparison that answers yes has read the string and its NUL. -/
theorem strEq_true {p : Nat} {s : List UInt8} (h : strEq data p s = .ok true) :
    p + s.length < data.length := by
  induction s generalizing p with
  | nil =>
    have hin : InBounds (strEq data p []) := ⟨_, h⟩
    rw [strEq, inBounds_bind] at hin
    obtain ⟨b, hb, _⟩ := hin
    simpa using inBounds_byteAt.mp ⟨b, hb⟩
  | cons c cs ih =>
    rw [strEq] at h
    cases hb : byteAt data p with
    | error i =>
      rw [hb] at h
      cases h
    | ok b =>
      rw [hb] at h
      change (if (b == c) = true then strEq data (p + 1) cs else pure false) = _ at h
      split at h
      · have := ih h
        rw [List.length_cons]
        omega
      · cases h

/-- Comparing with a string that runs on where the data ends reads past
the end. -/
theorem not_inBounds_strEq_of_prefix {p : Nat} {rest : List UInt8} :
    ¬ InBounds (strEq data p (data.drop p ++ rest)) := by
  generalize htail : data.drop p = tail
  induction tail generalizing p with
  | nil =>
    have hout : ¬ InBounds (byteAt data p) := by
      rw [inBounds_byteAt]
      simpa using htail
    intro hin
    apply hout
    cases rest with
    | nil =>
      rw [List.nil_append, strEq, inBounds_bind] at hin
      obtain ⟨b, hb, _⟩ := hin
      exact ⟨b, hb⟩
    | cons c cs =>
      rw [List.nil_append, strEq, inBounds_bind] at hin
      obtain ⟨b, hb, _⟩ := hin
      exact ⟨b, hb⟩
  | cons b tail ih =>
    have hb : byteAt data p = .ok b := by
      rw [byteAt_eq_ok, ← List.head?_drop, htail]
      rfl
    have hnext : data.drop (p + 1) = tail := by
      rw [← List.tail_drop, htail]
      rfl
    intro hin
    rw [List.cons_append, strEq, inBounds_bind] at hin
    obtain ⟨b', hb', hin⟩ := hin
    obtain rfl : b = b' := by
      rw [hb] at hb'
      exact Except.ok.inj hb'
    rw [if_pos (beq_self_eq_true b)] at hin
    exact ih hnext hin

/-- Where a string stands before a NUL, the comparison answers whether the
two strings are the same. -/
theorem strEq_append {a s t c : List UInt8} {p : Nat} (hdata : data = a ++ (s ++ 0 :: c))
    (hp : p = a.length) (hs : 0 ∉ s) (ht : 0 ∉ t) : strEq data p t = .ok (s == t) := by
  induction t generalizing a s p with
  | nil =>
    cases s with
    | nil =>
      rw [strEq, byteAt_append (by rw [hdata]; rfl) hp]
      rfl
    | cons b s =>
      have hb : b ≠ 0 := fun hzero => hs (hzero ▸ List.mem_cons_self)
      rw [strEq, byteAt_append (by rw [hdata]; rfl) hp]
      show Except.ok (b == 0) = _
      simp [hb]
  | cons c' cs ih =>
    have hc : c' ≠ 0 := fun hzero => ht (hzero ▸ List.mem_cons_self)
    cases s with
    | nil =>
      rw [strEq, byteAt_append (by rw [hdata]; rfl) hp]
      show (if ((0 : UInt8) == c') = true then _ else Except.ok false) = _
      rw [if_neg (by simpa using Ne.symm hc)]
      rfl
    | cons b s =>
      have hrest : strEq data (p + 1) cs = .ok (s == cs) := by
        refine ih (a := a ++ [b]) ?_ (by simp [hp]) (fun hmem => hs (List.mem_cons_of_mem _ hmem))
          fun hmem => ht (List.mem_cons_of_mem _ hmem)
        rw [hdata]
        simp
      rw [strEq, byteAt_append (by rw [hdata]; rfl) hp]
      show (if (b == c') = true then _ else Except.ok false) = _
      by_cases heq : b = c'
      · rw [if_pos (by simpa using heq), hrest, heq]
        simp
      · rw [if_neg (by simpa using heq)]
        simp [heq]

end

end Aether.Lib.ByteReader
