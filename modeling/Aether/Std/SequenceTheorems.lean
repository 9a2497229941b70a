/-
Aether.Std.SequenceTheorems — `Queue`, `Stack` and `Deque` of
`std/collections.ae` refine bounded sequences.

`fifo`, `lifo` and `doubleEnded` are the abstract machines: sequences of
at most `cap` elements, a removal from an empty one answering 0 as the
source does. `RingHolds` relates the four fields of a ring buffer to the
sequence it stores: the elements are the window of `count` slots from
`front`, and `back` is the slot behind it. Each operation moves one end of
that window; the unsigned arithmetic does not wrap because the capacity
is at most `2^63`.

`sequences_refine`: over every run from a fresh container the answers and
the contents are those of the abstract machine.
-/
import Aether.Std.Sequences

namespace Aether.Std

open Lib Lib.RingBuffer

/-! ## §1 The abstract machines -/

/-- First in, first out: in at the back, out at the front. -/
def fifo (cap : Nat) : Machine (Bounded UInt64 cap) QueueOp Answer where
  step s
    | .enqueue value => (s.pushBack value, .done)
    | .dequeue => (s.popFront.1, .element (s.popFront.2.getD 0))
    | .isEmpty => (s, .truth s.items.isEmpty)
    | .len => (s, .size (UInt64.ofNat s.items.length))

/-- Last in, first out: in and out at the back. -/
def lifo (cap : Nat) : Machine (Bounded UInt64 cap) StackOp Answer where
  step s
    | .push value => (s.pushBack value, .done)
    | .pop => (s.popBack.1, .element (s.popBack.2.getD 0))
    | .peek => (s, .element (s.items.getLast?.getD 0))
    | .isEmpty => (s, .truth s.items.isEmpty)
    | .len => (s, .size (UInt64.ofNat s.items.length))

/-- In and out at both ends. -/
def doubleEnded (cap : Nat) : Machine (Bounded UInt64 cap) DequeOp Answer where
  step s
    | .pushFront value => (s.pushFront value, .done)
    | .pushBack value => (s.pushBack value, .done)
    | .popFront => (s.popFront.1, .element (s.popFront.2.getD 0))
    | .popBack => (s.popBack.1, .element (s.popBack.2.getD 0))
    | .isEmpty => (s, .truth s.items.isEmpty)
    | .len => (s, .size (UInt64.ofNat s.items.length))

/-- The elements of a queue, the next one to leave first. -/
def Queue.contents (q : Queue) : List UInt64 :=
  window 0 q.capacity.toNat q.data q.front.toNat q.count.toNat

/-- The elements of a stack, the top last. -/
def Stack.contents (s : Stack) : List UInt64 := s.data.take s.count.toNat

/-- The elements of a deque from front to back. -/
def Deque.contents (q : Deque) : List UInt64 :=
  window 0 q.capacity.toNat q.data q.front.toNat q.count.toNat

/-! ## §2 Index arithmetic -/

section Index

variable {capacity index count : UInt64}

theorem toNat_count_succ (hlt : count < capacity) : (count + 1).toNat = count.toNat + 1 := by
  have hc := UInt64.lt_iff_toNat_lt.mp hlt
  have hcap := capacity.toNat_lt
  rw [UInt64.toNat_add, UInt64.toNat_one, Nat.mod_eq_of_lt (by omega)]

theorem toNat_count_pred (hne : count ≠ 0) : (count - 1).toNat = count.toNat - 1 := by
  have hpos : count.toNat ≠ 0 := fun h => hne (UInt64.toNat_inj.mp (by simpa using h))
  have hle : (1 : UInt64) ≤ count := by
    rw [UInt64.le_iff_toNat_le, UInt64.toNat_one]
    omega
  rw [UInt64.toNat_sub_of_le _ _ hle, UInt64.toNat_one]

/-- One slot forward. -/
theorem toNat_forward (hlt : index.toNat < capacity.toNat) :
    ((index + 1) % capacity).toNat = (index.toNat + 1) % capacity.toNat := by
  have hcap := capacity.toNat_lt
  rw [UInt64.toNat_mod, UInt64.toNat_add, UInt64.toNat_one,
    Nat.mod_eq_of_lt (by omega : index.toNat + 1 < 2 ^ 64)]

/-- One slot back: `index + capacity - 1` stays below `2^64` for every
capacity up to `2^63`. -/
theorem toNat_backward (hlt : index.toNat < capacity.toNat) (hmax : capacity.toNat ≤ 2 ^ 63) :
    ((index + capacity - 1) % capacity).toNat
      = (index.toNat + (capacity.toNat - 1)) % capacity.toNat := by
  have hadd : (index + capacity).toNat = index.toNat + capacity.toNat := by
    rw [UInt64.toNat_add, Nat.mod_eq_of_lt (by omega)]
  have hle : (1 : UInt64) ≤ index + capacity := by
    rw [UInt64.le_iff_toNat_le, hadd, UInt64.toNat_one]
    omega
  rw [UInt64.toNat_mod, UInt64.toNat_sub_of_le _ _ hle, hadd, UInt64.toNat_one]
  congr 1
  omega

/-- The slot after the one before `index` is `index`. -/
theorem forward_backward {cap i : Nat} (hlt : i < cap) : ((i + (cap - 1)) % cap + 1) % cap = i := by
  rw [Nat.mod_add_mod, show i + (cap - 1) + 1 = i + cap by omega, Nat.add_mod_right,
    Nat.mod_eq_of_lt hlt]

end Index

theorem length_fillLoop (n : Nat) (data : List UInt64) :
    (fillLoop n data).length = data.length + n := by
  induction n generalizing data with
  | zero => rfl
  | succ n ih =>
    rw [fillLoop, ih, List.length_append]
    simp
    omega

/-! ## §3 The ring buffer of `Queue` and `Deque` -/

/-- The ring buffer's fields store the sequence `s`. -/
structure RingHolds {cap : Nat} (data : List UInt64) (front back count capacity : UInt64)
    (s : Bounded UInt64 cap) : Prop where
  cap_eq : capacity.toNat = cap
  cap_le : cap ≤ 2 ^ 63
  length_eq : data.length = cap
  front_lt : front.toNat < cap
  back_eq : back.toNat = (front.toNat + count.toNat) % cap
  items_eq : s.items = window 0 cap data front.toNat count.toNat

namespace RingHolds

variable {cap : Nat} {data : List UInt64} {front back count capacity : UInt64}
  {s : Bounded UInt64 cap}

theorem items_length (h : RingHolds data front back count capacity s) :
    s.items.length = count.toNat := by
  rw [h.items_eq, length_window]

theorem back_lt (h : RingHolds data front back count capacity s) : back.toNat < cap := by
  have := h.front_lt
  rw [h.back_eq]
  exact Nat.mod_lt _ (by omega)

/-- A fresh ring buffer stores the empty sequence. -/
theorem fresh (hpos : 1 ≤ capacity.toNat) (hmax : capacity.toNat ≤ 2 ^ 63) :
    RingHolds (fillLoop capacity.toNat []) 0 0 0 capacity (.empty UInt64 capacity.toNat) where
  cap_eq := rfl
  cap_le := hmax
  length_eq := by simp [length_fillLoop]
  front_lt := hpos
  back_eq := by simp
  items_eq := rfl

/-- Insertion at the back. -/
theorem pushBack (h : RingHolds data front back count capacity s) (hlt : count < capacity)
    (value : UInt64) :
    RingHolds (writeData data back value) front ((back + 1) % capacity) (count + 1) capacity
      (s.pushBack value) := by
  have hn : count.toNat < cap := h.cap_eq ▸ UInt64.lt_iff_toNat_lt.mp hlt
  have hroom : s.items.length < cap := by rw [h.items_length]; exact hn
  refine ⟨h.cap_eq, h.cap_le, ?_, h.front_lt, ?_, ?_⟩
  · simp [writeData, h.length_eq]
  · rw [toNat_forward (h.cap_eq.symm ▸ h.back_lt), h.cap_eq, h.back_eq, toNat_count_succ hlt,
      Nat.mod_add_mod, Nat.add_assoc]
  · rw [Bounded.pushBack_items_of_lt value hroom, toNat_count_succ hlt, writeData, h.back_eq,
      window_pushBack 0 value h.length_eq h.front_lt hn, h.items_eq]

/-- Insertion at the front. -/
theorem pushFront (h : RingHolds data front back count capacity s) (hlt : count < capacity)
    (value : UInt64) :
    RingHolds (writeData data ((front + capacity - 1) % capacity) value)
      ((front + capacity - 1) % capacity) back (count + 1) capacity (s.pushFront value) := by
  have hn : count.toNat < cap := h.cap_eq ▸ UInt64.lt_iff_toNat_lt.mp hlt
  have hroom : s.items.length < cap := by rw [h.items_length]; exact hn
  have hbefore : ((front + capacity - 1) % capacity).toNat = (front.toNat + (cap - 1)) % cap := by
    rw [toNat_backward (h.cap_eq.symm ▸ h.front_lt) (h.cap_eq.symm ▸ h.cap_le), h.cap_eq]
  have hlow : (front.toNat + (cap - 1)) % cap < cap := Nat.mod_lt _ (by omega)
  refine ⟨h.cap_eq, h.cap_le, ?_, ?_, ?_, ?_⟩
  · simp [writeData, h.length_eq]
  · rw [hbefore]
    exact hlow
  · rw [hbefore, toNat_count_succ hlt, ← next_slot, forward_backward h.front_lt, h.back_eq]
  · rw [Bounded.pushFront_items_of_lt value hroom, toNat_count_succ hlt, writeData, hbefore,
      window_pushFront 0 value h.length_eq hlow (forward_backward h.front_lt) hn, h.items_eq]

/-- Removal at the front. -/
theorem popFront (h : RingHolds data front back count capacity s) (hne : count ≠ 0) :
    RingHolds data ((front + 1) % capacity) back (count - 1) capacity s.popFront.1 ∧
      s.popFront.2 = some (readData data front) := by
  obtain ⟨n, hn⟩ : ∃ n, count.toNat = n + 1 := by
    refine Nat.exists_eq_succ_of_ne_zero fun h0 => hne (UInt64.toNat_inj.mp (by simpa using h0))
  have hpred : (count - 1).toNat = n := by rw [toNat_count_pred hne, hn, Nat.add_sub_cancel]
  have hnext : ((front + 1) % capacity).toNat = (front.toNat + 1) % cap := by
    rw [toNat_forward (h.cap_eq.symm ▸ h.front_lt), h.cap_eq]
  have hitems := h.items_eq
  rw [hn, window] at hitems
  refine ⟨⟨h.cap_eq, h.cap_le, h.length_eq, ?_, ?_, ?_⟩, ?_⟩
  · rw [hnext]
    exact Nat.mod_lt _ (by have := h.front_lt; omega)
  · rw [hnext, hpred, next_slot, ← hn, h.back_eq]
  · rw [hnext, hpred]
    simp [Bounded.popFront, hitems]
  · simp [Bounded.popFront, hitems, readData]

/-- Removal at the back. -/
theorem popBack (h : RingHolds data front back count capacity s) (hne : count ≠ 0) :
    RingHolds data front ((back + capacity - 1) % capacity) (count - 1) capacity s.popBack.1 ∧
      s.popBack.2 = some (readData data ((back + capacity - 1) % capacity)) := by
  obtain ⟨n, hn⟩ : ∃ n, count.toNat = n + 1 := by
    refine Nat.exists_eq_succ_of_ne_zero fun h0 => hne (UInt64.toNat_inj.mp (by simpa using h0))
  have hpred : (count - 1).toNat = n := by rw [toNat_count_pred hne, hn, Nat.add_sub_cancel]
  have hcap : 0 < cap := by have := h.front_lt; omega
  have hprev : ((back + capacity - 1) % capacity).toNat = (front.toNat + n) % cap := by
    rw [toNat_backward (h.cap_eq.symm ▸ h.back_lt) (h.cap_eq.symm ▸ h.cap_le), h.cap_eq, h.back_eq,
      hn, Nat.mod_add_mod, show front.toNat + (n + 1) + (cap - 1) = front.toNat + n + cap by omega,
      Nat.add_mod_right]
  have hitems := h.items_eq
  rw [hn, window_succ_back 0 h.front_lt] at hitems
  refine ⟨⟨h.cap_eq, h.cap_le, h.length_eq, h.front_lt, ?_, ?_⟩, ?_⟩
  · rw [hprev, hpred]
  · rw [hpred]
    simp [Bounded.popBack, hitems]
  · simp [Bounded.popBack, hitems, readData, hprev]

/-- A full ring buffer stores a full sequence. -/
theorem full (h : RingHolds data front back count capacity s) (hge : count ≥ capacity) :
    cap ≤ s.items.length := by
  rw [h.items_length, ← h.cap_eq]
  exact UInt64.le_iff_toNat_le.mp hge

/-- An empty ring buffer stores the empty sequence. -/
theorem items_nil (h : RingHolds data front back count capacity s) (hzero : count = 0) :
    s.items = [] := by
  rw [← List.length_eq_zero_iff, h.items_length, hzero]
  rfl

end RingHolds

/-- The two counters' readings of a sequence's length. -/
theorem count_answers {s : List UInt64} {count : UInt64} (hlen : s.length = count.toNat) :
    UInt64.ofNat s.length = count ∧ s.isEmpty = (count == 0) := by
  refine ⟨by simp [hlen], ?_⟩
  rw [Bool.eq_iff_iff, List.isEmpty_iff, beq_iff_eq, ← List.length_eq_zero_iff, hlen]
  exact ⟨fun h => UInt64.toNat_inj.mp (by simpa using h), fun h => by simp [h]⟩

/-! ## §4 One operation -/

def Queue.Holds {cap : Nat} (q : Queue) (s : Bounded UInt64 cap) : Prop :=
  RingHolds q.data q.front q.back q.count q.capacity s

def Deque.Holds {cap : Nat} (q : Deque) (s : Bounded UInt64 cap) : Prop :=
  RingHolds q.data q.front q.back q.count q.capacity s

/-- A stack's first `count` elements are the sequence. -/
structure Stack.Holds {cap : Nat} (st : Stack) (s : Bounded UInt64 cap) : Prop where
  cap_eq : st.capacity.toNat = cap
  length_eq : st.data.length = cap
  items_eq : s.items = st.data.take st.count.toNat
  items_length : s.items.length = st.count.toNat

namespace Stack.Holds

variable {cap : Nat} {st : Stack} {s : Bounded UInt64 cap}

theorem fresh (capacity : UInt64) :
    (newStack capacity).Holds (.empty UInt64 capacity.toNat) where
  cap_eq := rfl
  length_eq := by simp [newStack, length_fillLoop]
  items_eq := by simp [newStack]
  items_length := rfl

theorem full (h : st.Holds s) (hge : st.count ≥ st.capacity) : cap ≤ s.items.length := by
  rw [h.items_length, ← h.cap_eq]
  exact UInt64.le_iff_toNat_le.mp hge

theorem items_nil (h : st.Holds s) (hzero : st.count = 0) : s.items = [] := by
  rw [← List.length_eq_zero_iff, h.items_length, hzero]
  rfl

theorem push (h : st.Holds s) (hlt : st.count < st.capacity) (value : UInt64) :
    Stack.Holds
      { st with data := writeData st.data st.count value, count := st.count + 1 }
      (s.pushBack value) := by
  have hn : st.count.toNat < cap := h.cap_eq ▸ UInt64.lt_iff_toNat_lt.mp hlt
  have hslot : st.count.toNat < st.data.length := h.length_eq.symm ▸ hn
  have hroom : s.items.length < cap := by rw [h.items_length]; exact hn
  have hitems := Bounded.pushBack_items_of_lt value hroom
  refine ⟨h.cap_eq, ?_, ?_, ?_⟩
  · simp [writeData, h.length_eq]
  · rw [hitems, toNat_count_succ hlt, h.items_eq, writeData, List.take_add_one,
      List.getElem?_set_self hslot, List.take_set_of_le (Nat.le_refl _)]
    rfl
  · rw [hitems, toNat_count_succ hlt, List.length_append, h.items_length]
    rfl

theorem pop (h : st.Holds s) (hne : st.count ≠ 0) :
    Stack.Holds { st with count := st.count - 1 } s.popBack.1 := by
  have hlen := h.items_length
  refine ⟨h.cap_eq, h.length_eq, ?_, ?_⟩
  · rw [toNat_count_pred hne]
    simp only [Bounded.popBack]
    rw [List.dropLast_eq_take, hlen, h.items_eq, List.take_take]
    congr 1
    omega
  · rw [toNat_count_pred hne]
    simp [Bounded.popBack, hlen]

/-- The top of a stack is the last element. -/
theorem top (h : st.Holds s) (hne : st.count ≠ 0) :
    s.items.getLast? = some (readData st.data (st.count - 1)) := by
  have hlen := h.items_length
  have hpos : st.count.toNat ≠ 0 := fun h0 => hne (UInt64.toNat_inj.mp (by simpa using h0))
  have hbound : st.count.toNat ≤ st.data.length := by
    rw [h.items_eq, List.length_take] at hlen
    omega
  have hslot : st.count.toNat - 1 < st.data.length := by omega
  rw [List.getLast?_eq_getElem?, hlen, h.items_eq,
    List.getElem?_take_of_lt (by omega : st.count.toNat - 1 < st.count.toNat), readData,
    toNat_count_pred hne, List.getD_eq_getElem?_getD, List.getElem?_eq_getElem hslot]
  rfl

end Stack.Holds

theorem queue_step {cap : Nat} (q : Queue) (s : Bounded UInt64 cap) (op : QueueOp)
    (h : q.Holds s) :
    Queue.Holds (queueMachine.step q op).1 ((fifo cap).step s op).1 ∧
      (queueMachine.step q op).2 = ((fifo cap).step s op).2 := by
  obtain ⟨hsize, htruth⟩ := count_answers h.items_length
  cases op with
  | enqueue value =>
    refine ⟨?_, rfl⟩
    by_cases hfull : q.count ≥ q.capacity
    · simp only [queueMachine, fifo, queueEnqueue, if_pos hfull,
        (Bounded.push_of_full value (h.full hfull)).1]
      exact h
    · simp only [queueMachine, fifo, queueEnqueue, if_neg hfull]
      exact h.pushBack (UInt64.not_le.mp hfull) value
  | dequeue =>
    by_cases hzero : q.count = 0
    · simp only [queueMachine, fifo, queueDequeue, if_pos hzero,
        (Bounded.pop_of_empty (h.items_nil hzero)).1]
      exact ⟨h, rfl⟩
    · obtain ⟨hkeep, hout⟩ := h.popFront hzero
      simp only [queueMachine, fifo, queueDequeue, if_neg hzero, hout]
      exact ⟨hkeep, rfl⟩
  | isEmpty => exact ⟨h, by simp only [queueMachine, fifo, queueIsEmpty, htruth]⟩
  | len => exact ⟨h, by simp only [queueMachine, fifo, queueLen, hsize]⟩

theorem deque_step {cap : Nat} (q : Deque) (s : Bounded UInt64 cap) (op : DequeOp)
    (h : q.Holds s) :
    Deque.Holds (dequeMachine.step q op).1 ((doubleEnded cap).step s op).1 ∧
      (dequeMachine.step q op).2 = ((doubleEnded cap).step s op).2 := by
  obtain ⟨hsize, htruth⟩ := count_answers h.items_length
  cases op with
  | pushFront value =>
    refine ⟨?_, rfl⟩
    by_cases hfull : q.count ≥ q.capacity
    · simp only [dequeMachine, doubleEnded, dequePushFront, if_pos hfull,
        (Bounded.push_of_full value (h.full hfull)).2]
      exact h
    · simp only [dequeMachine, doubleEnded, dequePushFront, if_neg hfull]
      exact h.pushFront (UInt64.not_le.mp hfull) value
  | pushBack value =>
    refine ⟨?_, rfl⟩
    by_cases hfull : q.count ≥ q.capacity
    · simp only [dequeMachine, doubleEnded, dequePushBack, if_pos hfull,
        (Bounded.push_of_full value (h.full hfull)).1]
      exact h
    · simp only [dequeMachine, doubleEnded, dequePushBack, if_neg hfull]
      exact h.pushBack (UInt64.not_le.mp hfull) value
  | popFront =>
    by_cases hzero : q.count = 0
    · simp only [dequeMachine, doubleEnded, dequePopFront, if_pos hzero,
        (Bounded.pop_of_empty (h.items_nil hzero)).1]
      exact ⟨h, rfl⟩
    · obtain ⟨hkeep, hout⟩ := h.popFront hzero
      simp only [dequeMachine, doubleEnded, dequePopFront, if_neg hzero, hout]
      exact ⟨hkeep, rfl⟩
  | popBack =>
    by_cases hzero : q.count = 0
    · simp only [dequeMachine, doubleEnded, dequePopBack, if_pos hzero,
        (Bounded.pop_of_empty (h.items_nil hzero)).2]
      exact ⟨h, rfl⟩
    · obtain ⟨hkeep, hout⟩ := h.popBack hzero
      simp only [dequeMachine, doubleEnded, dequePopBack, if_neg hzero, hout]
      exact ⟨hkeep, rfl⟩
  | isEmpty => exact ⟨h, by simp only [dequeMachine, doubleEnded, dequeIsEmpty, htruth]⟩
  | len => exact ⟨h, by simp only [dequeMachine, doubleEnded, dequeLen, hsize]⟩

theorem stack_step {cap : Nat} (st : Stack) (s : Bounded UInt64 cap) (op : StackOp)
    (h : st.Holds s) :
    Stack.Holds (stackMachine.step st op).1 ((lifo cap).step s op).1 ∧
      (stackMachine.step st op).2 = ((lifo cap).step s op).2 := by
  obtain ⟨hsize, htruth⟩ := count_answers h.items_length
  cases op with
  | push value =>
    refine ⟨?_, rfl⟩
    by_cases hfull : st.count ≥ st.capacity
    · simp only [stackMachine, lifo, stackPush, if_pos hfull,
        (Bounded.push_of_full value (h.full hfull)).1]
      exact h
    · simp only [stackMachine, lifo, stackPush, if_neg hfull]
      exact h.push (UInt64.not_le.mp hfull) value
  | pop =>
    by_cases hzero : st.count = 0
    · simp only [stackMachine, lifo, stackPop, if_pos hzero,
        (Bounded.pop_of_empty (h.items_nil hzero)).2]
      exact ⟨h, rfl⟩
    · simp only [stackMachine, lifo, stackPop, if_neg hzero]
      exact ⟨h.pop hzero, by simp [Bounded.popBack, h.top hzero]⟩
  | peek =>
    refine ⟨h, ?_⟩
    by_cases hzero : st.count = 0
    · simp [stackMachine, lifo, stackPeek, hzero, h.items_nil hzero]
    · simp [stackMachine, lifo, stackPeek, hzero, h.top hzero]
  | isEmpty => exact ⟨h, by simp only [stackMachine, lifo, stackIsEmpty, htruth]⟩
  | len => exact ⟨h, by simp only [stackMachine, lifo, stackLen, hsize]⟩

/-! ## §5 Runs -/

/-- The answers and the final contents of a run of a queue. -/
def Queue.Refines (capacity : UInt64) (ops : List QueueOp) : Prop :=
  let code := queueMachine.run (newQueue capacity) ops
  let spec := (fifo capacity.toNat).run (.empty UInt64 capacity.toNat) ops
  code.2 = spec.2 ∧ code.1.contents = spec.1.items

/-- The answers and the final contents of a run of a stack. -/
def Stack.Refines (capacity : UInt64) (ops : List StackOp) : Prop :=
  let code := stackMachine.run (newStack capacity) ops
  let spec := (lifo capacity.toNat).run (.empty UInt64 capacity.toNat) ops
  code.2 = spec.2 ∧ code.1.contents = spec.1.items

/-- The answers and the final contents of a run of a deque. -/
def Deque.Refines (capacity : UInt64) (ops : List DequeOp) : Prop :=
  let code := dequeMachine.run (newDeque capacity) ops
  let spec := (doubleEnded capacity.toNat).run (.empty UInt64 capacity.toNat) ops
  code.2 = spec.2 ∧ code.1.contents = spec.1.items

section Runs

variable {capacity : UInt64} (hpos : 1 ≤ capacity.toNat) (hmax : capacity.toNat ≤ 2 ^ 63)

include hpos hmax

theorem queue_refines (ops : List QueueOp) : Queue.Refines capacity ops := by
  have hfresh : (newQueue capacity).Holds (.empty UInt64 capacity.toNat) :=
    RingHolds.fresh hpos hmax
  obtain ⟨hlast, hanswers⟩ := Machine.run_related queue_step hfresh ops
  refine ⟨hanswers, ?_⟩
  rw [hlast.items_eq, Queue.contents, hlast.cap_eq]

theorem deque_refines (ops : List DequeOp) : Deque.Refines capacity ops := by
  have hfresh : (newDeque capacity).Holds (.empty UInt64 capacity.toNat) :=
    RingHolds.fresh hpos hmax
  obtain ⟨hlast, hanswers⟩ := Machine.run_related deque_step hfresh ops
  refine ⟨hanswers, ?_⟩
  rw [hlast.items_eq, Deque.contents, hlast.cap_eq]

end Runs

theorem stack_refines (capacity : UInt64) (ops : List StackOp) : Stack.Refines capacity ops := by
  obtain ⟨hlast, hanswers⟩ := Machine.run_related stack_step (Stack.Holds.fresh capacity) ops
  exact ⟨hanswers, by rw [hlast.items_eq, Stack.contents]⟩

/-- For every capacity from 1 to `2^63` and every sequence of operations a
queue is a bounded first-in first-out sequence, a stack a bounded last-in
first-out sequence and a deque a bounded double-ended sequence. -/
theorem sequences_refine (capacity : UInt64) (hpos : 1 ≤ capacity.toNat)
    (hmax : capacity.toNat ≤ 2 ^ 63) :
    (∀ ops, Queue.Refines capacity ops) ∧ (∀ ops, Stack.Refines capacity ops) ∧
      ∀ ops, Deque.Refines capacity ops :=
  ⟨queue_refines hpos hmax, stack_refines capacity, deque_refines hpos hmax⟩

/-- A capacity of 2. -/
theorem sequences_refine_two :
    (∀ ops, Queue.Refines 2 ops) ∧ (∀ ops, Stack.Refines 2 ops) ∧ ∀ ops, Deque.Refines 2 ops :=
  sequences_refine 2 (by decide) (by decide)

/-- The deque's window wraps to the last slot and back. -/
example :
    (dequeMachine.run (newDeque 2)
      [.pushFront 1, .pushBack 2, .pushBack 3, .popBack, .popBack, .popBack]).2
      = [.done, .done, .done, .element 2, .element 1, .element 0] := by decide

end Aether.Std
