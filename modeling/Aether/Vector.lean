/-
Aether.Vector — the growable arrays of `src/vector.c`, in an arena.

A vector is the address of its items, how many there are, and for how many
there is room. The bytes of its items are in the memory of the arena, beside
those of other vectors and of strings; the fields of the vector itself are
kept out of that memory. A vector that is full moves to a region of twice
the room, and the old region is not used again.

`Vectors` are the vectors of one arena, and `step` is any call on them.
-/
import Aether.Arena
import Aether.Bytes
import Aether.Lib.ByteMemory

namespace Aether.Memory

open Lib

/-! ## §1 The arena and its bytes -/

structure Heap where
  state : State
  mem : ByteMemory

/-- `arena_alloc`, with the `memset`. -/
def Heap.alloc (malloc : Malloc) (h : Heap) (size : UInt64) : Heap × Option UInt64 :=
  let answer := arenaAlloc malloc h.state.arena size
  let state := h.state.returned size 16 answer
  match answer.2 with
  | none => ({ state := state, mem := h.mem }, none)
  | some p => ({ state := state, mem := h.mem.write p.toNat (List.replicate size.toNat 0) }, some p)

def arenaStrndup (malloc : Malloc) (h : Heap) (s : Bytes) (len : UInt64) : Heap × Option UInt64 :=
  match h.alloc malloc (len + 1) with
  | (h, none) => (h, none)
  | (h, some cpy) =>
    ({ h with mem := h.mem.write cpy.toNat (s.take len.toNat ++ [0]) }, some cpy)

/-! ## §2 Vectors -/

structure Vector where
  data : UInt64
  len : UInt64
  cap : UInt64
  elemSize : UInt64
  deriving DecidableEq, Repr

def vecInitCap : UInt64 := 16

/-- `sizeof(Vector)`: two pointers and three sizes. -/
def sizeofVector : UInt64 := 40

/-- The two calls of the arena may each ask for a block. -/
def vectorCreate (malloc malloc' : Malloc) (h : Heap) (elemSize : UInt64) : Heap × Option Vector :=
  match h.alloc malloc sizeofVector with
  | (h, none) => (h, none)
  | (h, some _) =>
    match h.alloc malloc' (vecInitCap * elemSize) with
    | (h, none) => (h, none)
    | (h, some data) => (h, some { data := data, len := 0, cap := vecInitCap, elemSize := elemSize })

def vectorGrow (malloc : Malloc) (h : Heap) (v : Vector) : Heap × Option Vector :=
  let newCap := v.cap * 2
  let newSize := newCap * v.elemSize
  match h.alloc malloc newSize with
  | (h, none) => (h, none)
  | (h, some newData) =>
    ({ h with mem := h.mem.copy newData.toNat v.data.toNat (v.len * v.elemSize).toNat },
      some { v with data := newData, cap := newCap })

/-- The address of an item. -/
def Vector.slot (v : Vector) (index : UInt64) : UInt64 := v.data + index * v.elemSize

/-- The slot of the new item, or NULL. -/
def vectorPush (malloc : Malloc) (h : Heap) (v : Vector) (item : Bytes) :
    Heap × Vector × Option UInt64 :=
  let room := if v.len ≥ v.cap then vectorGrow malloc h v else (h, some v)
  match room with
  | (h, none) => (h, v, none)
  | (h, some v) =>
    let slot := v.slot v.len
    ({ h with mem := h.mem.write slot.toNat item }, { v with len := v.len + 1 }, some slot)

def vectorGet (v : Vector) (index : UInt64) : Option UInt64 :=
  if index ≥ v.len then none else some (v.slot index)

def vectorSet (h : Heap) (v : Vector) (index : UInt64) (item : Bytes) : Heap :=
  if index ≥ v.len then h else { h with mem := h.mem.write (v.slot index).toNat item }

def vectorPop (v : Vector) : Vector := if v.len > 0 then { v with len := v.len - 1 } else v

def vectorClear (v : Vector) : Vector := { v with len := 0 }

/-! ## §3 Calls -/

/-- The vectors of one arena, in the order of their creation. -/
structure Vectors where
  heap : Heap
  vectors : List Vector

inductive VectorCall where
  | create (elemSize : UInt64)
  | push (i : Nat) (item : Bytes)
  | set (i : Nat) (index : UInt64) (item : Bytes)
  | pop (i : Nat)
  | clear (i : Nat)
  /-- Another user of the arena. -/
  | strndup (s : Bytes) (len : UInt64)

/-- A call, and whether it did not answer NULL. -/
def Vectors.step (malloc malloc' : Malloc) (s : Vectors) : VectorCall → Vectors × Bool
  | .create elemSize =>
    match vectorCreate malloc malloc' s.heap elemSize with
    | (h, none) => ({ s with heap := h }, false)
    | (h, some v) => ({ heap := h, vectors := s.vectors ++ [v] }, true)
  | .push i item =>
    match s.vectors[i]? with
    | none => (s, false)
    | some v =>
      let (h, v, slot) := vectorPush malloc s.heap v item
      ({ heap := h, vectors := s.vectors.set i v }, slot.isSome)
  | .set i index item =>
    match s.vectors[i]? with
    | none => (s, false)
    | some v => ({ s with heap := vectorSet s.heap v index item }, true)
  | .pop i =>
    match s.vectors[i]? with
    | none => (s, false)
    | some v => ({ s with vectors := s.vectors.set i (vectorPop v) }, true)
  | .clear i =>
    match s.vectors[i]? with
    | none => (s, false)
    | some v => ({ s with vectors := s.vectors.set i (vectorClear v) }, true)
  | .strndup text len =>
    let (h, cpy) := arenaStrndup malloc s.heap text len
    ({ s with heap := h }, cpy.isSome)

/-! ## §4 What the vectors hold -/

def Vector.item (mem : ByteMemory) (v : Vector) (i : Nat) : Bytes :=
  mem.read (v.data.toNat + i * v.elemSize.toNat) v.elemSize.toNat

def Vector.items (mem : ByteMemory) (v : Vector) : List Bytes :=
  (List.range v.len.toNat).map (v.item mem)

def Vectors.contents (s : Vectors) : List (List Bytes) := s.vectors.map (Vector.items s.heap.mem)

/-- What a call means for lists of items. -/
def VectorCall.apply (lists : List (List Bytes)) : VectorCall → List (List Bytes)
  | .create _ => lists ++ [[]]
  | .push i item => lists.modify i fun items => items ++ [item]
  | .set i index item => lists.modify i fun items => items.set index.toNat item
  | .pop i => lists.modify i List.dropLast
  | .clear i => lists.modify i fun _ => []
  | .strndup _ _ => lists

/-- A size that the code computes without a wrap, and that the arena serves. -/
def Serves (a : Arena) (n : Nat) : Prop := n < 2 ^ 64 ∧ Meets a (.alloc (UInt64.ofNat n))

/-- The calls that are followed: items of the vector's size, a string as long
as it says, and sizes that the arena serves. -/
def VectorCall.Sound (malloc malloc' : Malloc) (s : Vectors) : VectorCall → Prop
  | .create elemSize =>
    Memory.Sound malloc s.heap.state.arena.blocks ∧
      Serves s.heap.state.arena sizeofVector.toNat ∧
      let h := (s.heap.alloc malloc sizeofVector).1
      Memory.Sound malloc' h.state.arena.blocks ∧
        Serves h.state.arena (vecInitCap.toNat * elemSize.toNat)
  | .push i item => ∀ v, s.vectors[i]? = some v → item.length = v.elemSize.toNat ∧
      (v.cap ≤ v.len → Memory.Sound malloc s.heap.state.arena.blocks ∧
        Serves s.heap.state.arena (v.cap.toNat * 2 * v.elemSize.toNat))
  | .set i _ item => ∀ v, s.vectors[i]? = some v → item.length = v.elemSize.toNat
  | .pop _ | .clear _ => True
  | .strndup text len => len.toNat ≤ text.length ∧
      Memory.Sound malloc s.heap.state.arena.blocks ∧ Serves s.heap.state.arena (len.toNat + 1)

/-- The states of the vectors of an arena, with the calls so far that did
not answer NULL. -/
inductive VectorRun : List VectorCall → Vectors → Prop where
  | create {h : Heap} (harena : Reachable Meets h.state) : VectorRun [] { heap := h, vectors := [] }
  | step {calls : List VectorCall} {s : Vectors} {malloc malloc' : Malloc} {call : VectorCall}
    (h : VectorRun calls s) (hsound : call.Sound malloc malloc' s) :
    VectorRun (if (s.step malloc malloc' call).2 then calls ++ [call] else calls)
      (s.step malloc malloc' call).1

end Aether.Memory
