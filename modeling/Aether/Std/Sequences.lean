/-
Aether.Std.Sequences — `Queue`, `Stack` and `Deque` of
`std/collections.ae`, translated statement by statement.

A `u64` is a `UInt64` with its wrapping arithmetic, a `[u64]` a list that
is indexed by position. A function on `self: ref T` that also returns a
value returns the pair of the new `self` and that value.
-/
import Aether.Lib.Machine
import Aether.Lib.RingBuffer

namespace Aether.Std

open Lib Lib.RingBuffer

structure Queue where
  data : List UInt64
  front : UInt64
  back : UInt64
  count : UInt64
  capacity : UInt64
  deriving DecidableEq, Repr

structure Stack where
  data : List UInt64
  count : UInt64
  capacity : UInt64
  deriving DecidableEq, Repr

structure Deque where
  data : List UInt64
  front : UInt64
  back : UInt64
  count : UInt64
  capacity : UInt64
  deriving DecidableEq, Repr

/-- `data[index]`. -/
def readData (data : List UInt64) (index : UInt64) : UInt64 := data.getD index.toNat 0

/-- `data[index] = value`. -/
def writeData (data : List UInt64) (index value : UInt64) : List UInt64 :=
  data.set index.toNat value

/-- The filling loop of the constructors, `n` turns from its end. -/
def fillLoop : Nat → List UInt64 → List UInt64
  | 0, data => data
  | n + 1, data => fillLoop n (data ++ [0])

/-! ## §1 Queue -/

def newQueue (capacity : UInt64) : Queue where
  data := fillLoop capacity.toNat []
  front := 0
  back := 0
  count := 0
  capacity := capacity

def queueEnqueue (self : Queue) (value : UInt64) : Queue :=
  if self.count ≥ self.capacity then self
  else
    { self with
      data := writeData self.data self.back value
      back := (self.back + 1) % self.capacity
      count := self.count + 1 }

def queueDequeue (self : Queue) : Queue × UInt64 :=
  if self.count = 0 then (self, 0)
  else
    ({ self with
       front := (self.front + 1) % self.capacity
       count := self.count - 1 },
      readData self.data self.front)

def queueIsEmpty (self : Queue) : Bool := self.count == 0

def queueLen (self : Queue) : UInt64 := self.count

/-! ## §2 Stack -/

def newStack (capacity : UInt64) : Stack where
  data := fillLoop capacity.toNat []
  count := 0
  capacity := capacity

def stackPush (self : Stack) (value : UInt64) : Stack :=
  if self.count ≥ self.capacity then self
  else
    { self with
      data := writeData self.data self.count value
      count := self.count + 1 }

def stackPop (self : Stack) : Stack × UInt64 :=
  if self.count = 0 then (self, 0)
  else
    let self := { self with count := self.count - 1 }
    (self, readData self.data self.count)

def stackPeek (self : Stack) : UInt64 :=
  if self.count = 0 then 0
  else readData self.data (self.count - 1)

def stackIsEmpty (self : Stack) : Bool := self.count == 0

def stackLen (self : Stack) : UInt64 := self.count

/-! ## §3 Deque -/

def newDeque (capacity : UInt64) : Deque where
  data := fillLoop capacity.toNat []
  front := 0
  back := 0
  count := 0
  capacity := capacity

def dequePushFront (self : Deque) (value : UInt64) : Deque :=
  if self.count ≥ self.capacity then self
  else
    let front := (self.front + self.capacity - 1) % self.capacity
    { self with
      front := front
      data := writeData self.data front value
      count := self.count + 1 }

def dequePushBack (self : Deque) (value : UInt64) : Deque :=
  if self.count ≥ self.capacity then self
  else
    { self with
      data := writeData self.data self.back value
      back := (self.back + 1) % self.capacity
      count := self.count + 1 }

def dequePopFront (self : Deque) : Deque × UInt64 :=
  if self.count = 0 then (self, 0)
  else
    ({ self with
       front := (self.front + 1) % self.capacity
       count := self.count - 1 },
      readData self.data self.front)

def dequePopBack (self : Deque) : Deque × UInt64 :=
  if self.count = 0 then (self, 0)
  else
    let back := (self.back + self.capacity - 1) % self.capacity
    ({ self with
       back := back
       count := self.count - 1 },
      readData self.data back)

def dequeIsEmpty (self : Deque) : Bool := self.count == 0

def dequeLen (self : Deque) : UInt64 := self.count

/-! ## §4 The containers as machines -/

/-- What an operation answers: nothing, an element, a count or a truth value. -/
inductive Answer where
  | done
  | element (value : UInt64)
  | size (count : UInt64)
  | truth (value : Bool)
  deriving DecidableEq, Repr

inductive QueueOp where
  | enqueue (value : UInt64)
  | dequeue
  | isEmpty
  | len
  deriving DecidableEq, Repr

inductive StackOp where
  | push (value : UInt64)
  | pop
  | peek
  | isEmpty
  | len
  deriving DecidableEq, Repr

inductive DequeOp where
  | pushFront (value : UInt64)
  | pushBack (value : UInt64)
  | popFront
  | popBack
  | isEmpty
  | len
  deriving DecidableEq, Repr

def queueMachine : Machine Queue QueueOp Answer where
  step self
    | .enqueue value => (queueEnqueue self value, .done)
    | .dequeue => ((queueDequeue self).1, .element (queueDequeue self).2)
    | .isEmpty => (self, .truth (queueIsEmpty self))
    | .len => (self, .size (queueLen self))

def stackMachine : Machine Stack StackOp Answer where
  step self
    | .push value => (stackPush self value, .done)
    | .pop => ((stackPop self).1, .element (stackPop self).2)
    | .peek => (self, .element (stackPeek self))
    | .isEmpty => (self, .truth (stackIsEmpty self))
    | .len => (self, .size (stackLen self))

def dequeMachine : Machine Deque DequeOp Answer where
  step self
    | .pushFront value => (dequePushFront self value, .done)
    | .pushBack value => (dequePushBack self value, .done)
    | .popFront => ((dequePopFront self).1, .element (dequePopFront self).2)
    | .popBack => ((dequePopBack self).1, .element (dequePopBack self).2)
    | .isEmpty => (self, .truth (dequeIsEmpty self))
    | .len => (self, .size (dequeLen self))

end Aether.Std
