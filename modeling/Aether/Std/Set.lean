/-
Aether.Std.Set — the set of `std/collections.ae`, translated statement by
statement.

It is laid out as the hash map without its values: the loops probe, stop
and end as `probeLoop` does, and a `none` is a loop that is still running
after `capacity` turns.
-/
import Aether.Std.Collections

namespace Aether.Std

structure Set where
  keys : List Bytes
  occupied : List Bool
  count : UInt64
  capacity : UInt64
  deriving DecidableEq, Repr

/-- The filling loop of `newSet`, `n` turns from its end. -/
def newSetLoop : Nat → Set → Set
  | 0, result => result
  | n + 1, result =>
    newSetLoop n
      { result with
        keys := result.keys ++ [[]]
        occupied := result.occupied ++ [false] }

def newSet (capacity : UInt64) : Set :=
  newSetLoop capacity.toNat { keys := [], occupied := [], count := 0, capacity := capacity }

/-- The `while self.occupied[index]` loop, at most `turns` tests of its
condition. -/
def setProbeLoop (self : Set) (key : Bytes) (stop : UInt64 → Bool) :
    Nat → UInt64 → Option Probe
  | 0, _ => none
  | turns + 1, index =>
    if self.occupied.getD index.toNat false then
      if self.keys.getD index.toNat [] = key then some (.found index)
      else
        let index' := (index + 1) % self.capacity
        if stop index' then some .wrapped
        else setProbeLoop self key stop turns index'
    else some (.free index)

/-- The loop of `setPut`, which has no stop. -/
def Set.probePut (self : Set) (key : Bytes) : Option Probe :=
  setProbeLoop self key (fun _ => false) self.capacity.toNat (hashString key % self.capacity)

/-- The loop of `setContains` and `setRemove`. -/
def Set.probeGet (self : Set) (key : Bytes) : Option Probe :=
  setProbeLoop self key (fun i => i == hashString key % self.capacity) self.capacity.toNat
    (hashString key % self.capacity)

def setPut (self : Set) (key : Bytes) : Option Set :=
  if self.count ≥ self.capacity then some self
  else
    (self.probePut key).map fun
      | .found _ => self
      | .free index =>
        { self with
          keys := self.keys.set index.toNat key
          occupied := self.occupied.set index.toNat true
          count := self.count + 1 }
      | .wrapped => self

def setContains (self : Set) (key : Bytes) : Option Bool :=
  (self.probeGet key).map fun
    | .found _ => true
    | _ => false

def setRemove (self : Set) (key : Bytes) : Option Set :=
  (self.probeGet key).map fun
    | .found index =>
      { self with
        occupied := self.occupied.set index.toNat false
        count := self.count - 1 }
    | _ => self

def setLen (self : Set) : UInt64 := self.count

/-! ## Runs of operations -/

inductive SetOp where
  | put (key : Bytes)
  | contains (key : Bytes)
  | remove (key : Bytes)
  deriving DecidableEq, Repr

/-- The set after one operation; `none` when a loop did not end. -/
def Set.step (self : Set) : SetOp → Option Set
  | .put key => setPut self key
  | .contains key => (setContains self key).map fun _ => self
  | .remove key => setRemove self key

/-- The set after a sequence of operations. -/
def Set.run (self : Set) (ops : List SetOp) : Option Set := ops.foldlM Set.step self

end Aether.Std
