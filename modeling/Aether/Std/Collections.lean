/-
Aether.Std.Collections — the hash map of `std/collections.ae`.

The functions are translated statement by statement. A `u64` is a
`UInt64`, a `[T]` a list that is indexed by position; `probeLoop` is the
`while self.occupied[index]` loop that put, get, contains and remove
share. Put runs it without a stop, the others stop when the index is back
at the start. The loop gets `capacity` turns; `none` is a loop that is
still running after them.
-/
import Aether.Bytes

namespace Aether.Std

structure HashMap where
  keys : List Bytes
  values : List UInt64
  occupied : List Bool
  count : UInt64
  capacity : UInt64
  deriving DecidableEq, Repr

/-- The `while true` loop of `hashString`: it ends at the NUL that
terminates the key. -/
def hashStringLoop (hash : UInt64) : Bytes → UInt64
  | [] => hash
  | c :: rest =>
    if c = 0 then hash
    else hashStringLoop ((hash <<< 5) + hash + c.toUInt64) rest

def hashString (key : Bytes) : UInt64 := hashStringLoop 5381 key

/-- The filling loop of `newHashMap`, `n` turns from its end. -/
def newHashMapLoop : Nat → HashMap → HashMap
  | 0, result => result
  | n + 1, result =>
    newHashMapLoop n
      { result with
        keys := result.keys ++ [[]]
        values := result.values ++ [0]
        occupied := result.occupied ++ [false] }

def newHashMap (capacity : UInt64) : HashMap :=
  newHashMapLoop capacity.toNat
    { keys := [], values := [], occupied := [], count := 0, capacity := capacity }

/-- How a probe loop ends. -/
inductive Probe where
  | found (index : UInt64)
  | free (index : UInt64)
  | wrapped
  deriving DecidableEq, Repr

def HashMap.isOccupied (self : HashMap) (i : Nat) : Bool := self.occupied.getD i false

def HashMap.keyAt (self : HashMap) (i : Nat) : Bytes := self.keys.getD i []

def HashMap.valueAt (self : HashMap) (i : Nat) : UInt64 := self.values.getD i 0

/-- The probe loop, at most `turns` tests of `self.occupied[index]`. -/
def probeLoop (self : HashMap) (key : Bytes) (stop : UInt64 → Bool) : Nat → UInt64 → Option Probe
  | 0, _ => none
  | turns + 1, index =>
    if self.isOccupied index.toNat then
      if self.keyAt index.toNat = key then some (.found index)
      else
        let index' := (index + 1) % self.capacity
        if stop index' then some .wrapped
        else probeLoop self key stop turns index'
    else some (.free index)

/-- The slot a key's probe starts at. -/
def HashMap.startIndex (self : HashMap) (key : Bytes) : UInt64 := hashString key % self.capacity

/-- The probe of `hashMapPut`, which has no stop. -/
def HashMap.probePut (self : HashMap) (key : Bytes) : Option Probe :=
  probeLoop self key (fun _ => false) self.capacity.toNat (self.startIndex key)

/-- The probe of `hashMapGet`, `hashMapContainsKey` and `hashMapRemove`. -/
def HashMap.probeGet (self : HashMap) (key : Bytes) : Option Probe :=
  probeLoop self key (fun i => i == self.startIndex key) self.capacity.toNat
    (self.startIndex key)

def hashMapPut (self : HashMap) (key : Bytes) (value : UInt64) : Option HashMap :=
  if self.count ≥ self.capacity then some self
  else
    (self.probePut key).map fun
      | .found index => { self with values := self.values.set index.toNat value }
      | .free index =>
        { self with
          keys := self.keys.set index.toNat key
          values := self.values.set index.toNat value
          occupied := self.occupied.set index.toNat true
          count := self.count + 1 }
      | .wrapped => self

def hashMapGet (self : HashMap) (key : Bytes) : Option UInt64 :=
  (self.probeGet key).map fun
    | .found index => self.valueAt index.toNat
    | _ => 0

def hashMapContainsKey (self : HashMap) (key : Bytes) : Option Bool :=
  (self.probeGet key).map fun
    | .found _ => true
    | _ => false

def hashMapRemove (self : HashMap) (key : Bytes) : Option HashMap :=
  (self.probeGet key).map fun
    | .found index =>
      { self with
        occupied := self.occupied.set index.toNat false
        count := self.count - 1 }
    | _ => self

def hashMapLen (self : HashMap) : UInt64 := self.count

/-! ## Runs of operations -/

inductive HashMapOp where
  | put (key : Bytes) (value : UInt64)
  | get (key : Bytes)
  | containsKey (key : Bytes)
  | remove (key : Bytes)
  deriving DecidableEq, Repr

/-- The map after one operation; `none` when a loop did not end. -/
def HashMap.step (self : HashMap) : HashMapOp → Option HashMap
  | .put key value => hashMapPut self key value
  | .get key => (hashMapGet self key).map fun _ => self
  | .containsKey key => (hashMapContainsKey self key).map fun _ => self
  | .remove key => hashMapRemove self key

/-- The map after a sequence of operations. -/
def HashMap.run (self : HashMap) (ops : List HashMapOp) : Option HashMap :=
  ops.foldlM HashMap.step self

end Aether.Std
