/-
Aether.Std.Math — the loops and the recursion of `std/math.ae`.

A `u64` wraps. A division by zero ends the program, and so it is a result
of its own.
-/
import Aether.Lib.WhileLoop

namespace Aether.Std

open Lib.WhileLoop

inductive Fault where
  | divideByZero
  deriving DecidableEq, Repr

def udiv (a b : UInt64) : Except Fault UInt64 :=
  if b = 0 then .error .divideByZero else .ok (a / b)

def umod (a b : UInt64) : Except Fault UInt64 :=
  if b = 0 then .error .divideByZero else .ok (a % b)

/-! ## §1 integerSquareRoot -/

structure SqrtState where
  x : UInt64
  y : UInt64
  deriving DecidableEq, Repr

def integerSquareRootTurn (value : UInt64) (s : SqrtState) :
    Turn SqrtState (Except Fault UInt64) :=
  if s.y < s.x then
    match udiv value s.y with
    | .error fault => .done (.error fault)
    | .ok quotient => .again ⟨s.y, (s.y + quotient) / 2⟩
  else .done (.ok s.x)

def integerSquareRoot (fuel : Nat) (value : UInt64) : Option (Except Fault UInt64) :=
  if value < 2 then some (.ok value)
  else loop (integerSquareRootTurn value) fuel ⟨value, (value + 1) / 2⟩

/-! ## §2 power -/

structure PowerState where
  result : UInt64
  b : UInt64
  e : UInt64
  deriving DecidableEq, Repr

def powerTurn (s : PowerState) : Turn PowerState UInt64 :=
  if s.e > 0 then
    .again ⟨if s.e &&& 1 = 1 then s.result * s.b else s.result, s.b * s.b, s.e >>> 1⟩
  else .done s.result

def power (fuel : Nat) (base exponent : UInt64) : Option UInt64 :=
  if exponent = 0 then some 1 else loop powerTurn fuel ⟨1, base, exponent⟩

/-! ## §3 isPrime -/

def isPrimeTurn (value i : UInt64) : Turn UInt64 (Except Fault Bool) :=
  if i * i ≤ value then
    match umod value i with
    | .error fault => .done (.error fault)
    | .ok remainder => if remainder = 0 then .done (.ok false) else .again (i + 2)
  else .done (.ok true)

def isPrime (fuel : Nat) (value : UInt64) : Option (Except Fault Bool) :=
  if value < 2 then some (.ok false)
  else if value < 4 then some (.ok true)
  else if value % 2 = 0 then some (.ok false)
  else loop (isPrimeTurn value) fuel 3

/-! ## §4 greatestCommonDivisor, leastCommonMultiple -/

def greatestCommonDivisor : Nat → UInt64 → UInt64 → Option (Except Fault UInt64)
  | 0, _, _ => none
  | fuel + 1, a, b =>
    if b = 0 then some (.ok a)
    else
      match umod a b with
      | .error fault => some (.error fault)
      | .ok remainder => greatestCommonDivisor fuel b remainder

def leastCommonMultiple (fuel : Nat) (a b : UInt64) : Option (Except Fault UInt64) :=
  if a = 0 ∨ b = 0 then some (.ok 0)
  else (greatestCommonDivisor fuel a b).map fun gcd => do
    let gcd ← gcd
    let quotient ← udiv a gcd
    return quotient * b

/-! ## §5 factorial, fibonacci -/

/-- The variables of a loop, and the counter. -/
structure Counted (α : Type) where
  vars : α
  i : UInt64
  deriving DecidableEq, Repr

/-- `while i <= value { body; i = i + 1 }` -/
def countTurn {α : Type} (value : UInt64) (body : UInt64 → α → α) (s : Counted α) :
    Turn (Counted α) α :=
  if s.i ≤ value then .again ⟨body s.i s.vars, s.i + 1⟩ else .done s.vars

def factorialBody (i result : UInt64) : UInt64 := result * i

def factorial (fuel : Nat) (value : UInt64) : Option UInt64 :=
  if value ≤ 1 then some 1 else loop (countTurn value factorialBody) fuel ⟨1, 2⟩

/-- The variables are `a` and `b`. -/
def fibonacciBody (_ : UInt64) (vars : UInt64 × UInt64) : UInt64 × UInt64 :=
  let next := vars.1 + vars.2
  (vars.2, next)

def fibonacci (fuel : Nat) (value : UInt64) : Option UInt64 :=
  if value = 0 then some 0
  else if value = 1 then some 1
  else (loop (countTurn value fibonacciBody) fuel ⟨(0, 1), 2⟩).map Prod.snd

end Aether.Std
