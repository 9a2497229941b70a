/-
Aether.Std.StrReads — which places of their strings the functions of
`std/str.ae` read.

Here a function stops at its first read behind the NUL of a string
(`beyond`), whatever memory holds there. A string ends at its first NUL. A
loop that counts up to a bound is a recursion on the turns that are left,
any other loop runs on fuel (`endless` when it is used up).
-/
import Aether.Std.Str

namespace Aether.Std.Reads

/-! ## §1 Reads -/

inductive Checked (α : Type) where
  | done (a : α)
  | beyond
  | endless

def Checked.bind {α β : Type} : Checked α → (α → Checked β) → Checked β
  | .done a, f => f a
  | .beyond, _ => .beyond
  | .endless, _ => .endless

instance : Monad Checked where
  pure := .done
  bind := .bind

/-- `s[i]`. -/
def readAt (s : Bytes) (i : Nat) : Checked UInt8 :=
  if i ≤ stringLength s then .done (s.getD i 0) else .beyond

/-! ## §2 The functions -/

def lengthLoop (inputString : Bytes) : Nat → Nat → Checked Nat
  | 0, _ => .endless
  | fuel + 1, i => do
    let c ← readAt inputString i
    if c = 0 then return i else lengthLoop inputString fuel (i + 1)

/-- `stringLength`. -/
def lengthOf (fuel : Nat) (inputString : Bytes) : Checked Nat := lengthLoop inputString fuel 0

/-- `while i < end { result = result + s[i]; i = i + 1 }` -/
def copyLoop (s : Bytes) : Nat → Nat → Bytes → Checked Bytes
  | 0, _, result => return result
  | n + 1, i, result => do
    let c ← readAt s i
    copyLoop s n (i + 1) (result ++ [c])

def splitCharsLoop (inputString : Bytes) : Nat → Nat → List Bytes → Checked (List Bytes)
  | 0, _, result => return result
  | n + 1, i, result => do
    let c ← readAt inputString i
    splitCharsLoop inputString n (i + 1) (result ++ [[c]])

/-- The comparison of `split`, which goes on behind a difference. -/
def splitMatchLoop (inputString delimiter : Bytes) (pos : Nat) : Nat → Nat → Bool → Checked Bool
  | 0, _, isMatch => return isMatch
  | n + 1, di, isMatch => do
    let c ← readAt inputString (pos + di)
    let d ← readAt delimiter di
    splitMatchLoop inputString delimiter pos n (di + 1) (if c ≠ d then false else isMatch)

def splitLoop (inputString delimiter : Bytes) (inputLen delimLen : Nat) :
    Nat → Nat → Nat → List Bytes → Checked (List Bytes)
  | 0, _, _, _ => .endless
  | fuel + 1, start, pos, result =>
    if pos < inputLen then do
      let isMatch ← splitMatchLoop inputString delimiter pos delimLen 0 true
      if isMatch then do
        let part ← copyLoop inputString (pos - start) start []
        splitLoop inputString delimiter inputLen delimLen fuel (pos + delimLen) (pos + delimLen)
          (result ++ [part])
      else splitLoop inputString delimiter inputLen delimLen fuel start (pos + 1) result
    else do
      let part ← copyLoop inputString (inputLen - start) start []
      return result ++ [part]

def split (fuel : Nat) (inputString delimiter : Bytes) : Checked (List Bytes) := do
  let inputLen ← lengthOf fuel inputString
  let delimLen ← lengthOf fuel delimiter
  if delimLen = 0 then splitCharsLoop inputString inputLen 0 []
  else splitLoop inputString delimiter inputLen delimLen fuel 0 0 []

/-- `c != 32 and c != 9 and c != 10 and c != 13` -/
def isKept (c : UInt8) : Bool := c != 32 && c != 9 && c != 10 && c != 13

def trimStartLoop (inputString : Bytes) : Nat → Nat → Checked Nat
  | 0, start => return start
  | n + 1, start => do
    let c ← readAt inputString start
    if isKept c then return start else trimStartLoop inputString n (start + 1)

/-- The loop from the end, which is `n` behind `start`. -/
def trimEndLoop (inputString : Bytes) (start : Nat) : Nat → Checked Nat
  | 0 => return start
  | n + 1 => do
    let c ← readAt inputString (start + n)
    if isKept c then return start + n + 1 else trimEndLoop inputString start n

def trim (fuel : Nat) (inputString : Bytes) : Checked Bytes := do
  let len ← lengthOf fuel inputString
  let start ← trimStartLoop inputString len 0
  if start = len then return []
  else do
    let stop ← trimEndLoop inputString start (len - start)
    copyLoop inputString (stop - start) start []

def substring (inputString : Bytes) (startIndex endIndex : UInt64) : Checked Bytes :=
  copyLoop inputString (endIndex.toNat - startIndex.toNat) startIndex.toNat []

/-- The comparison of the other functions, which stops at the first difference. -/
def matchLoop (haystack needle : Bytes) (i : Nat) : Nat → Nat → Checked Bool
  | 0, _ => return true
  | n + 1, j => do
    let c ← readAt haystack (i + j)
    let d ← readAt needle j
    if c ≠ d then return false else matchLoop haystack needle i n (j + 1)

def startsWith (fuel : Nat) (inputString start : Bytes) : Checked Bool := do
  let prefixLen ← lengthOf fuel start
  matchLoop inputString start 0 prefixLen 0

def endsWith (fuel : Nat) (inputString suffix : Bytes) : Checked Bool := do
  let inputLen ← lengthOf fuel inputString
  let suffixLen ← lengthOf fuel suffix
  if suffixLen > inputLen then return false
  else matchLoop inputString suffix (inputLen - suffixLen) suffixLen 0

/-- The loop of `contains` and `indexOf` over the places of the haystack. -/
def searchLoop (haystack needle : Bytes) (needleLen : Nat) : Nat → Nat → Checked (Option Nat)
  | 0, _ => return none
  | turns + 1, i => do
    let isMatch ← matchLoop haystack needle i needleLen 0
    if isMatch then return some i else searchLoop haystack needle needleLen turns (i + 1)

def contains (fuel : Nat) (haystack needle : Bytes) : Checked Bool := do
  let hayLen ← lengthOf fuel haystack
  let needleLen ← lengthOf fuel needle
  if needleLen = 0 then return true
  else if needleLen > hayLen then return false
  else do
    let found ← searchLoop haystack needle needleLen (hayLen - needleLen + 1) 0
    return found.isSome

def indexOf (fuel : Nat) (haystack needle : Bytes) : Checked Int := do
  let hayLen ← lengthOf fuel haystack
  let needleLen ← lengthOf fuel needle
  if needleLen = 0 ∨ needleLen > hayLen then return -1
  else do
    let found ← searchLoop haystack needle needleLen (hayLen - needleLen + 1) 0
    return found.elim (-1) toI64

def lastIndexLoop (haystack needle : Bytes) (needleLen : Nat) : Nat → Checked Int
  | 0 => do
    let isMatch ← matchLoop haystack needle 0 needleLen 0
    return if isMatch then 0 else -1
  | i + 1 => do
    let isMatch ← matchLoop haystack needle (i + 1) needleLen 0
    if isMatch then return toI64 (i + 1) else lastIndexLoop haystack needle needleLen i

def lastIndexOf (fuel : Nat) (haystack needle : Bytes) : Checked Int := do
  let hayLen ← lengthOf fuel haystack
  let needleLen ← lengthOf fuel needle
  if needleLen = 0 ∨ needleLen > hayLen then return -1
  else lastIndexLoop haystack needle needleLen (hayLen - needleLen)

def countLoop (haystack needle : Bytes) (hayLen needleLen : Nat) : Nat → Nat → Nat → Checked Nat
  | 0, _, _ => .endless
  | fuel + 1, i, result =>
    if i ≤ hayLen - needleLen then do
      let isMatch ← matchLoop haystack needle i needleLen 0
      if isMatch then countLoop haystack needle hayLen needleLen fuel (i + needleLen) (result + 1)
      else countLoop haystack needle hayLen needleLen fuel (i + 1) result
    else return result

def count (fuel : Nat) (haystack needle : Bytes) : Checked Nat := do
  let hayLen ← lengthOf fuel haystack
  let needleLen ← lengthOf fuel needle
  if needleLen = 0 ∨ needleLen > hayLen then return 0
  else countLoop haystack needle hayLen needleLen fuel 0 0

def replaceMatchLoop (inputString searchFor : Bytes) (inputLen i : Nat) : Nat → Nat → Checked Bool
  | 0, _ => return true
  | n + 1, j =>
    if i + j ≥ inputLen then return false
    else do
      let c ← readAt inputString (i + j)
      let d ← readAt searchFor j
      if c ≠ d then return false else replaceMatchLoop inputString searchFor inputLen i n (j + 1)

/-- `fuel` is that of the calls of `stringLength`. -/
def replaceLoop (fuel : Nat) (inputString searchFor replaceWith : Bytes) (inputLen searchLen : Nat) :
    Nat → Nat → Bytes → Checked Bytes
  | 0, _, _ => .endless
  | turns + 1, i, result =>
    if i < inputLen then do
      let isMatch ← replaceMatchLoop inputString searchFor inputLen i searchLen 0
      if isMatch then do
        let replaceLen ← lengthOf fuel replaceWith
        let result ← copyLoop replaceWith replaceLen 0 result
        replaceLoop fuel inputString searchFor replaceWith inputLen searchLen turns (i + searchLen) result
      else do
        let c ← readAt inputString i
        replaceLoop fuel inputString searchFor replaceWith inputLen searchLen turns (i + 1)
          (result ++ [c])
    else return result

def replace (fuel : Nat) (inputString searchFor replaceWith : Bytes) : Checked Bytes := do
  let inputLen ← lengthOf fuel inputString
  let searchLen ← lengthOf fuel searchFor
  if searchLen = 0 then return inputString
  else replaceLoop fuel inputString searchFor replaceWith inputLen searchLen fuel 0 []

def joinDelimiter (fuel : Nat) (delimiter : Bytes) (i : Nat) (result : Bytes) : Checked Bytes :=
  if i > 0 then do
    let delimLen ← lengthOf fuel delimiter
    copyLoop delimiter delimLen 0 result
  else return result

/-- The loop of `join` from the `i`-th string on. -/
def joinLoop (fuel : Nat) (delimiter : Bytes) : Nat → List Bytes → Bytes → Checked Bytes
  | _, [], result => return result
  | i, item :: strings, result => do
    let result ← joinDelimiter fuel delimiter i result
    let itemLen ← lengthOf fuel item
    let result ← copyLoop item itemLen 0 result
    joinLoop fuel delimiter (i + 1) strings result

def join (fuel : Nat) (strings : List Bytes) (delimiter : Bytes) : Checked Bytes :=
  joinLoop fuel delimiter 0 strings []

def padLeft (fuel : Nat) (inputString : Bytes) (totalLength : UInt64) (padCharacter : UInt8) :
    Checked Bytes := do
  let len ← lengthOf fuel inputString
  if len ≥ totalLength.toNat then return inputString
  else return List.replicate (totalLength.toNat - len) padCharacter ++ inputString

def padRight (fuel : Nat) (inputString : Bytes) (totalLength : UInt64) (padCharacter : UInt8) :
    Checked Bytes := do
  let len ← lengthOf fuel inputString
  if len ≥ totalLength.toNat then return inputString
  else return inputString ++ List.replicate (totalLength.toNat - len) padCharacter

end Aether.Std.Reads
