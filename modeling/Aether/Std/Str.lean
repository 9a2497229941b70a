/-
Aether.Std.Str — `split`, `join`, `replace`, `count` and the searches of
`std/str.ae`, translated statement by statement.

A `string` is the list of its bytes; reading it at its length gives the
NUL that terminates it, and reading it further on gives whatever memory
holds there, which is the parameter `beyond`. A `u64` index into a string
or an array is a `Nat`. A loop that counts from one number to another is
a recursion on the turns that are left; a loop whose step depends on what
it finds gets a number of turns, and `none` is a loop that is still
running after them.
-/
import Aether.Bytes
import Mathlib.Algebra.Group.Int.Defs

namespace Aether.Std

/-- `stringLength`: the loop ends at the NUL. -/
def stringLengthLoop (i : Nat) : Bytes → Nat
  | [] => i
  | c :: rest => if c = 0 then i else stringLengthLoop (i + 1) rest

def stringLength (inputString : Bytes) : Nat := stringLengthLoop 0 inputString

section Memory

variable (beyond : Bytes → Nat → UInt8)

/-- `s[i]`. -/
def charAt (s : Bytes) (i : Nat) : UInt8 :=
  if h : i < s.length then s[i]
  else if i = s.length then 0
  else beyond s i

/-- `while si < end { part = part + s[si]; si = si + 1 }`, with the turns
that are left. -/
def copyLoop (s : Bytes) : Nat → Nat → Bytes → Bytes
  | 0, _, part => part
  | n + 1, si, part => copyLoop s n (si + 1) (part ++ [charAt beyond s si])

/-! ## §1 split -/

/-- The loop of the empty delimiter: one piece for each character. -/
def splitCharsLoop (inputString : Bytes) : Nat → Nat → List Bytes → List Bytes
  | 0, _, result => result
  | n + 1, i, result =>
    splitCharsLoop inputString n (i + 1) (result ++ [[] ++ [charAt beyond inputString i]])

/-- The comparison at `pos`, which looks at every place of the delimiter. -/
def splitMatchLoop (inputString delimiter : Bytes) (pos : Nat) : Nat → Nat → Bool → Bool
  | 0, _, isMatch => isMatch
  | n + 1, di, isMatch =>
    splitMatchLoop inputString delimiter pos n (di + 1)
      (if charAt beyond inputString (pos + di) ≠ charAt beyond delimiter di then false
       else isMatch)

/-- The main loop and the last piece behind it. -/
def splitLoop (inputString delimiter : Bytes) (inputLen delimLen : Nat) :
    Nat → Nat → Nat → List Bytes → Option (List Bytes)
  | 0, _, _, _ => none
  | turns + 1, start, pos, result =>
    if pos < inputLen then
      if splitMatchLoop beyond inputString delimiter pos delimLen 0 true then
        splitLoop inputString delimiter inputLen delimLen turns (pos + delimLen) (pos + delimLen)
          (result ++ [copyLoop beyond inputString (pos - start) start []])
      else splitLoop inputString delimiter inputLen delimLen turns start (pos + 1) result
    else some (result ++ [copyLoop beyond inputString (inputLen - start) start []])

def split (inputString delimiter : Bytes) : Option (List Bytes) :=
  let inputLen := stringLength inputString
  let delimLen := stringLength delimiter
  if delimLen = 0 then some (splitCharsLoop beyond inputString inputLen 0 [])
  else splitLoop beyond inputString delimiter inputLen delimLen (inputLen + 1) 0 0 []

/-! ## §2 join -/

def joinLoop (strings : List Bytes) (delimiter : Bytes) : Nat → Nat → Bytes → Bytes
  | 0, _, result => result
  | n + 1, i, result =>
    let result :=
      if i > 0 then copyLoop beyond delimiter (stringLength delimiter) 0 result else result
    let item := strings.getD i []
    joinLoop strings delimiter n (i + 1) (copyLoop beyond item (stringLength item) 0 result)

def join (strings : List Bytes) (delimiter : Bytes) : Bytes :=
  if strings.length = 0 then []
  else joinLoop beyond strings delimiter strings.length 0 []

/-! ## §3 replace -/

/-- The comparison at `i`, which stops at the end of the input. -/
def replaceMatchLoop (inputString searchFor : Bytes) (inputLen i : Nat) : Nat → Nat → Bool
  | 0, _ => true
  | n + 1, j =>
    if i + j ≥ inputLen then false
    else if charAt beyond inputString (i + j) ≠ charAt beyond searchFor j then false
    else replaceMatchLoop inputString searchFor inputLen i n (j + 1)

def replaceLoop (inputString searchFor replaceWith : Bytes) (inputLen searchLen : Nat) :
    Nat → Nat → Bytes → Option Bytes
  | 0, _, _ => none
  | turns + 1, i, result =>
    if i < inputLen then
      if replaceMatchLoop beyond inputString searchFor inputLen i searchLen 0 then
        replaceLoop inputString searchFor replaceWith inputLen searchLen turns (i + searchLen)
          (copyLoop beyond replaceWith (stringLength replaceWith) 0 result)
      else
        replaceLoop inputString searchFor replaceWith inputLen searchLen turns (i + 1)
          (result ++ [charAt beyond inputString i])
    else some result

def replace (inputString searchFor replaceWith : Bytes) : Option Bytes :=
  let inputLen := stringLength inputString
  let searchLen := stringLength searchFor
  if searchLen = 0 then some inputString
  else
    replaceLoop beyond inputString searchFor replaceWith inputLen searchLen (inputLen + 1) 0 []

/-! ## §4 count -/

/-- The comparison at `i`, which stops at the first difference. -/
def countMatchLoop (haystack needle : Bytes) (i : Nat) : Nat → Nat → Bool
  | 0, _ => true
  | n + 1, j =>
    if charAt beyond haystack (i + j) ≠ charAt beyond needle j then false
    else countMatchLoop haystack needle i n (j + 1)

def countLoop (haystack needle : Bytes) (hayLen needleLen : Nat) : Nat → Nat → Nat → Option Nat
  | 0, _, _ => none
  | turns + 1, i, result =>
    if i ≤ hayLen - needleLen then
      if countMatchLoop beyond haystack needle i needleLen 0 then
        countLoop haystack needle hayLen needleLen turns (i + needleLen) (result + 1)
      else countLoop haystack needle hayLen needleLen turns (i + 1) result
    else some result

def count (haystack needle : Bytes) : Option Nat :=
  let hayLen := stringLength haystack
  let needleLen := stringLength needle
  if needleLen = 0 ∨ needleLen > hayLen then some 0
  else countLoop beyond haystack needle hayLen needleLen (hayLen + 1) 0 0

/-! ## §5 startsWith, endsWith, contains, indexOf, lastIndexOf -/

def startsWith (inputString start : Bytes) : Bool :=
  countMatchLoop beyond inputString start 0 (stringLength start) 0

def endsWith (inputString suffix : Bytes) : Bool :=
  let inputLen := stringLength inputString
  let suffixLen := stringLength suffix
  if suffixLen > inputLen then false
  else countMatchLoop beyond inputString suffix (inputLen - suffixLen) suffixLen 0

/-- The first place of a match among those that are left. -/
def searchLoop (haystack needle : Bytes) (needleLen : Nat) : Nat → Nat → Option Nat
  | 0, _ => none
  | n + 1, i =>
    if countMatchLoop beyond haystack needle i needleLen 0 then some i
    else searchLoop haystack needle needleLen n (i + 1)

def contains (haystack needle : Bytes) : Bool :=
  let hayLen := stringLength haystack
  let needleLen := stringLength needle
  if needleLen = 0 then true
  else if needleLen > hayLen then false
  else (searchLoop beyond haystack needle needleLen (hayLen - needleLen + 1) 0).isSome

/-- A `u64` returned as an `i64`. -/
def toI64 (i : Nat) : Int := if i < 2 ^ 63 then i else i - 2 ^ 64

/-- `-1` when the loop ends without a match. -/
def indexOf (haystack needle : Bytes) : Int :=
  let hayLen := stringLength haystack
  let needleLen := stringLength needle
  if needleLen = 0 ∨ needleLen > hayLen then -1
  else
    (searchLoop beyond haystack needle needleLen (hayLen - needleLen + 1) 0).elim (-1) toI64

/-- The loop that goes down to 0. -/
def lastIndexLoop (haystack needle : Bytes) (needleLen : Nat) : Nat → Option Nat
  | 0 => if countMatchLoop beyond haystack needle 0 needleLen 0 then some 0 else none
  | i + 1 =>
    if countMatchLoop beyond haystack needle (i + 1) needleLen 0 then some (i + 1)
    else lastIndexLoop haystack needle needleLen i

def lastIndexOf (haystack needle : Bytes) : Int :=
  let hayLen := stringLength haystack
  let needleLen := stringLength needle
  if needleLen = 0 ∨ needleLen > hayLen then -1
  else (lastIndexLoop beyond haystack needle needleLen (hayLen - needleLen)).elim (-1) toI64

end Memory

end Aether.Std
