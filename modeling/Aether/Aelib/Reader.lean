/-
Aether.Aelib.Reader — the half of `aelib.c` that reads `.aelib` files.

The file is mapped into memory and read by index; every read is an
`Access`, so a read outside the mapping shows. `size_t` values are numbers
below `UInt64.size`, and `toSize` is the conversion to that type.
-/
import Aether.Aelib.Writer

namespace Aether.Aelib

open Aether.Lib.ByteReader

/-- The bytes of a file; its size is a `long`. -/
structure AelibFile where
  bytes : Bytes
  size_lt : bytes.length < 2 ^ 63

/-- `(size_t)n` -/
@[irreducible] def toSize (n : Int) : Nat := (n % UInt64.size).toNat

/-- `(int)n` of a `uint32_t` -/
@[irreducible] def toInt (n : Nat) : Int := Int.bmod n UInt32.size

/-- The number in `n` bytes of a structure that was read whole. -/
def field (data : Bytes) (off n : Nat) : Nat := fromLittleEndian ((data.drop off).take n)

def aelibValidate (file : AelibFile) : Bool :=
  let data := file.bytes
  if data.length < sizeofAelibHeader then false
  else if data.take 8 ≠ aelibMagic then false
  else if field data 8 2 ≠ aelibVersion then false
  else
    let codeOff := field data 14 8
    let metaOff := field data 30 8
    !(codeOff > data.length || metaOff > data.length)

structure AelibReader where
  data : Bytes
  hdr : AelibHeader
  metaHdr : AelibMetaHeader
  symCount : Int
  symTableOff : Nat
  typeDataOff : Nat
  typeDataSize : Nat
  stringTableOff : Nat
  stringTableSize : Nat

/-- `memcpy` and `read_u16` … `read_u64` on the file header. -/
def readAelibHeader (data : Bytes) : Access AelibHeader := do
  let magic ← readBytes data 0 8
  let version ← readLE 2 data 8
  let flags ← readLE 2 data 10
  let abiVersion ← readLE 2 data 12
  let codeOffset ← readLE 8 data 14
  let codeSize ← readLE 8 data 22
  let metaOffset ← readLE 8 data 30
  let metaSize ← readLE 8 data 38
  return {
    magic := magic, version := version, flags := flags, abiVersion := abiVersion,
    codeOffset := codeOffset, codeSize := codeSize, metaOffset := metaOffset,
    metaSize := metaSize }

def readAelibMetaHeader (data : Bytes) (mo : Nat) : Access AelibMetaHeader := do
  let magic ← readBytes data mo 8
  let version ← readLE 2 data (mo + 8)
  let symCount ← readLE 4 data (mo + 10)
  return { magic := magic, version := version, symCount := symCount }

/-- The loop that adds up `td_sz` over `n` entries from the `i`-th on. -/
def totalTypeData (data : Bytes) (symTableOff : Nat) : (n i total : Nat) → Access Nat
  | 0, _, total => return total
  | n + 1, i, total => do
    let off := symTableOff + i * 18
    let tdSz ← readLE 4 data (off + 14)
    totalTypeData data symTableOff n (i + 1) (toSize (total + tdSz))

/-- No reader when the file does not pass `aelib_validate`. -/
def aelibOpen (file : AelibFile) : Access (Option AelibReader) := do
  if !aelibValidate file then return none
  let data := file.bytes
  let hdr ← readAelibHeader data
  let mo := hdr.metaOffset
  let metaHdr ← readAelibMetaHeader data mo
  let symTableOff := mo + 14
  let symCount := toInt metaHdr.symCount
  let typeDataOff := toSize (symTableOff + toSize symCount * 18)
  let total ← totalTypeData data symTableOff symCount.toNat 0 0
  let stringTableOff := toSize (typeDataOff + total)
  let metaEnd := toSize (hdr.metaOffset + hdr.metaSize)
  return some {
    data := data, hdr := hdr, metaHdr := metaHdr, symCount := symCount,
    symTableOff := symTableOff, typeDataOff := typeDataOff, typeDataSize := total,
    stringTableOff := stringTableOff,
    stringTableSize := toSize (metaEnd - stringTableOff) }

def aelibGetSymbolCount (r : AelibReader) : Int := r.symCount

/-- What `aelib_find_symbol` stores through its out-parameters. -/
structure FoundSymbol where
  name : Bytes
  kind : UInt8
  flags : UInt8
  tdOffset : Nat
  tdSize : Nat
  deriving DecidableEq

/-- The search from the `i`-th entry on, over `n` entries. -/
def findSymbolFrom (r : AelibReader) (name : CString) (kind : Int) :
    (n i : Nat) → Access (Option FoundSymbol)
  | 0, _ => return none
  | n + 1, i => do
    let off := r.symTableOff + i * 18
    let nameOff ← readLE 4 r.data off
    let symName := r.hdr.metaOffset + nameOff
    if !(← strEq r.data symName name.1) then findSymbolFrom r name kind n (i + 1)
    else
      let k ← byteAt r.data (off + 4)
      if kind ≥ 0 && k ≠ UInt8.ofNat (kind % 256).toNat then findSymbolFrom r name kind n (i + 1)
      else
        let outName ← cStringAt r.data symName
        let flags ← byteAt r.data (off + 5)
        let tdOffset ← readLE 4 r.data (off + 10)
        let tdSize ← readLE 4 r.data (off + 14)
        return some {
          name := outName, kind := k, flags := flags, tdOffset := tdOffset, tdSize := tdSize }

def aelibFindSymbol (r : AelibReader) (name : CString) (kind : Int) :
    Access (Option FoundSymbol) :=
  findSymbolFrom r name kind r.symCount.toNat 0

/-- The string that the returned pointer denotes. -/
def aelibGetString (r : AelibReader) (offset : UInt32) : Access (Option Bytes) :=
  if offset.toNat ≥ r.stringTableSize then return none
  else some <$> cStringAt r.data (r.stringTableOff + offset.toNat)

/-- The bytes that the returned pointer and `*out_size` denote. -/
def aelibGetCodeSection (r : AelibReader) : Access Bytes :=
  readBytes r.data r.hdr.codeOffset r.hdr.codeSize

/-- The bytes written to the object file, `none` for the result `-1`. -/
def aelibExtractObject (file : AelibFile) : Access (Option Bytes) := do
  match ← aelibOpen file with
  | none => return none
  | some r =>
    let code ← aelibGetCodeSection r
    if r.hdr.codeSize = 0 then return none else return some code

end Aether.Aelib
