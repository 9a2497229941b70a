/-
Aether.Aelib.Writer — the `.aelib` format and the half of `aelib.c` that
writes it.

A file is the header, the code section and the metadata section; the
metadata section is its own header, one 18-byte entry for each symbol, the
symbols' type data and the string table. `aelibWrite` lays the metadata
out in a buffer, at offsets that it adds up in `uint32_t` as it goes.

The calls to the allocator and to `stdio` succeed here.
-/
import Aether.Bytes
import Aether.Lib.ByteReader

namespace Aether.Aelib

open Aether.Lib.ByteReader

/-! ## §1 The format (`include/aether/aelib.h`) -/

/-- The contents of a C string. -/
abbrev CString := {s : Bytes // 0 ∉ s}

def aelibMagic : Bytes := bytes "AELIB" ++ [0, 0, 0]
def aelibVersion : Nat := 1
def aelibAbiVersion : Nat := 1
def aemetaMagic : Bytes := bytes "AEMETA" ++ [0, 0]
def aemetaVersion : Nat := 1

def aelibSymFunc : UInt8 := 0
def aelibSymStruct : UInt8 := 1
def aelibSymClass : UInt8 := 2
def aelibSymConst : UInt8 := 4
def aelibSymEnum : UInt8 := 5

def aelibFlagPublic : UInt8 := 1

structure AelibHeader where
  magic : Bytes
  version : Nat
  flags : Nat
  abiVersion : Nat
  codeOffset : Nat
  codeSize : Nat
  metaOffset : Nat
  metaSize : Nat

def sizeofAelibHeader : Nat := 46

/-- The packed structure as it lies in memory. -/
def AelibHeader.toBytes (h : AelibHeader) : Bytes :=
  h.magic ++ littleEndian 2 h.version ++ littleEndian 2 h.flags ++ littleEndian 2 h.abiVersion ++
    littleEndian 8 h.codeOffset ++ littleEndian 8 h.codeSize ++ littleEndian 8 h.metaOffset ++
    littleEndian 8 h.metaSize

structure AelibMetaHeader where
  magic : Bytes
  version : Nat
  symCount : Nat

def sizeofAelibMetaHeader : Nat := 14

def AelibMetaHeader.toBytes (h : AelibMetaHeader) : Bytes :=
  h.magic ++ littleEndian 2 h.version ++ littleEndian 4 h.symCount

structure AelibSymEntry where
  nameOffset : Nat
  kind : UInt8
  flags : UInt8
  namespaceOffset : Nat
  typeDataOffset : Nat
  typeDataSize : Nat

def sizeofAelibSymEntry : Nat := 18

def AelibSymEntry.toBytes (e : AelibSymEntry) : Bytes :=
  littleEndian 4 e.nameOffset ++ [e.kind] ++ [e.flags] ++ littleEndian 4 e.namespaceOffset ++
    littleEndian 4 e.typeDataOffset ++ littleEndian 4 e.typeDataSize

/-! ## §2 Collecting symbols -/

structure SymEntry where
  name : CString
  kind : UInt8
  flags : UInt8
  ns : Option CString
  typeData : Bytes

structure AelibWriter where
  codeData : Bytes
  symbols : List SymEntry
  stringTable : Bytes

def aelibCreate : AelibWriter where
  codeData := []
  symbols := []
  stringTable := [0]

def aelibSetCode (w : AelibWriter) (data : Bytes) : AelibWriter := { w with codeData := data }

/-- `(uint32_t)n` -/
def u32 (n : Nat) : Nat := n % 2 ^ 32

/-- The table with the string added, and the string's offset. -/
def stringTableAdd (table : Bytes) (s : CString) : Bytes × Nat :=
  if s.1 = [] then (table, 0) else (table ++ (s.1 ++ [0]), u32 table.length)

/-- `strndup(s, n)` -/
def strndup (s : CString) (n : Nat) : CString :=
  ⟨s.1.take n, fun h => s.2 (List.mem_of_mem_take h)⟩

/-- An empty `typeData` stands for the null pointer too. -/
def aelibAddSymbol (w : AelibWriter) (name : CString) (kind : UInt8) (isPub : Bool)
    (ns : Option CString) (typeData : Bytes) : AelibWriter :=
  let e : SymEntry := {
    name := name, kind := kind, flags := if isPub then aelibFlagPublic else 0,
    ns := ns.map fun s => strndup s 64, typeData := typeData }
  let table := (stringTableAdd w.stringTable e.name).1
  let table := match e.ns with
    | some s => (stringTableAdd table s).1
    | none => table
  { w with symbols := w.symbols ++ [e], stringTable := table }

/-- The arguments of one call of `aelib_add_symbol`. -/
structure SymbolInput where
  name : CString
  kind : UInt8
  isPub : Bool
  ns : Option CString
  typeData : Bytes

/-- The writer after the calls of `aelib_add_symbol`, in order, and of
`aelib_set_code`. -/
def writerOf (symbols : List SymbolInput) (code : Bytes) : AelibWriter :=
  aelibSetCode (symbols.foldl
    (fun w s => aelibAddSymbol w s.name s.kind s.isPub s.ns s.typeData) aelibCreate) code

/-! ## §3 Writing the file -/

/-- The offset of the first string of the table `p` that is `s`: each step
of the scan compares one string and goes on after its NUL. -/
def findString (s : Bytes) (p : Bytes) (off : Nat) : Option Nat :=
  match p with
  | [] => none
  | b :: rest =>
    let str := (b :: rest).takeWhile (· ≠ 0)
    if str = s then some off
    else findString s ((b :: rest).drop (str.length + 1)) (u32 (off + u32 (str.length + 1)))
termination_by p.length
decreasing_by
  rw [List.length_drop, List.length_cons]
  omega

/-- The entry of a symbol whose type data goes to `tdOff`. -/
def symEntryOf (w : AelibWriter) (stringTableOffset tdOff : Nat) (src : SymEntry) :
    AelibSymEntry where
  nameOffset := match findString src.name.1 w.stringTable 0 with
    | some off => u32 (stringTableOffset + off)
    | none => stringTableOffset
  kind := src.kind
  flags := src.flags
  namespaceOffset := match src.ns with
    | some ns => match findString ns.1 w.stringTable 0 with
      | some off => u32 (stringTableOffset + off)
      | none => 0
    | none => 0
  typeDataOffset := tdOff
  typeDataSize := src.typeData.length

structure MetaBuffer where
  buf : Bytes
  cumulativeTdOff : Nat

/-- One turn of the loop over the symbols. -/
def writeSymEntry (w : AelibWriter) (stringTableOffset : Nat) (m : MetaBuffer) (i : Nat)
    (src : SymEntry) : MetaBuffer :=
  let buf := overwrite m.buf m.cumulativeTdOff src.typeData
  let dst := symEntryOf w stringTableOffset m.cumulativeTdOff src
  { buf := overwrite buf (sizeofAelibMetaHeader + i * sizeofAelibSymEntry) dst.toBytes,
    cumulativeTdOff := u32 (m.cumulativeTdOff + src.typeData.length) }

def writeSymEntries (w : AelibWriter) (stringTableOffset : Nat) :
    List SymEntry → Nat → MetaBuffer → MetaBuffer
  | [], _, m => m
  | src :: rest, i, m =>
    writeSymEntries w stringTableOffset rest (i + 1) (writeSymEntry w stringTableOffset m i src)

def typeDataSize (symbols : List SymEntry) : Nat := (symbols.map (·.typeData.length)).sum

def metaTotal (w : AelibWriter) : Nat :=
  sizeofAelibMetaHeader + w.symbols.length * sizeofAelibSymEntry + typeDataSize w.symbols +
    w.stringTable.length

/-- The metadata section. The buffer's first contents are the allocator's;
nothing of them is left. -/
def metaSection (w : AelibWriter) : Bytes :=
  let mh : AelibMetaHeader := {
    magic := aemetaMagic, version := aemetaVersion, symCount := u32 w.symbols.length }
  let typeDataOffset :=
    u32 (sizeofAelibMetaHeader + w.symbols.length * sizeofAelibSymEntry)
  let stringTableOffset := u32 (typeDataOffset + u32 (typeDataSize w.symbols))
  let buf := overwrite (List.replicate (metaTotal w) 0) 0 mh.toBytes
  let m := writeSymEntries w stringTableOffset w.symbols 0
    { buf := buf, cumulativeTdOff := typeDataOffset }
  overwrite m.buf stringTableOffset w.stringTable

/-- The bytes of the file that `aelib_write` leaves. -/
def aelibWrite (w : AelibWriter) : Bytes :=
  let header : AelibHeader := {
    magic := aelibMagic, version := aelibVersion, flags := 0, abiVersion := aelibAbiVersion,
    codeOffset := sizeofAelibHeader, codeSize := w.codeData.length,
    metaOffset := sizeofAelibHeader + w.codeData.length, metaSize := metaTotal w }
  header.toBytes ++ w.codeData ++ metaSection w

end Aether.Aelib
