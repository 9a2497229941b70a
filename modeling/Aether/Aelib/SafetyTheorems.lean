/-
Aether.Aelib.SafetyTheorems — when the `.aelib` reader stays inside the
file it has mapped.

`aelib_validate` looks at the two section offsets only. `SectionsInside`
lists, over the bytes of the file, what the reader relies on beyond that;
`readerSafe_iff` shows it to be exactly what it needs: a validated file
that breaks any one part of it makes some call read past the end.
-/
import Mathlib.Data.Int.ModEq
import Aether.Aelib.Reader

namespace Aether.Aelib

open Aether.Lib.ByteReader

/-! ## §1 The fields of a file -/

def metaOffset (data : Bytes) : Nat := field data 30 8
def metaSize (data : Bytes) : Nat := field data 38 8
def codeOffset (data : Bytes) : Nat := field data 14 8
def codeSize (data : Bytes) : Nat := field data 22 8

/-- The symbol count as the `int` the reader keeps. -/
def symbolCount (data : Bytes) : Int := toInt (field data (metaOffset data + 10) 4)

/-- The entries that a loop over the symbols visits. -/
def entryCount (data : Bytes) : Nat := (symbolCount data).toNat

def entryOffset (data : Bytes) (i : Nat) : Nat := metaOffset data + 14 + i * 18

/-- Where the name of the `i`-th symbol stands. -/
def namePosition (data : Bytes) (i : Nat) : Nat :=
  metaOffset data + field data (entryOffset data i) 4

/-- The type data sizes of `n` entries from the `i`-th on, added up. -/
def typeDataSum (data : Bytes) (symTableOff : Nat) : (n i : Nat) → Nat
  | 0, _ => 0
  | n + 1, i =>
    field data (symTableOff + i * 18 + 14) 4 + typeDataSum data symTableOff n (i + 1)

/-- Where the string table starts: after the entries and the type data. -/
def stringTableStart (data : Bytes) : Nat :=
  toSize (metaOffset data + 14 + symbolCount data * 18 +
    typeDataSum data (metaOffset data + 14) (entryCount data) 0)

/-- What is left of the metadata section for the string table. -/
def stringTableRoom (data : Bytes) : Nat :=
  toSize (metaOffset data + metaSize data - stringTableStart data)

/-- What the reader takes for granted of a file that `aelib_validate` let
pass. -/
structure SectionsInside (file : AelibFile) : Prop where
  metaHeader : metaOffset file.bytes + 14 ≤ file.bytes.length
  entries : metaOffset file.bytes + 14 + entryCount file.bytes * 18 ≤ file.bytes.length
  names : ∀ i < entryCount file.bytes, Terminated file.bytes (namePosition file.bytes i)
  strings : stringTableRoom file.bytes = 0 ∨ Terminated file.bytes
    (stringTableStart file.bytes + (min (stringTableRoom file.bytes) UInt32.size - 1))
  code : codeSize file.bytes = 0 ∨
    codeOffset file.bytes + codeSize file.bytes ≤ file.bytes.length

/-- Opening the file and every later call read inside it. -/
def ReaderSafe (file : AelibFile) : Prop :=
  ∃ r, aelibOpen file = .ok (some r) ∧
    (∀ name kind, InBounds (aelibFindSymbol r name kind)) ∧
    (∀ offset, InBounds (aelibGetString r offset)) ∧
    InBounds (aelibGetCodeSection r) ∧ InBounds (aelibExtractObject file)

/-! ## §2 Opening -/

theorem toSize_cast (n : Int) : (toSize n : Int) = n % UInt64.size := by
  rw [toSize]
  exact Int.toNat_of_nonneg (Int.emod_nonneg n (by decide))

theorem toSize_of_lt {n : Nat} (h : n < UInt64.size) : toSize n = n := by
  have := toSize_cast n
  rw [Int.emod_eq_of_lt (by omega) (by omega)] at this
  omega

theorem toSize_congr {m n : Int} (h : m ≡ n [ZMOD UInt64.size]) : toSize m = toSize n := by
  rw [toSize, h, toSize]

theorem toSize_modEq (n : Int) : toSize n ≡ n [ZMOD UInt64.size] := by
  rw [toSize_cast]
  exact Int.mod_modEq n _

theorem toSize_lt (n : Int) : toSize n < UInt64.size := by
  have hlt := Int.emod_lt_of_pos n (show (0 : Int) < UInt64.size by decide)
  have := toSize_cast n
  omega

theorem readLE_field {data : Bytes} {off n : Nat} (h : off + n ≤ data.length) :
    readLE n data off = .ok (field data off n) := readLE_ok (.inr h)

theorem validate_bounds {file : AelibFile} (hvalid : aelibValidate file = true) :
    46 ≤ file.bytes.length ∧ codeOffset file.bytes ≤ file.bytes.length ∧
      metaOffset file.bytes ≤ file.bytes.length := by
  unfold aelibValidate at hvalid
  dsimp only at hvalid
  split at hvalid
  · cases hvalid
  · next hsize =>
    split at hvalid
    · cases hvalid
    · split at hvalid
      · cases hvalid
      · simp only [Bool.not_eq_true', Bool.or_eq_false_iff, decide_eq_false_iff_not] at hvalid
        simp only [sizeofAelibHeader] at hsize
        simp only [codeOffset, metaOffset]
        omega

/-- The header as the reader takes it from the first 46 bytes. -/
def headerOf (data : Bytes) : AelibHeader where
  magic := data.take 8
  version := field data 8 2
  flags := field data 10 2
  abiVersion := field data 12 2
  codeOffset := codeOffset data
  codeSize := codeSize data
  metaOffset := metaOffset data
  metaSize := metaSize data

@[simp] theorem headerOf_metaOffset (data : Bytes) :
    (headerOf data).metaOffset = metaOffset data := rfl

@[simp] theorem headerOf_codeOffset (data : Bytes) :
    (headerOf data).codeOffset = codeOffset data := rfl

@[simp] theorem headerOf_codeSize (data : Bytes) : (headerOf data).codeSize = codeSize data := rfl

theorem readAelibHeader_ok {data : Bytes} (h : 46 ≤ data.length) :
    readAelibHeader data = .ok (headerOf data) := by
  have hread : ∀ {off n : Nat}, off + n ≤ 46 → readLE n data off = .ok (field data off n) :=
    fun hle => readLE_field (by omega)
  rw [readAelibHeader, readBytes_ok (.inr (by omega)), hread (by decide), hread (by decide),
    hread (by decide), hread (by decide), hread (by decide), hread (by decide),
    hread (by decide)]
  rfl

/-- The metadata header as the reader takes it. -/
def metaHeaderOf (data : Bytes) : AelibMetaHeader where
  magic := (data.drop (metaOffset data)).take 8
  version := field data (metaOffset data + 8) 2
  symCount := field data (metaOffset data + 10) 4

theorem readAelibMetaHeader_ok {data : Bytes} (h : metaOffset data + 14 ≤ data.length) :
    readAelibMetaHeader data (metaOffset data) = .ok (metaHeaderOf data) := by
  rw [readAelibMetaHeader, readBytes_ok (.inr (by omega)), readLE_field (by omega),
    readLE_field (by omega)]
  rfl

theorem inBounds_readAelibMetaHeader {data : Bytes}
    (h : InBounds (readAelibMetaHeader data (metaOffset data))) :
    metaOffset data + 14 ≤ data.length := by
  rw [readAelibMetaHeader, inBounds_bind] at h
  obtain ⟨_, _, h⟩ := h
  rw [inBounds_bind] at h
  obtain ⟨_, _, h⟩ := h
  rw [inBounds_bind] at h
  obtain ⟨symCount, hcount, _⟩ := h
  have := inBounds_readLE.mp ⟨symCount, hcount⟩
  omega

theorem totalTypeData_ok {data : Bytes} {symTableOff n i total : Nat}
    (h : symTableOff + (i + n) * 18 ≤ data.length) (htotal : total < UInt64.size) :
    totalTypeData data symTableOff n i total =
      .ok (toSize (total + typeDataSum data symTableOff n i)) := by
  induction n generalizing i total with
  | zero =>
    rw [totalTypeData, typeDataSum]
    have := toSize_of_lt htotal
    simp only [Int.natCast_zero, Int.add_zero, this]
    rfl
  | succ n ih =>
    rw [totalTypeData, readLE_field (by omega)]
    refine (ih (by omega) (toSize_lt _)).trans (congrArg Except.ok (toSize_congr ?_))
    rw [typeDataSum, Int.natCast_add, ← Int.add_assoc]
    exact (toSize_modEq _).add_right _

theorem inBounds_totalTypeData {data : Bytes} {symTableOff n i total : Nat}
    (h : InBounds (totalTypeData data symTableOff n i total)) (hn : n ≠ 0) :
    symTableOff + (i + n) * 18 ≤ data.length := by
  induction n generalizing i total with
  | zero => exact absurd rfl hn
  | succ n ih =>
    rw [totalTypeData, inBounds_bind] at h
    obtain ⟨tdSz, htd, h⟩ := h
    have hfirst := inBounds_readLE.mp ⟨tdSz, htd⟩
    by_cases hzero : n = 0
    · subst hzero
      omega
    · have := ih h hzero
      omega

/-- The reader that `aelib_open` builds. -/
def readerOf (data : Bytes) : AelibReader where
  data := data
  hdr := headerOf data
  metaHdr := metaHeaderOf data
  symCount := symbolCount data
  symTableOff := metaOffset data + 14
  typeDataOff := toSize (metaOffset data + 14 + symbolCount data * 18)
  typeDataSize := toSize (typeDataSum data (metaOffset data + 14) (entryCount data) 0)
  stringTableOff := stringTableStart data
  stringTableSize := stringTableRoom data

@[simp] theorem readerOf_data (data : Bytes) : (readerOf data).data = data := rfl

@[simp] theorem readerOf_hdr (data : Bytes) : (readerOf data).hdr = headerOf data := rfl

@[simp] theorem readerOf_symCount (data : Bytes) :
    (readerOf data).symCount = symbolCount data := rfl

@[simp] theorem readerOf_stringTableOff (data : Bytes) :
    (readerOf data).stringTableOff = stringTableStart data := rfl

@[simp] theorem readerOf_stringTableSize (data : Bytes) :
    (readerOf data).stringTableSize = stringTableRoom data := rfl

theorem aelibOpen_ok {file : AelibFile} (hvalid : aelibValidate file = true)
    (hmeta : metaOffset file.bytes + 14 ≤ file.bytes.length)
    (hentries : metaOffset file.bytes + 14 + entryCount file.bytes * 18 ≤ file.bytes.length) :
    aelibOpen file = .ok (some (readerOf file.bytes)) := by
  have hsize := (validate_bounds hvalid).1
  have htotal : totalTypeData file.bytes (metaOffset file.bytes + 14) (entryCount file.bytes) 0 0 =
      .ok (toSize (0 + typeDataSum file.bytes (metaOffset file.bytes + 14)
        (entryCount file.bytes) 0)) := totalTypeData_ok (by omega) (by decide)
  rw [Int.zero_add] at htotal
  have htypes : toSize (metaOffset file.bytes + 14 + toSize (symbolCount file.bytes) * 18) =
      toSize (metaOffset file.bytes + 14 + symbolCount file.bytes * 18) :=
    toSize_congr (((toSize_modEq _).mul_right 18).add_left _)
  have hstart : toSize (toSize (metaOffset file.bytes + 14 + symbolCount file.bytes * 18) + toSize
      (typeDataSum file.bytes (metaOffset file.bytes + 14) (entryCount file.bytes) 0)) =
      stringTableStart file.bytes :=
    toSize_congr ((toSize_modEq _).add (toSize_modEq _))
  have hroom : toSize (toSize (metaOffset file.bytes + metaSize file.bytes) -
      stringTableStart file.bytes) = stringTableRoom file.bytes :=
    toSize_congr ((toSize_modEq _).sub_right _)
  have hsymbols : toInt (field file.bytes (metaOffset file.bytes + 10) 4) =
      symbolCount file.bytes := rfl
  have hcount : (symbolCount file.bytes).toNat = entryCount file.bytes := rfl
  unfold aelibOpen
  simp only [hvalid, Bool.not_true, Bool.false_eq_true, if_false]
  rw [readAelibHeader_ok hsize, ok_bind]
  simp only [headerOf]
  rw [readAelibMetaHeader_ok hmeta, ok_bind]
  simp only [metaHeaderOf]
  rw [hsymbols, hcount, htotal, ok_bind]
  push_cast
  rw [htypes, hstart, hroom]
  rfl

theorem open_inBounds {file : AelibFile} (hvalid : aelibValidate file = true)
    (h : InBounds (aelibOpen file)) :
    metaOffset file.bytes + 14 ≤ file.bytes.length ∧
      metaOffset file.bytes + 14 + entryCount file.bytes * 18 ≤ file.bytes.length := by
  have hsize := (validate_bounds hvalid).1
  unfold aelibOpen at h
  simp only [hvalid, Bool.not_true, Bool.false_eq_true, if_false] at h
  rw [readAelibHeader_ok hsize, ok_bind, headerOf_metaOffset, inBounds_bind] at h
  obtain ⟨metaHdr, hmetaHdr, h⟩ := h
  have hmeta := inBounds_readAelibMetaHeader ⟨metaHdr, hmetaHdr⟩
  rw [readAelibMetaHeader_ok hmeta] at hmetaHdr
  obtain rfl := Except.ok.inj hmetaHdr
  rw [inBounds_bind] at h
  obtain ⟨total, htotal, _⟩ := h
  refine ⟨hmeta, ?_⟩
  by_cases hzero : entryCount file.bytes = 0
  · omega
  · have hall : metaOffset file.bytes + 14 + (0 + entryCount file.bytes) * 18 ≤
        file.bytes.length := inBounds_totalTypeData ⟨total, htotal⟩ hzero
    omega

/-! ## §3 Searching a symbol -/

section

variable {data : Bytes} {name : CString} {kind : Int}

/-- One turn of the search, at the positions that the file gives. -/
theorem findSymbolFrom_succ (n i : Nat) :
    findSymbolFrom (readerOf data) name kind (n + 1) i = do
      let nameOff ← readLE 4 data (entryOffset data i)
      if !(← strEq data (metaOffset data + nameOff) name.1) then
        findSymbolFrom (readerOf data) name kind n (i + 1)
      else
        let k ← byteAt data (entryOffset data i + 4)
        if kind ≥ 0 && k ≠ UInt8.ofNat (kind % 256).toNat then
          findSymbolFrom (readerOf data) name kind n (i + 1)
        else
          let outName ← cStringAt data (metaOffset data + nameOff)
          let flags ← byteAt data (entryOffset data i + 5)
          let tdOffset ← readLE 4 data (entryOffset data i + 10)
          let tdSize ← readLE 4 data (entryOffset data i + 14)
          return some {
            name := outName, kind := k, flags := flags, tdOffset := tdOffset, tdSize := tdSize } :=
  rfl

/-- A search stays inside when every name it can come to is terminated. -/
theorem findSymbolFrom_inBounds {n i : Nat}
    (hentries : entryOffset data (i + n) ≤ data.length)
    (hnames : ∀ j, i ≤ j → j < i + n → Terminated data (namePosition data j)) :
    InBounds (findSymbolFrom (readerOf data) name kind n i) := by
  induction n generalizing i with
  | zero => exact inBounds_pure _
  | succ n ih =>
    have hrest : InBounds (findSymbolFrom (readerOf data) name kind n (i + 1)) :=
      ih (by rwa [Nat.add_right_comm]) fun j hij hj => hnames j (by omega) (by omega)
    have hname := hnames i (Nat.le_refl i) (by omega)
    have hentry : entryOffset data i + 18 ≤ data.length := by
      simp only [entryOffset] at hentries ⊢
      omega
    rw [findSymbolFrom_succ, readLE_field (by omega), ok_bind]
    obtain ⟨same, hsame⟩ := inBounds_strEq name.2 hname
    rw [← namePosition, hsame, ok_bind]
    cases same with
    | false => exact hrest
    | true =>
      obtain ⟨k, hk⟩ := inBounds_byteAt.mpr (show entryOffset data i + 4 < data.length by omega)
      rw [Bool.not_true, if_neg Bool.false_ne_true, hk, ok_bind]
      split
      · exact hrest
      · obtain ⟨str, hstr⟩ := inBounds_cStringAt.mpr hname
        obtain ⟨flags, hflags⟩ :=
          inBounds_byteAt.mpr (show entryOffset data i + 5 < data.length by omega)
        rw [hstr, ok_bind, hflags, ok_bind, readLE_field (by omega), ok_bind,
          readLE_field (by omega), ok_bind]
        exact inBounds_pure _

/-- A name longer than the file is compared with every entry's. -/
theorem findSymbolFrom_long {n i : Nat} (hlong : data.length ≤ name.1.length)
    (h : InBounds (findSymbolFrom (readerOf data) name kind n i)) :
    ∀ j, i ≤ j → j < i + n → InBounds (strEq data (namePosition data j) name.1) := by
  induction n generalizing i with
  | zero =>
    intro j hij hj
    omega
  | succ n ih =>
    rw [findSymbolFrom_succ, inBounds_bind] at h
    obtain ⟨nameOff, hoff, h⟩ := h
    have hentry := inBounds_readLE.mp ⟨nameOff, hoff⟩
    rw [readLE_field (by omega)] at hoff
    obtain rfl := Except.ok.inj hoff
    rw [← namePosition, inBounds_bind] at h
    obtain ⟨same, hsame, h⟩ := h
    cases same with
    | true =>
      have := strEq_true hsame
      omega
    | false =>
      intro j hij hj
      by_cases hfirst : j = i
      · subst hfirst
        exact ⟨_, hsame⟩
      · exact ih h j (by omega) (by omega)

/-- Searches for every name stay inside only if every name of the file is
terminated: where one is not, the bytes up to the end of the file begin a
name for which the comparison runs over the end. -/
theorem terminated_of_findSymbol {n : Nat}
    (h : ∀ name kind, InBounds (findSymbolFrom (readerOf data) name kind n 0)) :
    ∀ j < n, Terminated data (namePosition data j) := by
  intro j hj
  by_contra hopen
  have hnul : 0 ∉ data.drop (namePosition data j) ++ List.replicate data.length 1 := by
    rw [List.mem_append, List.mem_replicate, ← terminated_iff]
    simp [hopen]
  have hlong : data.length ≤
      (data.drop (namePosition data j) ++ List.replicate data.length 1).length := by
    simp
  exact not_inBounds_strEq_of_prefix
    (findSymbolFrom_long hlong (h ⟨_, hnul⟩ 0) j (Nat.zero_le j) (by omega))

end

/-! ## §4 Strings and the code section -/

theorem getString_inBounds {data : Bytes} :
    (∀ offset, InBounds (aelibGetString (readerOf data) offset)) ↔
      stringTableRoom data = 0 ∨
        Terminated data (stringTableStart data + (min (stringTableRoom data) UInt32.size - 1)) := by
  have hstring : ∀ offset : UInt32, InBounds (aelibGetString (readerOf data) offset) ↔
      (offset.toNat < stringTableRoom data →
        Terminated data (stringTableStart data + offset.toNat)) := by
    intro offset
    rw [aelibGetString, readerOf_stringTableSize, readerOf_stringTableOff, readerOf_data]
    split
    · next hge =>
      have hout : ¬ offset.toNat < stringTableRoom data := Nat.not_lt.mpr hge
      simp [hout]
    · next hlt =>
      have hin : offset.toNat < stringTableRoom data := Nat.not_le.mp hlt
      rw [inBounds_map, inBounds_cStringAt]
      simp [hin]
  simp only [hstring]
  constructor
  · intro h
    by_cases hzero : stringTableRoom data = 0
    · exact .inl hzero
    · have hlast : min (stringTableRoom data) UInt32.size - 1 < UInt32.size := by
        have : 0 < UInt32.size := by decide
        omega
      have := h (UInt32.ofNat (min (stringTableRoom data) UInt32.size - 1))
      rw [UInt32.toNat_ofNat_of_lt' hlast] at this
      exact .inr (this (by omega))
  · intro h offset hoffset
    obtain hzero | hterm := h
    · omega
    · have hlt : offset.toNat < UInt32.size := offset.toNat_lt
      exact hterm.mono (by omega)

theorem codeSection_inBounds {data : Bytes} :
    InBounds (aelibGetCodeSection (readerOf data)) ↔
      codeSize data = 0 ∨ codeOffset data + codeSize data ≤ data.length :=
  inBounds_readBytes

theorem extractObject_inBounds {file : AelibFile}
    (hopen : aelibOpen file = .ok (some (readerOf file.bytes)))
    (hcode : InBounds (aelibGetCodeSection (readerOf file.bytes))) :
    InBounds (aelibExtractObject file) := by
  obtain ⟨code, hcode⟩ := hcode
  rw [aelibExtractObject, hopen, ok_bind]
  simp only [hcode, ok_bind]
  split
  · exact inBounds_pure _
  · exact inBounds_pure _

/-! ## §5 The condition -/

/-- For every file that `aelib_validate` accepts, opening it and calling
the reader stays inside the file exactly when its sections do. -/
theorem readerSafe_iff (file : AelibFile) (hvalid : aelibValidate file = true) :
    ReaderSafe file ↔ SectionsInside file := by
  constructor
  · intro h
    obtain ⟨r, hopen, hfind, hstring, hcode, _⟩ := h
    obtain ⟨hmeta, hentries⟩ := open_inBounds hvalid ⟨_, hopen⟩
    obtain rfl : readerOf file.bytes = r := by
      rw [aelibOpen_ok hvalid hmeta hentries] at hopen
      exact Option.some.inj (Except.ok.inj hopen)
    exact {
      metaHeader := hmeta
      entries := hentries
      names := terminated_of_findSymbol hfind
      strings := getString_inBounds.mp hstring
      code := codeSection_inBounds.mp hcode }
  · intro h
    have hopen := aelibOpen_ok hvalid h.metaHeader h.entries
    have hcode := codeSection_inBounds.mpr h.code
    have hend : entryOffset file.bytes (0 + entryCount file.bytes) ≤ file.bytes.length := by
      rw [entryOffset, Nat.zero_add]
      exact h.entries
    refine ⟨_, hopen, fun name kind => ?_, getString_inBounds.mpr h.strings, hcode,
      extractObject_inBounds hopen hcode⟩
    show InBounds (findSymbolFrom _ name kind (entryCount file.bytes) 0)
    exact findSymbolFrom_inBounds hend fun j _ hj => h.names j (by omega)

/-- 46 bytes: a header whose sections start at the end of the file. -/
def truncatedFile : AelibFile where
  bytes := aelibMagic ++ [1, 0, 0, 0, 1, 0] ++ [46, 0, 0, 0, 0, 0, 0, 0] ++
    [0, 0, 0, 0, 0, 0, 0, 0] ++ [46, 0, 0, 0, 0, 0, 0, 0] ++ [14, 0, 0, 0, 0, 0, 0, 0]
  size_lt := by decide

theorem truncatedFile_unsafe :
    aelibValidate truncatedFile = true ∧ ¬ ReaderSafe truncatedFile := by
  refine ⟨by decide, fun h => ?_⟩
  -- the metadata header would start where the file ends
  have hopen : aelibOpen truncatedFile = .error 46 := rfl
  obtain ⟨r, hr, _⟩ := h
  rw [hopen] at hr
  cases hr

theorem readerSafe_iff_truncatedFile :
    ReaderSafe truncatedFile ↔ SectionsInside truncatedFile :=
  readerSafe_iff truncatedFile (by decide)

end Aether.Aelib
