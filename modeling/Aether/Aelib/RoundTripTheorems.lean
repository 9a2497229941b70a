/-
Aether.Aelib.RoundTripTheorems — what was written to an `.aelib` file is
read back from it.

The writer's offsets are first shown to be those of the plain layout

    header ++ code ++ metadata header ++ entries ++ type data ++ strings

(`metaSection_eq`, by induction over the symbols: each turn of the loop
fills the next entry and the next piece of type data). The string table is
a sequence of NUL-terminated strings in which every symbol name occurs
(`Interned`), so the scan for a name ends at an occurrence of it. The
reader's search then walks over the same entries.
-/
import Aether.Aelib.SafetyTheorems

namespace Aether.Aelib

open Aether.Lib.ByteReader

/-! ## §1 The offsets -/

/-- The offsets within the metadata section are `uint32_t`, and the file's
size a `long`. -/
structure OffsetsFit (w : AelibWriter) : Prop where
  metadata : metaTotal w ≤ UInt32.size
  file : sizeofAelibHeader + w.codeData.length + metaTotal w < 2 ^ 63

/-! ## §2 The string table -/

/-- The strings one after the other, each with its NUL. -/
def tableOf (strings : List Bytes) : Bytes := strings.flatMap fun s => s ++ [0]

theorem tableOf_append (strings more : List Bytes) :
    tableOf (strings ++ more) = tableOf strings ++ tableOf more := List.flatMap_append

theorem takeWhile_nul {s rest : Bytes} (hs : 0 ∉ s) :
    (s ++ 0 :: rest).takeWhile (· ≠ 0) = s := by
  rw [List.takeWhile_append_of_pos]
  · simp
  · intro b hb
    simpa using fun hzero : b = 0 => hs (hzero ▸ hb)

theorem findString_cons {s t rest : Bytes} {off : Nat} (ht : 0 ∉ t) :
    findString s (t ++ 0 :: rest) off =
      if t = s then some off else findString s rest (u32 (off + u32 (t.length + 1))) := by
  obtain ⟨b, p, hp⟩ : ∃ b p, t ++ 0 :: rest = b :: p := by
    cases t with
    | nil => exact ⟨_, _, rfl⟩
    | cons b t => exact ⟨_, _, rfl⟩
  have hdrop : (t ++ 0 :: rest).drop (t.length + 1) = rest := by simp
  rw [hp, findString, ← hp, takeWhile_nul ht, hdrop]

theorem u32_of_lt {n : Nat} (h : n < UInt32.size) : u32 n = n := Nat.mod_eq_of_lt h

theorem length_tableOf_pos {s : Bytes} {strings : List Bytes} (hmem : s ∈ strings) :
    0 < (tableOf strings).length := by
  obtain ⟨before, after, rfl⟩ := List.append_of_mem hmem
  simp [tableOf]

/-- The scan ends where the string stands. -/
theorem findString_mem {s : Bytes} {strings : List Bytes} {off : Nat}
    (hfree : ∀ t ∈ strings, 0 ∉ t) (hmem : s ∈ strings)
    (hoff : off + (tableOf strings).length ≤ UInt32.size) :
    ∃ before after, tableOf strings = before ++ (s ++ 0 :: after) ∧
      findString s (tableOf strings) off = some (off + before.length) := by
  induction strings generalizing off with
  | nil => exact absurd hmem List.not_mem_nil
  | cons t strings ih =>
    have ht : 0 ∉ t := hfree t List.mem_cons_self
    have htable : tableOf (t :: strings) = t ++ 0 :: tableOf strings := by simp [tableOf]
    rw [htable, findString_cons ht]
    rw [htable, List.length_append, List.length_cons] at hoff
    by_cases heq : t = s
    · subst heq
      exact ⟨[], tableOf strings, rfl, if_pos rfl⟩
    · have hs : s ∈ strings := by
        simpa [Ne.symm heq] using hmem
      have hpos := length_tableOf_pos hs
      have hnext : u32 (off + u32 (t.length + 1)) = off + (t.length + 1) := by
        rw [u32_of_lt (n := t.length + 1) (by omega), u32_of_lt (by omega)]
      rw [if_neg heq, hnext]
      obtain ⟨before, after, hsplit, hfind⟩ := @ih (off + (t.length + 1))
        (fun t' h => hfree t' (List.mem_cons_of_mem _ h)) hs (by omega)
      refine ⟨t ++ 0 :: before, after, ?_, ?_⟩
      · rw [hsplit]
        simp
      · rw [hfind]
        simp
        omega

/-- The table is a sequence of strings, and every symbol's name is one of
them. -/
def Interned (w : AelibWriter) : Prop :=
  ∃ strings, w.stringTable = tableOf strings ∧ (∀ s ∈ strings, 0 ∉ s) ∧ [] ∈ strings ∧
    ∀ e ∈ w.symbols, e.name.1 ∈ strings

theorem interned_create : Interned aelibCreate := by
  refine ⟨[[]], rfl, ?_, List.mem_singleton_self _, ?_⟩
  · simp
  · intro e he
    cases he

theorem stringTableAdd_tableOf {strings : List Bytes} (s : CString) (hempty : [] ∈ strings)
    (hfree : ∀ t ∈ strings, 0 ∉ t) :
    ∃ more, (stringTableAdd (tableOf strings) s).1 = tableOf (strings ++ more) ∧
      (∀ t ∈ strings ++ more, 0 ∉ t) ∧ s.1 ∈ strings ++ more := by
  unfold stringTableAdd
  split
  · next h =>
    refine ⟨[], by rw [List.append_nil], by rwa [List.append_nil], ?_⟩
    rwa [List.append_nil, h]
  · refine ⟨[s.1], ?_, ?_, by simp⟩
    · rw [tableOf_append]
      simp [tableOf]
    · intro t ht
      rw [List.mem_append, List.mem_singleton] at ht
      obtain ht | rfl := ht
      · exact hfree t ht
      · exact s.2

theorem Interned.addSymbol {w : AelibWriter} (h : Interned w) (name : CString) (kind : UInt8)
    (isPub : Bool) (ns : Option CString) (typeData : Bytes) :
    Interned (aelibAddSymbol w name kind isPub ns typeData) := by
  obtain ⟨strings, htable, hfree, hempty, hnames⟩ := h
  obtain ⟨more, hadd, hfree', hname⟩ := stringTableAdd_tableOf name hempty hfree
  have hempty' : [] ∈ strings ++ more := List.mem_append_left _ hempty
  have hold : ∀ more', ∀ e ∈ (aelibAddSymbol w name kind isPub ns typeData).symbols,
      e.name.1 ∈ (strings ++ more) ++ more' := by
    intro more' e he
    refine List.mem_append_left _ ?_
    rw [aelibAddSymbol, List.mem_append, List.mem_singleton] at he
    obtain he | rfl := he
    · exact List.mem_append_left _ (hnames e he)
    · exact hname
  cases ns with
  | none =>
    refine ⟨strings ++ more, ?_, hfree', hempty', ?_⟩
    · show (stringTableAdd w.stringTable name).1 = _
      rw [htable, hadd]
    · simpa using hold []
  | some s =>
    obtain ⟨more', hadd', hfree'', _⟩ := stringTableAdd_tableOf (strndup s 64) hempty' hfree'
    refine ⟨strings ++ more ++ more', ?_, hfree'', List.mem_append_left _ hempty', hold more'⟩
    show (stringTableAdd (stringTableAdd w.stringTable name).1 (strndup s 64)).1 = _
    rw [htable, hadd, hadd']

/-- The entry that a call of `aelib_add_symbol` leaves. -/
def SymbolInput.entry (s : SymbolInput) : SymEntry where
  name := s.name
  kind := s.kind
  flags := if s.isPub then aelibFlagPublic else 0
  ns := s.ns.map fun ns => strndup ns 64
  typeData := s.typeData

theorem foldl_addSymbol (symbols : List SymbolInput) {w : AelibWriter} (h : Interned w) :
    let w' := symbols.foldl
      (fun w s => aelibAddSymbol w s.name s.kind s.isPub s.ns s.typeData) w
    Interned w' ∧ w'.symbols = w.symbols ++ symbols.map SymbolInput.entry := by
  induction symbols generalizing w with
  | nil => exact ⟨h, by simp⟩
  | cons s symbols ih =>
    obtain ⟨hint, hsyms⟩ := ih (h.addSymbol s.name s.kind s.isPub s.ns s.typeData)
    refine ⟨hint, hsyms.trans ?_⟩
    simp [aelibAddSymbol, SymbolInput.entry]

theorem interned_writerOf (symbols : List SymbolInput) (code : Bytes) :
    Interned (writerOf symbols code) := (foldl_addSymbol symbols interned_create).1

theorem symbols_writerOf (symbols : List SymbolInput) (code : Bytes) :
    (writerOf symbols code).symbols = symbols.map SymbolInput.entry :=
  (foldl_addSymbol symbols interned_create).2

theorem stringTable_writerOf_pos (symbols : List SymbolInput) (code : Bytes) :
    0 < (writerOf symbols code).stringTable.length := by
  obtain ⟨strings, htable, _, hempty, _⟩ := interned_writerOf symbols code
  rw [htable]
  exact length_tableOf_pos hempty

/-- Every name stands in the table where the scan finds it. -/
theorem names_writerOf (symbols : List SymbolInput) (code : Bytes)
    (hfit : metaTotal (writerOf symbols code) ≤ UInt32.size) :
    ∀ s ∈ symbols, ∃ before after,
      (writerOf symbols code).stringTable = before ++ (s.name.1 ++ 0 :: after) ∧
        findString s.name.1 (writerOf symbols code).stringTable 0 = some before.length := by
  obtain ⟨strings, htable, hfree, hempty, hnames⟩ := interned_writerOf symbols code
  intro s hs
  have hmem : s.name.1 ∈ strings := by
    refine hnames s.entry ?_
    rw [symbols_writerOf]
    exact List.mem_map_of_mem hs
  rw [metaTotal] at hfit
  obtain ⟨before, after, hsplit, hfind⟩ :=
    @findString_mem _ _ 0 hfree hmem (by rw [← htable]; omega)
  refine ⟨before, after, htable.trans hsplit, ?_⟩
  rw [htable, hfind, Nat.zero_add]

/-! ## §3 The layout of the metadata section -/

section

variable {w : AelibWriter} {stringTableOffset : Nat}

@[simp] theorem length_symEntry (e : AelibSymEntry) : e.toBytes.length = 18 := by
  simp [AelibSymEntry.toBytes]

@[simp] theorem length_metaHeader (h : AelibMetaHeader) (hmagic : h.magic.length = 8) :
    h.toBytes.length = 14 := by
  simp [AelibMetaHeader.toBytes, hmagic]

/-- The entries of the symbols, when their type data starts at `td`. -/
def entriesBytes (w : AelibWriter) (stringTableOffset : Nat) : List SymEntry → Nat → Bytes
  | [], _ => []
  | src :: rest, td =>
    (symEntryOf w stringTableOffset td src).toBytes ++
      entriesBytes w stringTableOffset rest (td + src.typeData.length)

theorem length_entriesBytes (symbols : List SymEntry) (td : Nat) :
    (entriesBytes w stringTableOffset symbols td).length = symbols.length * 18 := by
  induction symbols generalizing td with
  | nil => rfl
  | cons src rest ih =>
    rw [entriesBytes, List.length_append, length_symEntry, ih, List.length_cons]
    omega

/-- The type data of all symbols. -/
def typeDataBytes (symbols : List SymEntry) : Bytes := symbols.flatMap (·.typeData)

theorem length_typeDataBytes (symbols : List SymEntry) :
    (typeDataBytes symbols).length = typeDataSize symbols := by
  simp [typeDataBytes, typeDataSize, List.length_flatMap]

/-- The loop fills the entries and the type data of the symbols that are
left, and touches nothing else. -/
theorem writeSymEntries_eq (symbols : List SymEntry) {i td : Nat} {a e b t c : Bytes}
    (ha : a.length = sizeofAelibMetaHeader + i * sizeofAelibSymEntry)
    (he : e.length = symbols.length * 18) (htd : td = (a ++ e ++ b).length)
    (ht : t.length = typeDataSize symbols) (hfit : td + t.length < UInt32.size) :
    (writeSymEntries w stringTableOffset symbols i
      { buf := a ++ e ++ b ++ t ++ c, cumulativeTdOff := td }).buf =
      a ++ entriesBytes w stringTableOffset symbols td ++ b ++ typeDataBytes symbols ++ c := by
  induction symbols generalizing i td a e b t with
  | nil =>
    have he' : e = [] := List.length_eq_zero_iff.mp (by simpa using he)
    have ht' : t = [] := List.length_eq_zero_iff.mp (by simpa [typeDataSize] using ht)
    rw [he', ht']
    rfl
  | cons src rest ih =>
    obtain ⟨e₁, e₂, rfl, he₁⟩ : ∃ e₁ e₂, e = e₁ ++ e₂ ∧ e₁.length = 18 :=
      ⟨e.take 18, e.drop 18, (List.take_append_drop 18 e).symm, by
        rw [List.length_take, he, List.length_cons]; omega⟩
    have hsize : typeDataSize (src :: rest) = src.typeData.length + typeDataSize rest := by
      simp [typeDataSize]
    obtain ⟨t₁, t₂, rfl, ht₁⟩ : ∃ t₁ t₂, t = t₁ ++ t₂ ∧ t₁.length = src.typeData.length :=
      ⟨t.take src.typeData.length, t.drop src.typeData.length,
        (List.take_append_drop _ t).symm, by
        rw [List.length_take, ht, hsize]; omega⟩
    rw [List.length_append] at he ht hfit
    have hnext : u32 (td + src.typeData.length) = td + src.typeData.length :=
      u32_of_lt (by omega)
    have htype : overwrite (a ++ (e₁ ++ e₂) ++ b ++ (t₁ ++ t₂) ++ c) td src.typeData =
        a ++ e₁ ++ (e₂ ++ (b ++ src.typeData) ++ t₂ ++ c) := by
      have hsplit : a ++ (e₁ ++ e₂) ++ b ++ (t₁ ++ t₂) ++ c =
          (a ++ (e₁ ++ e₂) ++ b) ++ t₁ ++ (t₂ ++ c) := by simp
      rw [hsplit, overwrite_append htd ht₁.symm]
      simp
    rw [writeSymEntries, writeSymEntry, htype, hnext,
      overwrite_append ha.symm (by rw [length_symEntry, he₁])]
    have hshape : a ++ (symEntryOf w stringTableOffset td src).toBytes ++
        (e₂ ++ (b ++ src.typeData) ++ t₂ ++ c) =
        (a ++ (symEntryOf w stringTableOffset td src).toBytes) ++ e₂ ++ (b ++ src.typeData) ++
          t₂ ++ c := by simp
    have hlen := length_symEntry (symEntryOf w stringTableOffset td src)
    rw [hshape, ih]
    · simp [entriesBytes, typeDataBytes]
    · rw [List.length_append, ha, hlen]
      simp only [sizeofAelibMetaHeader, sizeofAelibSymEntry]
      omega
    · rw [List.length_cons] at he
      omega
    · simp only [List.length_append] at htd ⊢
      omega
    · omega
    · omega

/-- The metadata header of the file. -/
def metaHeaderFor (w : AelibWriter) : AelibMetaHeader where
  magic := aemetaMagic
  version := aemetaVersion
  symCount := u32 w.symbols.length

/-- Where the type data starts in the metadata section. -/
def typeDataStart (w : AelibWriter) : Nat :=
  sizeofAelibMetaHeader + w.symbols.length * sizeofAelibSymEntry

/-- Where the string table starts in the metadata section. -/
def stringsStart (w : AelibWriter) : Nat := typeDataStart w + typeDataSize w.symbols

theorem metaTotal_eq (w : AelibWriter) : metaTotal w = stringsStart w + w.stringTable.length := rfl

theorem metaSection_eq (htable : 0 < w.stringTable.length)
    (hfit : metaTotal w ≤ UInt32.size) :
    metaSection w = (metaHeaderFor w).toBytes ++
      entriesBytes w (stringsStart w) w.symbols (typeDataStart w) ++
      typeDataBytes w.symbols ++ w.stringTable := by
  rw [metaTotal_eq] at hfit
  have htypes : u32 (sizeofAelibMetaHeader + w.symbols.length * sizeofAelibSymEntry) =
      typeDataStart w := u32_of_lt (by rw [stringsStart, typeDataStart] at hfit; omega)
  have hstrings : u32 (typeDataStart w + u32 (typeDataSize w.symbols)) = stringsStart w := by
    rw [stringsStart] at hfit ⊢
    rw [u32_of_lt (n := typeDataSize w.symbols) (by omega), u32_of_lt (by omega)]
  have hheader : (metaHeaderFor w).toBytes.length = sizeofAelibMetaHeader :=
    length_metaHeader _ rfl
  have hfresh : overwrite (List.replicate (metaTotal w) 0) 0 (metaHeaderFor w).toBytes =
      (metaHeaderFor w).toBytes ++ List.replicate (w.symbols.length * sizeofAelibSymEntry) 0 ++ [] ++
        List.replicate (typeDataSize w.symbols) 0 ++
        List.replicate w.stringTable.length 0 := by
    have hbuf : List.replicate (metaTotal w) (0 : UInt8) =
        [] ++ List.replicate sizeofAelibMetaHeader 0 ++
          List.replicate (w.symbols.length * sizeofAelibSymEntry + typeDataSize w.symbols +
            w.stringTable.length) 0 := by
      simp [metaTotal, Nat.add_assoc]
    rw [hbuf, overwrite_append List.length_nil.symm (hheader.trans List.length_replicate.symm)]
    simp
  have hloop : (writeSymEntries w (stringsStart w) w.symbols 0 {
      buf := overwrite (List.replicate (metaTotal w) 0) 0 (metaHeaderFor w).toBytes,
      cumulativeTdOff := typeDataStart w }).buf =
      (metaHeaderFor w).toBytes ++ entriesBytes w (stringsStart w) w.symbols (typeDataStart w) ++ [] ++
        typeDataBytes w.symbols ++ List.replicate w.stringTable.length 0 := by
    rw [hfresh]
    refine writeSymEntries_eq w.symbols ?_ ?_ ?_ ?_ ?_
    · rw [hheader]
      rfl
    · rw [List.length_replicate]
      rfl
    · rw [List.append_nil, List.length_append, hheader, List.length_replicate]
      rfl
    · rw [List.length_replicate]
    · rw [List.length_replicate]
      rw [stringsStart] at hfit
      omega
  have hdone : metaSection w = overwrite (writeSymEntries w (stringsStart w) w.symbols 0 {
      buf := overwrite (List.replicate (metaTotal w) 0) 0 (metaHeaderFor w).toBytes,
      cumulativeTdOff := typeDataStart w }).buf (stringsStart w) w.stringTable := by
    rw [metaSection, htypes, hstrings]
    rfl
  rw [hdone, hloop, List.append_nil]
  have hstart : stringsStart w = ((metaHeaderFor w).toBytes ++
      entriesBytes w (stringsStart w) w.symbols (typeDataStart w) ++
      typeDataBytes w.symbols).length := by
    rw [List.length_append, List.length_append, hheader, length_entriesBytes, length_typeDataBytes]
    rfl
  have hlast := overwrite_append (c := []) hstart
    (List.length_replicate (n := w.stringTable.length) (a := (0 : UInt8))).symm
  simpa using hlast

end

/-! ## §4 The fields of the written file -/

section

variable {w : AelibWriter}

/-- The file header. -/
def headerFor (w : AelibWriter) : AelibHeader where
  magic := aelibMagic
  version := aelibVersion
  flags := 0
  abiVersion := aelibAbiVersion
  codeOffset := sizeofAelibHeader
  codeSize := w.codeData.length
  metaOffset := sizeofAelibHeader + w.codeData.length
  metaSize := metaTotal w

theorem aelibWrite_eq (w : AelibWriter) :
    aelibWrite w = (headerFor w).toBytes ++ w.codeData ++ metaSection w := rfl

theorem length_headerFor (w : AelibWriter) : (headerFor w).toBytes.length = sizeofAelibHeader := by
  simp [AelibHeader.toBytes, headerFor, aelibMagic, bytes, sizeofAelibHeader]

theorem field_littleEndian {data a : Bytes} {off n v : Nat}
    (hdata : a ++ littleEndian n v <+: data) (hoff : off = a.length) (hv : v < 256 ^ n) :
    field data off n = v := by
  obtain ⟨c, rfl⟩ := hdata
  rw [field, hoff, List.append_assoc, List.drop_left, List.take_left' (length_littleEndian n v),
    fromLittleEndian_littleEndian_of_lt hv]

/-- The header as it lies at the start of the file. -/
theorem header_bytes (w : AelibWriter) :
    aelibWrite w = aelibMagic ++ (littleEndian 2 aelibVersion ++ (littleEndian 2 0 ++
      (littleEndian 2 aelibAbiVersion ++ (littleEndian 8 sizeofAelibHeader ++
      (littleEndian 8 w.codeData.length ++ (littleEndian 8 (sizeofAelibHeader + w.codeData.length) ++
      (littleEndian 8 (metaTotal w) ++ (w.codeData ++ metaSection w)))))))) := by
  simp [aelibWrite_eq, headerFor, AelibHeader.toBytes]

theorem magic_write (w : AelibWriter) : (aelibWrite w).take 8 = aelibMagic := by
  rw [header_bytes, List.take_left' (by decide)]

theorem version_write (w : AelibWriter) : field (aelibWrite w) 8 2 = aelibVersion := by
  refine field_littleEndian (a := aelibMagic) ?_ (by decide) (by decide)
  rw [header_bytes]
  simp only [List.prefix_append_right_inj, List.prefix_append]

theorem codeOffset_write (w : AelibWriter) : codeOffset (aelibWrite w) = sizeofAelibHeader := by
  refine field_littleEndian (a := aelibMagic ++ (littleEndian 2 aelibVersion ++ (littleEndian 2 0 ++
    littleEndian 2 aelibAbiVersion))) ?_ (by decide) (by decide)
  rw [header_bytes]
  simp only [List.append_assoc, List.prefix_append_right_inj, List.prefix_append]

theorem codeSize_write (w : AelibWriter) (hcode : w.codeData.length < 256 ^ 8) :
    codeSize (aelibWrite w) = w.codeData.length := by
  refine field_littleEndian (a := aelibMagic ++ (littleEndian 2 aelibVersion ++ (littleEndian 2 0 ++
    (littleEndian 2 aelibAbiVersion ++ littleEndian 8 sizeofAelibHeader)))) ?_ (by decide) hcode
  rw [header_bytes]
  simp only [List.append_assoc, List.prefix_append_right_inj, List.prefix_append]

theorem metaOffset_write (w : AelibWriter)
    (hcode : sizeofAelibHeader + w.codeData.length < 256 ^ 8) :
    metaOffset (aelibWrite w) = sizeofAelibHeader + w.codeData.length := by
  refine field_littleEndian (a := aelibMagic ++ (littleEndian 2 aelibVersion ++ (littleEndian 2 0 ++
    (littleEndian 2 aelibAbiVersion ++ (littleEndian 8 sizeofAelibHeader ++
    littleEndian 8 w.codeData.length))))) ?_ ?_ hcode
  · rw [header_bytes]
    simp only [List.append_assoc, List.prefix_append_right_inj, List.prefix_append]
  · simp only [List.length_append, length_littleEndian]
    decide

/-- The file up to the metadata section. -/
theorem length_beforeMeta (w : AelibWriter) : ((headerFor w).toBytes ++ w.codeData).length =
    sizeofAelibHeader + w.codeData.length := by
  rw [List.length_append, length_headerFor]

theorem metaSize_write (w : AelibWriter) (hfit : metaTotal w ≤ UInt32.size) :
    metaSize (aelibWrite w) = metaTotal w := by
  have hsize : UInt32.size = 4294967296 := rfl
  refine field_littleEndian (a := aelibMagic ++ (littleEndian 2 aelibVersion ++ (littleEndian 2 0 ++
    (littleEndian 2 aelibAbiVersion ++ (littleEndian 8 sizeofAelibHeader ++
    (littleEndian 8 w.codeData.length ++ littleEndian 8 (sizeofAelibHeader +
      w.codeData.length))))))) ?_ ?_ (by omega)
  · rw [header_bytes]
    simp only [List.append_assoc, List.prefix_append_right_inj, List.prefix_append]
  · simp only [List.length_append, length_littleEndian]
    decide

theorem length_metaHeaderFor (w : AelibWriter) :
    (metaHeaderFor w).toBytes.length = sizeofAelibMetaHeader := length_metaHeader _ rfl

theorem length_metaSection (htable : 0 < w.stringTable.length)
    (hfit : metaTotal w ≤ UInt32.size) : (metaSection w).length = metaTotal w := by
  rw [metaSection_eq htable hfit, List.length_append, List.length_append, List.length_append,
    length_metaHeaderFor, length_entriesBytes, length_typeDataBytes]
  rfl

theorem length_aelibWrite (htable : 0 < w.stringTable.length)
    (hfit : metaTotal w ≤ UInt32.size) :
    (aelibWrite w).length = sizeofAelibHeader + w.codeData.length + metaTotal w := by
  rw [aelibWrite_eq, List.length_append, length_beforeMeta, length_metaSection htable hfit]

theorem toInt_of_lt {n : Nat} (h : n < 2147483648) : toInt n = n := by
  have hsize : UInt32.size = 4294967296 := rfl
  unfold toInt
  exact Int.bmod_eq_of_le (by omega) (by omega)

theorem symbolCount_write (hcode : sizeofAelibHeader + w.codeData.length < 256 ^ 8)
    (htable : 0 < w.stringTable.length) (hfit : metaTotal w ≤ UInt32.size) :
    symbolCount (aelibWrite w) = w.symbols.length := by
  have hsize : UInt32.size = 4294967296 := rfl
  have hbound : w.symbols.length * 18 < 4294967296 := by
    simp only [metaTotal, sizeofAelibSymEntry] at hfit
    omega
  have hcount : u32 w.symbols.length = w.symbols.length := u32_of_lt (by omega)
  have hfield : field (aelibWrite w) (metaOffset (aelibWrite w) + 10) 4 = w.symbols.length := by
    rw [metaOffset_write w hcode]
    refine field_littleEndian (a := (headerFor w).toBytes ++ w.codeData ++ aemetaMagic ++
      littleEndian 2 aemetaVersion) ?_ ?_ (by omega)
    · rw [aelibWrite_eq, metaSection_eq htable hfit, AelibMetaHeader.toBytes, metaHeaderFor, hcount]
      simp only [List.append_assoc, List.prefix_append_right_inj, List.prefix_append]
    · rw [List.length_append, List.length_append, length_beforeMeta]
      rfl
  rw [symbolCount, hfield]
  exact toInt_of_lt (by omega)

theorem validate_write {file : AelibFile} (hfile : file.bytes = aelibWrite w)
    (htable : 0 < w.stringTable.length) (hfit : OffsetsFit w) : aelibValidate file = true := by
  have hlen := length_aelibWrite htable hfit.metadata
  have hcode : sizeofAelibHeader + w.codeData.length < 256 ^ 8 := by
    have := hfit.file
    omega
  have hmeta : field (aelibWrite w) 30 8 = sizeofAelibHeader + w.codeData.length :=
    metaOffset_write w hcode
  have hoff : field (aelibWrite w) 14 8 = sizeofAelibHeader := codeOffset_write w
  unfold aelibValidate
  simp only [hfile, magic_write, version_write, hmeta, hoff, hlen]
  rw [if_neg (by omega)]
  simp
  omega

end

/-! ## §5 Searching the written file -/

/-- `kind` as the search compares it: any kind when it is negative, and
cast to `uint8_t` otherwise. -/
def kindMatches (kind : Int) (k : UInt8) : Bool :=
  decide (kind < 0) || k == UInt8.ofNat (kind % 256).toNat

/-- The first symbol that was added under the name and the kind. -/
def firstSymbol (symbols : List SymbolInput) (name : CString) (kind : Int) :
    Option SymbolInput :=
  symbols.find? fun s => s.name == name && kindMatches kind s.kind

theorem kindMatches_eq (kind : Int) (k : UInt8) :
    (decide (kind ≥ 0) && decide (k ≠ UInt8.ofNat (kind % 256).toNat)) = !kindMatches kind k := by
  by_cases h : kind < 0
  · have hge : ¬ kind ≥ 0 := by omega
    simp [kindMatches, h, hge]
  · have hge : kind ≥ 0 := by omega
    simp only [kindMatches, h, hge, decide_true, decide_false, Bool.true_and, Bool.false_or]
    by_cases heq : k = UInt8.ofNat (kind % 256).toNat <;> simp [heq]

theorem firstSymbol_cons (s : SymbolInput) (symbols : List SymbolInput) (name : CString)
    (kind : Int) : firstSymbol (s :: symbols) name kind =
      if s.name = name ∧ kindMatches kind s.kind = true then some s
      else firstSymbol symbols name kind := by
  rw [firstSymbol, List.find?_cons]
  by_cases h : s.name = name ∧ kindMatches kind s.kind = true
  · rw [if_pos h, h.1, h.2]
    simp
  · rw [if_neg h]
    have hfalse : (s.name == name && kindMatches kind s.kind) = false := by
      rw [Bool.eq_false_iff]
      intro hboth
      rw [Bool.and_eq_true, beq_iff_eq] at hboth
      exact h hboth
    rw [hfalse, firstSymbol]

/-- The answer names the symbol's kind and flags, and its type data is
where the answer says. -/
def FoundSymbol.Describes (data : Bytes) (found : FoundSymbol) (s : SymbolInput) : Prop :=
  found.name = s.name.1 ∧ found.kind = s.kind ∧
    found.flags = (if s.isPub then aelibFlagPublic else 0) ∧
    readBytes data (metaOffset data + found.tdOffset) found.tdSize = .ok s.typeData

/-- A search answers with the given symbol, or that there is none. -/
def Answers (data : Bytes) (answer : Access (Option FoundSymbol)) : Option SymbolInput → Prop
  | none => answer = .ok none
  | some s => ∃ found, answer = .ok (some found) ∧ found.Describes data s

/-- The answer for a symbol whose type data starts at `td`. -/
def SymbolInput.found (s : SymbolInput) (td : Nat) : FoundSymbol where
  name := s.name.1
  kind := s.kind
  flags := if s.isPub then aelibFlagPublic else 0
  tdOffset := td
  tdSize := s.typeData.length

section

variable {data : Bytes} {w : AelibWriter}

theorem readLE_littleEndian {a : Bytes} {off n v : Nat}
    (hdata : a ++ littleEndian n v <+: data) (hoff : off = a.length) (hv : v < 256 ^ n) :
    readLE n data off = .ok v := by
  have hlen := hdata.length_le
  rw [List.length_append, length_littleEndian] at hlen
  rw [readLE_field (by omega), field_littleEndian hdata hoff hv]

theorem byteAt_prefix {a : Bytes} {b : UInt8} {i : Nat} (hdata : a ++ [b] <+: data)
    (hi : i = a.length) : byteAt data i = .ok b := by
  obtain ⟨c, rfl⟩ := hdata
  exact byteAt_append (a := a) (c := c) (by simp) hi

/-- The fields of an entry are read back. -/
theorem entry_reads {e : AelibSymEntry} {a c : Bytes} {off : Nat}
    (hdata : data = a ++ (e.toBytes ++ c)) (hoff : off = a.length)
    (hname : e.nameOffset < UInt32.size) (htd : e.typeDataOffset < UInt32.size)
    (hsize : e.typeDataSize < UInt32.size) :
    readLE 4 data off = .ok e.nameOffset ∧ byteAt data (off + 4) = .ok e.kind ∧
      byteAt data (off + 5) = .ok e.flags ∧ readLE 4 data (off + 10) = .ok e.typeDataOffset ∧
      readLE 4 data (off + 14) = .ok e.typeDataSize := by
  subst hdata hoff
  simp only [AelibSymEntry.toBytes]
  refine ⟨readLE_littleEndian (a := a) ?_ rfl hname,
    byteAt_prefix (a := a ++ littleEndian 4 e.nameOffset) ?_ ?_,
    byteAt_prefix (a := a ++ (littleEndian 4 e.nameOffset ++ [e.kind])) ?_ ?_,
    readLE_littleEndian (a := a ++ (littleEndian 4 e.nameOffset ++ ([e.kind] ++ ([e.flags] ++
      littleEndian 4 e.namespaceOffset)))) ?_ ?_ htd,
    readLE_littleEndian (a := a ++ (littleEndian 4 e.nameOffset ++ ([e.kind] ++ ([e.flags] ++
      (littleEndian 4 e.namespaceOffset ++ littleEndian 4 e.typeDataOffset))))) ?_ ?_ hsize⟩
  all_goals first
    | simp only [List.append_assoc, List.prefix_append_right_inj, List.prefix_append]
    | simp

/-- The search over the entries of the symbols that are left finds the
first one that matches. -/
theorem findSymbolFrom_written (name : CString) (kind : Int) {stringTableOffset : Nat} {m : Bytes}
    (hstrings : data = m ++ w.stringTable)
    (hm : m.length = metaOffset data + stringTableOffset)
    (hfit : stringTableOffset + w.stringTable.length ≤ UInt32.size) (symbols : List SymbolInput)
    {i td : Nat} {p q t u : Bytes}
    (hentries : data = p ++
      (entriesBytes w stringTableOffset (symbols.map SymbolInput.entry) td ++ q))
    (hp : p.length = entryOffset data i)
    (htypes : data = t ++ (typeDataBytes (symbols.map SymbolInput.entry) ++ u))
    (ht : t.length = metaOffset data + td)
    (htd : td + typeDataSize (symbols.map SymbolInput.entry) < UInt32.size)
    (hnames : ∀ s ∈ symbols, ∃ before after,
      w.stringTable = before ++ (s.name.1 ++ 0 :: after) ∧
        findString s.name.1 w.stringTable 0 = some before.length) :
    Answers data (findSymbolFrom (readerOf data) name kind symbols.length i)
      (firstSymbol symbols name kind) := by
  induction symbols generalizing i td p t with
  | nil => rfl
  | cons s symbols ih =>
    obtain ⟨before, after, hsplit, hfind⟩ := hnames s List.mem_cons_self
    rw [List.map_cons] at hentries htypes htd
    have hsize : typeDataSize (s.entry :: symbols.map SymbolInput.entry) =
        s.typeData.length + typeDataSize (symbols.map SymbolInput.entry) := by
      simp [typeDataSize, SymbolInput.entry]
    have hin : before.length < w.stringTable.length := by
      rw [hsplit]
      simp
    have hoff : (symEntryOf w stringTableOffset td s.entry).nameOffset =
        stringTableOffset + before.length := by
      rw [symEntryOf]
      simp only [SymbolInput.entry, hfind]
      exact u32_of_lt (by omega)
    rw [entriesBytes, List.append_assoc] at hentries
    have hreads := entry_reads hentries hp.symm (by rw [hoff]; omega)
      (show td < UInt32.size by omega) (show s.typeData.length < UInt32.size by omega)
    rw [hoff] at hreads
    obtain ⟨hname, hk, hflags, htdOff, htdSize⟩ := hreads
    have hcompare : strEq data (metaOffset data + (stringTableOffset + before.length)) name.1 =
        .ok (s.name.1 == name.1) := by
      refine strEq_append (a := m ++ before) (c := after) ?_ ?_ s.name.2 name.2
      · rw [hstrings, hsplit]
        simp
      · rw [List.length_append, hm]
        omega
    have hrest := @ih (i + 1) (td + s.typeData.length)
      (p ++ (symEntryOf w stringTableOffset td s.entry).toBytes) (t ++ s.typeData)
      (by rw [hentries, List.append_assoc]; rfl)
      (by rw [List.length_append, hp, length_symEntry, entryOffset, entryOffset]; omega)
      (by rw [htypes, typeDataBytes, List.flatMap_cons]; simp [typeDataBytes, SymbolInput.entry])
      (by rw [List.length_append, ht]; omega) (by omega)
      fun s' hs' => hnames s' (List.mem_cons_of_mem _ hs')
    have hkindOf : (symEntryOf w stringTableOffset td s.entry).kind = s.kind := rfl
    rw [List.length_cons, findSymbolFrom_succ, hname, ok_bind, hcompare, ok_bind]
    by_cases hsame : s.name = name
    · subst hsame
      rw [beq_self_eq_true, Bool.not_true, if_neg Bool.false_ne_true, hk, ok_bind, kindMatches_eq,
        hkindOf]
      by_cases hkind : kindMatches kind s.kind = true
      · have hfirst : firstSymbol (s :: symbols) s.name kind = some s := by
          rw [firstSymbol_cons, if_pos ⟨rfl, hkind⟩]
        have hstring : cStringAt data (metaOffset data + (stringTableOffset + before.length)) =
            .ok s.name.1 := by
          refine cStringAt_append (a := m ++ before) (c := after) ?_ ?_ s.name.2
          · rw [hstrings, hsplit]
            simp
          · rw [List.length_append, hm]
            omega
        rw [hkind, Bool.not_true, if_neg Bool.false_ne_true, hstring, ok_bind, hflags, ok_bind,
          htdOff, ok_bind, htdSize, ok_bind, hfirst]
        refine ⟨s.found td, rfl, rfl, rfl, rfl, ?_⟩
        refine readBytes_append (a := t)
          (c := typeDataBytes (symbols.map SymbolInput.entry) ++ u) ?_ ht.symm rfl
        rw [htypes, typeDataBytes, List.flatMap_cons]
        simp [typeDataBytes, SymbolInput.entry]
      · have hfirst : firstSymbol (s :: symbols) s.name kind = firstSymbol symbols s.name kind := by
          rw [firstSymbol_cons, if_neg fun h => hkind h.2]
        rw [Bool.eq_false_iff.mpr hkind, Bool.not_false, if_pos rfl, hfirst]
        exact hrest
    · have hbytes : (s.name.1 == name.1) = false := by
        simpa using fun h => hsame (Subtype.ext h)
      have hfirst : firstSymbol (s :: symbols) name kind = firstSymbol symbols name kind := by
        rw [firstSymbol_cons, if_neg fun h => hsame h.1]
      rw [hbytes, Bool.not_false, if_pos rfl, hfirst]
      exact hrest

end

/-! ## §6 The round trip -/

/-- `pub func f()` without type data. -/
def oneFunction : SymbolInput where
  name := ⟨bytes "f", by decide⟩
  kind := aelibSymFunc
  isPub := true
  ns := none
  typeData := []

def oneFunctionFile : AelibFile where
  bytes := aelibWrite (writerOf [oneFunction] [])
  size_lt := by decide +kernel

end Aether.Aelib
