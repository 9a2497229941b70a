/-
Aether.Aelib.InterfaceTheorems — what an importer gets to see of the
functions of a library.

`importAelib_written` computes the declarations that importing a written
library adds: one extern function for every exported declaration, functions
or not, with named types only and no `mut`. `interface_round_trip_iff`
states when these are the interface of the program.
-/
import Aether.Aelib.Interface
import Aether.Aelib.RoundTripTheorems
import Mathlib.Data.List.Forall2

namespace Aether.Aelib

open Aether.Lib.ByteReader

/-! ## §1 What is imported -/

-- the equations, before the proofs that share them
section
attribute [local simp] skipString nulTerminated isParam paramTypeData importParams
  buildFuncTypeData importSignature extractSymbol symbolOf symEntryOf importSymbol importSymbols
  codegenExtractMetadata importAelib
end

theorem cString_eq {s : Bytes} (h : 0 ∉ s) : (cString s).1 = s := by
  refine List.takeWhile_eq_self_iff.mpr fun b hb => ?_
  simpa using fun hzero : b = 0 => h (hzero ▸ hb)

def importedParam : AstNode → AstNode
  | .param name type _ _ _ =>
    .param (cString name).1 (some (.typeNamed (cString (typeNodeName type)).1)) false false none
  | node => node

/-- The parameter count that fits its byte. -/
def countByte (params : List AstNode) : Nat := min (params.filter isParam).length 255

/-- The declaration that an exported declaration comes back as. -/
def importedDecl (node : AstNode) : AstNode :=
  match node with
  | .funcDecl name _ params returnType _ _ _ _ =>
    .funcDecl (cString name).1 []
      (((params.filter isParam).take (countByte params)).map importedParam)
      (some (.typeNamed (cString (typeNodeName returnType)).1)) [] [] none
      { isPub := declIsPub node }
  | node => .funcDecl (cString (declName node)).1 [] [] none [] [] none { isPub := declIsPub node }

section

variable {metaBuf : Bytes}

/-- The scan for a NUL stops at it. -/
theorem skipString_append {a s c : Bytes} {td n tp : Nat} (hbuf : metaBuf = a ++ (s ++ 0 :: c))
    (hpos : td + tp = a.length) (hs : 0 ∉ s) (hn : s.length ≤ n) :
    skipString metaBuf td n tp = .ok (tp + s.length) := by
  induction s generalizing a n tp with
  | nil =>
    cases n with
    | zero => rfl
    | succ n =>
      rw [skipString, byteAt_append (by rw [hbuf]; rfl) hpos, ok_bind]
      rfl
  | cons b s ih =>
    cases n with
    | zero =>
      rw [List.length_cons] at hn
      omega
    | succ n =>
      have hb : (b == 0) = false := by
        simpa using fun hzero : b = 0 => hs (hzero ▸ List.mem_cons_self)
      rw [skipString, byteAt_append (by rw [hbuf]; rfl) hpos, ok_bind, hb,
        if_neg Bool.false_ne_true]
      rw [List.length_cons] at hn ⊢
      rw [ih (a := a ++ [b]) (by rw [hbuf]; simp) (by rw [List.length_append]; simp; omega)
        (fun hmem => hs (List.mem_cons_of_mem _ hmem)) (by omega)]
      rw [Nat.add_right_comm, Nat.add_assoc]

@[simp] theorem length_nulTerminated (s : CString) :
    (nulTerminated s).length = s.1.length + 1 := by
  rw [nulTerminated, List.length_append]
  rfl

theorem isParam_cases (node : AstNode) :
    (∃ name type isMut isVarargs dflt, node = .param name type isMut isVarargs dflt) ∨
      (isParam node = false ∧ paramTypeData node = []) := by
  unfold isParam paramTypeData
  split
  · exact .inl ⟨_, _, _, _, _, rfl⟩
  · exact .inr ⟨rfl, rfl⟩

/-- Reading the parameters that were written, up to the count. -/
theorem importParams_written (params : List AstNode) {td tdSz n tp : Nat} {a u : Bytes}
    (hbuf : metaBuf = a ++ (params.flatMap paramTypeData ++ u)) (htp : td + tp = a.length)
    (hsz : tdSz = tp + (params.flatMap paramTypeData).length) :
    importParams metaBuf td tdSz n tp =
      .ok (((params.filter isParam).take n).map importedParam) := by
  induction params generalizing n tp a with
  | nil =>
    cases n with
    | zero => rfl
    | succ n =>
      rw [importParams, if_neg (by rw [hsz]; simp)]
      rfl
  | cons param params ih =>
    obtain ⟨name, type, isMut, isVarargs, dflt, rfl⟩ | ⟨hother, hempty⟩ := isParam_cases param
    · cases n with
      | zero => rfl
      | succ n =>
        generalize hpn : cString name = pn
        generalize hpt : cString (typeNodeName type) = pt
        have hdata : paramTypeData (.param name type isMut isVarargs dflt) =
            pn.1 ++ 0 :: (pt.1 ++ 0 :: [if isMut then 1 else 0]) := by
          simp [paramTypeData, nulTerminated, hpn, hpt]
        rw [List.flatMap_cons, hdata] at hbuf hsz
        simp only [List.length_append, List.length_cons, List.length_nil] at hsz
        have hname : metaBuf = a ++ (pn.1 ++ 0 :: (pt.1 ++ 0 :: ([if isMut then 1 else 0] ++
            (params.flatMap paramTypeData ++ u)))) := by
          rw [hbuf]
          simp
        have htype : metaBuf = (a ++ pn.1 ++ [0]) ++ (pt.1 ++ 0 :: ([if isMut then 1 else 0] ++
            (params.flatMap paramTypeData ++ u))) := by
          rw [hname]
          simp
        have hrest : metaBuf = (a ++ pn.1 ++ [0] ++ pt.1 ++ [0] ++ [if isMut then 1 else 0]) ++
            (params.flatMap paramTypeData ++ u) := by
          rw [hname]
          simp
        have htypePos : td + (tp + pn.1.length + 1) = (a ++ pn.1 ++ [0]).length := by
          simp only [List.length_append, List.length_cons, List.length_nil]
          omega
        rw [importParams, if_pos (by omega), skipString_append hname htp pn.2 (by omega), ok_bind,
          skipString_append htype htypePos pt.2 (by omega), ok_bind]
        dsimp only
        rw [if_pos (by omega), cStringAt_append hname htp pn.2, ok_bind,
          cStringAt_append htype htypePos pt.2, ok_bind, ih hrest, ok_bind]
        · rw [List.filter_cons_of_pos rfl, List.take_succ_cons, List.map_cons, importedParam, hpn, hpt]
          rfl
        · simp only [List.length_append, List.length_cons, List.length_nil]
          omega
        · omega
    · rw [List.flatMap_cons, hempty, List.nil_append] at hbuf hsz
      rw [List.filter_cons_of_neg (by rw [hother]; exact Bool.false_ne_true)]
      exact ih hbuf htp hsz

/-- Reading the signature that was written. -/
theorem importSignature_written (params : List AstNode) (returnType : Option AstNode) {td : Nat}
    {a u : Bytes} (hbuf : metaBuf = a ++ (buildFuncTypeData params returnType ++ u))
    (htd : td = a.length) :
    importSignature metaBuf td (buildFuncTypeData params returnType).length =
      .ok (some (.typeNamed (cString (typeNodeName returnType)).1),
        ((params.filter isParam).take (countByte params)).map importedParam) := by
  generalize hret : cString (typeNodeName returnType) = ret
  have hcount : (UInt8.ofNat (if (params.filter isParam).length > 255 then 255
      else (params.filter isParam).length)).toNat = countByte params := by
    rw [countByte]
    split
    · rw [Nat.min_eq_right (by omega)]
      rfl
    · rw [Nat.min_eq_left (by omega), UInt8.toNat_ofNat_of_lt' (show _ < 256 by omega)]
  have hdata : buildFuncTypeData params returnType = ret.1 ++ 0 :: (UInt8.ofNat
      (if (params.filter isParam).length > 255 then 255 else (params.filter isParam).length) ::
      params.flatMap paramTypeData) := by
    simp [buildFuncTypeData, nulTerminated, hret]
  rw [hdata] at hbuf ⊢
  generalize hpc : UInt8.ofNat (if (params.filter isParam).length > 255 then 255
      else (params.filter isParam).length) = pc at hbuf hcount ⊢
  have hname : metaBuf = a ++ (ret.1 ++ 0 :: (pc :: params.flatMap paramTypeData ++ u)) := by
    rw [hbuf]
    simp
  have hpcAt : metaBuf = (a ++ ret.1 ++ [0]) ++ pc :: (params.flatMap paramTypeData ++ u) := by
    rw [hname]
    simp
  have hrest : metaBuf = (a ++ ret.1 ++ [0] ++ [pc]) ++ (params.flatMap paramTypeData ++ u) := by
    rw [hname]
    simp
  rw [importSignature, cStringAt_append hname htd ret.2, ok_bind]
  simp only [List.length_append, List.length_cons]
  rw [if_pos (by omega), byteAt_append hpcAt (by
    simp only [List.length_append, List.length_cons, List.length_nil]; omega), ok_bind,
    importParams_written params hrest (by
      simp only [List.length_append, List.length_cons, List.length_nil]; omega) (by omega),
    ok_bind, hcount]
  rfl

/-- The declaration that a declaration of the program comes back as, if it
is exported. -/
def importedOf (sourceFrom : AstNode → Bytes) (node : AstNode) : Option AstNode :=
  (extractSymbol sourceFrom node).map fun _ => importedDecl node

theorem extractSymbol_cases {sourceFrom : AstNode → Bytes} {node : AstNode} {s : SymbolInput}
    (h : extractSymbol sourceFrom node = some s) :
    s.name = cString (declName node) ∧ s.isPub = declIsPub node ∧
      ((∃ name typeParams params returnType pre post body info,
          node = .funcDecl name typeParams params returnType pre post body info ∧ s.kind = 0 ∧
          s.typeData = buildFuncTypeData params returnType) ∨
        (s.kind ≠ 0 ∧ importedDecl node = .funcDecl (cString (declName node)).1 [] [] none [] []
          none { isPub := declIsPub node })) := by
  unfold extractSymbol at h
  split at h
  · cases h
  · next kind typeData hsymbol =>
    split at h
    · cases h
    · obtain rfl := Option.some.inj h
      refine ⟨rfl, rfl, ?_⟩
      unfold symbolOf at hsymbol
      split at hsymbol
      · cases hsymbol
        exact .inl ⟨_, _, _, _, _, _, _, _, rfl, rfl, rfl⟩
      · cases hsymbol
        exact .inr ⟨by simp [aelibSymStruct], rfl⟩
      · cases hsymbol
        exact .inr ⟨by simp [aelibSymClass], rfl⟩
      · cases hsymbol
        exact .inr ⟨by simp [aelibSymEnum], rfl⟩
      · cases hsymbol
        exact .inr ⟨by simp [aelibSymConst], rfl⟩
      · cases hsymbol

theorem flag_public (isPub : Bool) :
    decide ((if isPub then aelibFlagPublic else 0) &&& 1 ≠ 0) = isPub := by
  cases isPub
  · decide
  · decide

/-- Importing one symbol that was written. -/
theorem importSymbol_written {sourceFrom : AstNode → Bytes} {node : AstNode} {s : SymbolInput}
    (hs : extractSymbol sourceFrom node = some s) {w : AelibWriter} {start i td : Nat}
    {m p q t u before after : Bytes} (hstrings : metaBuf = m ++ w.stringTable)
    (hm : m.length = start) (hfit : start + w.stringTable.length ≤ UInt32.size)
    (hsplit : w.stringTable = before ++ (s.name.1 ++ 0 :: after))
    (hfind : findString s.name.1 w.stringTable 0 = some before.length)
    (hentry : metaBuf = p ++ ((symEntryOf w start td s.entry).toBytes ++ q))
    (hp : p.length = 14 + i * 18) (htype : metaBuf = t ++ (s.typeData ++ u)) (ht : t.length = td)
    (htd : td + s.typeData.length < UInt32.size) :
    importSymbol metaBuf i = .ok (importedDecl node) := by
  have hin : before.length < w.stringTable.length := by
    rw [hsplit]
    simp
  have hoff : (symEntryOf w start td s.entry).nameOffset = start + before.length := by
    rw [symEntryOf]
    simp only [SymbolInput.entry, hfind]
    exact u32_of_lt (by omega)
  have hreads := entry_reads hentry hp.symm (by rw [hoff]; omega)
    (show td < UInt32.size by omega) (show s.typeData.length < UInt32.size by omega)
  rw [hoff] at hreads
  obtain ⟨hname, hk, hflags, htdOff, htdSize⟩ := hreads
  have hstring : cStringAt metaBuf (start + before.length) = .ok s.name.1 := by
    refine cStringAt_append (a := m ++ before) (c := after) ?_ ?_ s.name.2
    · rw [hstrings, hsplit]
      simp
    · rw [List.length_append, hm]
  obtain ⟨hnameOf, hpub, hcase⟩ := extractSymbol_cases hs
  have hflag : (symEntryOf w start td s.entry).flags = if s.isPub then aelibFlagPublic else 0 := rfl
  have hkind : (symEntryOf w start td s.entry).kind = s.kind := rfl
  have htdSizeOf : (symEntryOf w start td s.entry).typeDataSize = s.typeData.length := rfl
  have htdOffOf : (symEntryOf w start td s.entry).typeDataOffset = td := rfl
  rw [importSymbol, hname, ok_bind, hk, ok_bind, hflags, ok_bind, htdOff, ok_bind, htdSize, ok_bind,
    hstring, ok_bind, hflag, hkind, htdSizeOf, htdOffOf]
  simp only [flag_public]
  obtain ⟨name, typeParams, params, returnType, pre, post, body, info, rfl, hzero, hdata⟩ |
    ⟨hnonzero, himported⟩ := hcase
  · have hpos : s.typeData.length > 0 := by
      rw [hdata, buildFuncTypeData]
      simp
    rw [hdata] at htype
    rw [hzero, decide_eq_true hpos, Bool.true_and, if_pos (beq_self_eq_true 0), hdata,
      importSignature_written params returnType htype ht.symm, ok_bind, hnameOf, hpub]
    rfl
  · have hfalse : (s.kind == 0) = false := by simpa using hnonzero
    rw [hfalse, Bool.and_false, if_neg Bool.false_ne_true, himported, hnameOf, hpub]
    rfl

/-- Importing the symbols of the declarations that are left. -/
theorem importSymbols_written {sourceFrom : AstNode → Bytes} {w : AelibWriter} {start : Nat}
    {m : Bytes} (hstrings : metaBuf = m ++ w.stringTable) (hm : m.length = start)
    (hfit : start + w.stringTable.length ≤ UInt32.size) (program : List AstNode) {i td : Nat}
    {p q t u : Bytes}
    (hentries : metaBuf = p ++ (entriesBytes w start
      ((codegenExtractMetadata sourceFrom program).map SymbolInput.entry) td ++ q))
    (hp : p.length = 14 + i * 18)
    (htypes : metaBuf = t ++ (typeDataBytes
      ((codegenExtractMetadata sourceFrom program).map SymbolInput.entry) ++ u))
    (ht : t.length = td)
    (htd : td + typeDataSize ((codegenExtractMetadata sourceFrom program).map SymbolInput.entry) <
      UInt32.size)
    (hnames : ∀ s ∈ codegenExtractMetadata sourceFrom program, ∃ before after,
      w.stringTable = before ++ (s.name.1 ++ 0 :: after) ∧
        findString s.name.1 w.stringTable 0 = some before.length) :
    importSymbols metaBuf (codegenExtractMetadata sourceFrom program).length i =
      .ok (program.filterMap (importedOf sourceFrom)) := by
  induction program generalizing i td p t with
  | nil => rfl
  | cons node program ih =>
    unfold codegenExtractMetadata at *
    cases hs : extractSymbol sourceFrom node with
    | none =>
      have hnone : importedOf sourceFrom node = none := by rw [importedOf, hs]; rfl
      rw [List.filterMap_cons_none hs] at *
      rw [List.filterMap_cons_none hnone]
      exact ih hentries hp htypes ht htd hnames
    | some s =>
      have hsome : importedOf sourceFrom node = some (importedDecl node) := by
        rw [importedOf, hs]
        rfl
      rw [List.filterMap_cons_some hs] at *
      rw [List.filterMap_cons_some hsome]
      obtain ⟨before, after, hsplit, hfind⟩ := hnames s List.mem_cons_self
      rw [List.map_cons, entriesBytes, List.append_assoc] at hentries
      rw [List.map_cons, typeDataBytes, List.flatMap_cons, List.append_assoc] at htypes
      have hsize : typeDataSize (s.entry :: (program.filterMap (extractSymbol sourceFrom)).map
          SymbolInput.entry) = s.typeData.length +
          typeDataSize ((program.filterMap (extractSymbol sourceFrom)).map SymbolInput.entry) := by
        simp [typeDataSize, SymbolInput.entry]
      rw [List.map_cons, hsize] at htd
      have hrest := @ih (i + 1) (td + s.typeData.length)
        (p ++ (symEntryOf w start td s.entry).toBytes) (t ++ s.typeData)
        (by rw [hentries, List.append_assoc]; rfl)
        (by rw [List.length_append, hp, length_symEntry]; omega)
        (by rw [htypes, List.append_assoc]; rfl) (by rw [List.length_append, ht]) (by omega)
        fun s' hs' => hnames s' (List.mem_cons_of_mem _ hs')
      rw [List.length_cons, importSymbols, importSymbol_written hs hstrings hm hfit hsplit hfind
        hentries hp htypes ht (by omega), ok_bind, hrest, ok_bind]
      rfl

/-- What the importer adds for a library that was written. -/
theorem importAelib_written (sourceFrom : AstNode → Bytes) (program : List AstNode) (code : Bytes)
    (file : AelibFile)
    (hfile : file.bytes = aelibWrite (writerOf (codegenExtractMetadata sourceFrom program) code))
    (hfit : OffsetsFit (writerOf (codegenExtractMetadata sourceFrom program) code)) :
    importAelib file = .ok (program.filterMap (importedOf sourceFrom)) := by
  have hsymbols := symbols_writerOf (codegenExtractMetadata sourceFrom program) code
  have hpos := stringTable_writerOf_pos (codegenExtractMetadata sourceFrom program) code
  have hnames := names_writerOf (codegenExtractMetadata sourceFrom program) code hfit.metadata
  revert hfile hfit hsymbols hpos hnames
  generalize writerOf (codegenExtractMetadata sourceFrom program) code = w
  intro hfile hfit hsymbols hpos hnames
  have hcode : sizeofAelibHeader + w.codeData.length < 256 ^ 8 := by
    have := hfit.file
    omega
  have hmeta : field file.bytes 30 8 = _ := hfile ▸ metaOffset_write w hcode
  have hsize : field file.bytes 38 8 = _ := hfile ▸ metaSize_write w hfit.metadata
  have hlen : file.bytes.length = _ := hfile ▸ length_aelibWrite hpos hfit.metadata
  have htotal : metaTotal w = 14 + w.symbols.length * 18 + typeDataSize w.symbols +
      w.stringTable.length := rfl
  have hheader : sizeofAelibHeader = 46 := rfl
  have hbuf : (file.bytes.drop (sizeofAelibHeader + w.codeData.length)).take (metaTotal w) =
      metaSection w := by
    rw [hfile, aelibWrite_eq, List.drop_left' (length_beforeMeta w),
      ← length_metaSection hpos hfit.metadata, List.take_length]
  have hlayout := metaSection_eq hpos hfit.metadata
  have hcount : readLE 4 (metaSection w) 10 =
      .ok (codegenExtractMetadata sourceFrom program).length := by
    have hbound : UInt32.size = 256 ^ 4 := rfl
    have hsyms : w.symbols.length = (codegenExtractMetadata sourceFrom program).length := by
      rw [hsymbols, List.length_map]
    have hfits := hfit.metadata
    rw [← hsyms, ← u32_of_lt (n := w.symbols.length) (by omega)]
    refine readLE_littleEndian (a := aemetaMagic ++ littleEndian 2 aemetaVersion) ?_ rfl ?_
    · rw [hlayout]
      simp only [metaHeaderFor, AelibMetaHeader.toBytes, List.append_assoc,
        List.prefix_append_right_inj, List.prefix_append]
    · rw [u32_of_lt (by omega)]
      omega
  rw [importAelib]
  dsimp only
  rw [hmeta, hsize, if_neg (by omega), if_neg (by omega), if_neg (by omega), hbuf, hcount, ok_bind]
  have hfits := hfit.metadata
  rw [metaTotal_eq] at hfits
  have hcountOf : w.symbols.length = (codegenExtractMetadata sourceFrom program).length := by
    rw [hsymbols, List.length_map]
  have hstart : stringsStart w = typeDataStart w +
      typeDataSize ((codegenExtractMetadata sourceFrom program).map SymbolInput.entry) := by
    rw [stringsStart, hsymbols]
  have htypeStart : typeDataStart w =
      sizeofAelibMetaHeader + (codegenExtractMetadata sourceFrom program).length * 18 := by
    rw [typeDataStart, hcountOf]
    rfl
  rw [hsymbols] at hlayout
  have hentries : metaSection w = (metaHeaderFor w).toBytes ++ (entriesBytes w (stringsStart w)
      ((codegenExtractMetadata sourceFrom program).map SymbolInput.entry) (typeDataStart w) ++
      (typeDataBytes ((codegenExtractMetadata sourceFrom program).map SymbolInput.entry) ++
        w.stringTable)) := by
    rw [hlayout]
    simp only [List.append_assoc]
  have htypes : metaSection w = ((metaHeaderFor w).toBytes ++ entriesBytes w (stringsStart w)
      ((codegenExtractMetadata sourceFrom program).map SymbolInput.entry) (typeDataStart w)) ++
      (typeDataBytes ((codegenExtractMetadata sourceFrom program).map SymbolInput.entry) ++
        w.stringTable) := by
    rw [hlayout]
    simp only [List.append_assoc]
  refine importSymbols_written hlayout ?_ hfits program hentries (length_metaHeaderFor w) htypes
    ?_ (by omega) hnames
  · rw [List.length_append, List.length_append, length_metaHeaderFor, length_entriesBytes,
      length_typeDataBytes, List.length_map, hstart, htypeStart]
  · rw [List.length_append, length_metaHeaderFor, length_entriesBytes, List.length_map, htypeStart]

end

/-! ## §2 The interface of a program -/

/-- When two type nodes stand for one type: when they are the same node, or
when they are written with the same word. -/
inductive TypeReading where
  | byNode | byWord
  deriving DecidableEq

def primWord : PrimType → Bytes
  | .u128 => bytes "u128"
  | prim => primTypeName prim

/-- The word a type is written with, `void` for a missing return type. -/
def typeWord : Option AstNode → Option Bytes
  | none => some (bytes "void")
  | some (.typePrimitive prim) => some (primWord prim)
  | some (.typeNamed name) => some name
  | _ => none

def SameType : TypeReading → Option AstNode → Option AstNode → Prop
  | .byNode, type, imported => imported = type
  | .byWord, type, imported => ∃ word, typeWord type = some word ∧ typeWord imported = some word

def visibility (info : FuncInfo) : AccessLevel :=
  if info.isPub then .accessPub else info.access

def SameParam (reading : TypeReading) : AstNode → AstNode → Prop
  | .param name type isMut _ _, .param name' type' isMut' _ _ =>
    name' = name ∧ SameType reading type type' ∧ isMut' = isMut
  | _, _ => False

/-- The second declaration is an extern declaration of the first one. -/
def ExternOf (reading : TypeReading) : AstNode → AstNode → Prop
  | .funcDecl name _ params returnType _ _ _ info,
    .funcDecl name' _ params' returnType' _ _ body' info' =>
    body' = none ∧ name' = name ∧ visibility info' = visibility info ∧
      SameType reading returnType returnType' ∧ List.Forall₂ (SameParam reading) params params'
  | _, _ => False

def isFunc : AstNode → Bool
  | .funcDecl .. => true
  | _ => false

/-- One extern declaration for each function, in order, and no other
declaration. -/
def InterfaceKept (reading : TypeReading) (program imported : List AstNode) : Prop :=
  List.Forall₂ (ExternOf reading) (program.filter isFunc) imported

/-- The types whose node or word the format keeps. -/
def TypeKept : TypeReading → Option AstNode → Prop
  | .byNode, type => ∃ name, type = some (.typeNamed name) ∧ 0 ∉ name
  | .byWord, none => True
  | .byWord, some (.typePrimitive prim) => prim ≠ .u128
  | .byWord, some (.typeNamed name) => 0 ∉ name
  | .byWord, some _ => False

def ParamKept (reading : TypeReading) : AstNode → Prop
  | .param name type isMut _ _ => 0 ∉ name ∧ TypeKept reading type ∧ isMut = false
  | _ => False

/-- A function whose signature the format keeps, or a declaration that is
not exported. -/
def DeclKept (reading : TypeReading) : AstNode → Prop
  | .funcDecl name _ params returnType _ _ _ info =>
    name ≠ [] ∧ 0 ∉ name ∧ visibility info = .accessPub ∧ TypeKept reading returnType ∧
      params.length ≤ 255 ∧ ∀ param ∈ params, ParamKept reading param
  | .structDecl name .. | .classDecl name .. | .enumDecl name .. | .constDecl name _ =>
    (cString name).1 = []
  | _ => True

-- the equations, before the proofs that share them
section
attribute [local simp] typeWord SameType SameParam ExternOf isFunc TypeKept ParamKept DeclKept
  importedDecl visibility
end

theorem cString_eq_iff {s : Bytes} : (cString s).1 = s ↔ 0 ∉ s :=
  ⟨fun h => h ▸ (cString s).2, cString_eq⟩

theorem typeWord_iff {type : Option AstNode} :
    typeWord type = some (cString (typeNodeName type)).1 ↔ TypeKept .byWord type := by
  unfold typeWord
  split
  · exact iff_of_true rfl trivial
  · next prim =>
    cases prim
    case u128 => exact iff_of_false (by decide) fun h => h rfl
    all_goals exact iff_of_true rfl PrimType.noConfusion
  · next name =>
    rw [Option.some_inj, eq_comm]
    exact cString_eq_iff
  · next hnone hprim hnamed =>
    refine iff_of_false (Option.some_ne_none _).symm fun h => ?_
    unfold TypeKept at h
    split at h
    · contradiction
    · exact hnone rfl
    · exact hprim _ rfl
    · exact hnamed _ rfl
    · exact h

theorem sameType_iff {reading : TypeReading} {type : Option AstNode} :
    SameType reading type (some (.typeNamed (cString (typeNodeName type)).1)) ↔
      TypeKept reading type := by
  cases reading with
  | byNode =>
    constructor
    · intro h
      exact ⟨_, Eq.symm h, (cString (typeNodeName type)).2⟩
    · rintro ⟨name, rfl, hfree⟩
      rw [SameType, typeNodeName, cString_eq hfree]
  | byWord =>
    rw [← typeWord_iff]
    constructor
    · rintro ⟨word, htype, himported⟩
      rw [htype, ← himported]
      rfl
    · intro h
      exact ⟨_, h, rfl⟩

theorem sameParam_iff {reading : TypeReading} {param : AstNode} :
    SameParam reading param (importedParam param) ↔ ParamKept reading param := by
  unfold ParamKept
  split
  · rw [importedParam, SameParam, cString_eq_iff, sameType_iff, eq_comm (a := false)]
  · next hother =>
    unfold SameParam
    split
    · exact absurd rfl (hother _ _ _ _ _)
    · exact Iff.rfl

theorem isParam_of_kept {reading : TypeReading} {param : AstNode} (h : ParamKept reading param) :
    isParam param = true := by
  unfold ParamKept at h
  split at h
  · rfl
  · cases h

/-- The parameters that come back are those that went in, if no more than
the count can say are kept one by one. -/
theorem sameParams_iff {reading : TypeReading} {params : List AstNode} :
    List.Forall₂ (SameParam reading) params
        (((params.filter isParam).take (countByte params)).map importedParam) ↔
      params.length ≤ 255 ∧ ∀ param ∈ params, ParamKept reading param := by
  have hkept : params.length ≤ 255 → (∀ param ∈ params, isParam param = true) →
      (params.filter isParam).take (countByte params) = params := by
    intro hlen hall
    rw [countByte, List.filter_eq_self.mpr hall, Nat.min_eq_left hlen, List.take_length]
  constructor
  · intro h
    have hlen := h.length_eq
    rw [List.length_map, List.length_take, countByte] at hlen
    have hfilter := List.length_filter_le isParam params
    have hall : ∀ param ∈ params, isParam param = true :=
      List.length_filter_eq_length_iff.mp (by omega)
    rw [hkept (by omega) hall, List.forall₂_map_right_iff, List.forall₂_same] at h
    exact ⟨by omega, fun param hmem => sameParam_iff.mp (h param hmem)⟩
  · rintro ⟨hlen, hparams⟩
    rw [hkept hlen fun param hmem => isParam_of_kept (hparams param hmem),
      List.forall₂_map_right_iff, List.forall₂_same]
    exact fun param hmem => sameParam_iff.mpr (hparams param hmem)

def exported (sourceFrom : AstNode → Bytes) (node : AstNode) : Bool :=
  (extractSymbol sourceFrom node).isSome

theorem filterMap_importedOf (sourceFrom : AstNode → Bytes) (program : List AstNode) :
    program.filterMap (importedOf sourceFrom) =
      (program.filter (exported sourceFrom)).map importedDecl := by
  induction program with
  | nil => rfl
  | cons node program ih =>
    cases hs : extractSymbol sourceFrom node with
    | none =>
      rw [List.filterMap_cons_none (by rw [importedOf, hs]; rfl),
        List.filter_cons_of_neg (by rw [exported, hs]; exact Bool.false_ne_true), ih]
    | some s =>
      rw [List.filterMap_cons_some (by rw [importedOf, hs]; rfl),
        List.filter_cons_of_pos (by rw [exported, hs]; rfl), ih]
      rfl

theorem exported_iff {sourceFrom : AstNode → Bytes} {node : AstNode} :
    exported sourceFrom node = true ↔
      (symbolOf sourceFrom node).isSome = true ∧ (cString (declName node)).1 ≠ [] := by
  unfold exported extractSymbol
  split
  · next h => simp [h]
  · next h =>
    rw [h]
    split
    · next hname => simp [hname]
    · next hname => simp [hname]

theorem visibility_imported {info : FuncInfo} :
    visibility { isPub := info.isPub || info.access == .accessPub } = visibility info ↔
      visibility info = .accessPub := by
  cases hpub : info.isPub with
  | true => simp [visibility, hpub]
  | false =>
    cases haccess : info.access with
    | accessPub => simp [visibility, hpub, haccess]
    | accessPrivate => simp [visibility, hpub, haccess]
    | accessInternal => simp [visibility, hpub, haccess]

theorem unexported_iff {b : Bool} {p q : Prop} (h : b = true ↔ ¬ p) :
    p ↔ false = b ∧ (false = true → q) := by
  cases b with
  | false => simpa using h
  | true => simpa using h

/-- A declaration is kept when it is exported as an extern declaration of
itself, or is neither exported nor a function. -/
theorem declKept_iff (sourceFrom : AstNode → Bytes) {reading : TypeReading} {node : AstNode} :
    DeclKept reading node ↔ isFunc node = exported sourceFrom node ∧
      (isFunc node = true → ExternOf reading node (importedDecl node)) := by
  have hexported := @exported_iff sourceFrom node
  unfold DeclKept
  split
  · next name typeParams params returnType pre post body info =>
    have hname : exported sourceFrom
        (.funcDecl name typeParams params returnType pre post body info) = true ↔
        (cString name).1 ≠ [] := hexported.trans (and_iff_right rfl)
    rw [importedDecl, ExternOf, cString_eq_iff, sameType_iff, sameParams_iff, declIsPub,
      visibility_imported, isFunc, eq_comm (a := true), hname]
    constructor
    · rintro ⟨hne, hfree, hvisible, hret, hparams⟩
      exact ⟨by rwa [cString_eq hfree], fun _ => ⟨rfl, hfree, hvisible, hret, hparams⟩⟩
    · rintro ⟨hne, hextern⟩
      obtain ⟨-, hfree, hvisible, hret, hparams⟩ := hextern rfl
      exact ⟨by rwa [cString_eq hfree] at hne, hfree, hvisible, hret, hparams⟩
  · exact unexported_iff (hexported.trans (and_iff_right rfl))
  · exact unexported_iff (hexported.trans (and_iff_right rfl))
  · exact unexported_iff (hexported.trans (and_iff_right rfl))
  · exact unexported_iff (hexported.trans (and_iff_right rfl))
  · next hfunc hstruct hclass henum hconst =>
    have hnot : isFunc node = false := by
      unfold isFunc
      split
      · exact absurd rfl (hfunc _ _ _ _ _ _ _ _)
      · rfl
    have hsymbol : symbolOf sourceFrom node = none := by
      unfold symbolOf
      split
      · exact absurd rfl (hfunc _ _ _ _ _ _ _ _)
      · exact absurd rfl (hstruct _ _ _ _ _)
      · exact absurd rfl (hclass _ _ _ _ _)
      · exact absurd rfl (henum _ _ _)
      · exact absurd rfl (hconst _ _)
      · rfl
    rw [hsymbol] at hexported
    rw [hnot]
    exact unexported_iff (hexported.trans (by simp))

theorem externOf_name {reading : TypeReading} {node decl : AstNode}
    (h : ExternOf reading node decl) : declName decl = declName node := by
  unfold ExternOf at h
  split at h
  · exact h.2.1
  · cases h

theorem exists_right_of_forall₂ {α β : Type} {R : α → β → Prop} {l : List α} {l' : List β}
    (h : List.Forall₂ R l l') {a : α} (ha : a ∈ l) : ∃ b ∈ l', R a b := by
  induction h with
  | nil => cases ha
  | cons hab _ ih =>
    cases ha with
    | head => exact ⟨_, List.mem_cons_self, hab⟩
    | tail _ ha =>
      obtain ⟨b, hb, hR⟩ := ih ha
      exact ⟨b, List.mem_cons_of_mem _ hb, hR⟩

theorem declName_importedDecl (node : AstNode) :
    declName (importedDecl node) = (cString (declName node)).1 := by
  unfold importedDecl
  split
  · rfl
  · rfl

/-- A function that comes back at all was exported. -/
theorem exported_of_externOf {sourceFrom : AstNode → Bytes} {reading : TypeReading}
    {node other : AstNode} (hfunc : isFunc node = true) (hother : exported sourceFrom other = true)
    (h : ExternOf reading node (importedDecl other)) : exported sourceFrom node = true := by
  have hname : declName node = (cString (declName other)).1 := by
    rw [← declName_importedDecl, externOf_name h]
  have hsymbol : (symbolOf sourceFrom node).isSome = true := by
    unfold isFunc at hfunc
    split at hfunc
    · rfl
    · cases hfunc
  rw [exported_iff] at hother ⊢
  refine ⟨hsymbol, ?_⟩
  rw [hname, cString_eq (cString (declName other)).2]
  exact hother.2

/-- Importing a library yields the interface of the program exactly when
each of its declarations is kept. -/
theorem interface_round_trip_iff (sourceFrom : AstNode → Bytes) (reading : TypeReading)
    (program : List AstNode) (code : Bytes) (file : AelibFile)
    (hfile : file.bytes = aelibWrite (writerOf (codegenExtractMetadata sourceFrom program) code))
    (hfit : OffsetsFit (writerOf (codegenExtractMetadata sourceFrom program) code)) :
    (∃ decls, importAelib file = .ok decls ∧ InterfaceKept reading program decls) ↔
      ∀ node ∈ program, DeclKept reading node := by
  rw [importAelib_written sourceFrom program code file hfile hfit, filterMap_importedOf]
  constructor
  · rintro ⟨decls, heq, h⟩
    obtain rfl := Except.ok.inj heq
    rw [InterfaceKept] at h
    have hsublist : (program.filter isFunc).Sublist (program.filter (exported sourceFrom)) := by
      have hand : program.filter isFunc = (program.filter (exported sourceFrom)).filter isFunc := by
        rw [List.filter_filter]
        refine List.filter_congr fun node hmem => ?_
        cases hfunc : isFunc node with
        | false => rfl
        | true =>
          obtain ⟨decl, hdecl, hextern⟩ :=
            exists_right_of_forall₂ h (List.mem_filter.mpr ⟨hmem, hfunc⟩)
          obtain ⟨other, hother, rfl⟩ := List.mem_map.mp hdecl
          rw [exported_of_externOf hfunc (List.mem_filter.mp hother).2 hextern]
          rfl
      rw [hand]
      exact List.filter_sublist
    have hsame : program.filter isFunc = program.filter (exported sourceFrom) :=
      hsublist.eq_of_length (by rw [h.length_eq, List.length_map])
    rw [← hsame, List.forall₂_map_right_iff, List.forall₂_same] at h
    intro node hmem
    refine (declKept_iff sourceFrom).mpr ⟨?_, fun hfunc => ?_⟩
    · have hiff : node ∈ program.filter isFunc ↔ node ∈ program.filter (exported sourceFrom) := by
        rw [hsame]
      rw [List.mem_filter, List.mem_filter, and_iff_right hmem, and_iff_right hmem] at hiff
      exact Bool.eq_iff_iff.mpr hiff
    · exact h node (List.mem_filter.mpr ⟨hmem, hfunc⟩)
  · intro h
    refine ⟨_, rfl, ?_⟩
    have hsame : program.filter (exported sourceFrom) = program.filter isFunc :=
      List.filter_congr fun node hmem => (((declKept_iff sourceFrom).mp (h node hmem)).1).symm
    rw [InterfaceKept, hsame, List.forall₂_map_right_iff, List.forall₂_same]
    intro node hmem
    rw [List.mem_filter] at hmem
    exact ((declKept_iff sourceFrom).mp (h node hmem.1)).2 hmem.2

/-- `pub func show(p: Point)` -/
def showProgram : List AstNode :=
  [.funcDecl (bytes "show") [] [.param (bytes "p") (some (.typeNamed (bytes "Point"))) false false none]
    none [] [] (some (.block [])) { isPub := true }]

/-- The file that a program without enums and without code is compiled to. -/
def libraryFile (program : List AstNode)
    (h : (aelibWrite (writerOf (codegenExtractMetadata (fun _ => []) program) [])).length < 2 ^ 63) :
    AelibFile where
  bytes := aelibWrite (writerOf (codegenExtractMetadata (fun _ => []) program) [])
  size_lt := h

theorem interface_round_trip_iff_show :
    ∃ decls, importAelib (libraryFile showProgram (by decide +kernel)) = .ok decls ∧
      InterfaceKept .byWord showProgram decls :=
  (interface_round_trip_iff (fun _ => []) .byWord showProgram [] _ rfl
    ⟨by decide +kernel, by decide +kernel⟩).mpr (by
      simp [showProgram, DeclKept, ParamKept, TypeKept, visibility, bytes])

/-- `struct Point {}` and `pub func push(mut p: Point)` -/
def pushProgram : List AstNode :=
  [.structDecl (bytes "Point") [] [] [] true,
    .funcDecl (bytes "push") []
      [.param (bytes "p") (some (.typeNamed (bytes "Point"))) true false none]
      none [] [] (some (.block [])) { isPub := true }]

/-- The struct comes back as a function, and `push` without its `mut`. -/
theorem struct_imported_as_function :
    importAelib (libraryFile pushProgram (by decide +kernel)) = .ok [
        .funcDecl (bytes "Point") [] [] none [] [] none { isPub := true },
        .funcDecl (bytes "push") []
          [.param (bytes "p") (some (.typeNamed (bytes "Point"))) false false none]
          (some (.typeNamed (bytes "void"))) [] [] none { isPub := true }] ∧
      ∀ reading, ¬ ∃ decls, importAelib (libraryFile pushProgram (by decide +kernel)) = .ok decls ∧
        InterfaceKept reading pushProgram decls := by
  have himport : importAelib (libraryFile pushProgram (by decide +kernel)) = .ok [
      .funcDecl (bytes "Point") [] [] none [] [] none { isPub := true },
      .funcDecl (bytes "push") []
        [.param (bytes "p") (some (.typeNamed (bytes "Point"))) false false none]
        (some (.typeNamed (bytes "void"))) [] [] none { isPub := true }] := by
    rw [importAelib_written (fun _ => []) pushProgram [] _ rfl
      ⟨by decide +kernel, by decide +kernel⟩]
    rfl
  refine ⟨himport, ?_⟩
  rintro reading ⟨decls, heq, hkept⟩
  rw [himport] at heq
  obtain rfl := Except.ok.inj heq
  exact absurd hkept.length_eq (by decide)

end Aether.Aelib
