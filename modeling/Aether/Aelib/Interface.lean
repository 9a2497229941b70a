/-
Aether.Aelib.Interface — the interface of a library: what
`codegen_extract_metadata` (`codegen.c`) puts into an `.aelib` file for the
declarations of a program, and the declarations that the importer in
`aether.c` makes of such a file.

The two sides share the format of a function's type data only by
convention: the return type's name, a count of one byte, and for each
parameter its name, its type's name and a byte for `mut`.
-/
import Aether.Ast
import Aether.Aelib.Reader

namespace Aether.Aelib

open Aether.Lib.ByteReader

/-! ## §1 Names -/

/-- What C code reads of bytes that a NUL follows. -/
def cString (s : Bytes) : CString :=
  ⟨s.takeWhile (· ≠ 0), fun h => by simpa using List.mem_takeWhile_imp h⟩

def primTypeName : PrimType → Bytes
  | .void => bytes "void"
  | .bool => bytes "bool"
  | .byte => bytes "byte"
  | .u8 => bytes "u8"
  | .u16 => bytes "u16"
  | .u32 => bytes "u32"
  | .u64 => bytes "u64"
  | .i8 => bytes "i8"
  | .i16 => bytes "i16"
  | .i32 => bytes "i32"
  | .i64 => bytes "i64"
  | .f32 => bytes "f32"
  | .f64 => bytes "f64"
  | .string => bytes "string"
  | .u128 => bytes "unknown"

def typeNodeName : Option AstNode → Bytes
  | none => bytes "void"
  | some (.typePrimitive prim) => primTypeName prim
  | some (.typeNamed name) => name
  | some (.typePtr _) => bytes "ptr"
  | some (.typeRef ..) => bytes "ref"
  | some (.typeArray ..) => bytes "array"
  | some (.typeSlice _) => bytes "slice"
  | some (.typeOptional _) => bytes "optional"
  | some _ => bytes "unknown"

def declName : AstNode → Bytes
  | .funcDecl name .. => name
  | .structDecl name .. => name
  | .classDecl name .. => name
  | .enumDecl name .. => name
  | .constDecl name _ => name
  | .typeAlias name _ => name
  | _ => []

/-- The flag of a `const` is its `is_mut`, which the parser leaves false. -/
def declIsPub : AstNode → Bool
  | .funcDecl _ _ _ _ _ _ _ info => info.isPub || info.access == .accessPub
  | .structDecl _ _ _ _ isPub => isPub
  | .classDecl _ _ _ _ isPub => isPub
  | .enumDecl _ _ isPub => isPub
  | .typeAlias .. => true
  | _ => false

/-! ## §2 Type data -/

/-- A string and its NUL. -/
def nulTerminated (s : CString) : Bytes := s.1 ++ [0]

def isParam : AstNode → Bool
  | .param .. => true
  | _ => false

def paramTypeData : AstNode → Bytes
  | .param name type isMut _ _ =>
    nulTerminated (cString name) ++ nulTerminated (cString (typeNodeName type)) ++
      [if isMut then 1 else 0]
  | _ => []

/-- Every parameter is written, also where the count stops at 255. -/
def buildFuncTypeData (params : List AstNode) (returnType : Option AstNode) : Bytes :=
  let paramCount := (params.filter isParam).length
  nulTerminated (cString (typeNodeName returnType)) ++
    [UInt8.ofNat (if paramCount > 255 then 255 else paramCount)] ++ params.flatMap paramTypeData

/-- The fields are laid out 8 bytes apart. -/
def fieldsTypeData : List AstNode → Nat → Bytes
  | [], _ => []
  | .field name type :: fields, fieldOffset =>
    nulTerminated (cString name) ++ nulTerminated (cString (typeNodeName type)) ++
      littleEndian 8 fieldOffset ++ littleEndian 8 8 ++ fieldsTypeData fields (fieldOffset + 8)
  | _ :: fields, fieldOffset => fieldsTypeData fields fieldOffset

def buildStructTypeData (fields : List AstNode) : Bytes :=
  littleEndian 2 fields.length ++ fieldsTypeData fields 0

/-- The name of a variant is copied up to a NUL, but none ends it in the
source text: `sourceFrom` is the text from there on. -/
def variantTypeData (sourceFrom : AstNode → Bytes) : AstNode → Nat → Bytes
  | .enumVariant name payloadTypes, i =>
    nulTerminated (cString (sourceFrom (.enumVariant name payloadTypes))) ++ littleEndian 8 i ++
      nulTerminated (cString (match payloadTypes with
        | [] => []
        | type :: _ => typeNodeName (some type)))
  | _, _ => []

def variantsTypeData (sourceFrom : AstNode → Bytes) : List AstNode → Nat → Bytes
  | [], _ => []
  | v :: variants, i =>
    if i < 255 then variantTypeData sourceFrom v i ++ variantsTypeData sourceFrom variants (i + 1)
    else []

def buildEnumTypeData (sourceFrom : AstNode → Bytes) (variants : List AstNode) : Bytes :=
  UInt8.ofNat (if variants.length > 255 then 255 else variants.length) ::
    variantsTypeData sourceFrom variants 0

/-! ## §3 Extracting the metadata -/

/-- The kind and the type data of a declaration that is exported. -/
def symbolOf (sourceFrom : AstNode → Bytes) : AstNode → Option (UInt8 × Bytes)
  | .funcDecl _ _ params returnType _ _ _ _ =>
    some (aelibSymFunc, buildFuncTypeData params returnType)
  | .structDecl _ fields _ _ _ => some (aelibSymStruct, buildStructTypeData fields)
  | .classDecl _ fields _ _ _ => some (aelibSymClass, buildStructTypeData fields)
  | .enumDecl _ variants _ => some (aelibSymEnum, buildEnumTypeData sourceFrom variants)
  | .constDecl .. => some (aelibSymConst, [])
  | _ => none

/-- The call of `aelib_add_symbol` for a declaration, if there is one. -/
def extractSymbol (sourceFrom : AstNode → Bytes) (node : AstNode) : Option SymbolInput :=
  match symbolOf sourceFrom node with
  | none => none
  | some (kind, typeData) =>
    if (cString (declName node)).1 = [] then none
    else some {
      name := cString (declName node), kind := kind, isPub := declIsPub node, ns := none,
      typeData := typeData }

def codegenExtractMetadata (sourceFrom : AstNode → Bytes) (program : List AstNode) :
    List SymbolInput := program.filterMap (extractSymbol sourceFrom)

/-! ## §4 Importing -/

/-- `while (tp < td_sz && td[tp] != 0) tp++`, with `n` positions left
before `td_sz`. -/
def skipString (metaBuf : Bytes) (td : Nat) : (n tp : Nat) → Access Nat
  | 0, tp => return tp
  | n + 1, tp => do
    if (← byteAt metaBuf (td + tp)) == 0 then return tp
    else skipString metaBuf td n (tp + 1)

/-- The loop over the parameters, with `n` of the count left. -/
def importParams (metaBuf : Bytes) (td tdSz : Nat) : (n tp : Nat) → Access (List AstNode)
  | 0, _ => return []
  | n + 1, tp => do
    if tp < tdSz then
      let pn := tp
      let tp ← skipString metaBuf td (tdSz - tp) tp
      let pt := tp + 1
      let tp ← skipString metaBuf td (tdSz - (tp + 1)) (tp + 1)
      let tp := tp + 1
      -- the byte for `mut` is stepped over
      let tp := if tp < tdSz then tp + 1 else tp
      let name ← cStringAt metaBuf (td + pn)
      let type ← cStringAt metaBuf (td + pt)
      let rest ← importParams metaBuf td tdSz n tp
      return .param name (some (.typeNamed type)) false false none :: rest
    else return []

/-- The return type and the parameters of a function symbol. -/
def importSignature (metaBuf : Bytes) (td tdSz : Nat) :
    Access (Option AstNode × List AstNode) := do
  let retName ← cStringAt metaBuf td
  let tp := retName.length + 1
  if tp < tdSz then
    let pc ← byteAt metaBuf (td + tp)
    let params ← importParams metaBuf td tdSz pc.toNat (tp + 1)
    return (some (.typeNamed retName), params)
  else return (some (.typeNamed retName), [])

/-- The extern declaration for the `si`-th symbol. -/
def importSymbol (metaBuf : Bytes) (si : Nat) : Access AstNode := do
  let entryOff := 14 + si * 18
  let nameOff ← readLE 4 metaBuf entryOff
  let kind ← byteAt metaBuf (entryOff + 4)
  let flags ← byteAt metaBuf (entryOff + 5)
  let tdOff ← readLE 4 metaBuf (entryOff + 10)
  let tdSz ← readLE 4 metaBuf (entryOff + 14)
  let name ← cStringAt metaBuf nameOff
  let info : FuncInfo := { isPub := flags &&& 1 ≠ 0 }
  if tdSz > 0 && kind == 0 then
    let (returnType, params) ← importSignature metaBuf tdOff tdSz
    return .funcDecl name [] params returnType [] [] none info
  else return .funcDecl name [] [] none [] [] none info

def importSymbols (metaBuf : Bytes) : (n si : Nat) → Access (List AstNode)
  | 0, _ => return []
  | n + 1, si => do
    let decl ← importSymbol metaBuf si
    return decl :: (← importSymbols metaBuf n (si + 1))

/-- The declarations that importing a file adds to the program. -/
def importAelib (file : AelibFile) : Access (List AstNode) := do
  let data := file.bytes
  if data.length < 46 then return []
  let metaOff := field data 30 8
  let metaSz := field data 38 8
  if metaOff = 0 ∨ metaSz = 0 then return []
  -- `fread` does not get the whole section
  if data.length < metaOff + metaSz then return []
  let metaBuf := (data.drop metaOff).take metaSz
  let sc ← readLE 4 metaBuf 10
  importSymbols metaBuf sc 0

end Aether.Aelib
