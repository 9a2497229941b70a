/-
Aether.Codegen.Layout — struct and enum layouts of the NASM generator.

Before any code is emitted `codegen_generate` builds a layout for each
struct, class and enum of the program, in the order they are declared. The
size of a field is taken from the layouts built so far (`type_size`), and a
name that has none yet counts 8. A field access loads from the slot of a
variable whose declared type names a struct.

Sizes are exact here; in the source they are `int`.
-/
import Aether.Ast
import Aether.Lib.Regions

namespace Aether.Codegen.Layout

open Aether.Lib

/-! ## §1 Layouts -/

structure FieldLayout where
  name : Bytes
  offset : Nat
  size : Nat
  deriving DecidableEq, Repr

structure StructLayout where
  name : Bytes
  totalSize : Nat
  fields : List FieldLayout
  isClass : Bool := false
  deriving DecidableEq, Repr

structure VariantEntry where
  name : Bytes
  discriminant : Nat
  deriving DecidableEq, Repr

/-- The three lists of `codegen.c`, the last built first. -/
structure Registry where
  structLayouts : List StructLayout := []
  enumLayouts : List StructLayout := []
  variantEntries : List VariantEntry := []
  deriving DecidableEq, Repr

def FieldLayout.region (fl : FieldLayout) : Region := ⟨fl.offset, fl.size⟩

def Registry.findStructLayout (reg : Registry) (name : Bytes) : Option StructLayout :=
  reg.structLayouts.find? (·.name == name)

def Registry.findEnumLayout (reg : Registry) (name : Bytes) : Option StructLayout :=
  reg.enumLayouts.find? (·.name == name)

def findFieldOffset (sl : StructLayout) (fieldName : Bytes) : Nat :=
  match sl.fields.find? (·.name == fieldName) with
  | some fl => fl.offset
  | none => 0

/-- What fits into a `char[256]`. -/
def cut (name : Bytes) : Bytes := name.take 255

/-! ## §2 Sizes -/

def primSize : PrimType → Nat
  | .void => 0
  | .bool | .byte | .u8 | .i8 => 1
  | .u16 | .i16 => 2
  | .u32 | .i32 | .f32 => 4
  | .u64 | .i64 | .f64 | .string => 8
  | .u128 => 8

def namedSize (reg : Registry) (name : Bytes) : Nat :=
  match reg.findStructLayout (cut name) with
  | some sl => sl.totalSize
  | none =>
    match reg.findEnumLayout (cut name) with
    | some el => el.totalSize
    | none => 8

mutual

def typeSize (reg : Registry) : AstNode → Nat
  | .typePrimitive prim => primSize prim
  | .typeOptional elemType => 1 + typeSizeOpt reg elemType
  | .typeArray elemType arraySize =>
    if 0 < arraySize then arraySize.toNat * typeSizeOpt reg elemType else 8
  | .typeNamed name => namedSize reg name
  | _ => 8

def typeSizeOpt (reg : Registry) : Option AstNode → Nat
  | none => 8
  | some type => typeSize reg type

end

-- the equations, before the proofs that share them
section
attribute [local simp] typeSize
end

/-! ## §3 Building layouts -/

/-- The types of the fields of a struct or class. The parser makes nothing
but fields. -/
def fieldsOf : List AstNode → List (Bytes × Option AstNode)
  | [] => []
  | .field name type :: fields => (name, type) :: fieldsOf fields
  | _ :: fields => fieldsOf fields

def buildFields (reg : Registry) : List (Bytes × Option AstNode) → Nat → List FieldLayout
  | [], _ => []
  | (name, type) :: fields, offset =>
    ⟨name, offset, typeSizeOpt reg type⟩ :: buildFields reg fields (offset + typeSizeOpt reg type)

def fieldsEnd (reg : Registry) : List (Bytes × Option AstNode) → Nat → Nat
  | [], offset => offset
  | (_, type) :: fields, offset => fieldsEnd reg fields (offset + typeSizeOpt reg type)

def buildStructLayout (reg : Registry) (name : Bytes) (fields : List AstNode) (isClass : Bool) :
    StructLayout where
  name := name
  totalSize := fieldsEnd reg (fieldsOf fields) 0
  fields := buildFields reg (fieldsOf fields) 0
  isClass := isClass

def payloadSize (reg : Registry) : List AstNode → Nat
  | [] => 0
  | type :: types => typeSize reg type + payloadSize reg types

/-- The size of the largest payload. -/
def maxPayload (reg : Registry) : List AstNode → Nat
  | [] => 0
  | .enumVariant _ payloadTypes :: variants =>
    max (payloadSize reg payloadTypes) (maxPayload reg variants)
  | _ :: variants => maxPayload reg variants

def buildEnumLayout (reg : Registry) (name : Bytes) (variants : List AstNode) : StructLayout where
  name := name
  totalSize := 8 + maxPayload reg variants
  fields := [⟨bytes "__disc", 0, 8⟩]

def variantName : AstNode → Bytes
  | .enumVariant name _ => name
  | _ => []

/-- The entries of an enum in front of those that are there, its last
variant first. -/
def registerVariants : List AstNode → Nat → List VariantEntry → List VariantEntry
  | [], _, entries => entries
  | variant :: variants, i, entries =>
    registerVariants variants (i + 1) (⟨variantName variant, i⟩ :: entries)

/-- One declaration of the program. -/
def Registry.build (reg : Registry) : AstNode → Registry
  | .structDecl name fields _ _ _ =>
    { reg with structLayouts := buildStructLayout reg name fields false :: reg.structLayouts }
  | .classDecl name fields _ _ _ =>
    { reg with structLayouts := buildStructLayout reg name fields true :: reg.structLayouts }
  | .enumDecl name variants _ =>
    { reg with
      enumLayouts := buildEnumLayout reg name variants :: reg.enumLayouts
      variantEntries := registerVariants variants 0 reg.variantEntries }
  | _ => reg

/-- The layouts that code is emitted with. -/
def buildLayouts (decls : List AstNode) : Registry := decls.foldl Registry.build {}

/-! ## §4 Field access -/

/-- `mov rax, [rbp+offset]`: eight bytes. -/
structure Load where
  offset : Int
  width : Nat
  deriving DecidableEq, Repr

/-- The name of a variable's declared type. -/
def declaredTypeName : AstNode → Option Bytes
  | .letNode _ (some (.typeNamed name)) _ _ _ => some name
  | .param _ (some (.typeNamed name)) _ _ _ => some name
  | _ => none

/-- The name of the struct that the target of a field access is declared
with; `resolved` is what the analyzer resolved the identifier to. -/
def targetStructName (resolved : Option AstNode) : AstNode → Option Bytes
  | .ident _ => resolved.bind declaredTypeName
  | _ => none

/-- `cg_expr` for a field access, where `varOffset` is the slot of the
variable. It may emit nothing. -/
def cgFieldAccess (reg : Registry) (varOffset : Int) (resolved : Option AstNode)
    (target : AstNode) (field : Bytes) : Option Load :=
  match targetStructName resolved target with
  | none => none
  | some structName =>
    match reg.findStructLayout structName with
    | none => none
    | some sl => some ⟨varOffset + findFieldOffset sl field, 8⟩

end Aether.Codegen.Layout
