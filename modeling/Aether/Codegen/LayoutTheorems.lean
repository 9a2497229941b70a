/-
Aether.Codegen.LayoutTheorems — when struct layouts are sound.

The fields of a layout are always packed one behind the other. Their sizes
are those of their types only if no type that is declared later would have
counted something else, a field access loads eight bytes whatever the size,
and the metadata of a library puts every field eight bytes apart.
`layoutSound_iff` says for which programs all of this agrees.
-/
import Aether.Codegen.Layout
import Aether.Aelib.Interface
import Mathlib.Data.List.Induction

namespace Aether.Codegen.Layout

open Aether.Lib Aether.Lib.ByteReader Aether.Aelib

-- the equations, before the proofs that share them
section
attribute [local simp] buildFields packed FieldLayout.region fieldsEnd packedEnd buildStructLayout
  fieldsTypeData fieldsOf cut namedSize typeSize typeSizeOpt buildLayouts Registry.findStructLayout
  payloadSize maxPayload Registry.findEnumLayout Registry.build buildEnumLayout buildStructTypeData
  cgFieldAccess findFieldOffset
end

/-! ## §1 What is asked of a layout -/

/-- A struct or class declaration. -/
structure StructDecl where
  name : Bytes
  fields : List AstNode
  isClass : Bool

def structDecl? : AstNode → Option StructDecl
  | .structDecl name fields _ _ _ => some ⟨name, fields, false⟩
  | .classDecl name fields _ _ _ => some ⟨name, fields, true⟩
  | _ => none

def StructDecl.layout (s : StructDecl) (reg : Registry) : StructLayout :=
  buildStructLayout reg s.name s.fields s.isClass

def StructDecl.types (s : StructDecl) : List (Option AstNode) := (fieldsOf s.fields).map (·.2)

/-- The field records of the metadata, with the offsets and sizes of a
layout. -/
def layoutRecords : List (Bytes × Option AstNode) → List FieldLayout → Bytes
  | (name, type) :: fields, fl :: fls =>
    nulTerminated (cString name) ++ nulTerminated (cString (typeNodeName type)) ++
      littleEndian 8 fl.offset ++ littleEndian 8 fl.size ++ layoutRecords fields fls
  | _, _ => []

/-- What a layout should be, where `final` has the layouts of all types. -/
structure SoundLayout (final : Registry) (s : StructDecl) (sl : StructLayout) : Prop where
  apart : (sl.fields.map FieldLayout.region).Pairwise Region.Apart
  inside : ∀ fl ∈ sl.fields, fl.region.stop ≤ sl.totalSize
  /-- The offsets fit an `int`. -/
  inRange : sl.totalSize ≤ 2147483647
  sizes : sl.fields.map FieldLayout.size = s.types.map (typeSizeOpt final)
  exported : buildStructTypeData s.fields =
    littleEndian 2 s.fields.length ++ layoutRecords (fieldsOf s.fields) sl.fields

/-- The layout that a declaration gets when the program is declared in this
order. -/
def LayoutIn (order : List AstNode) (s : StructDecl) (sl : StructLayout) : Prop :=
  ∃ before decl after, order = before ++ decl :: after ∧ structDecl? decl = some s ∧
    sl = s.layout (buildLayouts before)

/-- In every order of the declarations each layout is sound, and it is the
same one. -/
structure LayoutSound (decls : List AstNode) : Prop where
  sound : ∀ order s sl, order.Perm decls → LayoutIn order s sl →
    SoundLayout (buildLayouts order) s sl
  same : ∀ order order' s sl sl', order.Perm decls → order'.Perm decls →
    LayoutIn order s sl → LayoutIn order' s sl' → sl = sl'

/-- A read of a field: the struct that the target is of, and where it is
relative to `rbp`. The name of a struct stands for the last one declared
with it. -/
structure FieldRead (decls : List AstNode) where
  target : AstNode
  resolved : Option AstNode
  varOffset : Int
  base : Int
  struct : StructDecl
  field : Bytes
  before : List AstNode
  decl : AstNode
  after : List AstNode
  declared : decls = before ++ decl :: after
  isStruct : structDecl? decl = some struct
  last : ∀ d ∈ after, ∀ s, structDecl? d = some s → s.name ≠ struct.name
  hasField : field ∈ (fieldsOf struct.fields).map (·.1)
  /-- A variable declared with a struct's name is of that struct and has it
  in its slot. -/
  typed : ∀ name, targetStructName resolved target = some name →
    (∃ d ∈ decls, ∃ s, structDecl? d = some s ∧ s.name = name) →
      name = struct.name ∧ base = varOffset

/-- The code emitted for the read loads the bytes of the field, and no
others. -/
def FieldRead.Exact {decls : List AstNode} (r : FieldRead decls) : Prop :=
  ∃ fl ∈ (r.struct.layout (buildLayouts r.before)).fields, fl.name = r.field ∧
    cgFieldAccess (buildLayouts decls) r.varOffset r.resolved r.target r.field =
      some ⟨r.base + fl.offset, fl.size⟩

/-! ## §2 Programs with sound layouts -/

/-- The name whose layout decides the size of a type. -/
def namedIn : AstNode → Option Bytes
  | .typeNamed name => some (cut name)
  | .typeOptional (some elemType) => namedIn elemType
  | .typeArray (some elemType) arraySize => if 0 < arraySize then namedIn elemType else none
  | _ => none

def payloads : AstNode → List (List AstNode)
  | .enumDecl _ variants _ => variants.map fun v => match v with
    | .enumVariant _ payloadTypes => payloadTypes
    | _ => []
  | _ => []

/-- A type of eight bytes whatever is declared: a struct of one field or an
enum whose payloads take no room. -/
def OneWord (decl : AstNode) : Prop :=
  (∀ s, structDecl? decl = some s → s.types.length = 1) ∧
    ∀ types ∈ payloads decl, ∀ type ∈ types, typeSize {} type = 0

def typeDeclName : AstNode → Option Bytes
  | .structDecl name .. | .classDecl name .. | .enumDecl name .. => some name
  | _ => none

/-- Every field takes eight bytes where a named type counts eight, and every
type that is named there is one word. -/
structure EightByteFields (decls : List AstNode) : Prop where
  eight : ∀ decl ∈ decls, ∀ s, structDecl? decl = some s → ∀ type ∈ s.types,
    typeSizeOpt {} type = 8
  named : ∀ decl ∈ decls, ∀ s, structDecl? decl = some s → ∀ type, some type ∈ s.types →
    ∀ name, namedIn type = some name → ∀ d ∈ decls, typeDeclName d = some name → OneWord d
  few : ∀ decl ∈ decls, ∀ s, structDecl? decl = some s → s.types.length ≤ 268435455

/-- The target is a variable that is declared with the name of the struct. -/
def FieldRead.Direct {decls : List AstNode} (r : FieldRead decls) : Prop :=
  targetStructName r.resolved r.target = some r.struct.name

-- the equations, before the proofs that share them
section
attribute [local simp] StructDecl.layout StructDecl.types layoutRecords payloads namedIn
  FieldRead.Direct
end

/-! ## §3 One layout -/

theorem buildFields_regions (reg : Registry) (fields : List (Bytes × Option AstNode))
    (offset : Nat) :
    (buildFields reg fields offset).map FieldLayout.region =
      packed offset (fields.map fun f => typeSizeOpt reg f.2) := by
  induction fields generalizing offset with
  | nil => rfl
  | cons f fields ih => simp [buildFields, packed, FieldLayout.region, ih]

theorem fieldsEnd_eq (reg : Registry) (fields : List (Bytes × Option AstNode)) (offset : Nat) :
    fieldsEnd reg fields offset = packedEnd offset (fields.map fun f => typeSizeOpt reg f.2) := by
  induction fields generalizing offset with
  | nil => rfl
  | cons f fields ih => simp [fieldsEnd, packedEnd, ih]

theorem buildFields_sizes (reg : Registry) (fields : List (Bytes × Option AstNode))
    (offset : Nat) :
    (buildFields reg fields offset).map FieldLayout.size =
      fields.map fun f => typeSizeOpt reg f.2 := by
  induction fields generalizing offset with
  | nil => rfl
  | cons f fields ih => simp [buildFields, ih]

theorem buildFields_names (reg : Registry) (fields : List (Bytes × Option AstNode))
    (offset : Nat) :
    (buildFields reg fields offset).map FieldLayout.name = fields.map (·.1) := by
  induction fields generalizing offset with
  | nil => rfl
  | cons f fields ih => simp [buildFields, ih]

/-- A layout depends on the registry through the sizes of its fields. -/
theorem buildFields_congr {reg reg' : Registry} {fields : List (Bytes × Option AstNode)}
    (h : ∀ f ∈ fields, typeSizeOpt reg f.2 = typeSizeOpt reg' f.2) (offset : Nat) :
    buildFields reg fields offset = buildFields reg' fields offset := by
  induction fields generalizing offset with
  | nil => rfl
  | cons f fields ih =>
    rw [buildFields, buildFields, h f List.mem_cons_self,
      ih fun g hg => h g (List.mem_cons_of_mem _ hg)]

theorem layout_apart (reg : Registry) (s : StructDecl) :
    ((s.layout reg).fields.map FieldLayout.region).Pairwise Region.Apart := by
  rw [StructDecl.layout, buildStructLayout, buildFields_regions]
  exact packed_apart 0 _

theorem layout_inside (reg : Registry) (s : StructDecl) :
    ∀ fl ∈ (s.layout reg).fields, fl.region.stop ≤ (s.layout reg).totalSize := by
  intro fl hfl
  have hregion : fl.region ∈ packed 0 ((fieldsOf s.fields).map fun f => typeSizeOpt reg f.2) := by
    rw [← buildFields_regions]
    exact List.mem_map_of_mem hfl
  have hstop := (packed_inside hregion).2
  rwa [← fieldsEnd_eq] at hstop

theorem layout_total {reg : Registry} {s : StructDecl}
    (h : ∀ type ∈ s.types, typeSizeOpt reg type = 8) :
    (s.layout reg).totalSize = s.types.length * 8 := by
  have hsizes : ((fieldsOf s.fields).map fun f => typeSizeOpt reg f.2) =
      List.replicate s.types.length 8 := by
    rw [List.eq_replicate_iff]
    refine ⟨by simp [StructDecl.types], fun n hn => ?_⟩
    obtain ⟨f, hf, rfl⟩ := List.mem_map.mp hn
    exact h _ (List.mem_map_of_mem hf)
  show fieldsEnd reg (fieldsOf s.fields) 0 = _
  rw [fieldsEnd_eq, hsizes, packedEnd_replicate, Nat.zero_add]

/-! ## §4 The metadata -/

/-- The records of fields that are eight bytes apart. -/
def wordRecords : List (Bytes × Option AstNode) → Nat → Bytes
  | [], _ => []
  | (name, type) :: fields, offset =>
    nulTerminated (cString name) ++ nulTerminated (cString (typeNodeName type)) ++
      littleEndian 8 offset ++ littleEndian 8 8 ++ wordRecords fields (offset + 8)

-- the equations, before the proofs that share them
section
attribute [local simp] wordRecords
end

theorem fieldsTypeData_eq (fields : List AstNode) (offset : Nat) :
    fieldsTypeData fields offset = wordRecords (fieldsOf fields) offset := by
  induction fields generalizing offset with
  | nil => rfl
  | cons field fields ih => cases field <;> simp [fieldsTypeData, fieldsOf, wordRecords, ih]

theorem layoutRecords_of_eight {reg : Registry} {fields : List (Bytes × Option AstNode)}
    (h : ∀ f ∈ fields, typeSizeOpt reg f.2 = 8) (offset : Nat) :
    wordRecords fields offset = layoutRecords fields (buildFields reg fields offset) := by
  induction fields generalizing offset with
  | nil => rfl
  | cons f fields ih =>
    have hf := h f List.mem_cons_self
    rw [wordRecords, buildFields, layoutRecords, hf, ih fun g hg => h g (List.mem_cons_of_mem _ hg)]

theorem littleEndian_injective {m n : Nat} (hm : m < 256 ^ 8) (hn : n < 256 ^ 8)
    (h : littleEndian 8 m = littleEndian 8 n) : m = n := by
  rw [← fromLittleEndian_littleEndian_of_lt hm, h, fromLittleEndian_littleEndian_of_lt hn]

/-- Records eight bytes apart are those of the layout only if all its fields
have eight bytes. -/
theorem eight_of_layoutRecords {reg : Registry} {fields : List (Bytes × Option AstNode)}
    {offset : Nat} (hend : fieldsEnd reg fields offset < 256 ^ 8)
    (h : wordRecords fields offset = layoutRecords fields (buildFields reg fields offset)) :
    ∀ f ∈ fields, typeSizeOpt reg f.2 = 8 := by
  induction fields generalizing offset with
  | nil => simp
  | cons f fields ih =>
    rw [wordRecords, buildFields, layoutRecords] at h
    have hrecord := List.append_inj h (by simp)
    have hsize := List.append_inj hrecord.1 (by simp)
    have hlt : typeSizeOpt reg f.2 < 256 ^ 8 := by
      have hle : offset + typeSizeOpt reg f.2 ≤ fieldsEnd reg (f :: fields) offset := by
        rw [fieldsEnd, fieldsEnd_eq]
        exact le_packedEnd _ _
      exact Nat.lt_of_le_of_lt (Nat.le_trans (Nat.le_add_left _ _) hle) hend
    have hf : typeSizeOpt reg f.2 = 8 := (littleEndian_injective (by decide) hlt hsize.2).symm
    rw [List.forall_mem_cons]
    refine ⟨hf, @ih (offset + 8) ?_ ?_⟩
    · rw [fieldsEnd, hf] at hend
      exact hend
    · have hrest := hrecord.2
      rwa [hf] at hrest

/-- The fields of a sound layout have eight bytes each. -/
theorem SoundLayout.eight {final reg : Registry} {s : StructDecl}
    (h : SoundLayout final s (s.layout reg)) : ∀ type ∈ s.types, typeSizeOpt reg type = 8 := by
  intro type htype
  obtain ⟨f, hf, rfl⟩ := List.mem_map.mp htype
  refine eight_of_layoutRecords (Nat.lt_of_le_of_lt h.inRange (by decide)) ?_ f hf
  rw [← fieldsTypeData_eq]
  exact List.append_cancel_left h.exported

/-! ## §5 Sizes and names -/

@[simp] theorem cut_cut (name : Bytes) : cut (cut name) = cut name := by
  simp [cut, List.take_take]

@[simp] theorem namedSize_cut (reg : Registry) (name : Bytes) :
    namedSize reg (cut name) = namedSize reg name := by
  simp [namedSize]

theorem cut_of_namedIn {type : AstNode} {name : Bytes} (h : namedIn type = some name) :
    cut name = name := by
  fun_induction namedIn type with
  | case1 type =>
    cases h
    exact cut_cut type
  | case2 elemType ih => exact ih h
  | case3 elemType arraySize hpos ih => exact ih h
  | case4 => cases h
  | case5 => cases h

/-- A type in which no layout is looked up. -/
theorem typeSize_of_namedIn_none {type : AstNode} (h : namedIn type = none) (reg : Registry) :
    typeSize reg type = typeSize {} type := by
  fun_induction namedIn type with
  | case1 type => cases h
  | case2 elemType ih => simp [typeSize, typeSizeOpt, ih h]
  | case3 elemType arraySize hpos ih => simp [typeSize, typeSizeOpt, ih h]
  | case4 elemType arraySize hpos => simp [typeSize, hpos]
  | case5 type hnamed hoptional harray =>
    cases type with
    | typeNamed name => exact absurd rfl (hnamed name)
    | typeOptional elemType =>
      cases elemType with
      | none => rfl
      | some elemType => exact absurd rfl (hoptional elemType)
    | typeArray elemType arraySize =>
      cases elemType with
      | none => rfl
      | some elemType => exact absurd rfl (harray elemType arraySize)
    | _ => rfl

@[simp] theorem namedSize_empty (name : Bytes) : namedSize {} name = 8 := rfl

/-- A type of fewer than eight bytes has no name in it. -/
theorem namedIn_of_small {type : AstNode} (h : typeSize {} type < 8) : namedIn type = none := by
  fun_induction namedIn type with
  | case1 type => simp [typeSize] at h
  | case2 elemType ih =>
    rw [typeSize, typeSizeOpt] at h
    exact ih (by omega)
  | case3 elemType arraySize hpos ih =>
    rw [typeSize, if_pos hpos, typeSizeOpt] at h
    have hle := Nat.le_mul_of_pos_left (typeSize {} elemType) (by omega : 0 < arraySize.toNat)
    exact ih (by omega)
  | case4 => rfl
  | case5 => rfl

/-- A type of eight bytes with a name in it has the size of what is named. -/
theorem typeSize_of_namedIn {type : AstNode} {name : Bytes} (h : typeSize {} type = 8)
    (hname : namedIn type = some name) (reg : Registry) :
    typeSize reg type = namedSize reg name := by
  fun_induction namedIn type with
  | case1 type =>
    cases hname
    rw [typeSize, namedSize_cut]
  | case2 elemType ih =>
    rw [typeSize, typeSizeOpt] at h
    rw [namedIn_of_small (by omega)] at hname
    cases hname
  | case3 elemType arraySize hpos ih =>
    rw [typeSize, if_pos hpos, typeSizeOpt] at h
    have hlarge : 8 ≤ typeSize {} elemType := by
      by_contra hsmall
      rw [namedIn_of_small (by omega)] at hname
      cases hname
    have hone : arraySize.toNat = 1 := by
      have hle := Nat.mul_le_mul_left arraySize.toNat hlarge
      omega
    rw [hone, Nat.one_mul] at h
    rw [typeSize, if_pos hpos, typeSizeOpt, hone, Nat.one_mul]
    exact ih h hname
  | case4 => cases hname
  | case5 => cases hname

/-! ## §6 The registry -/

theorem buildLayouts_snoc (before : List AstNode) (decl : AstNode) :
    buildLayouts (before ++ [decl]) = (buildLayouts before).build decl := by
  simp [buildLayouts]

/-- The layouts of a declaration are put in front. -/
theorem structLayouts_build (reg : Registry) (decl : AstNode) :
    (reg.build decl).structLayouts =
      ((structDecl? decl).map fun s => s.layout reg).toList ++ reg.structLayouts := by
  cases decl <;> rfl

theorem findStructLayout_build_of_none {reg : Registry} {decl : AstNode}
    (h : structDecl? decl = none) (name : Bytes) :
    (reg.build decl).findStructLayout name = reg.findStructLayout name := by
  rw [Registry.findStructLayout, structLayouts_build, h]
  rfl

theorem findStructLayout_build_of_some {reg : Registry} {decl : AstNode} {s : StructDecl}
    (h : structDecl? decl = some s) (name : Bytes) :
    (reg.build decl).findStructLayout name =
      if s.name = name then some (s.layout reg) else reg.findStructLayout name := by
  rw [Registry.findStructLayout, structLayouts_build, h]
  by_cases hname : s.name = name <;>
    simp [hname, StructDecl.layout, buildStructLayout, Registry.findStructLayout]

/-- The enum layouts change with an enum only. -/
theorem enumLayouts_build {reg : Registry} {decl : AstNode} {s : StructDecl}
    (h : structDecl? decl = some s) : (reg.build decl).enumLayouts = reg.enumLayouts := by
  cases decl with
  | structDecl | classDecl => rfl
  | _ => cases h

/-- A name stands for the last struct that is declared with it. -/
theorem findStructLayout_last {before after : List AstNode} {decl : AstNode} {s : StructDecl}
    (h : structDecl? decl = some s)
    (hlast : ∀ d ∈ after, ∀ s', structDecl? d = some s' → s'.name ≠ s.name) :
    (buildLayouts (before ++ decl :: after)).findStructLayout s.name =
      some (s.layout (buildLayouts before)) := by
  induction after using List.reverseRecOn with
  | nil =>
    rw [buildLayouts_snoc, findStructLayout_build_of_some h, if_pos rfl]
  | append_singleton after d ih =>
    have hold := ih fun d' hd' => hlast d' (by simp [hd'])
    rw [← List.cons_append, ← List.append_assoc, buildLayouts_snoc]
    cases hd : structDecl? d with
    | none => rw [findStructLayout_build_of_none hd, hold]
    | some s' =>
      rw [findStructLayout_build_of_some hd, if_neg (hlast d (by simp) s' hd), hold]

theorem declared_of_findStructLayout {decls : List AstNode} {name : Bytes} {sl : StructLayout}
    (h : (buildLayouts decls).findStructLayout name = some sl) :
    ∃ d ∈ decls, ∃ s, structDecl? d = some s ∧ s.name = name := by
  induction decls using List.reverseRecOn with
  | nil => cases h
  | append_singleton decls d ih =>
    rw [buildLayouts_snoc] at h
    have hold : (buildLayouts decls).findStructLayout name = some sl →
        ∃ d' ∈ decls ++ [d], ∃ s, structDecl? d' = some s ∧ s.name = name := by
      intro hfind
      obtain ⟨d', hd', hs⟩ := ih hfind
      exact ⟨d', by simp [hd'], hs⟩
    cases hd : structDecl? d with
    | none =>
      rw [findStructLayout_build_of_none hd] at h
      exact hold h
    | some s =>
      rw [findStructLayout_build_of_some hd] at h
      split at h
      · exact ⟨d, by simp, s, hd, by assumption⟩
      · exact hold h

/-! ## §7 Programs of eight-byte fields -/

theorem payloadSize_eq_zero_iff (reg : Registry) (types : List AstNode) :
    payloadSize reg types = 0 ↔ ∀ type ∈ types, typeSize reg type = 0 := by
  induction types with
  | nil => simp [payloadSize]
  | cons type types ih => simp [payloadSize, ih]

theorem maxPayload_eq_zero_iff (reg : Registry) (name : Bytes) (variants : List AstNode)
    (isPub : Bool) : maxPayload reg variants = 0 ↔
      ∀ types ∈ payloads (.enumDecl name variants isPub), ∀ type ∈ types, typeSize reg type = 0 := by
  induction variants with
  | nil => simp [maxPayload, payloads]
  | cons variant variants ih =>
    rw [payloads, List.map_cons, List.forall_mem_cons, ← payloads.eq_1 name variants isPub, ← ih]
    cases variant with
    | enumVariant vname payloadTypes =>
      rw [maxPayload, ← payloadSize_eq_zero_iff, Nat.max_eq_zero_iff]
    | _ => simp [maxPayload]

/-- A type whose name, if there is one, stands for eight bytes. -/
def WordNamed (reg : Registry) (type : Option AstNode) : Prop :=
  ∀ t, type = some t → ∀ name, namedIn t = some name → namedSize reg name = 8

theorem typeSizeOpt_of_wordNamed {reg : Registry} {type : Option AstNode}
    (h : typeSizeOpt {} type = 8) (hword : WordNamed reg type) : typeSizeOpt reg type = 8 := by
  cases type with
  | none => rfl
  | some t =>
    rw [typeSizeOpt] at h
    cases hname : namedIn t with
    | none => rw [typeSizeOpt, typeSize_of_namedIn_none hname, h]
    | some name => rw [typeSizeOpt, typeSize_of_namedIn h hname, hword t rfl name hname]

theorem namedSize_build_struct {reg : Registry} {decl : AstNode} {s : StructDecl} {name : Bytes}
    (hdecl : structDecl? decl = some s) (hcut : cut name = name) :
    namedSize (reg.build decl) name =
      if s.name = name then (s.layout reg).totalSize else namedSize reg name := by
  rw [namedSize, findStructLayout_build_of_some hdecl, hcut]
  by_cases hname : s.name = name
  · rw [if_pos hname, if_pos hname]
  · rw [if_neg hname, if_neg hname, namedSize, hcut, Registry.findEnumLayout, enumLayouts_build hdecl,
      Registry.findEnumLayout]

theorem namedSize_build_enum (reg : Registry) (ename : Bytes) (variants : List AstNode)
    (isPub : Bool) {name : Bytes} (hcut : cut name = name) :
    namedSize (reg.build (.enumDecl ename variants isPub)) name =
      match reg.findStructLayout name with
      | some sl => sl.totalSize
      | none => if ename = name then 8 + maxPayload reg variants else namedSize reg name := by
  rw [namedSize, findStructLayout_build_of_none rfl, hcut]
  cases hfind : reg.findStructLayout name with
  | some sl => rfl
  | none =>
    by_cases hname : ename = name
    · simp [Registry.build, Registry.findEnumLayout, buildEnumLayout, hname]
    · simp [Registry.build, Registry.findEnumLayout, buildEnumLayout, hname, namedSize, hcut, hfind]

/-- After any declarations of the program the names that its fields use
stand for eight bytes. -/
theorem EightByteFields.wordNamed {decls : List AstNode} (h : EightByteFields decls)
    {before : List AstNode} (hbefore : ∀ d ∈ before, d ∈ decls) :
    ∀ decl ∈ decls, ∀ s, structDecl? decl = some s → ∀ type ∈ s.types,
      WordNamed (buildLayouts before) type := by
  induction before using List.reverseRecOn with
  | nil =>
    intro decl _ s _ type _ t _ name _
    rfl
  | append_singleton before d ih =>
    intro decl hdecl s hs type htype t ht name hname
    subst ht
    have hd : d ∈ decls := hbefore d (by simp)
    have hold := ih fun d' hd' => hbefore d' (by simp [hd'])
    have hword := hold decl hdecl s hs _ htype t rfl name hname
    have hcut := cut_of_namedIn hname
    rw [buildLayouts_snoc]
    cases hstruct : structDecl? d with
    | some s' =>
      rw [namedSize_build_struct hstruct hcut]
      split
      next heq =>
        have hdname : typeDeclName d = some name := by
          cases d with
          | structDecl | classDecl => cases hstruct; exact congrArg some heq
          | _ => cases hstruct
        have hone := (h.named decl hdecl s hs t htype name hname d hd hdname).1 s' hstruct
        rw [layout_total fun type' htype' => typeSizeOpt_of_wordNamed (h.eight d hd s' hstruct _ htype')
          (hold d hd s' hstruct _ htype'), hone]
      next => exact hword
    | none =>
      cases d with
      | enumDecl ename variants isPub =>
        rw [namedSize_build_enum _ _ _ _ hcut]
        rw [namedSize, hcut] at hword
        cases hfind : (buildLayouts before).findStructLayout name with
        | some sl =>
          rw [hfind] at hword
          exact hword
        | none =>
          dsimp only
          split
          next heq =>
            have hzero := (h.named decl hdecl s hs t htype name hname _ hd (congrArg some heq)).2
            have hpayload : maxPayload (buildLayouts before) variants = 0 := by
              rw [maxPayload_eq_zero_iff _ ename variants isPub]
              intro types htypes type' htype'
              have hsize := hzero types htypes type' htype'
              rw [typeSize_of_namedIn_none (namedIn_of_small (by omega)), hsize]
            rw [hpayload]
          next => exact hold decl hdecl s hs _ htype t rfl name hname
      | structDecl | classDecl => cases hstruct
      | _ => exact hold decl hdecl s hs _ htype t rfl name hname

theorem EightByteFields.computed {decls before : List AstNode} (h : EightByteFields decls)
    (hbefore : ∀ d ∈ before, d ∈ decls) {decl : AstNode} (hdecl : decl ∈ decls) {s : StructDecl}
    (hs : structDecl? decl = some s) : ∀ type ∈ s.types, typeSizeOpt (buildLayouts before) type = 8 :=
  fun type htype => typeSizeOpt_of_wordNamed (h.eight decl hdecl s hs type htype)
    (h.wordNamed hbefore decl hdecl s hs type htype)

theorem EightByteFields.sound {decls order : List AstNode} (h : EightByteFields decls)
    (hperm : order.Perm decls) {s : StructDecl} {sl : StructLayout} (hin : LayoutIn order s sl) :
    SoundLayout (buildLayouts order) s sl := by
  obtain ⟨before, decl, after, horder, hs, rfl⟩ := hin
  have hmem : ∀ d ∈ order, d ∈ decls := fun d hd => hperm.mem_iff.mp hd
  have hdecl : decl ∈ decls := hmem decl (by simp [horder])
  have hbefore : ∀ d ∈ before, d ∈ decls := fun d hd => hmem d (by simp [horder, hd])
  have height := h.computed hbefore hdecl hs
  have hfinal := h.computed hmem hdecl hs
  have hfields : ∀ f ∈ fieldsOf s.fields, typeSizeOpt (buildLayouts before) f.2 = 8 :=
    fun f hf => height _ (List.mem_map_of_mem hf)
  refine ⟨layout_apart _ s, layout_inside _ s, ?_, ?_, ?_⟩
  · rw [layout_total height]
    have hfew := h.few decl hdecl s hs
    omega
  · show (buildFields _ _ 0).map FieldLayout.size = _
    rw [buildFields_sizes, StructDecl.types, List.map_map]
    refine List.map_congr_left fun f hf => ?_
    rw [hfields f hf]
    exact (hfinal _ (List.mem_map_of_mem hf)).symm
  · rw [buildStructTypeData, fieldsTypeData_eq, layoutRecords_of_eight hfields]
    rfl

theorem EightByteFields.layoutSound {decls : List AstNode} (h : EightByteFields decls) :
    LayoutSound decls := by
  refine ⟨fun order s sl hperm hin => h.sound hperm hin, ?_⟩
  intro order order' s sl sl' hperm hperm' hin hin'
  have height : ∀ {order : List AstNode} {sl : StructLayout}, order.Perm decls →
      LayoutIn order s sl → sl = s.layout {} := by
    intro order sl hperm hin
    obtain ⟨before, decl, after, horder, hs, rfl⟩ := hin
    have hmem : ∀ d ∈ order, d ∈ decls := fun d hd => hperm.mem_iff.mp hd
    have hdecl : decl ∈ decls := hmem decl (by simp [horder])
    have hbefore : ∀ d ∈ before, d ∈ decls := fun d hd => hmem d (by simp [horder, hd])
    have hcomputed := h.computed hbefore hdecl hs
    have hplain := h.eight decl hdecl s hs
    rw [StructDecl.layout, StructDecl.layout, buildStructLayout, buildStructLayout, fieldsEnd_eq,
      fieldsEnd_eq]
    have hsizes : ∀ f ∈ fieldsOf s.fields,
        typeSizeOpt (buildLayouts before) f.2 = typeSizeOpt {} f.2 := by
      intro f hf
      rw [hcomputed _ (List.mem_map_of_mem hf), hplain _ (List.mem_map_of_mem hf)]
    rw [buildFields_congr hsizes, List.map_congr_left hsizes]
  rw [height hperm hin, height hperm' hin']

/-! ## §8 Only those -/

section Only

variable {decls : List AstNode}

/-- The declaration first. -/
theorem LayoutSound.first (h : LayoutSound decls) {decl : AstNode} (hdecl : decl ∈ decls)
    {s : StructDecl} (hs : structDecl? decl = some s) : ∃ final, SoundLayout final s (s.layout {}) := by
  obtain ⟨before, after, hdecls⟩ := List.append_of_mem hdecl
  have hperm : (decl :: (before ++ after)).Perm decls := by
    rw [hdecls]
    exact List.perm_middle.symm
  exact ⟨_, h.sound _ s _ hperm ⟨[], decl, before ++ after, rfl, hs, rfl⟩⟩

/-- The declaration right behind another one. -/
theorem LayoutSound.second (h : LayoutSound decls) {d decl : AstNode} (hd : d ∈ decls)
    (hdecl : decl ∈ decls) (hne : d ≠ decl) {s : StructDecl} (hs : structDecl? decl = some s) :
    ∃ final, SoundLayout final s (s.layout (Registry.build {} d)) := by
  obtain ⟨before, after, hdecls⟩ := List.append_of_mem hdecl
  have hrest : d ∈ before ++ after := by
    rw [hdecls] at hd
    simpa [hne] using hd
  obtain ⟨before', after', hsplit⟩ := List.append_of_mem hrest
  have hperm : (d :: decl :: (before' ++ after')).Perm decls := by
    rw [hdecls]
    refine .trans (.swap _ _ _) (.trans (.cons decl ?_) List.perm_middle.symm)
    rw [hsplit]
    exact List.perm_middle.symm
  exact ⟨_, h.sound _ s _ hperm ⟨[d], decl, before' ++ after', rfl, hs, rfl⟩⟩

/-- The declaration last. -/
theorem LayoutSound.final (h : LayoutSound decls) {decl : AstNode} (hdecl : decl ∈ decls)
    {s : StructDecl} (hs : structDecl? decl = some s) :
    ∃ reg : Registry, SoundLayout (reg.build decl) s (s.layout reg) := by
  obtain ⟨before, after, hdecls⟩ := List.append_of_mem hdecl
  have hperm : (before ++ after ++ [decl]).Perm decls := by
    rw [hdecls, List.append_assoc]
    exact .append_left before (List.perm_append_singleton _ _)
  have hsound := h.sound _ s _ hperm ⟨before ++ after, decl, [], rfl, hs, rfl⟩
  rw [buildLayouts_snoc] at hsound
  exact ⟨_, hsound⟩

theorem LayoutSound.eight (h : LayoutSound decls) {decl : AstNode} (hdecl : decl ∈ decls)
    {s : StructDecl} (hs : structDecl? decl = some s) : ∀ type ∈ s.types, typeSizeOpt {} type = 8 := by
  obtain ⟨final, hsound⟩ := h.first hdecl hs
  exact hsound.eight

theorem LayoutSound.few (h : LayoutSound decls) {decl : AstNode} (hdecl : decl ∈ decls)
    {s : StructDecl} (hs : structDecl? decl = some s) : s.types.length ≤ 268435455 := by
  obtain ⟨final, hsound⟩ := h.first hdecl hs
  have hrange := hsound.inRange
  rw [layout_total hsound.eight] at hrange
  omega

/-- A struct with a field of its own type. -/
theorem LayoutSound.oneWord_self (h : LayoutSound decls) {decl : AstNode} (hdecl : decl ∈ decls)
    {s : StructDecl} (hs : structDecl? decl = some s) {type : AstNode} (htype : some type ∈ s.types)
    (hname : namedIn type = some s.name) : s.types.length = 1 := by
  obtain ⟨reg, hsound⟩ := h.final hdecl hs
  have hcomputed := hsound.eight
  have hsizes : ∀ t ∈ s.types, typeSizeOpt (reg.build decl) t = 8 := by
    intro t ht
    obtain ⟨f, hf, rfl⟩ := List.mem_map.mp ht
    have hsame := hsound.sizes
    rw [StructDecl.layout, buildStructLayout, buildFields_sizes, StructDecl.types,
      List.map_map] at hsame
    rw [← hcomputed _ ht]
    exact (List.map_inj_left.mp hsame f hf).symm
  have hsize := hsizes _ htype
  have hplain : typeSize {} type = 8 := h.eight hdecl hs _ htype
  rw [typeSizeOpt, typeSize_of_namedIn hplain hname, namedSize_build_struct hs (cut_of_namedIn hname),
    if_pos rfl, layout_total hcomputed] at hsize
  omega

theorem LayoutSound.oneWord (h : LayoutSound decls) {decl : AstNode} (hdecl : decl ∈ decls)
    {s : StructDecl} (hs : structDecl? decl = some s) {type : AstNode} (htype : some type ∈ s.types)
    {name : Bytes} (hname : namedIn type = some name) {d : AstNode} (hd : d ∈ decls)
    (hdname : typeDeclName d = some name) : OneWord d := by
  have hcut := cut_of_namedIn hname
  have hplain : typeSize {} type = 8 := h.eight hdecl hs _ htype
  by_cases hne : d = decl
  · subst hne
    have hself : s.name = name := by
      cases d with
      | structDecl | classDecl => cases hs; exact Option.some_inj.mp hdname
      | _ => cases hs
    refine ⟨fun s' hs' => ?_, ?_⟩
    · cases hs.symm.trans hs'
      exact h.oneWord_self hdecl hs htype (hself ▸ hname)
    · cases d with
      | structDecl | classDecl => simp [payloads]
      | _ => cases hs
  · -- declared first, it gives the field its size
    obtain ⟨final, hsound⟩ := h.second hd hdecl hne hs
    have hsize : namedSize (Registry.build {} d) name = 8 := by
      rw [← typeSize_of_namedIn hplain hname]
      exact hsound.eight _ htype
    cases hstruct : structDecl? d with
    | some s' =>
      have hsname : s'.name = name := by
        cases d with
        | structDecl | classDecl => cases hstruct; exact Option.some_inj.mp hdname
        | _ => cases hstruct
      rw [namedSize_build_struct hstruct hcut, if_pos hsname,
        layout_total (h.eight hd hstruct)] at hsize
      refine ⟨fun s'' hs'' => ?_, ?_⟩
      · cases hstruct.symm.trans hs''
        omega
      · cases d with
        | structDecl | classDecl => simp [payloads]
        | _ => cases hstruct
    | none =>
      cases d with
      | enumDecl ename variants isPub =>
        obtain rfl : ename = name := Option.some_inj.mp hdname
        rw [namedSize_build_enum _ _ _ _ hcut] at hsize
        have hzero : maxPayload {} variants = 0 := by
          change (if ename = ename then 8 + maxPayload {} variants else _) = 8 at hsize
          rw [if_pos rfl] at hsize
          omega
        exact ⟨fun s' hs' => absurd hs' (by simp [structDecl?]),
          (maxPayload_eq_zero_iff {} ename variants isPub).mp hzero⟩
      | structDecl | classDecl => cases hstruct
      | _ => cases hdname

theorem LayoutSound.eightByteFields (h : LayoutSound decls) : EightByteFields decls where
  eight := fun _ hdecl _ hs => h.eight hdecl hs
  named := fun _ hdecl _ hs _ htype _ hname _ hd hdname => h.oneWord hdecl hs htype hname hd hdname
  few := fun _ hdecl _ hs => h.few hdecl hs

theorem layoutSound_iff_eight : LayoutSound decls ↔ EightByteFields decls :=
  ⟨LayoutSound.eightByteFields, EightByteFields.layoutSound⟩

/-! ## §9 Reads -/

theorem FieldRead.exact_iff (h : EightByteFields decls) (r : FieldRead decls) :
    r.Exact ↔ r.Direct := by
  have hmem : r.decl ∈ decls := by simp [r.declared]
  constructor
  · intro ⟨fl, _, _, hload⟩
    rw [cgFieldAccess] at hload
    rw [FieldRead.Direct]
    cases hname : targetStructName r.resolved r.target with
    | none => simp [hname] at hload
    | some name =>
      cases hfind : (buildLayouts decls).findStructLayout name with
      | none => simp [hname, hfind] at hload
      | some sl => rw [(r.typed name hname (declared_of_findStructLayout hfind)).1]
  · intro hdirect
    have hbase := (r.typed _ hdirect ⟨r.decl, hmem, r.struct, r.isStruct, rfl⟩).2
    have hlayout : (buildLayouts (r.before ++ r.decl :: r.after)).findStructLayout r.struct.name =
        some (r.struct.layout (buildLayouts r.before)) := findStructLayout_last r.isStruct r.last
    rw [← r.declared] at hlayout
    have hnames : r.field ∈ (r.struct.layout (buildLayouts r.before)).fields.map FieldLayout.name := by
      rw [StructDecl.layout, buildStructLayout, buildFields_names]
      exact r.hasField
    obtain ⟨g, hg, hgname⟩ := List.mem_map.mp hnames
    -- the field that is found first
    obtain ⟨fl, hfl⟩ : ∃ fl, (r.struct.layout (buildLayouts r.before)).fields.find?
        (·.name == r.field) = some fl :=
      Option.isSome_iff_exists.mp (List.find?_isSome.mpr ⟨g, hg, by simpa using hgname⟩)
    have hin := List.mem_of_find?_eq_some hfl
    have hsize : fl.size = 8 := by
      have hbefore : ∀ d ∈ r.before, d ∈ decls := fun d hd => by
        rw [r.declared]
        simp [hd]
      have hsizes := List.mem_map_of_mem (f := FieldLayout.size) hin
      rw [StructDecl.layout, buildStructLayout, buildFields_sizes] at hsizes
      obtain ⟨f, hf, hfsize⟩ := List.mem_map.mp hsizes
      rw [← hfsize]
      exact h.computed hbefore hmem r.isStruct _ (List.mem_map_of_mem hf)
    refine ⟨fl, hin, by simpa using List.find?_some hfl, ?_⟩
    rw [FieldRead.Direct] at hdirect
    simp only [cgFieldAccess, hdirect, hlayout, findFieldOffset, hfl, hbase, hsize]

end Only

/-- `struct P { a: u32, b: u64 }`. -/
def pairDecl : AstNode :=
  .structDecl (bytes "P") [.field (bytes "a") (some (.typePrimitive .u32)),
    .field (bytes "b") (some (.typePrimitive .u64))] [] [] false

end Aether.Codegen.Layout
