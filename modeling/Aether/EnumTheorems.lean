/-
Aether.EnumTheorems — when a variant keeps its identity in both backends.

A variant is used as a value `E::V`, constructed as `E::V(args)`, named by a
catch arm or by the pattern of a match arm. `variant_identity_iff` says for
each backend and each use when the generated number is the position of the
variant in its enum. Four of the eight uses never give it: the NASM
generator emits nothing for the bare value and for a pattern, the C
transpiler no valid call for a construction and no test for a catch arm.
-/
import Aether.Codegen.Enums
import Aether.CTranspiler.Enums

namespace Aether

open Codegen.Layout CTranspiler.Enums

-- the equations, before the proofs that share them
section
attribute [local simp] comparedWith cValue
end

inductive VariantBackend where
  | nasm | c
  deriving DecidableEq, Repr

inductive VariantUse where
  /-- `E::V` -/
  | value
  /-- `E::V(args)` -/
  | construct (args : List AstNode)
  /-- `catch V(var)` -/
  | catchArm
  /-- `case V ->` -/
  | pattern

/-- A variant of an enum of the program. -/
structure EnumVariant (decls : List AstNode) where
  enumName : Bytes
  isPub : Bool
  before : List AstNode
  name : Bytes
  payloadTypes : List AstNode
  after : List AstNode
  declared :
    .enumDecl enumName (before ++ .enumVariant name payloadTypes :: after) isPub ∈ decls

namespace EnumVariant

variable {decls : List AstNode}

def decl (v : EnumVariant decls) : AstNode :=
  .enumDecl v.enumName (v.before ++ .enumVariant v.name v.payloadTypes :: v.after) v.isPub

def position (v : EnumVariant decls) : Nat := v.before.length

/-- The node of a use: an expression, the type of a catch arm or a pattern. -/
def node (v : EnumVariant decls) : VariantUse → AstNode
  | .value => .fieldAccess (some (.ident v.enumName)) v.name
  | .construct args => .call (some (.fieldAccess (some (.ident v.enumName)) v.name)) args
  | .catchArm => .typeNamed v.name
  | .pattern => .ident v.name

/-- The number that the code generated for a use has in `rax` or compares
with, where the enum's name is resolved to the enum. -/
def nasmNumber (v : EnumVariant decls) (varOffset : Int) : VariantUse → Option Nat
  | .value => leftInRax (cgVariant (buildLayouts decls) varOffset (some v.decl) (v.node .value))
  | .construct args =>
    leftInRax (cgVariant (buildLayouts decls) varOffset (some v.decl) (v.node (.construct args)))
  | .catchArm => comparedWith (cgCatchType (buildLayouts decls) (some (v.node .catchArm)))
  | .pattern => comparedWith (cgPattern (v.node .pattern))

/-- The number that the C text stands for or compares with. -/
def cNumber (v : EnumVariant decls) (scope : CScope) : VariantUse → Option Nat
  | .value => cValue decls scope (cEmitVariant (some v.decl) (v.node .value))
  | .construct args => cValue decls scope (cEmitVariant (some v.decl) (v.node (.construct args)))
  | .catchArm => (cEmitCatchType (some (v.node .catchArm))).bind (cValue decls scope)
  | .pattern => cValue decls scope (cEmitPattern (v.node .pattern))

def number (v : EnumVariant decls) (varOffset : Int) (scope : CScope) :
    VariantBackend → VariantUse → Option Nat
  | .nasm, use => v.nasmNumber varOffset use
  | .c, use => v.cNumber scope use

/-- A variant keeps its identity in a use. -/
def Kept (v : EnumVariant decls) (scope : CScope) : VariantBackend → VariantUse → Prop
  | .nasm, .construct _ | .nasm, .catchArm => LastNamed decls (cut v.name) v.position
  | .c, .value | .c, .pattern => DeclaredOnce decls scope ∧ v.name ∉ scope.locals
  | .nasm, .value | .nasm, .pattern | .c, .construct _ | .c, .catchArm => False

-- the equations, before the proofs that share them
section
attribute [local simp] node nasmNumber cNumber number Kept
end

/-! ## §1 The NASM generator -/

/-- No code is emitted for the bare value. -/
theorem nasmNumber_value (v : EnumVariant decls) (varOffset : Int) :
    v.nasmNumber varOffset .value = none := rfl

theorem nasmNumber_construct_iff (v : EnumVariant decls) (varOffset : Int) (args : List AstNode) :
    v.nasmNumber varOffset (.construct args) = some v.position ↔
      LastNamed decls (cut v.name) v.position := by
  rw [← findDiscriminant_eq_some_iff, nasmNumber, node, cgVariant]
  cases findDiscriminant (buildLayouts decls) (cut v.name) <;> simp [leftInRax]

theorem nasmNumber_catchArm_iff (v : EnumVariant decls) (varOffset : Int) :
    v.nasmNumber varOffset .catchArm = some v.position ↔
      LastNamed decls (cut v.name) v.position := by
  rw [← findDiscriminant_eq_some_iff, nasmNumber, node, cgCatchType]
  cases findDiscriminant (buildLayouts decls) (cut v.name) <;> simp [comparedWith]

/-! ## §2 The C transpiler -/

theorem mem_allConstants (v : EnumVariant decls) : (v.name, v.position) ∈ allConstants decls := by
  have hmem : ⟨v.enumName, v.before.map enumeratorName ++ v.name :: v.after.map enumeratorName⟩ ∈
      enumsOf decls :=
    List.mem_filterMap.mpr ⟨v.decl, v.declared, by simp [decl, cEmitEnumDecl, enumeratorName]⟩
  refine List.mem_flatMap.mpr ⟨_, hmem, ?_⟩
  have hconstant := @mem_constants (v.before.map enumeratorName) (v.after.map enumeratorName) v.name 0
  rwa [Nat.zero_add, List.length_map] at hconstant

theorem cValue_name_iff (v : EnumVariant decls) (scope : CScope) :
    cValue decls scope (.name v.name) = some v.position ↔
      DeclaredOnce decls scope ∧ v.name ∉ scope.locals := by
  rw [cValue]
  constructor
  · intro h
    split at h
    · assumption
    · cases h
  · intro h
    rw [if_pos h]
    exact lookup_of_nodup (h.1.1.sublist (allConstants_sublist decls)) v.mem_allConstants

/-! ## §3 Both -/

/-- For every program, variant, backend and use: the number generated is the
position of the variant exactly under these conditions. -/
theorem variant_identity_iff (v : EnumVariant decls) (varOffset : Int) (scope : CScope)
    (backend : VariantBackend) (use : VariantUse) :
    v.number varOffset scope backend use = some v.position ↔ v.Kept scope backend use := by
  cases backend with
  | nasm =>
    cases use with
    | value => simp [number, nasmNumber_value, Kept]
    | construct args => exact v.nasmNumber_construct_iff varOffset args
    | catchArm => exact v.nasmNumber_catchArm_iff varOffset
    | pattern => simp [number, nasmNumber, node, cgPattern, comparedWith, Kept]
  | c =>
    cases use with
    | value => exact v.cValue_name_iff scope
    | construct args => simp [number, cNumber, node, cEmitVariant, cValue, Kept]
    | catchArm => simp [number, cNumber, cEmitCatchType, Kept]
    | pattern => exact v.cValue_name_iff scope

/-- `enum A { X Y }` and `enum B { Y X }`. -/
def sharedNames : List AstNode :=
  [.enumDecl (bytes "A") [.enumVariant (bytes "X") [], .enumVariant (bytes "Y") []] false,
    .enumDecl (bytes "B") [.enumVariant (bytes "Y") [], .enumVariant (bytes "X") []] false]

def firstX : EnumVariant sharedNames :=
  ⟨bytes "A", false, [], bytes "X", [], [.enumVariant (bytes "Y") []], List.mem_cons_self⟩

/-- `A::X()` is the number of `B::X`, which a catch arm compares with too;
the C text has two declarations of `X`. -/
theorem firstX_loses_identity :
    firstX.position = 0 ∧ firstX.number (-8) ⟨[], []⟩ .nasm (.construct []) = some 1 ∧
      firstX.number (-8) ⟨[], []⟩ .nasm .catchArm = some 1 ∧
      firstX.number (-8) ⟨[], []⟩ .c .value = none :=
  ⟨rfl, by decide, by decide, by decide⟩

end EnumVariant

end Aether
