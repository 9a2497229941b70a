/-
Aether.Semantic.TypeReplacement — when `monomorphize_type` ends with every type
parameter replaced.

`Replaced` asks of a result only what concerns the parameters: each one gives
way to its own concrete type, once and unchanged. The clone looks at a
concrete type again with the same parameters, so it gets there exactly when
the concrete types it meets have nothing left to replace, and it loses the
parameters of a tuple (`replaced_iff`).
-/
import Aether.Semantic.MonomorphizeTheorems

namespace Aether.Semantic

open Aether.Lib.Fuel

section Replacement

variable (σ : Bytes → Option AstNode)

/-! ## §1 What is asked of a copy -/

mutual

/-- A parameter occurs in the type. -/
def Mentions : AstNode → Prop
  | .typeNamed name => σ name ≠ none
  | .typeRef elemType _ => MentionsOpt elemType
  | .typePtr elemType => MentionsOpt elemType
  | .typeArray elemType _ => MentionsOpt elemType
  | .typeSlice elemType => MentionsOpt elemType
  | .typeOptional elemType => MentionsOpt elemType
  | .typeTuple tupleTypes => MentionsAny tupleTypes
  | .typeFn paramTypes returnType => MentionsAny paramTypes ∨ MentionsOpt returnType
  | _ => False

def MentionsOpt : Option AstNode → Prop
  | none => False
  | some type => Mentions type

def MentionsAny : List AstNode → Prop
  | [] => False
  | type :: types => Mentions type ∨ MentionsAny types

end

mutual

/-- Each parameter of the type is its concrete type in the result, and each other name itself.
Of the flags of a reference, and of a tuple without parameters, nothing is asked. -/
def Replaced : AstNode → AstNode → Prop
  | .typeNamed name, result => result = (σ name).getD (.typeNamed name)
  | .typeRef elemType _, result =>
    ∃ elemType' kind, result = .typeRef elemType' kind ∧ ReplacedOpt elemType elemType'
  | .typePtr elemType, result =>
    ∃ elemType', result = .typePtr elemType' ∧ ReplacedOpt elemType elemType'
  | .typeArray elemType arraySize, result =>
    ∃ elemType', result = .typeArray elemType' arraySize ∧ ReplacedOpt elemType elemType'
  | .typeSlice elemType, result =>
    ∃ elemType', result = .typeSlice elemType' ∧ ReplacedOpt elemType elemType'
  | .typeOptional elemType, result =>
    ∃ elemType', result = .typeOptional elemType' ∧ ReplacedOpt elemType elemType'
  | .typeTuple tupleTypes, result =>
    MentionsAny σ tupleTypes →
      ∃ tupleTypes', result = .typeTuple tupleTypes' ∧ AllReplaced tupleTypes tupleTypes'
  | .typeFn paramTypes returnType, result =>
    ∃ paramTypes' returnType', result = .typeFn paramTypes' returnType' ∧
      AllReplaced paramTypes paramTypes' ∧ ReplacedOpt returnType returnType'
  | node, result => result = node

def ReplacedOpt : Option AstNode → Option AstNode → Prop
  | none, result => result = none
  | some type, result => ∃ type', result = some type' ∧ Replaced type type'

def AllReplaced : List AstNode → List AstNode → Prop
  | [], results => results = []
  | type :: types, results =>
    ∃ type' types', results = type' :: types' ∧ Replaced type type' ∧ AllReplaced types types'

end

mutual

/-- A parameter stands in no tuple, and its concrete type is closed. -/
def ParamsKept : AstNode → Prop
  | .typeNamed name => ∀ type, σ name = some type → ClosedType σ type
  | .typeRef elemType _ => ParamsKeptOpt elemType
  | .typePtr elemType => ParamsKeptOpt elemType
  | .typeArray elemType _ => ParamsKeptOpt elemType
  | .typeSlice elemType => ParamsKeptOpt elemType
  | .typeOptional elemType => ParamsKeptOpt elemType
  | .typeTuple tupleTypes => ¬ MentionsAny σ tupleTypes
  | .typeFn paramTypes returnType => AllParamsKept paramTypes ∧ ParamsKeptOpt returnType
  | _ => True

def ParamsKeptOpt : Option AstNode → Prop
  | none => True
  | some type => ParamsKept type

def AllParamsKept : List AstNode → Prop
  | [] => True
  | type :: types => ParamsKept type ∧ AllParamsKept types

end

end Replacement

/-! ## §2 The copies that end -/

section Copies

variable (typeParams concreteTypes : List AstNode)

/-- A parameter is replaced by the clone of its concrete type. -/
theorem named_replaced_iff (name : Bytes) :
    (∃ r, Returns (fun n => monomorphizeType typeParams concreteTypes n (.typeNamed name)) r ∧
        Replaced (concreteFor typeParams concreteTypes) (.typeNamed name) r) ↔
      ParamsKept (concreteFor typeParams concreteTypes) (.typeNamed name) := by
  have hiff := monomorphizeType_iff typeParams concreteTypes (.typeNamed name)
  simp only [substNode, TypeKept] at hiff
  simp only [Replaced, ParamsKept, exists_eq_right]
  exact hiff

mutual

/-- The clone ends with the parameters replaced exactly when they are kept. -/
theorem replaced_iff (type : AstNode) :
    (∃ r, Returns (fun n => monomorphizeType typeParams concreteTypes n type) r ∧
        Replaced (concreteFor typeParams concreteTypes) type r) ↔
      ParamsKept (concreteFor typeParams concreteTypes) type := by
  have hstable := monomorphizeTypeOpt_stable typeParams concreteTypes
  have hsucc : ∀ r, Returns (fun n => monomorphizeType typeParams concreteTypes n type) r ↔
      Returns (fun n => monomorphizeType typeParams concreteTypes (n + 1) type) r := fun r =>
    returns_succ rfl
  simp only [hsucc]
  cases type with
  | typeNamed name =>
    simp only [← hsucc]
    exact named_replaced_iff typeParams concreteTypes name
  | typeRef elemType kind =>
    simp [monomorphizeType, returns_bind, hstable, Replaced, ParamsKept,
      ← replacedOpt_iff elemType]
  | typePtr elemType =>
    simp [monomorphizeType, returns_bind, hstable, Replaced, ParamsKept,
      ← replacedOpt_iff elemType]
  | typeArray elemType arraySize =>
    simp [monomorphizeType, returns_bind, hstable, Replaced, ParamsKept,
      ← replacedOpt_iff elemType]
  | typeSlice elemType =>
    simp [monomorphizeType, returns_bind, hstable, Replaced, ParamsKept,
      ← replacedOpt_iff elemType]
  | typeOptional elemType =>
    simp [monomorphizeType, returns_bind, hstable, Replaced, ParamsKept,
      ← replacedOpt_iff elemType]
  | typeTuple tupleTypes =>
    -- nothing is left of a tuple
    cases tupleTypes with
    | nil => simp [monomorphizeType, Replaced, ParamsKept, MentionsAny]
    | cons type types => simp [monomorphizeType, Replaced, ParamsKept, AllReplaced]
  | typeFn paramTypes returnType =>
    simp [monomorphizeType, returns_bind, hstable, Stable.bind, Stable.mapM_list,
      monomorphizeType_stable, Replaced, ParamsKept, ← replacedOpt_iff returnType,
      ← allReplaced_iff paramTypes]
    constructor
    · intro ⟨types, htypes, type, htype, hall, hopt⟩
      exact ⟨⟨types, htypes, hall⟩, type, htype, hopt⟩
    · intro ⟨⟨types, htypes, hall⟩, type, htype, hopt⟩
      exact ⟨types, htypes, type, htype, hall, hopt⟩
  | _ => simp [monomorphizeType, Replaced, ParamsKept]

theorem replacedOpt_iff (type : Option AstNode) :
    (∃ r, Returns (fun n => type.mapM (monomorphizeType typeParams concreteTypes n)) r ∧
        ReplacedOpt (concreteFor typeParams concreteTypes) type r) ↔
      ParamsKeptOpt (concreteFor typeParams concreteTypes) type := by
  cases type with
  | none => simp [ReplacedOpt, ParamsKeptOpt]
  | some type =>
    simp only [returns_mapM_some (monomorphizeType_stable typeParams concreteTypes)]
    simp [ReplacedOpt, ParamsKeptOpt, ← replaced_iff type]

theorem allReplaced_iff (types : List AstNode) :
    (∃ r, Returns (fun n => types.mapM (monomorphizeType typeParams concreteTypes n)) r ∧
        AllReplaced (concreteFor typeParams concreteTypes) types r) ↔
      AllParamsKept (concreteFor typeParams concreteTypes) types := by
  cases types with
  | nil => simp [AllReplaced, AllParamsKept]
  | cons type types =>
    simp only [returns_mapM_cons (monomorphizeType_stable typeParams concreteTypes)]
    simp [AllReplaced, AllParamsKept, ← replaced_iff type, ← allReplaced_iff types]
    constructor
    · intro ⟨type, types, ⟨htype, htypes⟩, hreplaced, hall⟩
      exact ⟨⟨type, htype, hreplaced⟩, types, htypes, hall⟩
    · intro ⟨⟨type, htype, hreplaced⟩, types, htypes, hall⟩
      exact ⟨type, types, ⟨htype, htypes⟩, hreplaced, hall⟩

end

/-- `monomorphize_type` ends with each parameter replaced by its concrete type exactly when the
parameters are kept. -/
theorem type_substitution_iff (type : AstNode) :
    (∃ result fuel, monomorphizeType typeParams concreteTypes fuel type = some result ∧
        Replaced (concreteFor typeParams concreteTypes) type result) ↔
      ParamsKept (concreteFor typeParams concreteTypes) type := by
  rw [← replaced_iff typeParams concreteTypes type]
  constructor
  · intro ⟨result, fuel, hfuel, hreplaced⟩
    exact ⟨result, ⟨fuel, hfuel⟩, hreplaced⟩
  · intro ⟨result, ⟨fuel, hfuel⟩, hreplaced⟩
    exact ⟨result, fuel, hfuel, hreplaced⟩

end Copies

/-- A generic function that calls itself with its own argument has its parameter for a concrete
type, and the clone never returns. -/
theorem own_parameter_endless :
    ¬ ∃ result fuel, monomorphizeType [.ident (bytes "T")] [.typeNamed (bytes "T")] fuel
      (.typeNamed (bytes "T")) = some result := by
  have hnone : ∀ fuel, monomorphizeType [.ident (bytes "T")] [.typeNamed (bytes "T")] fuel
      (.typeNamed (bytes "T")) = none := by
    intro fuel
    induction fuel with
    | zero => rfl
    | succ fuel ih =>
      have hfor : concreteFor [.ident (bytes "T")] [.typeNamed (bytes "T")] (bytes "T") =
          some (.typeNamed (bytes "T")) := rfl
      simpa [monomorphizeType, hfor] using ih
  intro ⟨result, fuel, hfuel⟩
  rw [hnone fuel] at hfuel
  cases hfuel

end Aether.Semantic
