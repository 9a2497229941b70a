/-
Aether.Codegen.Enums — enum variants in the NASM generator.

The variants of all enums are on one list, and a variant is found by its
name alone: the first entry, which is that of the last variant declared with
the name (`findDiscriminant_eq_some_iff`).
-/
import Aether.Codegen.Layout

namespace Aether.Codegen.Layout

/-! ## §1 Emission -/

/-- The instructions that a variant is emitted as. -/
inductive Inst where
  /-- `mov rax, n` -/
  | mov (n : Nat)
  /-- `cmp rax, n` -/
  | cmp (n : Nat)
  | load (l : Load)
  | call
  deriving DecidableEq, Repr

def findDiscriminant (reg : Registry) (name : Bytes) : Option Nat :=
  (reg.variantEntries.find? (·.name == name)).map VariantEntry.discriminant

/-- `cg_expr` for `E::V`, a field access, and for `E::V(args)`, a call. -/
def cgVariant (reg : Registry) (varOffset : Int) (resolved : Option AstNode) : AstNode → List Inst
  | .fieldAccess (some target) field =>
    ((cgFieldAccess reg varOffset resolved target field).map Inst.load).toList
  | .call (some (.fieldAccess (some (.ident _)) field)) _ =>
    match findDiscriminant reg (cut field) with
    | some discVal => [.mov discVal]
    | none => [.call]
  | _ => []

/-- The comparison of a catch arm, in `cg_stmt`. -/
def cgCatchType (reg : Registry) : Option AstNode → List Inst
  | some (.typeNamed name) =>
    match findDiscriminant reg (cut name) with
    | some discVal => [.cmp discVal]
    | none => []
  | _ => []

/-- The comparison of a match arm's first pattern. -/
def cgPattern : AstNode → List Inst
  | .literalInt value _ => [.cmp value.toNat]
  | _ => []

/-- The number that the instructions leave in `rax`, whatever was there. -/
def leftInRax (insts : List Inst) : Option Nat :=
  match insts.getLast? with
  | some (.mov n) => some n
  | _ => none

/-- The number that they compare `rax` with. -/
def comparedWith (insts : List Inst) : Option Nat :=
  insts.findSome? fun inst => match inst with
    | .cmp n => some n
    | _ => none

/-! ## §2 Lookup -/

/-- The variants with their positions. -/
def numbered : List AstNode → Nat → List VariantEntry
  | [], _ => []
  | variant :: variants, i => ⟨variantName variant, i⟩ :: numbered variants (i + 1)

def declVariants : AstNode → List VariantEntry
  | .enumDecl _ variants _ => numbered variants 0
  | _ => []

/-- All variants in the order in which they are declared. -/
def variantsOf (decls : List AstNode) : List VariantEntry := decls.flatMap declVariants

theorem registerVariants_eq (variants : List AstNode) (i : Nat) (entries : List VariantEntry) :
    registerVariants variants i entries = (numbered variants i).reverse ++ entries := by
  induction variants generalizing i entries with
  | nil => rfl
  | cons variant variants ih => simp [registerVariants, numbered, ih]

theorem variantEntries_build (reg : Registry) (decl : AstNode) :
    (reg.build decl).variantEntries = (declVariants decl).reverse ++ reg.variantEntries := by
  cases decl with
  | enumDecl name variants isPub => exact registerVariants_eq variants 0 _
  | _ => rfl

theorem variantEntries_eq (decls : List AstNode) :
    (buildLayouts decls).variantEntries = (variantsOf decls).reverse := by
  have hfold : ∀ reg : Registry, (decls.foldl Registry.build reg).variantEntries =
      (variantsOf decls).reverse ++ reg.variantEntries := by
    induction decls with
    | nil => exact fun _ => rfl
    | cons decl decls ih =>
      intro reg
      rw [List.foldl_cons, ih, variantEntries_build]
      simp [variantsOf]
  exact (hfold {}).trans (List.append_nil _)

/-- The last variant with the name is the `i`-th of its enum. -/
def LastNamed (decls : List AstNode) (name : Bytes) (i : Nat) : Prop :=
  ∃ before after, variantsOf decls = before ++ ⟨name, i⟩ :: after ∧ ∀ e ∈ after, e.name ≠ name

theorem findDiscriminant_eq_some_iff {decls : List AstNode} {name : Bytes} {i : Nat} :
    findDiscriminant (buildLayouts decls) name = some i ↔ LastNamed decls name i := by
  rw [findDiscriminant, variantEntries_eq, Option.map_eq_some_iff]
  constructor
  · intro ⟨e, hfind, hi⟩
    obtain ⟨hname, after, before, hsplit, hafter⟩ := List.find?_eq_some_iff_append.mp hfind
    refine ⟨before.reverse, after.reverse, ?_, ?_⟩
    · have hentry : e = ⟨name, i⟩ := by
        cases e
        simp_all
      rw [← hentry, ← List.reverse_reverse (variantsOf decls), hsplit]
      simp
    · intro e' he'
      simpa using hafter e' (by simpa using he')
  · intro ⟨before, after, hsplit, hafter⟩
    refine ⟨⟨name, i⟩, List.find?_eq_some_iff_append.mpr ⟨by simp, after.reverse, before.reverse, ?_, ?_⟩,
      rfl⟩
    · rw [hsplit]
      simp
    · intro e he
      simpa using hafter e (by simpa using he)

end Aether.Codegen.Layout
