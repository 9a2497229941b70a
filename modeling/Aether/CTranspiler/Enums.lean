/-
Aether.CTranspiler.Enums — enum variants in the C transpiler.

An enum becomes a `typedef enum` of bare enumerators, and `E::V` the bare
name `V`. What the name means is a matter of the C text: it has to be
declared once at file scope, and by nothing nearer.
-/
import Aether.Ast

namespace Aether.CTranspiler.Enums

/-! ## §1 Emission -/

structure CEnum where
  name : Bytes
  enumerators : List Bytes
  deriving DecidableEq, Repr

def enumeratorName : AstNode → Bytes
  | .enumVariant vname _ => vname
  | _ => []

/-- `c_emit_enum_decl` -/
def cEmitEnumDecl : AstNode → Option CEnum
  | .enumDecl name variants _ => some ⟨name, variants.map enumeratorName⟩
  | _ => none

/-- What a variant is emitted as. -/
inductive CText where
  | name (name : Bytes)
  | member (member : Bytes)
  /-- `V_getter(&E)` or `V_setter(&E, args)` -/
  | methodCall (function : Bytes)
  | other
  deriving DecidableEq, Repr

def isEnumDecl : AstNode → Bool
  | .enumDecl .. => true
  | _ => false

/-- `c_emit_field_access` -/
def cEmitFieldAccess (resolved : Option AstNode) (target : AstNode) (field : Bytes) : CText :=
  match target, resolved with
  | .ident _, some decl => if isEnumDecl decl then .name field else .member field
  | _, _ => .member field

/-- `c_emit_expr` for `E::V` and `E::V(args)`. -/
def cEmitVariant (resolved : Option AstNode) : AstNode → CText
  | .fieldAccess (some target) field => cEmitFieldAccess resolved target field
  | .call (some (.fieldAccess _ field)) args =>
    .methodCall (field ++ if 0 < args.length then bytes "_setter" else bytes "_getter")
  | .ident name => .name name
  | _ => .other

/-- The test that `c_emit_try` makes for a catch arm: none. -/
def cEmitCatchType : Option AstNode → Option CText := fun _ => none

/-- A match arm is compared with what its pattern is emitted as. -/
def cEmitPattern (pattern : AstNode) : CText := cEmitVariant none pattern

/-! ## §2 Names in the C text -/

/-- The names that are declared besides the enums: at file scope, and in the
blocks around an expression. -/
structure CScope where
  fileScope : List Bytes
  locals : List Bytes
  deriving DecidableEq, Repr

def CEnum.names (e : CEnum) : List Bytes := e.enumerators ++ [e.name]

/-- An enumerator is one more than the one before it. -/
def constants : List Bytes → Nat → List (Bytes × Nat)
  | [], _ => []
  | name :: names, i => (name, i) :: constants names (i + 1)

def enumsOf (decls : List AstNode) : List CEnum := decls.filterMap cEmitEnumDecl

def enumNames (decls : List AstNode) : List Bytes := (enumsOf decls).flatMap CEnum.names

/-- A name is declared once at file scope, or the text does not compile. -/
def DeclaredOnce (decls : List AstNode) (scope : CScope) : Prop :=
  (enumNames decls).Nodup ∧ ∀ name ∈ enumNames decls, name ∉ scope.fileScope

instance (decls : List AstNode) (scope : CScope) : Decidable (DeclaredOnce decls scope) :=
  inferInstanceAs (Decidable (_ ∧ _))

def allConstants (decls : List AstNode) : List (Bytes × Nat) :=
  (enumsOf decls).flatMap fun e => constants e.enumerators 0

/-- The number that the text stands for where it is placed. -/
def cValue (decls : List AstNode) (scope : CScope) : CText → Option Nat
  | .name name =>
    if DeclaredOnce decls scope ∧ name ∉ scope.locals then (allConstants decls).lookup name
    else none
  | _ => none

/-! ## §3 Lookup -/

theorem constants_names (names : List Bytes) (i : Nat) : (constants names i).map (·.1) = names := by
  induction names generalizing i with
  | nil => rfl
  | cons name names ih => simp [constants, ih]

theorem mem_constants {before after : List Bytes} {name : Bytes} (i : Nat) :
    (name, i + before.length) ∈ constants (before ++ name :: after) i := by
  induction before generalizing i with
  | nil => simp [constants]
  | cons b before ih =>
    have hmem := ih (i + 1)
    rw [Nat.add_right_comm] at hmem
    exact List.mem_cons_of_mem _ hmem

/-- In a table of distinct names every entry is found. -/
theorem lookup_of_nodup {table : List (Bytes × Nat)} (h : (table.map (·.1)).Nodup)
    {name : Bytes} {i : Nat} (hmem : (name, i) ∈ table) : table.lookup name = some i := by
  induction table with
  | nil => simp at hmem
  | cons entry table ih =>
    obtain ⟨n, j⟩ := entry
    rw [List.map_cons, List.nodup_cons] at h
    rw [List.lookup_cons]
    cases List.mem_cons.mp hmem with
    | inl heq =>
      cases heq
      simp
    | inr hrest =>
      have hne : name ≠ n := by
        intro heq
        subst heq
        exact h.1 (List.mem_map.mpr ⟨(name, i), hrest, rfl⟩)
      rw [beq_eq_false_iff_ne.mpr hne]
      exact ih h.2 hrest

theorem allConstants_sublist (decls : List AstNode) :
    ((allConstants decls).map (·.1)).Sublist (enumNames decls) := by
  rw [allConstants, enumNames]
  induction enumsOf decls with
  | nil => simp
  | cons e es ih =>
    rw [List.flatMap_cons, List.flatMap_cons, List.map_append, constants_names]
    exact (List.sublist_append_left _ _).append ih

end Aether.CTranspiler.Enums
