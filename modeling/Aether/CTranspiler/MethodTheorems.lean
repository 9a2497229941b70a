/-
Aether.CTranspiler.MethodTheorems — when method calls reach their
definitions.

A definition's symbol is a stem and a suffix (`symbol_eq`), and both can be
read off it (`append_suffix_inj`). `methods_reached_iff`: a call has the
symbol of the method exactly when that is a struct or class method of plain
name whose suffix follows the arguments, and definitions have symbols of
their own exactly when no two agree in stem and suffix.
-/
import Aether.CTranspiler.Methods

namespace Aether.CTranspiler

/-! ## §1 Stem and suffix -/

/-- The suffix of a getter or a setter. -/
def suffix (getter : Bool) : Bytes := if getter then bytes "_getter" else bytes "_setter"

theorem methodSuffix_eq (returnType : Option AstNode) :
    methodSuffix returnType = suffix returnType.isSome := rfl

theorem length_suffix (getter : Bool) : (suffix getter).length = 7 := by
  cases getter <;> rfl

theorem suffix_injective {a b : Bool} (h : suffix a = suffix b) : a = b := by
  revert h
  cases a <;> cases b <;> decide

theorem append_suffix_inj {s t : Bytes} {a b : Bool} :
    s ++ suffix a = t ++ suffix b ↔ s = t ∧ a = b := by
  constructor
  · intro h
    obtain ⟨hstem, hsuffix⟩ := List.append_inj' h (by rw [length_suffix, length_suffix])
    exact ⟨hstem, suffix_injective hsuffix⟩
  · rintro ⟨rfl, rfl⟩
    rfl

theorem main_ne_append_suffix (s : Bytes) (a : Bool) : bytes "main" ≠ s ++ suffix a := by
  intro h
  have hlen := congrArg List.length h
  rw [List.length_append, length_suffix] at hlen
  have hmain : (bytes "main").length = 4 := rfl
  omega

theorem methodCallSymbol_call (target : Option AstNode) (method : Bytes) (args : List AstNode) :
    methodCallSymbol (.call (some (.fieldAccess target method)) args) =
      some (method ++ suffix args.isEmpty) := by
  rw [methodCallSymbol, suffix]
  cases args with
  | nil => rw [if_neg (by simp), List.isEmpty_nil, if_pos rfl]
  | cons arg args => rw [if_pos (by simp), List.isEmpty_cons, if_neg Bool.false_ne_true]

namespace MethodDef

variable {d e : MethodDef}

/-- A struct or class method that is taken for the main function. -/
def IsMain (d : MethodDef) : Prop := d.inImpl = false ∧ d.name = bytes "main"

/-- The symbol without its suffix. -/
def stem (d : MethodDef) : Bytes :=
  if d.inImpl then d.typeName ++ bytes "_" ++ d.name else mangleFuncName d.name d.info.sigHash

/-- What the parser says of methods: none is a `sys` function, and those of
structs and classes have `self` in front. -/
def Parsed (d : MethodDef) : Prop :=
  d.info.isSys = false ∧ (d.inImpl = false → isMethod d.params = true)

theorem symbol_main (h : d.IsMain) : d.symbol = bytes "main" := by
  simp [symbol, h.1, h.2, funcSymbol]

theorem symbol_eq (hparsed : d.Parsed) (h : ¬ d.IsMain) :
    d.symbol = d.stem ++ suffix d.returnType.isSome := by
  cases himpl : d.inImpl with
  | true => simp [symbol, stem, himpl, methodSuffix_eq]
  | false =>
    have hname : d.name ≠ bytes "main" := fun hmain => h ⟨himpl, hmain⟩
    simp [symbol, stem, himpl, funcSymbol, hname, hparsed.1, hparsed.2 himpl, methodSuffix_eq]

/-- A method whose definition has the name that a call with these arguments
gives it. -/
structure Direct (d : MethodDef) (args : List AstNode) : Prop where
  noImpl : d.inImpl = false
  noMain : d.name ≠ bytes "main"
  keepsName : mangleFuncName d.name d.info.sigHash = d.name
  suffix : d.returnType.isSome = args.isEmpty

/-- Two definitions have one stem and one suffix. -/
def Clash (d e : MethodDef) : Prop :=
  (d.IsMain ∧ e.IsMain) ∨
    (¬ d.IsMain ∧ ¬ e.IsMain ∧ d.stem = e.stem ∧ d.returnType.isSome = e.returnType.isSome)

theorem symbol_eq_call_iff (hparsed : d.Parsed) (args : List AstNode) :
    d.symbol = d.name ++ CTranspiler.suffix args.isEmpty ↔ d.Direct args := by
  by_cases hmain : d.IsMain
  · rw [symbol_main hmain]
    constructor
    · intro h
      exact absurd h (main_ne_append_suffix _ _)
    · intro h
      exact absurd hmain.2 h.noMain
  · rw [symbol_eq hparsed hmain, append_suffix_inj]
    cases himpl : d.inImpl with
    | true =>
      constructor
      · rintro ⟨hstem, -⟩
        -- the stem is longer than the name
        have hlen := congrArg List.length hstem
        have hsep : (bytes "_").length = 1 := rfl
        rw [stem, if_pos himpl, List.length_append, List.length_append, hsep] at hlen
        omega
      · intro h
        exact absurd (himpl.symm.trans h.noImpl) (by decide)
    | false =>
      have hname : d.name ≠ bytes "main" := fun h => hmain ⟨himpl, h⟩
      rw [stem, himpl, if_neg Bool.false_ne_true]
      constructor
      · rintro ⟨hkeeps, hsuffix⟩
        exact ⟨himpl, hname, hkeeps, hsuffix⟩
      · intro h
        exact ⟨h.keepsName, h.suffix⟩

theorem symbol_eq_iff (hd : d.Parsed) (he : e.Parsed) : d.symbol = e.symbol ↔ d.Clash e := by
  by_cases hmain : d.IsMain <;> by_cases hmain' : e.IsMain
  · simp [symbol_main hmain, symbol_main hmain', Clash, hmain, hmain']
  · rw [symbol_main hmain, symbol_eq he hmain']
    simp [main_ne_append_suffix, Clash, hmain, hmain']
  · rw [symbol_main hmain', symbol_eq hd hmain]
    simp [(main_ne_append_suffix _ _).symm, Clash, hmain, hmain']
  · rw [symbol_eq hd hmain, symbol_eq he hmain', append_suffix_inj]
    simp [Clash, hmain, hmain']

end MethodDef

/-- An operator keeps no name; another name is kept up to 127 bytes. -/
theorem mangleFuncName_eq_iff {name : Bytes} (h : isOperatorName name = false) (sigHash : UInt32) :
    mangleFuncName name sigHash = name ↔ name.length ≤ 127 := by
  rw [mangleFuncName, h, if_neg Bool.false_ne_true]
  constructor
  · intro htake
    rw [← htake, List.length_take]
    omega
  · exact List.take_of_length_le

/-! ## §2 Calls and definitions -/

/-- A program whose methods are as the parser builds them. -/
structure MethodProgram where
  decls : List AstNode
  parsed : ∀ d ∈ methodDefs decls, d.Parsed

def isRequired : AstNode → Bool
  | .param _ _ _ isVarargs defaultValue => !isVarargs && defaultValue.isNone
  | _ => true

def isVariadic : AstNode → Bool
  | .param _ _ _ isVarargs _ => isVarargs
  | _ => false

namespace MethodDef

/-- The parameters that a call gives arguments for. -/
def declaredParams (d : MethodDef) : List AstNode :=
  if isMethod d.params then d.params.tail else d.params

/-- A call with `n` arguments fits the parameters. -/
def Accepts (d : MethodDef) (n : ℕ) : Prop :=
  d.declaredParams.countP isRequired ≤ n ∧
    (n ≤ d.declaredParams.length ∨ d.declaredParams.any isVariadic = true)

/-- What `target.method(args)` calls for a target of type `typeName`. -/
def Called (d : MethodDef) (typeName method : Bytes) (args : List AstNode) : Prop :=
  d.typeName = typeName ∧ d.name = method ∧ d.Accepts args.length

end MethodDef

/-- The call `target.method(args)` on a target of type `typeName` has the
symbol of the method it calls, and no two definitions have one symbol. -/
def MethodsReached (p : MethodProgram) (typeName : Bytes) (target : Option AstNode)
    (method : Bytes) (args : List AstNode) : Prop :=
  (∀ d ∈ methodDefs p.decls, d.Called typeName method args →
    methodCallSymbol (.call (some (.fieldAccess target method)) args) = some d.symbol) ∧
  (methodDefs p.decls).Pairwise fun d e => d.symbol ≠ e.symbol

/-- A method call reaches its definition, and definitions have symbols of
their own, if and only if the method is direct for the arguments and no two
definitions clash. -/
theorem methods_reached_iff (p : MethodProgram) (typeName : Bytes) (target : Option AstNode)
    (method : Bytes) (args : List AstNode) :
    MethodsReached p typeName target method args ↔
      (∀ d ∈ methodDefs p.decls, d.Called typeName method args → d.Direct args) ∧
      (methodDefs p.decls).Pairwise fun d e => ¬ d.Clash e := by
  refine and_congr ?_ (List.Pairwise.iff_of_mem ?_)
  · refine forall₂_congr fun d hd => forall_congr' fun hcalled => ?_
    rw [methodCallSymbol_call, Option.some.injEq, ← hcalled.2.1,
      ← MethodDef.symbol_eq_call_iff (p.parsed d hd) args]
    exact eq_comm
  · intro d e hd he
    exact not_congr (MethodDef.symbol_eq_iff (p.parsed d hd) (p.parsed e he))

/-- `struct P { func sum(k: int): int {} }`. -/
def sumProgram : MethodProgram where
  decls := [.structDecl (bytes "P") []
    [.funcDecl (bytes "sum") []
      [.param (bytes "self") (some (.typeRef (some (.typeNamed (bytes "P"))) {})) false false none,
        .param (bytes "k") (some (.typePrimitive .i64)) false false none]
      (some (.typePrimitive .i64)) [] [] (some (.block [])) {}] [] false]
  parsed := by simp [methodDefs, declMethods, methodsOf, MethodDef.Parsed, isMethod]

/-- `p.sum(3)` is emitted as `sum_setter`, the method as `sum_getter`. -/
theorem sum_not_reached :
    ¬ MethodsReached sumProgram (bytes "P") (some (.ident (bytes "p"))) (bytes "sum")
      [.literalInt 3 false] := by
  intro h
  have hsum := h.1 _ (List.mem_singleton_self _)
    ⟨rfl, rfl, by decide, Or.inl (by decide)⟩
  revert hsum
  decide

end Aether.CTranspiler
