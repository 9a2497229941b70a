/-
Aether.CTranspiler.OverloadSoundness — when the operator function that an
expression is dispatched to has the types of the operands.

Types are compared by their hash only. `hashTypes_eq_iff`: two hashes agree
when the messages do, the name and the codes of the types without a
separator, as polynomials at 33 modulo 2³². `overload_sound_iff`: dispatch
is sound exactly when no such collision is between different types.
-/
import Aether.CTranspiler.OverloadTheorems
import Aether.Lib.RollingHash

namespace Aether.CTranspiler

open Lib.RollingHash

-- the equations, before the proofs that share them
section
attribute [local simp] dispatch dispatchBinary dispatchUnary
end

/-! ## §1 Messages -/

/-- The bytes that a type adds to the hash. -/
def typeCode : Option AstNode → Bytes
  | some (.typePrimitive prim) => [UInt8.ofNat prim.ctorIdx]
  | some (.typeNamed name) => name
  | _ => [0xFF]

/-- The bytes that are hashed for an operator symbol and types. -/
def message (symbol : Bytes) (types : List (Option AstNode)) : Bytes :=
  opName symbol ++ types.flatMap typeCode

-- the equations, before the proofs that share them
section
attribute [local simp] message
end

/-- Two messages have one hash. -/
def Collide (xs ys : Bytes) : Prop :=
  rolling 33 UInt8.toNat 5381 xs ≡ rolling 33 UInt8.toNat 5381 ys [MOD 4294967296]

theorem toNat_hashByte (hash : UInt32) (c : UInt8) :
    (hashByte hash c).toNat = (hash.toNat * 33 + c.toNat) % 4294967296 := by
  have hshift : (hash <<< 5).toNat = hash.toNat * 32 % 4294967296 := by
    simp [Nat.shiftLeft_eq]
  simp only [hashByte, UInt32.toNat_add, hshift, UInt8.toNat_toUInt32]
  omega

theorem hashType_eq (hash : UInt32) (type : Option AstNode) :
    hashType hash type = (typeCode type).foldl hashByte hash := by
  cases type with
  | none => rfl
  | some type => cases type <;> rfl

theorem hashTypes_eq (symbol : Bytes) (types : List (Option AstNode)) :
    hashTypes (opName symbol) types = (message symbol types).foldl hashByte 5381 := by
  rw [message, List.foldl_append, hashTypes]
  generalize (opName symbol).foldl hashByte 5381 = hash
  induction types generalizing hash with
  | nil => rfl
  | cons type types ih =>
    rw [List.foldl_cons, List.flatMap_cons, List.foldl_append, hashType_eq]
    exact ih _

theorem hashTypes_eq_iff (symbol symbol' : Bytes) (types types' : List (Option AstNode)) :
    hashTypes (opName symbol) types = hashTypes (opName symbol') types' ↔
      Collide (message symbol types) (message symbol' types') := by
  have hmod := foldl_eq_mod toNat_hashByte (by decide : (5381 : UInt32).toNat < 4294967296)
  rw [hashTypes_eq, hashTypes_eq, ← UInt32.toNat_inj, hmod, hmod]
  rfl

/-- Codes have no separator: types with the same codes one after the other
always collide. -/
theorem collide_of_codes_eq (symbol : Bytes) {types types' : List (Option AstNode)}
    (h : types.flatMap typeCode = types'.flatMap typeCode) :
    Collide (message symbol types) (message symbol types') := by
  rw [message, message, h]
  exact Nat.ModEq.refl _

/-- Codes of one length collide behind every symbol or behind none. -/
theorem collide_iff_of_length (symbol : Bytes) {types types' : List (Option AstNode)}
    (h : (types.flatMap typeCode).length = (types'.flatMap typeCode).length) :
    Collide (message symbol types) (message symbol types') ↔
      rolling 33 UInt8.toNat 0 (types.flatMap typeCode) ≡
        rolling 33 UInt8.toNat 0 (types'.flatMap typeCode) [MOD 4294967296] := by
  rw [Collide, message, message, rolling_append, rolling_append]
  exact rolling_modEq_iff _ h

/-! ## §2 Dispatch -/

def isOperatorFunc : AstNode → Bool
  | .funcDecl _ _ _ _ _ _ _ info => info.isOperator
  | _ => false

/-- A program whose operator functions are as the parser builds them. -/
structure OperatorProgram where
  decls : List AstNode
  parsed : ∀ decl ∈ decls, isOperatorFunc decl = true → ∃ f : OperatorFunc, decl = f.node

variable (resolved : Bytes → Option AstNode)

/-- The types of the operands. -/
def operandTypes : AstNode → List (Option AstNode)
  | .binaryOp _ left right _ => [operandType resolved left, operandType resolved right]
  | .unaryOp _ operand => [operandType resolved operand]
  | _ => []

/-- The types that are hashed, with that of a missing operand. -/
def hashedTypes : AstNode → List (Option AstNode)
  | .unaryOp _ operand => [operandType resolved operand, none]
  | expr => operandTypes resolved expr

def isCustom : AstNode → Bool
  | .binaryOp op _ _ _ => op == .custom
  | _ => false

/-- The operator symbol under which a function is called. -/
def usedSymbol : AstNode → Option Bytes
  | .binaryOp op _ _ customOp =>
    if op = .custom then some (customOp.take 60) else binopToOpSymbol op
  | .unaryOp op _ => unaryopToOpSymbol op
  | _ => none

/-- The expression becomes a call of the function, which was found or has
the name that is called. -/
def DispatchesTo (decls : List AstNode) (expr : AstNode) (f : OperatorFunc) : Prop :=
  ∃ name, dispatch resolved decls expr = .overload f.node name ∨
    (dispatch resolved decls expr = .direct name ∧ cFuncDeclName f.node = some name)

/-- Functions have the operands' types when they are called, and overloads
of one symbol have different hashes. -/
def Sound (p : OperatorProgram) (expr : AstNode) : Prop :=
  (∀ f : OperatorFunc, f.node ∈ p.decls → DispatchesTo resolved p.decls expr f →
    f.types = operandTypes resolved expr) ∧
  ∀ f g : OperatorFunc, f.node ∈ p.decls → g.node ∈ p.decls → f.symbol = g.symbol →
    f.info.sigHash = g.info.sigHash → f.types = g.types

/-- The function may be called for the symbol: an overload of it, or a
function whose name is spelled with the same words. -/
def Callable (expr : AstNode) (used : Bytes) (f : OperatorFunc) : Prop :=
  if isCustom expr then f.IsPlain ∧ SameWords f.symbol used else f.symbol = used

-- the equations, before the proofs that share them
section
attribute [local simp] operandTypes hashedTypes isCustom usedSymbol Callable
end

/-- Different types never collide. -/
structure NoCollision (p : OperatorProgram) (expr : AstNode) : Prop where
  operands : ∀ f : OperatorFunc, f.node ∈ p.decls → ∀ used, usedSymbol expr = some used →
    Callable expr used f → f.types ≠ operandTypes resolved expr →
      ¬ Collide (message f.symbol f.types) (message used (hashedTypes resolved expr))
  overloads : ∀ f g : OperatorFunc, f.node ∈ p.decls → g.node ∈ p.decls → f.symbol = g.symbol →
    f.types ≠ g.types → ¬ Collide (message f.symbol f.types) (message g.symbol g.types)

variable {resolved} {decls : List AstNode} {expr : AstNode} {used : Bytes}

theorem dispatch_builtin (h : usedSymbol expr = none) :
    dispatch resolved decls expr = .builtin := by
  cases expr with
  | binaryOp op left right customOp =>
    by_cases hcustom : op = .custom
    · simp [usedSymbol, hcustom] at h
    · rw [usedSymbol, if_neg hcustom] at h
      simp [dispatch, dispatchBinary, h, hcustom]
  | unaryOp op operand =>
    rw [usedSymbol] at h
    simp [dispatch, dispatchUnary, h]
  | _ => rfl

theorem dispatch_custom (hcustom : isCustom expr = true) (hused : usedSymbol expr = some used) :
    dispatch resolved decls expr =
      .direct (mangleOpSig (opName used) (hashTypes (opName used) (hashedTypes resolved expr))) := by
  cases expr with
  | binaryOp op left right customOp =>
    obtain rfl : op = .custom := by simpa [isCustom] using hcustom
    obtain rfl : customOp.take 60 = used := by simpa [usedSymbol] using hused
    simp only [dispatch, dispatchBinary, binopToOpSymbol, if_true, customOpName_eq,
      computeOpSigHash_eq, hashedTypes, operandTypes]
  | _ => cases hcustom

theorem dispatch_symbol (hcustom : isCustom expr = false) (hused : usedSymbol expr = some used) :
    dispatch resolved decls expr =
      dispatchBySig decls (opName used) (hashTypes (opName used) (hashedTypes resolved expr)) := by
  cases expr with
  | binaryOp op left right customOp =>
    have hop : op ≠ .custom := by simpa [isCustom] using hcustom
    rw [usedSymbol, if_neg hop] at hused
    simp only [dispatch, dispatchBinary, hused, computeOpSigHash_eq, hashedTypes, operandTypes]
  | unaryOp op operand =>
    rw [usedSymbol] at hused
    simp only [dispatch, dispatchUnary, hused, computeOpSigHash_eq, hashedTypes]
    rfl
  | _ => cases hused

/-! ## §3 Soundness -/

theorem opName_injective {s t : Bytes} (h : opName s = opName t) : s = t := by
  simpa using congrArg (List.drop 3) h

/-- Where an overload has the hash of the use, one is found. -/
theorem exists_found (p : OperatorProgram) {f : OperatorFunc} (hf : f.node ∈ p.decls)
    {hash : UInt32} (hhash : f.info.sigHash = hash) :
    ∃ g : OperatorFunc, g.node ∈ p.decls ∧ g.symbol = f.symbol ∧ g.info.sigHash = hash ∧
      findOpFuncBySig p.decls (opName f.symbol) hash = some g.node := by
  have hfind : (findOpFuncBySig p.decls (opName f.symbol) hash).isSome := by
    rw [findOpFuncBySig, List.find?_isSome]
    exact ⟨f.node, hf, (isOpFunc_node_iff _ _ f).mpr ⟨rfl, hhash⟩⟩
  obtain ⟨decl, hdecl⟩ := Option.isSome_iff_exists.mp hfind
  have hmem := List.mem_of_find?_eq_some hdecl
  have hop := List.find?_some hdecl
  have hoperator : isOperatorFunc decl = true := by
    cases decl with
    | funcDecl =>
      simp only [isOpFunc, Bool.and_eq_true] at hop
      exact hop.1.1
    | _ => cases hop
  obtain ⟨g, rfl⟩ := p.parsed decl hmem hoperator
  obtain ⟨hname, hsig⟩ := (isOpFunc_node_iff _ _ g).mp hop
  exact ⟨g, hmem, opName_injective hname, hsig, hdecl⟩

theorem sigHash_eq_iff_collide (f : OperatorFunc) (used : Bytes) (types : List (Option AstNode)) :
    f.info.sigHash = hashTypes (opName used) types ↔
      Collide (message f.symbol f.types) (message used types) := by
  rw [f.sigHash_eq, hashTypes_eq_iff]

/-- Dispatch finds a callable function with the hash of the use. -/
theorem callable_of_dispatchesTo {f : OperatorFunc} (h : DispatchesTo resolved decls expr f) :
    ∃ used, usedSymbol expr = some used ∧ Callable expr used f ∧
      Collide (message f.symbol f.types) (message used (hashedTypes resolved expr)) := by
  obtain ⟨name, hdispatch⟩ := h
  cases hused : usedSymbol expr with
  | none => simp [dispatch_builtin hused] at hdispatch
  | some used =>
    refine ⟨used, rfl, ?_⟩
    rw [Callable]
    cases hcustom : isCustom expr with
    | true =>
      rw [dispatch_custom hcustom hused] at hdispatch
      obtain hfound | ⟨hdirect, hname⟩ := hdispatch
      · cases hfound
      · cases hdirect
        obtain ⟨hplain, hwords, hhash⟩ := (cFuncDeclName_eq_iff f used _).mp hname
        exact ⟨⟨hplain, hwords⟩, (sigHash_eq_iff_collide f used _).mp hhash⟩
    | false =>
      rw [dispatch_symbol hcustom hused] at hdispatch
      obtain hfound | ⟨hdirect, -⟩ := hdispatch
      · have hop := List.find?_some (dispatchBySig_eq_overload hfound).1
        obtain ⟨hname, hhash⟩ := (isOpFunc_node_iff _ _ f).mp hop
        exact ⟨opName_injective hname, (sigHash_eq_iff_collide f used _).mp hhash⟩
      · exact absurd hdirect (dispatchBySig_ne_direct _ _ _)

/-- A callable function with the hash of the use has the types of what is
called. -/
theorem types_of_collide {p : OperatorProgram} (hsound : Sound resolved p expr) {f : OperatorFunc}
    (hf : f.node ∈ p.decls) (hused : usedSymbol expr = some used) (hcall : Callable expr used f)
    (hcollide : Collide (message f.symbol f.types) (message used (hashedTypes resolved expr))) :
    f.types = operandTypes resolved expr := by
  have hhash := (sigHash_eq_iff_collide f used _).mpr hcollide
  unfold Callable at hcall
  split at hcall
  · next hcustom =>
    refine hsound.1 f hf ⟨_, Or.inr ⟨dispatch_custom hcustom hused, ?_⟩⟩
    exact (cFuncDeclName_eq_iff f used _).mpr ⟨hcall.1, hcall.2, hhash⟩
  · next hcustom =>
    subst hcall
    obtain ⟨g, hg, hsymbol, hsig, hfind⟩ := exists_found p hf hhash
    have hcalled : g.types = operandTypes resolved expr := by
      have hdispatch : dispatch resolved p.decls expr = .overload g.node
          (mangleOpSig (opName f.symbol) (hashTypes (opName f.symbol) (hashedTypes resolved expr))) := by
        rw [dispatch_symbol (Bool.eq_false_iff.mpr hcustom) hused, dispatchBySig, hfind]
      exact hsound.1 g hg ⟨_, Or.inl hdispatch⟩
    have hsame := hsound.2 f g hf hg hsymbol.symm (hhash.trans hsig.symm)
    exact hsame.trans hcalled

/-- Dispatch is sound for an expression of a program if and only if no
callable function of other types than the operands collides with them, and
no two overloads of one symbol collide. -/
theorem overload_sound_iff (resolved : Bytes → Option AstNode) (p : OperatorProgram)
    (expr : AstNode) : Sound resolved p expr ↔ NoCollision resolved p expr := by
  constructor
  · intro hsound
    constructor
    · intro f hf used hused hcall hne hcollide
      exact hne (types_of_collide hsound hf hused hcall hcollide)
    · intro f g hf hg hsymbol hne hcollide
      refine hne (hsound.2 f g hf hg hsymbol ?_)
      rw [g.sigHash_eq]
      exact (sigHash_eq_iff_collide f g.symbol g.types).mpr hcollide
  · intro hfree
    constructor
    · intro f hf hdispatch
      obtain ⟨used, hused, hcall, hcollide⟩ := callable_of_dispatchesTo hdispatch
      by_contra hne
      exact hfree.operands f hf used hused hcall hne hcollide
    · intro f g hf hg hsymbol hhash
      by_contra hne
      rw [g.sigHash_eq] at hhash
      exact hfree.overloads f g hf hg hsymbol hne ((sigHash_eq_iff_collide f g.symbol _).mp hhash)

/-- `func op_+(x: ab, y: c) {}`, with the hash of the parser. -/
def addSplit : OperatorFunc where
  symbol := bytes "+"
  typeParams := []
  params := [.param (bytes "x") (some (.typeNamed (bytes "ab"))) false false none,
    .param (bytes "y") (some (.typeNamed (bytes "c"))) false false none]
  returnType := none
  preConditions := []
  postConditions := []
  body := some (.block [])
  info := { isOperator := true
            sigHash := sigHash (opName (bytes "+"))
              [.param (bytes "x") (some (.typeNamed (bytes "ab"))) false false none,
                .param (bytes "y") (some (.typeNamed (bytes "c"))) false false none] }
  isOperator := rfl
  hashed := rfl

def addSplitProgram : OperatorProgram where
  decls := [addSplit.node]
  parsed := fun _ hdecl _ => ⟨addSplit, List.mem_singleton.mp hdecl⟩

/-- The declarations `let p: a` and `let q: bc`. -/
def splitOperand (name : Bytes) : Option AstNode :=
  if name = bytes "p" then
    some (.letNode (bytes "p") (some (.typeNamed (bytes "a"))) none false false)
  else some (.letNode (bytes "q") (some (.typeNamed (bytes "bc"))) none false false)

/-- `p + q` calls `op_+(x: ab, y: c)` for `p: a` and `q: bc`. -/
theorem split_names_unsound :
    ¬ Sound splitOperand addSplitProgram
      (.binaryOp .add (some (.ident (bytes "p"))) (some (.ident (bytes "q"))) []) := by
  intro hsound
  have htypes := types_of_collide hsound (List.mem_singleton_self addSplit.node) rfl
    (f := addSplit) rfl (collide_of_codes_eq (bytes "+") rfl)
  have hfirst := congrArg (fun types => types.head?.map typeCode) htypes
  revert hfirst
  decide

end Aether.CTranspiler
