/-
Aether.CTranspiler.CallArgs — the arguments of a call in `c_emit_call`.

A call of a resolved function prints its arguments, the default values of the
parameters that are left out, and a slice for a variadic parameter. How many
arguments there are is compared with the parameters nowhere: what is too much
is not printed, and what is missing is made up or read behind the end.
-/
import Aether.Ast

namespace Aether.CTranspiler.CallArgs

/-! ## §1 Parameters -/

/-- The parts of a function declaration that a call reads. -/
structure Callee where
  params : List AstNode
  isThrows : Bool

def isVarargs : AstNode → Bool
  | .param _ _ _ isVarargs _ => isVarargs
  | _ => false

def defaultValue : AstNode → Option AstNode
  | .param _ _ _ _ value => value
  | _ => none

def isPointer : AstNode → Bool
  | .param _ (some (.typeRef _ _)) _ _ _ => true
  | .param _ (some (.typePtr _)) _ _ _ => true
  | _ => false

def isIdent : AstNode → Bool
  | .ident _ => true
  | _ => false

/-- `varargs_param_idx` -/
def varargsIndex (params : List AstNode) : Option Nat := params.findIdx? isVarargs

/-! ## §2 What is printed -/

inductive Passed where
  /-- An argument, maybe with `&( )` or `__aether_itoa( )` around it. -/
  | arg (node : AstNode) (address text : Bool)
  | defaultOf (node : AstNode)
  /-- `(string){ 0, NULL }` -/
  | noString
  /-- `(slice){ (void*)(uint64_t[]){ … }, count, 8 }` -/
  | pack (nodes : List AstNode) (count : Int)
  /-- `args.items[i]` behind the end of the list. -/
  | beyond (i : Nat)

inductive CallCode where
  /-- Only a message on the error output. -/
  | reported
  /-- The text of a builtin, which is no call. -/
  | builtin
  /-- `method(&target, …)` -/
  | method (name : Bytes) (target : Option AstNode) (args : List AstNode)
  /-- `name(…)`, and whether the statement expression of a call that throws is
  closed again. -/
  | call (name : Bytes) (passed : List Passed) (closed : Bool)

/-- The names that are taken for constructors. -/
def constructors : List Bytes :=
  [bytes "string", bytes "u8", bytes "u16", bytes "u32", bytes "u64", bytes "i8", bytes "i16",
    bytes "i32", bytes "i64", bytes "f32", bytes "f64", bytes "bool", bytes "byte"]

def isBuiltin (fname : Bytes) (count : Nat) : Bool :=
  (fname == bytes "sizeof" && 1 ≤ count) || (fname == bytes "alignof" && 1 ≤ count) ||
    (fname == bytes "offsetof" && 2 ≤ count) || (fname == bytes "typeName" && 1 ≤ count) ||
    fname == bytes "panic" || (count == 1 && constructors.contains fname)

section

variable (isStringExpr : AstNode → Bool)

/-- The arguments of `print` that are no strings are made texts. -/
def wrapsText (fname : Bytes) (arg : AstNode) : Bool := fname == bytes "print" && !isStringExpr arg

/-- An omitted parameter. -/
def emitOmitted (params : List AstNode) (i : Nat) : Passed :=
  match params[i]?.bind defaultValue with
  | some value => .defaultOf value
  | none => .noString

def emitRegular (fname : Bytes) (args : List AstNode) (i : Nat) : Passed :=
  match args[i]? with
  | some arg => .arg arg false (wrapsText isStringExpr fname arg)
  | none => .beyond i

def emitArgument (fname : Bytes) (params args : List AstNode) (i : Nat) : Passed :=
  match args[i]? with
  | some arg => .arg arg (isIdent arg && params[i]?.any isPointer) (wrapsText isStringExpr fname arg)
  | none => emitOmitted params i

def emitPassed (fname : Bytes) (params args : List AstNode) : List Passed :=
  match varargsIndex params with
  | some idx =>
    (List.range idx).map (emitRegular isStringExpr fname args) ++
      [.pack (args.drop idx) (args.length - idx)]
  | none =>
    let total := if params.length = 0 then args.length else params.length
    (List.range total).map (emitArgument isStringExpr fname params args)

/-- `c_emit_call` of a callee whose declaration is resolved. A variadic call
returns before the end of its statement expression. -/
def cEmitCall (callee : Option AstNode) (decl : Callee) (args : List AstNode) : CallCode :=
  match callee with
  | some (.ident fname) =>
    if isBuiltin fname args.length then .builtin
    else .call fname (emitPassed isStringExpr fname decl.params args)
      (!(decl.isThrows && (varargsIndex decl.params).isSome))
  | some (.fieldAccess target method) => .method method target args
  | _ => .reported

-- the equations, before the proofs that share them
section
attribute [local simp] emitPassed cEmitCall
end

end

/-! ## §3 What is to be passed -/

def Passed.source : Passed → Passed
  | .arg node _ _ => .arg node false false
  | passed => passed

/-- The default values, where every parameter has one. -/
def defaultsOf : List AstNode → Option (List Passed)
  | [] => some []
  | param :: params =>
    match defaultValue param with
    | some value => (defaultsOf params).map (.defaultOf value :: ·)
    | none => none

/-- The arguments in order, then the defaults of the other parameters; there
are too many arguments or too few otherwise. -/
def fill : List AstNode → List AstNode → Option (List Passed)
  | [], [] => some []
  | [], _ :: _ => none
  | param :: params, [] => defaultsOf (param :: params)
  | _ :: params, arg :: args => (fill params args).map (.arg arg false false :: ·)

def meant (params args : List AstNode) : Option (List Passed) :=
  match varargsIndex params with
  | none => fill params args
  | some idx => do
    let regular ← fill (params.take idx) (args.take idx)
    let rest ← defaultsOf (params.drop (idx + 1))
    some (regular ++ .pack (args.drop idx) (args.drop idx).length :: rest)

def ArgumentExact (code : CallCode) (fname : Bytes) (params args : List AstNode) : Prop :=
  match meant params args with
  | none => code = .reported
  | some passed => ∃ emitted, code = .call fname emitted true ∧ emitted.map Passed.source = passed

/-- The arguments are no more than the parameters and leave out those with
default values; or they are as many as the parameters before a variadic one at
least, which is the last, and the function does not throw. -/
def Fits (decl : Callee) (args : List AstNode) : Prop :=
  match varargsIndex decl.params with
  | none => args.length ≤ decl.params.length ∧
      (decl.params.drop args.length).all (fun param => (defaultValue param).isSome) = true
  | some idx => idx ≤ args.length ∧ decl.params.length = idx + 1 ∧ decl.isThrows = false

/-! ## §4 When they are the same -/

/-- The loop over the parameters. -/
def emitLoop : List AstNode → List AstNode → List Passed
  | [], _ => []
  | param :: params, [] =>
    (match defaultValue param with
      | some value => .defaultOf value
      | none => .noString) :: emitLoop params []
  | _ :: params, arg :: args => .arg arg false false :: emitLoop params args

-- the equations, before the proofs that share them
section
attribute [local simp] Passed.source defaultsOf fill meant ArgumentExact emitLoop
end

theorem length_emitLoop (params args : List AstNode) : (emitLoop params args).length = params.length := by
  fun_induction emitLoop params args with
  | case1 => rfl
  | case2 param params ih => simp [ih]
  | case3 param params arg args ih => simp [ih]

theorem defaultsOf_eq (params : List AstNode) :
    defaultsOf params =
      if params.all (fun param => (defaultValue param).isSome) = true then some (emitLoop params [])
      else none := by
  induction params with
  | nil => rfl
  | cons param params ih =>
    rw [defaultsOf, emitLoop, ih, List.all_cons]
    cases defaultValue param with
    | none => rfl
    | some value => by_cases hall : params.all (fun param => (defaultValue param).isSome) <;> simp [hall]

theorem fill_eq (params args : List AstNode) :
    fill params args =
      if args.length ≤ params.length ∧
          (params.drop args.length).all (fun param => (defaultValue param).isSome) = true
        then some (emitLoop params args) else none := by
  induction params generalizing args with
  | nil =>
    cases args with
    | nil => rfl
    | cons arg args => simp [fill]
  | cons param params ih =>
    cases args with
    | nil =>
      rw [fill, defaultsOf_eq]
      simp
    | cons arg args =>
      rw [fill, ih, emitLoop]
      simp only [List.length_cons, Nat.add_le_add_iff_right, List.drop_succ_cons]
      split <;> rfl

theorem length_fill {params args : List AstNode} {passed : List Passed}
    (h : fill params args = some passed) : passed.length = params.length := by
  rw [fill_eq] at h
  split at h
  · obtain rfl := Option.some.inj h
    exact length_emitLoop params args
  · cases h

theorem length_defaultsOf {params : List AstNode} {passed : List Passed}
    (h : defaultsOf params = some passed) : passed.length = params.length := by
  rw [defaultsOf_eq] at h
  split at h
  · obtain rfl := Option.some.inj h
    exact length_emitLoop params []
  · cases h

section

variable {isStringExpr : AstNode → Bool} {fname : Bytes}

theorem emitted_eq_emitLoop (params args : List AstNode) (address : Nat → AstNode → Bool) :
    ((List.range params.length).map fun i => Passed.source
        (match args[i]? with
          | some arg => .arg arg (address i arg) (wrapsText isStringExpr fname arg)
          | none => emitOmitted params i)) =
      emitLoop params args := by
  induction params generalizing args address with
  | nil => rfl
  | cons param params ih =>
    rw [List.length_cons, List.range_succ_eq_map, List.map_cons, List.map_map]
    cases args with
    | nil =>
      refine congrArg₂ List.cons ?_ (ih [] fun i => address (i + 1))
      show Passed.source (emitOmitted (param :: params) 0) = _
      rw [emitOmitted, List.getElem?_cons_zero, Option.bind_some]
      cases defaultValue param <;> rfl
    | cons arg args => exact congrArg₂ List.cons rfl (ih args fun i => address (i + 1))

theorem emitRegular_eq {args : List AstNode} {idx : Nat} (h : idx ≤ args.length) :
    ((List.range idx).map (emitRegular isStringExpr fname args)).map Passed.source =
      (args.take idx).map (.arg · false false) := by
  apply List.ext_getElem
  · simp [h]
  · intro i hi _
    have hlt : i < args.length := by
      simp only [List.length_map, List.length_range] at hi
      omega
    simp [emitRegular, List.getElem?_eq_getElem hlt, Passed.source]

theorem fill_exact {params args : List AstNode} (h : params.length = args.length) :
    fill params args = some (args.map (.arg · false false)) := by
  induction params generalizing args with
  | nil =>
    obtain rfl := List.length_eq_zero_iff.mp h.symm
    rfl
  | cons param params ih =>
    cases args with
    | nil => simp at h
    | cons arg args =>
      rw [fill, ih (by simpa using h)]
      rfl

/-- Without a variadic parameter. -/
theorem emitPassed_source_iff {params args : List AstNode} (hnone : varargsIndex params = none) :
    fill params args = some ((emitPassed isStringExpr fname params args).map Passed.source) ↔
      args.length ≤ params.length ∧
        (params.drop args.length).all (fun param => (defaultValue param).isSome) = true := by
  rw [fill_eq]
  split
  · next hfits =>
    refine iff_of_true (congrArg some ?_) hfits
    rw [emitPassed, hnone, List.map_map]
    cases params with
    | nil =>
      obtain rfl := List.length_eq_zero_iff.mp (Nat.le_zero.mp hfits.1)
      rfl
    | cons param params =>
      exact (emitted_eq_emitLoop (param :: params) args
        fun i arg => isIdent arg && (param :: params)[i]?.any isPointer).symm
  · next hmisfits => exact iff_of_false (by simp) hmisfits

theorem varargsIndex_lt {params : List AstNode} {idx : Nat} (h : varargsIndex params = some idx) :
    idx < params.length := (List.findIdx?_eq_some_iff_getElem.mp h).1

/-- With a variadic parameter at `idx`. -/
theorem emitPassed_variadic_iff {params args : List AstNode} {idx : Nat}
    (hidx : varargsIndex params = some idx) :
    meant params args = some ((emitPassed isStringExpr fname params args).map Passed.source) ↔
      idx ≤ args.length ∧ params.length = idx + 1 := by
  have hlt := varargsIndex_lt hidx
  rw [meant, emitPassed, hidx]
  simp only [List.map_append, List.map_cons, List.map_nil]
  constructor
  · intro h
    obtain ⟨regular, hregular, h⟩ := Option.bind_eq_some_iff.mp h
    obtain ⟨rest, hrest, h⟩ := Option.bind_eq_some_iff.mp h
    have heq := Option.some.inj h
    have hregularLength := length_fill hregular
    have hrestLength := length_defaultsOf hrest
    have hlength := congrArg List.length heq
    simp only [List.length_append, List.length_cons, List.length_map, List.length_range,
      List.length_nil, List.length_take, List.length_drop] at hlength hregularLength hrestLength
    obtain rfl : rest = [] := List.length_eq_zero_iff.mp (by omega)
    have hpack := (List.append_inj' heq rfl).2
    simp only [List.cons.injEq, Passed.source, Passed.pack.injEq, List.length_drop] at hpack
    omega
  · intro ⟨hle, hlast⟩
    have hdrop : params.drop (idx + 1) = [] := List.drop_of_length_le (by omega)
    rw [fill_exact (by simp; omega), hdrop, emitRegular_eq hle]
    simp [defaultsOf, Passed.source]
    omega

/-- A call passes its arguments exactly if they fit the parameters, and never
otherwise. -/
theorem argumentExact_iff_fits (decl : Callee) (args : List AstNode)
    (hcall : isBuiltin fname args.length = false) :
    ArgumentExact (cEmitCall isStringExpr (some (.ident fname)) decl args) fname decl.params args ↔
      Fits decl args := by
  have hcode : ∀ {closed}, closed = !(decl.isThrows && (varargsIndex decl.params).isSome) →
      (ArgumentExact (cEmitCall isStringExpr (some (.ident fname)) decl args) fname decl.params args ↔
        closed = true ∧ meant decl.params args =
          some ((emitPassed isStringExpr fname decl.params args).map Passed.source)) := by
    rintro _ rfl
    rw [cEmitCall, hcall, if_neg Bool.false_ne_true, ArgumentExact]
    cases meant decl.params args with
    | none => simp
    | some passed =>
      simp only [CallCode.call.injEq, true_and, Option.some.injEq]
      constructor
      · rintro ⟨_, ⟨rfl, hclosed⟩, hsource⟩
        exact ⟨hclosed, hsource.symm⟩
      · intro ⟨hclosed, hsource⟩
        exact ⟨_, ⟨rfl, hclosed⟩, hsource.symm⟩
  rw [hcode rfl, Fits]
  cases hidx : varargsIndex decl.params with
  | none =>
    have hmeant : meant decl.params args = fill decl.params args := by rw [meant, hidx]
    rw [hmeant, emitPassed_source_iff hidx]
    simp
  | some idx =>
    rw [emitPassed_variadic_iff hidx]
    simp only [Option.isSome_some, Bool.and_true, Bool.not_eq_true']
    tauto

end

/-- A resolved call is exact if and only if its name is not taken for a builtin
and its arguments fit. -/
theorem argumentExact_iff (isStringExpr : AstNode → Bool) (fname : Bytes) (decl : Callee)
    (args : List AstNode) :
    ArgumentExact (cEmitCall isStringExpr (some (.ident fname)) decl args) fname decl.params args ↔
      isBuiltin fname args.length = false ∧ Fits decl args := by
  cases hcall : isBuiltin fname args.length with
  | false => simp [argumentExact_iff_fits decl args hcall]
  | true =>
    refine iff_of_false ?_ (by simp)
    rw [cEmitCall, hcall, if_pos rfl, ArgumentExact]
    cases meant decl.params args with
    | none => simp
    | some passed => simp

def paramOf (name : String) (isVarargs : Bool) (value : Option AstNode) : AstNode :=
  .param (bytes name) (some (.typePrimitive .u64)) false isVarargs value

/-- `f(1, 2)` of `func f(a: u64)`: the second argument is dropped. -/
theorem secondArgument_dropped :
    cEmitCall (fun _ => false) (some (.ident (bytes "f"))) ⟨[paramOf "a" false none], false⟩
        [.literalInt 1 false, .literalInt 2 false] =
      .call (bytes "f") [.arg (.literalInt 1 false) false false] true ∧
    ¬ ArgumentExact (cEmitCall (fun _ => false) (some (.ident (bytes "f")))
        ⟨[paramOf "a" false none], false⟩ [.literalInt 1 false, .literalInt 2 false])
      (bytes "f") [paramOf "a" false none] [.literalInt 1 false, .literalInt 2 false] := by
  refine ⟨rfl, ?_⟩
  rw [argumentExact_iff_fits _ _ (by decide)]
  intro hfits
  exact absurd hfits.1 (by decide)

end Aether.CTranspiler.CallArgs
