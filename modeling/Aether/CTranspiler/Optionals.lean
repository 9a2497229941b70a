/-
Aether.CTranspiler.Optionals — optionals of integers in the emitted C.

A variable of type `T?` has the C type of `T`. `none` is printed as `0` and
`some(v)` as the call that it is written as, of a function that the emitter
never defines. `if let` takes the low byte of the variable for the presence
and the bits above for the payload, and `or` is printed as `||`.
-/
import Aether.CTranspiler.Expr
import Aether.CTranspiler.TypeNames
import Aether.Parser.Expr

namespace Aether.CTranspiler.Optionals

/-! ## §1 Integers -/

/-- The least and the greatest value of a payload type. -/
def payloadRange : PrimType → Option (Int × Int)
  | .byte | .u8 => some (0, 255)
  | .u16 => some (0, 65535)
  | .u32 => some (0, 4294967295)
  | .u64 => some (0, 18446744073709551615)
  | .u128 => some (0, 340282366920938463463374607431768211455)
  | .i8 => some (-128, 127)
  | .i16 => some (-32768, 32767)
  | .i32 => some (-2147483648, 2147483647)
  | .i64 => some (-9223372036854775808, 9223372036854775807)
  | .void | .bool | .f32 | .f64 | .string => none

/-- The same of a C type. -/
def cRange (name : Bytes) : Option (Int × Int) :=
  [(bytes "uint8_t", 0, 255), (bytes "uint16_t", 0, 65535), (bytes "uint32_t", 0, 4294967295),
    (bytes "uint64_t", 0, 18446744073709551615),
    (bytes "unsigned __int128", 0, 340282366920938463463374607431768211455),
    (bytes "int8_t", -128, 127), (bytes "int16_t", -32768, 32767),
    (bytes "int32_t", -2147483648, 2147483647),
    (bytes "int64_t", -9223372036854775808, 9223372036854775807)].lookup name

/-- Conversion to a type. -/
def convertTo (range : Int × Int) (a : Int) : Int :=
  range.1 + (a - range.1) % (range.2 - range.1 + 1)

/-! ## §2 What is emitted -/

/-- `c_emit_expr` with the case of `none`. -/
def cEmitValue : AstNode → Option CExpr
  | .literalNone => some (.constant 0)
  | node => cEmitExpr node

section

-- the variables, and the functions of the C program
variable (var : Bytes → Int) (call : Bytes → List Int → Option Int)

mutual

/-- The value of what is emitted for an initializer or for `or`. -/
def valueOf : CExpr → Option Int
  | .constant value => some value
  | .ident name => some (var name)
  | .binary .or left right => do
    let a ← valueOf left
    if a ≠ 0 then some 1
    else
      let b ← valueOf right
      some (if b ≠ 0 then 1 else 0)
  | .call name args => do call name (← valuesOf args)
  | _ => none

def valuesOf : List CExpr → Option (List Int)
  | [] => some []
  | arg :: args => do
    let a ← valueOf arg
    let rest ← valuesOf args
    some (a :: rest)

end

/-- `T x = init;` -/
def cEmitLetValue (type init : AstNode) : Option Int := do
  let range ← (TypeNames.cTypeName type).bind cRange
  let a ← (cEmitValue init).bind (valueOf var call)
  some (convertTo range a)

/-- `x or d`, as the parser reads it. -/
def orNode (x d : Bytes) : Option AstNode := do
  let op ← binaryOpOf .kwOr
  some (.binaryOp op (some (.ident x)) (some (.ident d)) [])

def orValue (x d : Bytes) : Option Int := ((orNode x d).bind cEmitExpr).bind (valueOf var call)

end

/-- `uint64_t __iflet_val = x; if ((__iflet_val & 0xFF) != 0) { uint64_t p = __iflet_val >> 8; … }`:
what the pattern variable is bound to, where the body runs. -/
def ifLetValue (x : Int) : Option Nat :=
  let val := toWord x
  if val &&& 0xFF ≠ 0 then some (val >>> 8).toNat else none

/-- The laws of an optional variable `x` that `init` makes hold `v`, of one
that holds none, and of a default `d`. -/
structure Laws (prim : PrimType) (var : Bytes → Int) (call : Bytes → List Int → Option Int)
    (init : AstNode) (v d x y : Int) : Prop where
  holds : cEmitLetValue var call (.typeOptional (some (.typePrimitive prim))) init = some x
  empty : cEmitLetValue var call (.typeOptional (some (.typePrimitive prim))) .literalNone = some y
  bound : (ifLetValue x).map Int.ofNat = some v
  skipped : ifLetValue y = none
  kept : orValue (fun name => if name = bytes "x" then x else d) call (bytes "x") (bytes "d") = some v
  defaulted : orValue (fun name => if name = bytes "x" then y else d) call (bytes "x") (bytes "d") = some d

/-! ## §3 The laws -/

variable {prim : PrimType} {range : Int × Int} {var : Bytes → Int}
  {call : Bytes → List Int → Option Int}

theorem cRange_of_payload (h : payloadRange prim = some range) :
    (TypeNames.cTypeName (.typeOptional (some (.typePrimitive prim)))).bind cRange = some range := by
  rw [← h]
  cases prim <;> first | rfl | cases h

theorem orValue_eq (a b : Int) (x d : Bytes) (hne : x ≠ d) :
    orValue (fun name => if name = x then a else b) call x d =
      some (if a ≠ 0 ∨ b ≠ 0 then 1 else 0) := by
  have hemit : (orNode x d).bind cEmitExpr = some (.binary .or (.ident x) (.ident d)) := by
    simp [orNode, binaryOpOf, cEmitExpr, cEmitOperand, cBinaryOp]
  rw [orValue, hemit]
  by_cases ha : a = 0 <;> simp [valueOf, ha, Ne.symm hne]

theorem toNat_toWord (a : Int) : ((toWord a).toNat : Int) = a % 18446744073709551616 := by
  have hlt : (a % 18446744073709551616).toNat < 2 ^ 64 := by omega
  rw [toWord, Lib.CInteger.CType.wrap_ulong, UInt64.toNat_ofNat_of_lt' hlt]
  omega

theorem low_byte_eq_zero_iff (w : UInt64) : w &&& 0xFF = 0 ↔ w.toNat % 256 = 0 := by
  rw [← UInt64.toNat_inj, UInt64.toNat_and]
  exact iff_of_eq (congrArg (· = 0) (Nat.and_two_pow_sub_one_eq_mod w.toNat 8))

theorem ifLetValue_eq (x : Int) :
    ifLetValue x = if (toWord x).toNat % 256 ≠ 0 then some ((toWord x).toNat / 256) else none := by
  unfold ifLetValue
  simp only [ne_eq, low_byte_eq_zero_iff]
  congr 2
  rw [UInt64.toNat_shiftRight]
  exact Nat.shiftRight_eq_div_pow _ 8

/-- A body runs with the pattern variable 1 exactly for the words from 257 to 511. -/
theorem ifLetValue_eq_one_iff (x : Int) :
    (ifLetValue x).map Int.ofNat = some 1 ↔
      257 ≤ x % 18446744073709551616 ∧ x % 18446744073709551616 ≤ 511 := by
  have hword := toNat_toWord x
  rw [ifLetValue_eq]
  split
  · simp only [Option.map_some, Option.some.injEq, Int.ofNat_eq_natCast]
    omega
  · simp only [Option.map_none, reduceCtorEq, false_iff]
    omega

theorem ifLetValue_zero : ifLetValue 0 = none := by decide

theorem cEmitLetValue_eq (hrange : payloadRange prim = some range)
    {init : AstNode} {code : CExpr} {a : Int} (hinit : cEmitValue init = some code)
    (ha : valueOf var call code = some a) :
    cEmitLetValue var call (.typeOptional (some (.typePrimitive prim))) init =
      some (convertTo range a) := by
  rw [cEmitLetValue, cRange_of_payload hrange, hinit]
  simp [ha]

theorem convertTo_zero (hrange : payloadRange prim = some range) : convertTo range 0 = 0 := by
  cases prim <;> cases hrange <;> decide

/-- Whatever `init` leaves in the variable, the laws hold of one payload at
most, and the default is a truth value. -/
theorem laws_iff (hrange : payloadRange prim = some range) {init : AstNode} {code : CExpr} {a : Int}
    (v d : Int) (hinit : cEmitValue init = some code) (ha : valueOf var call code = some a) :
    (∃ x y, Laws prim var call init v d x y) ↔
      v = 1 ∧ (d = 0 ∨ d = 1) ∧ 257 ≤ convertTo range a % 18446744073709551616 ∧
        convertTo range a % 18446744073709551616 ≤ 511 := by
  have hholds := cEmitLetValue_eq hrange hinit ha
  have hempty : cEmitLetValue var call (.typeOptional (some (.typePrimitive prim))) .literalNone =
      some 0 := by
    rw [cEmitLetValue_eq hrange rfl (show valueOf var call (.constant 0) = some 0 from by simp [valueOf])]
    exact congrArg some (convertTo_zero hrange)
  have hne : bytes "x" ≠ bytes "d" := by decide
  constructor
  · rintro ⟨x, y, hlaws⟩
    obtain rfl := Option.some.inj (hlaws.holds.symm.trans hholds)
    obtain rfl := Option.some.inj (hlaws.empty.symm.trans hempty)
    have hkept := hlaws.kept
    have hdefault := hlaws.defaulted
    rw [orValue_eq _ _ _ _ hne] at hkept hdefault
    have hd : d = 0 ∨ d = 1 := by
      by_cases hzero : d = 0
      · exact .inl hzero
      · exact .inr (by simpa [hzero] using hdefault.symm)
    have hbound := hlaws.bound
    have hvalue := ifLetValue_eq (convertTo range a)
    have hx : convertTo range a ≠ 0 := by
      intro hx
      rw [hx, ifLetValue_zero] at hbound
      cases hbound
    have hv : v = 1 := by simpa [hx] using hkept.symm
    rw [hv] at hbound
    exact ⟨hv, hd, (ifLetValue_eq_one_iff _).mp hbound⟩
  · rintro ⟨rfl, hd, hword⟩
    have hx : convertTo range a ≠ 0 := by
      intro hx
      rw [hx] at hword
      omega
    refine ⟨_, 0, hholds, hempty, (ifLetValue_eq_one_iff _).mpr hword, ifLetValue_zero, ?_, ?_⟩
    · rw [orValue_eq _ _ _ _ hne]
      simp [hx]
    · rw [orValue_eq _ _ _ _ hne]
      rcases hd with rfl | rfl <;> simp

/-- The payload itself as the value of the variable never does. -/
theorem not_laws_of_payload (hrange : payloadRange prim = some range) {init : AstNode} {code : CExpr}
    {v : Int} (d : Int) (hinit : cEmitValue init = some code)
    (hv : valueOf var call code = some v) : ¬ ∃ x y, Laws prim var call init v d x y := by
  rw [laws_iff hrange v d hinit hv]
  rintro ⟨rfl, _, hlow, _⟩
  have hone : convertTo range 1 = 1 := by cases prim <;> cases hrange <;> decide
  rw [hone] at hlow
  omega

/-- `some(v)` is a call like any other. -/
def someOf (name : Bytes) : AstNode := .call (some (.ident (bytes "some"))) [.ident name]

theorem cEmitValue_someOf (name : Bytes) :
    cEmitValue (someOf name) = some (.call (bytes "some") [.ident name]) := by
  simp [someOf, cEmitValue, cEmitExpr, cEmitArgs]

theorem valueOf_someOf (name : Bytes) :
    valueOf var call (.call (bytes "some") [.ident name]) = call (bytes "some") [var name] := by
  simp [valueOf, valuesOf]

/-- The laws hold of `some(v)` exactly for the payload 1 and the defaults 0
and 1, where the program has a function `some` of its own that puts a 1 above a
low byte that is not 0. -/
theorem optionals_iff (hrange : payloadRange prim = some range) (var : Bytes → Int)
    (call : Bytes → List Int → Option Int) (name : Bytes) (d : Int) :
    (∃ x y, Laws prim var call (someOf name) (var name) d x y) ↔
      var name = 1 ∧ (d = 0 ∨ d = 1) ∧
        ∃ a, call (bytes "some") [1] = some a ∧ 257 ≤ convertTo range a % 18446744073709551616 ∧
          convertTo range a % 18446744073709551616 ≤ 511 := by
  cases hcall : call (bytes "some") [var name] with
  | none =>
    refine iff_of_false ?_ ?_
    · rintro ⟨x, y, hlaws⟩
      have hholds := hlaws.holds
      rw [cEmitLetValue, cRange_of_payload hrange, cEmitValue_someOf] at hholds
      simp [valueOf_someOf, hcall] at hholds
    · rintro ⟨hone, _, a, ha, _⟩
      rw [hone, ha] at hcall
      cases hcall
  | some a =>
    rw [laws_iff hrange (var name) d (cEmitValue_someOf name) ((valueOf_someOf name).trans hcall)]
    constructor
    · intro ⟨hone, hd, hword⟩
      exact ⟨hone, hd, a, hone ▸ hcall, hword⟩
    · intro ⟨hone, hd, a', ha', hword⟩
      rw [hone, ha'] at hcall
      obtain rfl := Option.some.inj hcall
      exact ⟨hone, hd, hword⟩

theorem optionals_tagged :
    payloadRange .u64 = some (0, 18446744073709551615) ∧
      ((∃ x y, Laws .u64 (fun _ => 1) (fun _ _ => some 257) (someOf (bytes "v")) 1 0 x y) ↔
        (1 : Int) = 1 ∧ ((0 : Int) = 0 ∨ (0 : Int) = 1) ∧
          ∃ a, (fun _ _ => some 257 : Bytes → List Int → Option Int) (bytes "some") [1] = some a ∧
            257 ≤ convertTo (0, 18446744073709551615) a % 18446744073709551616 ∧
              convertTo (0, 18446744073709551615) a % 18446744073709551616 ≤ 511) :=
  ⟨rfl, optionals_iff rfl (fun _ => 1) (fun _ _ => some 257) (bytes "v") 0⟩

/-- `some(42)` with the payload as it is: the body runs with 0 for it, and
`x or 7` is 1. -/
theorem payload42_lost :
    ¬ ∃ x y, Laws .u64 (fun _ => 42) (fun _ args => args.head?) (someOf (bytes "v")) 42 7 x y := by
  refine not_laws_of_payload rfl 7 (cEmitValue_someOf _) ?_
  rw [valueOf_someOf]
  rfl

end Aether.CTranspiler.Optionals
