/-
Aether.CTranspiler.TypeNames — `c_type_name` of `src/c_transpiler/c_types.c`.

The name of a reference is written into a static buffer of the function, and
so is a declared name. Where the element of a reference is a reference again,
its name is in the buffer that is written: C does not define what `snprintf`
makes of it, and here there is no name (`none`).

`composed` is the name that is meant: a star behind the name of the element
for a reference, the name of the element for an optional, the fixed names of
pointers, `rc`, arrays and slices, and its own name for a declared type.
-/
import Aether.Ast

namespace Aether.CTranspiler.TypeNames

/-! ## §1 The names -/

def cPrimTypeName : PrimType → Bytes
  | .void => bytes "void"
  | .bool => bytes "uint8_t"
  | .byte | .u8 => bytes "uint8_t"
  | .u16 => bytes "uint16_t"
  | .u32 => bytes "uint32_t"
  | .u64 => bytes "uint64_t"
  | .u128 => bytes "unsigned __int128"
  | .i8 => bytes "int8_t"
  | .i16 => bytes "int16_t"
  | .i32 => bytes "int32_t"
  | .i64 => bytes "int64_t"
  | .f32 => bytes "float"
  | .f64 => bytes "double"
  | .string => bytes "string"

/-- The shape that is taken for a generic parameter. -/
def isGenericName : Bytes → Bool
  | [c] => 65 ≤ c && c ≤ 90
  | _ => false

/-- `NODE_TYPE_NAMED`: one capital letter, or what the buffer holds. -/
def namedTypeName (name : Bytes) : Bytes :=
  if isGenericName name then bytes "uint64_t" else name.take 255

structure CName where
  text : Bytes
  /-- The name is in the buffer of references. -/
  inRefBuffer : Bool
  deriving DecidableEq

def CName.fixed (text : Bytes) : CName := ⟨text, false⟩

/-- `snprintf(buf, sizeof(buf), "%s*", base)`. -/
def refName (base : CName) : Option CName :=
  if base.inRefBuffer then none
  else if base.text.length + 1 < 256 then some ⟨base.text ++ bytes "*", true⟩
  else some (.fixed (bytes "void*"))

def cName : AstNode → Option CName
  | .typePrimitive prim => some (.fixed (cPrimTypeName prim))
  | .typePtr _ => some (.fixed (bytes "void*"))
  | .typeRef none _ => some (.fixed (bytes "void*"))
  | .typeRef (some elemType) kind =>
    if kind.isRc then some (.fixed (bytes "void*")) else (cName elemType).bind refName
  | .typeArray _ _ => some (.fixed (bytes "slice"))
  | .typeSlice _ => some (.fixed (bytes "slice"))
  | .typeOptional none => some (.fixed (bytes "void*"))
  | .typeOptional (some elemType) => cName elemType
  | .typeTuple _ => some (.fixed (bytes "uint64_t"))
  | .typeFn _ _ => some (.fixed (bytes "void*"))
  | .typeInfer => some (.fixed (bytes "uint64_t"))
  | .typeNamed name => some (.fixed (namedTypeName name))
  | _ => some (.fixed (bytes "uint64_t"))

def cTypeName (type : AstNode) : Option Bytes := (cName type).map CName.text

/-! ## §2 The names that are meant -/

def composed : AstNode → Bytes
  | .typePrimitive prim => cPrimTypeName prim
  | .typePtr _ => bytes "void*"
  | .typeRef none _ => bytes "void*"
  | .typeRef (some elemType) kind =>
    if kind.isRc then bytes "void*" else composed elemType ++ bytes "*"
  | .typeArray _ _ => bytes "slice"
  | .typeSlice _ => bytes "slice"
  | .typeOptional none => bytes "void*"
  | .typeOptional (some elemType) => composed elemType
  | .typeTuple _ => bytes "uint64_t"
  | .typeFn _ _ => bytes "void*"
  | .typeInfer => bytes "uint64_t"
  | .typeNamed name => name
  | _ => bytes "uint64_t"

/-- A reference that is not `rc`, maybe optional. -/
def isRefLike : AstNode → Bool
  | .typeRef (some _) kind => !kind.isRc
  | .typeOptional (some elemType) => isRefLike elemType
  | _ => false

/-- The name of a declared type is kept. -/
def keepsName (name : Bytes) : Bool := !isGenericName name && name.length ≤ 255

/-- No reference to a reference, no named type but those that keep their
names, and no reference whose element has a name of 255 characters or more. -/
def Composes : AstNode → Prop
  | .typeNamed name => keepsName name = true
  | .typeRef (some elemType) kind =>
    kind.isRc = true ∨
      (isRefLike elemType = false ∧ (composed elemType).length < 255 ∧ Composes elemType)
  | .typeOptional (some elemType) => Composes elemType
  | _ => True

-- the equations, before the proofs that share them
section
attribute [local simp] cName composed isRefLike Composes
end

/-- Two declared names that one C name stands for: two generic shapes, a
generic shape and `uint64_t`, or two long names with one beginning. -/
def Clash (a b : Bytes) : Prop :=
  (isGenericName a = true ∧ (isGenericName b = true ∨ b = bytes "uint64_t")) ∨
    (a = bytes "uint64_t" ∧ isGenericName b = true) ∨
    (255 ≤ a.length ∧ 255 ≤ b.length ∧ a.take 255 = b.take 255)

/-! ## §3 When they are the same -/

theorem namedTypeName_eq_iff (name : Bytes) : namedTypeName name = name ↔ keepsName name = true := by
  unfold namedTypeName keepsName
  cases hgeneric : isGenericName name with
  | true =>
    rw [if_pos rfl]
    refine iff_of_false ?_ (by simp)
    intro heq
    rw [← heq] at hgeneric
    exact absurd hgeneric (by decide)
  | false =>
    rw [if_neg (by simp)]
    constructor
    · intro h
      have hlength := congrArg List.length h
      rw [List.length_take] at hlength
      simp
      omega
    · intro h
      exact List.take_of_length_le (by simpa using h)

theorem length_namedTypeName {name : Bytes} (h : 255 ≤ (namedTypeName name).length) :
    255 ≤ name.length := by
  unfold namedTypeName at h
  split at h
  · exact absurd h (by decide)
  · simp only [List.length_take] at h
    omega

/-- What the name of a type says of the type. -/
structure NameSpec (t : AstNode) (n : CName) : Prop where
  /-- The name of the buffer is that of a reference. -/
  buffer : n.text = composed t → n.inRefBuffer = isRefLike t
  /-- A name that is too long for a star is not `void`. -/
  long : 255 ≤ n.text.length → composed t ≠ bytes "void"

theorem nameSpec_fixed {t : AstNode} {text : Bytes} (href : isRefLike t = false)
    (htext : text.length < 255) : NameSpec t (.fixed text) where
  buffer := fun _ => href.symm
  long := fun h => absurd h (by simp only [CName.fixed]; omega)

theorem length_cPrimTypeName (prim : PrimType) : (cPrimTypeName prim).length < 255 := by
  cases prim <;> decide

theorem append_star_inj {a b : Bytes} (h : a ++ bytes "*" = b ++ bytes "*") : a = b :=
  List.append_cancel_right h

theorem void_star : bytes "void*" = bytes "void" ++ bytes "*" := rfl

section

variable {t : AstNode} {kind : RefKind} {base n : CName}

theorem composed_ref (hkind : kind.isRc = false) :
    composed (.typeRef (some t) kind) = composed t ++ bytes "*" := by
  simp [composed, hkind]

theorem refName_spec (hkind : kind.isRc = false) (hbase : NameSpec t base)
    (h : refName base = some n) : NameSpec (.typeRef (some t) kind) n := by
  unfold refName at h
  split at h
  · cases h
  · split at h
    · cases h
      refine ⟨fun _ => by simp [isRefLike, hkind], fun _ heq => ?_⟩
      rw [composed_ref hkind] at heq
      have hlast := congrArg List.getLast? heq
      rw [List.getLast?_append] at hlast
      exact absurd hlast (by simp [bytes])
    · next hlong =>
      cases h
      refine ⟨fun heq => ?_, fun hlength => absurd hlength (by decide)⟩
      have hstar : bytes "void*" = composed t ++ bytes "*" := by
        rw [← composed_ref hkind]
        exact heq
      rw [void_star] at hstar
      exact absurd (append_star_inj hstar).symm (hbase.long (by omega))

/-- The name of a reference, from that of its element. -/
theorem refName_eq_iff (hkind : kind.isRc = false) (hbase : NameSpec t base) :
    (refName base).map CName.text = some (composed (.typeRef (some t) kind)) ↔
      base.text = composed t ∧ isRefLike t = false ∧ (composed t).length < 255 := by
  rw [composed_ref hkind]
  unfold refName
  cases hbuffer : base.inRefBuffer with
  | true =>
    rw [if_pos rfl]
    refine iff_of_false (by simp) ?_
    intro ⟨htext, href, _⟩
    rw [hbase.buffer htext, href] at hbuffer
    cases hbuffer
  | false =>
    rw [if_neg (by simp)]
    split
    · next hshort =>
      constructor
      · intro h
        have htext : base.text = composed t := append_star_inj (Option.some.inj h)
        refine ⟨htext, ?_, ?_⟩
        · rw [← hbase.buffer htext, hbuffer]
        · rw [← htext]
          omega
      · intro ⟨htext, _, _⟩
        rw [htext]
        rfl
    · next hlong =>
      refine iff_of_false ?_ ?_
      · intro h
        have hstar : bytes "void*" = composed t ++ bytes "*" := Option.some.inj h
        rw [void_star] at hstar
        exact hbase.long (by omega) (append_star_inj hstar).symm
      · intro ⟨htext, _, hshort⟩
        rw [← htext] at hshort
        omega

end

theorem cName_spec (t : AstNode) (n : CName) (h : cName t = some n) : NameSpec t n := by
  fun_induction cName t generalizing n with
  | case1 prim =>
    cases h
    exact nameSpec_fixed rfl (length_cPrimTypeName prim)
  | case4 elemType kind hkind =>
    cases h
    exact nameSpec_fixed (by simp [isRefLike, hkind]) (by decide)
  | case5 elemType kind hkind ih =>
    obtain ⟨base, hbase, hn⟩ := Option.bind_eq_some_iff.mp h
    exact refName_spec (by simpa using hkind) (ih base hbase) hn
  | case9 elemType ih =>
    have hspec := ih n h
    exact ⟨hspec.buffer, hspec.long⟩
  | case13 name =>
    cases h
    refine ⟨fun _ => rfl, fun hlong heq => ?_⟩
    have hname := length_namedTypeName hlong
    rw [show name = bytes "void" from heq] at hname
    exact absurd hname (by decide)
  | case14 t =>
    cases h
    exact nameSpec_fixed (by cases t <;> first | rfl | simp_all [isRefLike]) (by decide)
  | _ =>
    cases h
    exact nameSpec_fixed rfl (by decide)

theorem text_eq_iff (t : AstNode) : (∃ n, cName t = some n ∧ n.text = composed t) ↔ Composes t := by
  fun_induction cName t with
  | case4 elemType kind hkind => simp [Composes, composed, hkind, CName.fixed]
  | case5 elemType kind hkind ih =>
    have hnotRc : kind.isRc = false := by simpa using hkind
    rw [Composes, hnotRc]
    constructor
    · rintro ⟨n, hn, htext⟩
      obtain ⟨base, hbase, href⟩ := Option.bind_eq_some_iff.mp hn
      have hspec := cName_spec elemType base hbase
      obtain ⟨hown, hnotRef, hshort⟩ := (refName_eq_iff hnotRc hspec).mp (by rw [href, ← htext]; rfl)
      exact .inr ⟨hnotRef, hshort, ih.mp ⟨base, hbase, hown⟩⟩
    · intro h
      obtain ⟨hnotRef, hshort, helem⟩ := h.resolve_left (by simp)
      obtain ⟨base, hbase, hown⟩ := ih.mpr helem
      have heq := (refName_eq_iff hnotRc (cName_spec elemType base hbase)).mpr ⟨hown, hnotRef, hshort⟩
      obtain ⟨n, hn, htext⟩ := Option.map_eq_some_iff.mp heq
      exact ⟨n, by rw [hbase]; exact hn, htext⟩
  | case9 elemType ih => exact ih
  | case13 name =>
    rw [Composes, ← namedTypeName_eq_iff]
    simp [composed, CName.fixed]
  | case14 t =>
    refine iff_of_true ⟨_, rfl, ?_⟩ ?_
    · cases t <;> first | rfl | simp_all [composed, CName.fixed]
    · cases t <;> first | trivial | simp_all [Composes]
  | _ => simp [Composes, composed, CName.fixed]

theorem cTypeName_eq_iff (t : AstNode) : cTypeName t = some (composed t) ↔ Composes t := by
  rw [← text_eq_iff, cTypeName, Option.map_eq_some_iff]

/-! ## §4 Declared names -/

theorem long_of_take_eq {a b : Bytes} (h : a.take 255 = b.take 255) (hne : a ≠ b) :
    255 ≤ a.length ∧ 255 ≤ b.length := by
  have hlength := congrArg List.length h
  rw [List.length_take, List.length_take] at hlength
  by_cases hshort : a.length < 255
  · refine absurd ?_ hne
    rwa [List.take_of_length_le (by omega), List.take_of_length_le (by omega)] at h
  · omega

theorem not_generic_of_long {name : Bytes} (h : 255 ≤ name.length) : isGenericName name = false := by
  rcases name with _ | ⟨c, _ | ⟨d, rest⟩⟩
  · simp at h
  · simp at h
  · rfl

theorem uint64_eq_take_iff (name : Bytes) :
    bytes "uint64_t" = name.take 255 ↔ name = bytes "uint64_t" := by
  constructor
  · intro h
    by_contra hne
    have hlong := long_of_take_eq (a := bytes "uint64_t") (b := name) h (Ne.symm hne)
    exact absurd hlong.1 (by decide)
  · intro h
    rw [h]
    rfl

theorem clash_iff (a b : Bytes) : namedTypeName a = namedTypeName b ↔ a = b ∨ Clash a b := by
  have huint : isGenericName (bytes "uint64_t") = false := rfl
  cases ha : isGenericName a with
  | true =>
    cases hb : isGenericName b with
    | true => simp [namedTypeName, Clash, ha, hb]
    | false =>
      have hne : a ≠ b := fun h => by rw [h, hb] at ha; cases ha
      have hshort : ¬ 255 ≤ a.length := fun h => by rw [not_generic_of_long h] at ha; cases ha
      simp [namedTypeName, Clash, ha, hb, hne, hshort, uint64_eq_take_iff]
  | false =>
    cases hb : isGenericName b with
    | true =>
      have hne : a ≠ b := fun h => by rw [h, hb] at ha; cases ha
      have hshort : ¬ 255 ≤ b.length := fun h => by rw [not_generic_of_long h] at hb; cases hb
      simp [namedTypeName, Clash, ha, hb, hne, hshort, eq_comm, uint64_eq_take_iff]
    | false =>
      simp only [namedTypeName, Clash, ha, hb]
      constructor
      · intro h
        by_cases hne : a = b
        · exact .inl hne
        · obtain ⟨hlongA, hlongB⟩ := long_of_take_eq (by simpa using h) hne
          exact .inr (.inr (.inr ⟨hlongA, hlongB, by simpa using h⟩))
      · rintro (h | h | h | h)
        · simp [h]
        · simp at h
        · simp at h
        · simpa using h.2.2

/-- A type has the composed name exactly where no reference stands on a
reference and the names fit, and the names of two declared types fall together
exactly where both are of the generic shape or cut to one beginning. -/
theorem typeNames_faithful_iff (t : AstNode) (a b : Bytes) :
    (cTypeName t = some (composed t) ↔ Composes t) ∧
      (cTypeName (.typeNamed a) = cTypeName (.typeNamed b) ↔ a = b ∨ Clash a b) := by
  refine ⟨cTypeName_eq_iff t, ?_⟩
  rw [← clash_iff]
  simp [cTypeName, cName, CName.fixed]

/-- `struct T` and `struct U` are both `uint64_t`. -/
theorem capitalStructs_oneName :
    cTypeName (.typeNamed (bytes "T")) = cTypeName (.typeNamed (bytes "U")) ∧
      cTypeName (.typeNamed (bytes "T")) ≠ some (composed (.typeNamed (bytes "T"))) := by
  decide

end Aether.CTranspiler.TypeNames
