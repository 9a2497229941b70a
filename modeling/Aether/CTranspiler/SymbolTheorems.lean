/-
Aether.CTranspiler.SymbolTheorems — the C symbols of the functions of a
program.

The definition writes a name through `mangle_func_name`, a call through
`mangle_op_sig` or as it is. `symbols_one_to_one_iff`: the buffers are kept,
calls and definitions agree and different functions have different symbols
just when every function is one that calls reach and no two are spelled
alike.
-/
import Aether.CTranspiler.CallArgs
import Aether.CTranspiler.OverloadTheorems

namespace Aether.CTranspiler

open Lib.Numerals CallArgs

/-! ## §1 Functions, their symbols and their calls -/

/-- A `NODE_FUNC_DECL`. -/
structure Func where
  name : Bytes
  typeParams : List AstNode
  params : List AstNode
  returnType : Option AstNode
  preConditions : List AstNode
  postConditions : List AstNode
  body : Option AstNode
  info : FuncInfo

namespace Func

def node (f : Func) : AstNode :=
  .funcDecl f.name f.typeParams f.params f.returnType f.preConditions f.postConditions f.body f.info

def symbol (f : Func) : Bytes := f.name.drop 3

def isOp (f : Func) : Bool := isOperatorName f.name

def sysPart (f : Func) : Bytes := if f.info.isSys then bytes "__aether_sys_" else []

/-- What the definition writes behind the name. -/
def suffix (f : Func) : Bytes := if isMethod f.params then methodSuffix f.returnType else []

end Func

/-- The signature hash that a call is mangled with. -/
def callHash (f : Func) : UInt32 :=
  if f.info.isOperator then f.info.sigHash
  else computeOpSigHash (fun _ => none) (f.name.take 63) none none

/-- The name that `c_emit_call` writes for a call with `count` arguments that
is resolved to the function, none for a builtin. -/
def cCallName (f : Func) (count : Nat) : Option Bytes :=
  if isBuiltin f.name count then none
  else some (f.sysPart ++
    if isOperatorName f.name then mangleOpSig (f.name.take 63) (callHash f) else f.name)

/-- How many bytes of the buffer `mangle_func_name` writes: `pos` is what the
`snprintf` of the hash would have written, and the NUL goes there. -/
def bytesWritten (name : Bytes) : Nat :=
  if isOperatorName name then (symbolWords 128 (name.drop 3)).length + 9 + 1
  else (name.take 127).length + 1

/-! ## §2 What is asked and when it holds -/

/-- The functions differ in name or in operator signature hash. -/
def Func.Differs (f g : Func) : Prop :=
  f.name ≠ g.name ∨ f.isOp = true ∧ f.info.sigHash ≠ g.info.sigHash

/-- In bounds and one to one. -/
structure SymbolsOneToOne (funcs : List Func) : Prop where
  inBounds : ∀ f ∈ funcs, bytesWritten f.name ≤ 128
  called : ∀ f ∈ funcs, ∀ count, cCallName f count = cFuncDeclName f.node
  distinct : ∀ f ∈ funcs, ∀ g ∈ funcs, f.Differs g → cFuncDeclName f.node ≠ cFuncDeclName g.node

/-- The names that a call does not write. -/
def builtinNames : List Bytes :=
  [bytes "sizeof", bytes "alignof", bytes "offsetof", bytes "typeName", bytes "panic"] ++ constructors

/-- The word of every character. -/
def spelling : Nat → Bytes → Bytes
  | 0, _ => []
  | _ + 1, [] => []
  | turns + 1, c :: rest => (mangleChar c rest).1 ++ spelling turns (mangleChar c rest).2

namespace Func

def words (f : Func) : Bytes := spelling f.symbol.length f.symbol

/-- The name with words for the characters and the hash, of any length. -/
def spelled (f : Func) : Bytes :=
  if f.isOp then bytes "op_" ++ f.words ++ bytes "_" ++ hexFixed 97 8 f.info.sigHash.toNat else f.name

/-- Calls reach the definition. -/
structure Reached (f : Func) : Prop where
  notBuiltin : f.name ∉ builtinNames
  main : f.name = bytes "main" → f.info.isSys = false
  op : f.isOp = true → symbolFits f.symbol = true ∧ isMethod f.params = false ∧
    f.info.sigHash = callHash f
  ordinary : f.isOp = false → f.name ≠ bytes "main" → f.name.drop 127 = f.suffix

end Func

/-- No two functions are spelled alike. -/
structure SpelledApart (funcs : List Func) : Prop where
  ops : ∀ f ∈ funcs, ∀ g ∈ funcs, f.isOp = true → g.isOp = true → f.info.isSys = g.info.isSys →
    f.info.sigHash = g.info.sigHash → f.words = g.words → f.name = g.name
  sys : ∀ f ∈ funcs, ∀ g ∈ funcs, f.info.isSys = true → g.info.isSys = false →
    g.name ≠ bytes "__aether_sys_" ++ f.spelled

/-! ## §3 Builtins -/

theorem isBuiltin_of_mem {name : Bytes} (h : name ∈ builtinNames) :
    ∃ count, isBuiltin name count = true := by
  obtain hfixed | hconstructor := List.mem_append.mp h
  · refine ⟨2, ?_⟩
    simp only [List.mem_cons, List.not_mem_nil, or_false] at hfixed
    obtain rfl | rfl | rfl | rfl | rfl := hfixed <;> rfl
  · refine ⟨1, ?_⟩
    have hcontains : constructors.contains name = true := by simpa using hconstructor
    simp only [isBuiltin, hcontains]
    simp

theorem isBuiltin_iff (name : Bytes) :
    (∀ count, isBuiltin name count = false) ↔ name ∉ builtinNames := by
  constructor
  · intro h hmem
    obtain ⟨count, hcount⟩ := isBuiltin_of_mem hmem
    rw [h count] at hcount
    cases hcount
  · intro h count
    simp only [builtinNames, List.mem_append, List.mem_cons, List.not_mem_nil, or_false, not_or] at h
    obtain ⟨⟨hsizeof, halignof, hoffsetof, htypeName, hpanic⟩, hconstructor⟩ := h
    simp [isBuiltin, hconstructor, hsizeof, halignof, hoffsetof, htypeName, hpanic]

/-! ## §4 One function -/

theorem eq_opName {f : Func} (h : f.isOp = true) : f.name = opName f.symbol := by
  have htake : f.name.take 3 = bytes "op_" := by simpa [Func.isOp, isOperatorName] using h
  rw [opName, ← htake, Func.symbol, List.take_append_drop]

theorem take_opName (symbol : Bytes) : (opName symbol).take 63 = opName (symbol.take 60) := by
  have hop : (bytes "op_").length = 3 := rfl
  rw [opName, List.take_append, hop, List.take_of_length_le (by rw [hop]; omega), opName]

theorem cFuncDeclName_func (f : Func) (h : f.name ≠ bytes "main") :
    cFuncDeclName f.node = some (f.sysPart ++ mangleFuncName f.name f.info.sigHash ++ f.suffix) := by
  simp [cFuncDeclName, Func.node, h, Func.sysPart, Func.suffix]

theorem cFuncDeclName_main (f : Func) (h : f.name = bytes "main") :
    cFuncDeclName f.node = some f.name := by
  simp [cFuncDeclName, Func.node, h]

/-- The symbol is cut for a call to at most 60 bytes, which no symbol with
room for the hash has more of. -/
theorem sameWords_take_iff (symbol : Bytes) :
    SameWords symbol (symbol.take 60) ↔ symbolFits symbol = true := by
  rw [symbolFits_iff]
  constructor
  · intro h
    rwa [List.take_of_length_le (length_of_sameWords h)] at h
  · intro h
    rwa [List.take_of_length_le (length_of_sameWords h)]

/-- The name of an operator function and the one at a call of it. -/
theorem op_name_eq_iff {f : Func} (h : f.isOp = true) :
    mangleOpSig (f.name.take 63) (callHash f) = mangleFuncName f.name f.info.sigHash ++ f.suffix ↔
      symbolFits f.symbol = true ∧ isMethod f.params = false ∧ f.info.sigHash = callHash f := by
  have hmangle : mangleFuncName f.name f.info.sigHash =
      mangleName 128 (opName f.symbol) f.info.sigHash := by
    rw [mangleFuncName, show isOperatorName f.name = true from h, if_pos rfl, eq_opName h]
  have htake : f.name.take 63 = opName (f.symbol.take 60) := by rw [eq_opName h, take_opName]
  cases hmethod : isMethod f.params with
  | true =>
    simp only [Func.suffix, hmethod, if_true, Bool.true_eq_false, false_and, and_false, iff_false]
    rw [htake]
    exact fun heq => name_ne_methodName _ f.returnType _ _ heq.symm
  | false =>
    rw [Func.suffix, hmethod, if_neg Bool.false_ne_true, List.append_nil, htake, hmangle, mangleOpSig,
      eq_comm, mangleName_eq_iff, sameWords_take_iff]
    simp

/-- The name at a call that is no builtin. -/
def callText (f : Func) : Bytes :=
  f.sysPart ++ if f.isOp then mangleOpSig (f.name.take 63) (callHash f) else f.name

theorem isOp_main {f : Func} (h : f.name = bytes "main") : f.isOp = false := by
  rw [Func.isOp, h]
  rfl

/-- An ordinary name is cut at the definition, and may get the rest back. -/
theorem ordinary_name_eq_iff {f : Func} (h : f.isOp = false) :
    f.name = mangleFuncName f.name f.info.sigHash ++ f.suffix ↔ f.name.drop 127 = f.suffix := by
  rw [mangleFuncName, show isOperatorName f.name = false from h, if_neg Bool.false_ne_true]
  conv_lhs => lhs; rw [← List.take_append_drop 127 f.name]
  rw [List.append_cancel_left_eq]

theorem callText_eq_iff (f : Func) : some (callText f) = cFuncDeclName f.node ↔
    (f.name = bytes "main" → f.info.isSys = false) ∧
      (f.isOp = true → symbolFits f.symbol = true ∧ isMethod f.params = false ∧
        f.info.sigHash = callHash f) ∧
      (f.isOp = false → f.name ≠ bytes "main" → f.name.drop 127 = f.suffix) := by
  by_cases hmain : f.name = bytes "main"
  · have hop := isOp_main hmain
    cases hsys : f.info.isSys with
    | false => simp [cFuncDeclName_main f hmain, callText, hop, Func.sysPart, hsys, hmain]
    | true =>
      simp [cFuncDeclName_main f hmain, callText, hop, Func.sysPart, hsys, hmain]
      decide
  · rw [cFuncDeclName_func f hmain, Option.some.injEq, callText, List.append_assoc,
      List.append_cancel_left_eq]
    cases hop : f.isOp with
    | true => simp [op_name_eq_iff hop, hmain]
    | false => simp [ordinary_name_eq_iff hop, hmain]

theorem called_iff (f : Func) :
    (∀ count, cCallName f count = cFuncDeclName f.node) ↔ f.Reached := by
  obtain ⟨name, hname⟩ : ∃ name, cFuncDeclName f.node = some name := by
    by_cases hmain : f.name = bytes "main"
    · exact ⟨_, cFuncDeclName_main f hmain⟩
    · exact ⟨_, cFuncDeclName_func f hmain⟩
  have hcall : ∀ count, cCallName f count =
      if isBuiltin f.name count then none else some (callText f) := fun _ => rfl
  constructor
  · intro h
    have hbuiltin : ∀ count, isBuiltin f.name count = false := by
      intro count
      by_contra hcount
      have hnone := h count
      rw [hcall, if_pos (by simpa using hcount), hname] at hnone
      cases hnone
    have htext := h 0
    rw [hcall, hbuiltin, if_neg Bool.false_ne_true] at htext
    obtain ⟨hmain, hop, hordinary⟩ := (callText_eq_iff f).mp htext
    exact ⟨(isBuiltin_iff f.name).mp hbuiltin, hmain, hop, hordinary⟩
  · intro ⟨hbuiltin, hmain, hop, hordinary⟩ count
    rw [hcall, (isBuiltin_iff f.name).mpr hbuiltin count, if_neg Bool.false_ne_true]
    exact (callText_eq_iff f).mpr ⟨hmain, hop, hordinary⟩

/-! ## §5 Spellings -/

/-- Where there is room the loop writes every word. -/
theorem mangleLoop_of_fits (turns : Nat) (rest buf : Bytes)
    (h : wordsFit turns rest buf.length = true) :
    mangleLoop 52 turns rest buf = buf ++ spelling turns rest := by
  induction turns generalizing rest buf with
  | zero => simp [mangleLoop, spelling]
  | succ turns ih =>
    cases rest with
    | nil => simp [mangleLoop, spelling]
    | cons c rest =>
      simp only [wordsFit, Bool.and_eq_true, decide_eq_true_eq] at h
      obtain ⟨hroom, hnext⟩ := h
      rw [← List.length_append] at hnext
      rw [mangleLoop, if_pos hroom, spelling, ← List.append_assoc]
      exact ih _ _ hnext

theorem symbolWords_of_fits {f : Func} (h : symbolFits f.symbol = true) :
    symbolWords 64 f.symbol = bytes "op_" ++ f.words :=
  mangleLoop_of_fits _ _ _ h

/-- The symbol of a function that calls reach. -/
theorem name_of_reached {f : Func} (h : f.Reached) :
    cFuncDeclName f.node = some (f.sysPart ++ f.spelled) := by
  rw [← (callText_eq_iff f).mpr ⟨h.main, h.op, h.ordinary⟩, callText, Func.spelled]
  cases hop : f.isOp with
  | false => rfl
  | true =>
    obtain ⟨hfits, -, hhash⟩ := h.op hop
    have hsame := (sameWords_take_iff f.symbol).mpr hfits
    have hlen := hsame.2
    rw [List.take_of_length_le (length_of_sameWords hsame)] at hlen
    have htake : f.name.take 63 = opName f.symbol := by
      rw [eq_opName hop, take_opName, List.take_of_length_le (length_of_sameWords hsame)]
    rw [if_pos rfl, if_pos rfl, htake, mangleOpSig, mangleName_opName (by omega),
      List.take_of_length_le (by rw [length_hexFixed]; omega), symbolWords_of_fits hfits, hhash]
    simp [bytes]

theorem inBounds_of_reached {f : Func} (h : f.Reached) : bytesWritten f.name ≤ 128 := by
  rw [bytesWritten]
  cases hop : f.isOp with
  | false =>
    rw [show isOperatorName f.name = false from hop, if_neg Bool.false_ne_true, List.length_take]
    omega
  | true =>
    obtain ⟨hwords, hlen⟩ := (symbolFits_iff f.symbol).mp (h.op hop).1
    rw [show isOperatorName f.name = true from hop, if_pos rfl, show f.name.drop 3 = f.symbol from rfl,
      hwords]
    omega

theorem underscore_notMem (hash : UInt32) : 95 ∉ hexFixed 97 8 hash.toNat := by
  have h := underscore_notMem_hash hash 8
  rwa [List.take_of_length_le (by rw [length_hexFixed])] at h

/-- Operator functions are spelled alike when they have the same words and the
same hash. -/
theorem op_spelled_eq_iff {f g : Func} (hf : f.isOp = true) (hg : g.isOp = true) :
    f.spelled = g.spelled ↔ f.words = g.words ∧ f.info.sigHash = g.info.sigHash := by
  rw [Func.spelled, Func.spelled, if_pos hf, if_pos hg]
  constructor
  · intro h
    obtain ⟨hwords, hdigits⟩ := append_separator_inj (underscore_notMem _) (underscore_notMem _)
      (show (bytes "op_" ++ f.words) ++ 95 :: _ = (bytes "op_" ++ g.words) ++ 95 :: _ by
        simpa [bytes] using h)
    have hbound := f.info.sigHash.toNat_lt
    have hbound' := g.info.sigHash.toNat_lt
    exact ⟨List.append_cancel_left hwords, UInt32.toNat_inj.mp
      (hexFixed_injective (by decide) (by decide) (by omega) (by omega) hdigits)⟩
  · intro ⟨hwords, hhash⟩
    rw [hwords, hhash]

theorem take_spelled {f : Func} (h : f.isOp = true) : f.spelled.take 3 = bytes "op_" := by
  rw [Func.spelled, if_pos h, List.append_assoc, List.append_assoc,
    List.take_append_of_le_length (by decide)]
  rfl

/-- An ordinary name is no operator's. -/
theorem ordinary_spelled_ne {f g : Func} (hf : f.isOp = true) (hg : g.isOp = false) :
    f.spelled ≠ g.spelled := by
  intro h
  have htake := take_spelled hf
  rw [h, Func.spelled, if_neg (by simp [hg])] at htake
  simp [Func.isOp, isOperatorName, htake] at hg

/-! ## §6 A program -/

theorem sysPart_of_not_sys {f : Func} (h : f.info.isSys = false) : f.sysPart = [] := by
  simp [Func.sysPart, h]

theorem sysPart_of_sys {f : Func} (h : f.info.isSys = true) :
    f.sysPart = bytes "__aether_sys_" := by
  simp [Func.sysPart, h]

/-- A `sys` function and another one have one symbol when the other is named
like it. -/
theorem sys_symbol_eq_iff {f g : Func} (hf : f.info.isSys = true) (hg : g.info.isSys = false) :
    f.sysPart ++ f.spelled = g.sysPart ++ g.spelled ↔
      g.name = bytes "__aether_sys_" ++ f.spelled := by
  rw [sysPart_of_sys hf, sysPart_of_not_sys hg, List.nil_append]
  cases hop : g.isOp with
  | true =>
    constructor
    · intro h
      have htake := take_spelled hop
      rw [← h, List.take_append_of_le_length (by decide)] at htake
      exact absurd htake (by decide)
    · intro h
      have hname : g.isOp = false := by
        rw [Func.isOp, isOperatorName, h, List.take_append_of_le_length (by decide)]
        rfl
      rw [hop] at hname
      cases hname
  | false =>
    rw [Func.spelled, Func.spelled, hop, if_neg Bool.false_ne_true]
    exact eq_comm

/-- A `sys` function has another name than one named like its symbol. -/
theorem sys_name_ne {f g : Func} (h : g.name = bytes "__aether_sys_" ++ f.spelled) :
    f.name ≠ g.name := by
  intro hname
  have hop : f.isOp = false := by
    rw [Func.isOp, isOperatorName, hname, h, List.take_append_of_le_length (by decide)]
    rfl
  rw [Func.spelled, hop, if_neg Bool.false_ne_true, hname] at h
  have hlen := congrArg List.length h
  have hsys : (bytes "__aether_sys_").length = 13 := rfl
  rw [List.length_append, hsys] at hlen
  omega

/-- Functions that calls reach have different symbols just when no two are
spelled alike. -/
theorem distinct_iff {funcs : List Func} (h : ∀ f ∈ funcs, f.Reached) :
    (∀ f ∈ funcs, ∀ g ∈ funcs, f.Differs g → cFuncDeclName f.node ≠ cFuncDeclName g.node) ↔
      SpelledApart funcs := by
  have hname : ∀ f ∈ funcs, ∀ g ∈ funcs, cFuncDeclName f.node = cFuncDeclName g.node ↔
      f.sysPart ++ f.spelled = g.sysPart ++ g.spelled := by
    intro f hf g hg
    rw [name_of_reached (h f hf), name_of_reached (h g hg), Option.some.injEq]
  constructor
  · intro hdistinct
    constructor
    · intro f hf g hg hfop hgop hsys hhash hwords
      by_contra hne
      refine hdistinct f hf g hg (.inl hne) ((hname f hf g hg).mpr ?_)
      rw [Func.sysPart, Func.sysPart, hsys, (op_spelled_eq_iff hfop hgop).mpr ⟨hwords, hhash⟩]
    · intro f hf g hg hfsys hgsys hspelled
      exact hdistinct f hf g hg (.inl (sys_name_ne hspelled))
        ((hname f hf g hg).mpr ((sys_symbol_eq_iff hfsys hgsys).mpr hspelled))
  · intro ⟨hops, hsys⟩ f hf g hg hdiffers hsymbol
    rw [hname f hf g hg] at hsymbol
    by_cases hsame : f.info.isSys = g.info.isSys
    · have hspelled : f.spelled = g.spelled := by
        rw [Func.sysPart, Func.sysPart, hsame] at hsymbol
        exact List.append_cancel_left hsymbol
      cases hfop : f.isOp with
      | true =>
        cases hgop : g.isOp with
        | true =>
          obtain ⟨hwords, hhash⟩ := (op_spelled_eq_iff hfop hgop).mp hspelled
          obtain hne | ⟨_, hne⟩ := hdiffers
          · exact hne (hops f hf g hg hfop hgop hsame hhash hwords)
          · exact hne hhash
        | false => exact ordinary_spelled_ne hfop hgop hspelled
      | false =>
        cases hgop : g.isOp with
        | true => exact ordinary_spelled_ne hgop hfop hspelled.symm
        | false =>
          obtain hne | ⟨hop, _⟩ := hdiffers
          · rw [Func.spelled, Func.spelled, hfop, hgop, if_neg Bool.false_ne_true,
              if_neg Bool.false_ne_true] at hspelled
            exact hne hspelled
          · rw [hfop] at hop
            cases hop
    · cases hfsys : f.info.isSys with
      | true =>
        have hgsys : g.info.isSys = false := by simpa [hfsys] using hsame
        exact hsys f hf g hg hfsys hgsys ((sys_symbol_eq_iff hfsys hgsys).mp hsymbol)
      | false =>
        have hgsys : g.info.isSys = true := by simpa [hfsys] using hsame
        exact hsys g hg f hf hgsys hfsys ((sys_symbol_eq_iff hgsys hfsys).mp hsymbol.symm)

/-- The functions of a program are emitted in bounds, under one name at the
definition and at every call, and apart from each other just when calls reach
them all and no two are spelled alike. -/
theorem symbols_one_to_one_iff (funcs : List Func) :
    SymbolsOneToOne funcs ↔ (∀ f ∈ funcs, f.Reached) ∧ SpelledApart funcs := by
  constructor
  · intro ⟨_, hcalled, hdistinct⟩
    have hreached : ∀ f ∈ funcs, f.Reached := fun f hf => (called_iff f).mp (hcalled f hf)
    exact ⟨hreached, (distinct_iff hreached).mp hdistinct⟩
  · intro ⟨hreached, hapart⟩
    exact ⟨fun f hf => inBounds_of_reached (hreached f hf),
      fun f hf => (called_iff f).mpr (hreached f hf), (distinct_iff hreached).mpr hapart⟩

/-- `op_` and 29 plus signs. -/
def manyPluses : Func where
  name := bytes "op_" ++ List.replicate 29 43
  typeParams := []
  params := []
  returnType := none
  preConditions := []
  postConditions := []
  body := none
  info := { isOperator := true, sigHash := sigHash (bytes "op_" ++ List.replicate 29 43) [] }

/-- The NUL behind the hash is byte 128 of 128. -/
theorem pluses_out_of_bounds : ¬ SymbolsOneToOne [manyPluses] := by
  intro h
  have hbound := h.inBounds manyPluses (by simp)
  have hwritten : bytesWritten manyPluses.name = 129 := by decide
  rw [hwritten] at hbound
  omega

end Aether.CTranspiler
