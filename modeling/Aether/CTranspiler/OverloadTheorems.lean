/-
Aether.CTranspiler.OverloadTheorems — when a use of an operator reaches
its operator function.

The hash of a signature is taken twice, over the parameters of a function
by the parser and over the operands of a use by the transpiler, and a name
is mangled twice, in buffers of 128 and 64 bytes. `sigHash_eq` and
`computeOpSigHash_eq` say that both hash lists of types: a unary use hashes
a missing operand too. `mangleName_eq_iff` says when the names agree.

`overload_linked_iff`: a use calls its operator function by the name of its
definition exactly when the function is a plain one and the operator is a
binary one that dispatches, up to names that do not fit.
-/
import Aether.CTranspiler.Overload

namespace Aether.CTranspiler

open Lib.Numerals

-- the equations, before the proofs that share them
section
attribute [local simp] codepointWord mangleLoop takeContinuation opName hashType cFuncDeclName
  mangleOpSig isOpFunc dispatch dispatchBinary dispatchBySig binopToOpSymbol mangleChar
end

/-! ## §1 The mangling loop -/

theorem symbolWord_ne_nil (c : UInt8) : symbolWord c ≠ [] := by
  fun_cases symbolWord c <;> decide

theorem mangleChar_word_ne_nil (c : UInt8) (rest : Bytes) : (mangleChar c rest).1 ≠ [] := by
  unfold mangleChar
  split
  · simp
  · split
    · simp [codepointWord]
    · exact symbolWord_ne_nil c

/-- The loop only appends. -/
theorem mangleLoop_extends (limit turns : Nat) (rest buf : Bytes) :
    ∃ more, mangleLoop limit turns rest buf = buf ++ more := by
  induction turns generalizing rest buf with
  | zero => exact ⟨[], by simp [mangleLoop]⟩
  | succ turns ih =>
    cases rest with
    | nil => exact ⟨[], by simp [mangleLoop]⟩
    | cons c rest =>
      by_cases hroom : buf.length < limit
      · obtain ⟨more, hmore⟩ := ih (mangleChar c rest).2 (buf ++ (mangleChar c rest).1)
        exact ⟨(mangleChar c rest).1 ++ more, by
          simp only [mangleLoop, if_pos hroom, hmore, List.append_assoc]⟩
      · exact ⟨[], by simp [mangleLoop, hroom]⟩

/-- The words of a symbol from position `pos` on: each starts where the
64-byte mangler still writes, and the hash suffix fits behind the last. -/
def wordsFit : Nat → Bytes → Nat → Bool
  | 0, _, pos => pos ≤ 54
  | _ + 1, [], pos => pos ≤ 54
  | turns + 1, c :: rest, pos =>
    pos < 52 && wordsFit turns (mangleChar c rest).2 (pos + (mangleChar c rest).1.length)

-- the equations, before the proofs that share them
section
attribute [local simp] wordsFit
end

theorem wordsFit_iff (turns : Nat) (rest buf : Bytes) :
    wordsFit turns rest buf.length = true ↔
      mangleLoop 52 turns rest buf = mangleLoop 116 turns rest buf ∧
        (mangleLoop 52 turns rest buf).length ≤ 54 := by
  induction turns generalizing rest buf with
  | zero => simp [wordsFit, mangleLoop]
  | succ turns ih =>
    cases rest with
    | nil => simp [wordsFit, mangleLoop]
    | cons c rest =>
      by_cases hroom : buf.length < 52
      · have hroom' : buf.length < 116 := by omega
        have hnext := ih (mangleChar c rest).2 (buf ++ (mangleChar c rest).1)
        rw [List.length_append] at hnext
        have hfit : wordsFit (turns + 1) (c :: rest) buf.length =
            wordsFit turns (mangleChar c rest).2 (buf.length + (mangleChar c rest).1.length) := by
          simp [wordsFit, hroom]
        simpa only [hfit, mangleLoop, if_pos hroom, if_pos hroom'] using hnext
      · have hstop : mangleLoop 52 (turns + 1) (c :: rest) buf = buf := by
          simp [mangleLoop, hroom]
        have hno : wordsFit (turns + 1) (c :: rest) buf.length = false := by
          simp [wordsFit, hroom]
        rw [hstop, hno]
        simp only [Bool.false_eq_true, false_iff, not_and]
        intro heq hlen
        -- the larger buffer goes on with a word
        have hroom' : buf.length < 116 := by omega
        obtain ⟨more, hmore⟩ := mangleLoop_extends 116 turns (mangleChar c rest).2
          (buf ++ (mangleChar c rest).1)
        simp only [mangleLoop, if_pos hroom', hmore, List.append_assoc, List.self_eq_append_right,
          List.append_eq_nil_iff] at heq
        exact mangleChar_word_ne_nil c rest heq.1

/-- A code point takes up to `n` more bytes. -/
theorem length_takeContinuation (n cp : Nat) (rest : Bytes) :
    (takeContinuation n cp rest).2.length ≤ rest.length ∧
      rest.length ≤ (takeContinuation n cp rest).2.length + n := by
  induction n generalizing cp rest with
  | zero => simp [takeContinuation]
  | succ n ih =>
    cases rest with
    | nil => simp [takeContinuation]
    | cons c rest =>
      have := ih (cp <<< 6 ||| (c &&& 0x3F).toNat) rest
      rw [takeContinuation, List.length_cons]
      omega

theorem length_takeCodepoint (c : UInt8) (rest : Bytes) :
    (takeCodepoint c rest).2.length ≤ rest.length ∧
      rest.length ≤ (takeCodepoint c rest).2.length + 3 := by
  unfold takeCodepoint
  split
  · have := length_takeContinuation 1 (c &&& 0x1F).toNat rest
    omega
  · split
    · have := length_takeContinuation 2 (c &&& 0x0F).toNat rest
      omega
    · split
      · exact length_takeContinuation 3 (c &&& 0x07).toNat rest
      · simp

theorem length_codepointWord (cp : Nat) : 5 ≤ (codepointWord cp).length := by
  rw [codepointWord, List.length_cons, length_hexFixed]
  split
  · omega
  · split <;> omega

/-- A word is at least as long as what it stands for. -/
theorem length_mangleChar (c : UInt8) (rest : Bytes) :
    (mangleChar c rest).2.length ≤ rest.length ∧
      rest.length + 1 ≤ (mangleChar c rest).1.length + (mangleChar c rest).2.length := by
  unfold mangleChar
  split
  · exact ⟨Nat.le_refl _, Nat.le_of_eq (Nat.add_comm _ _)⟩
  · split
    · have hrest := length_takeCodepoint c rest
      have hword := length_codepointWord (takeCodepoint c rest).1
      simp only
      omega
    · have hword := List.length_pos_iff.mpr (symbolWord_ne_nil c)
      simp only
      omega

/-- The loop writes at least as many bytes as the symbol has, up to its
limit. -/
theorem length_mangleLoop {limit turns : Nat} {rest : Bytes} (hturns : rest.length ≤ turns)
    (buf : Bytes) :
    limit ≤ (mangleLoop limit turns rest buf).length ∨
      buf.length + rest.length ≤ (mangleLoop limit turns rest buf).length := by
  induction turns generalizing rest buf with
  | zero =>
    have hnil : rest = [] := List.length_eq_zero_iff.mp (Nat.le_zero.mp hturns)
    simp [mangleLoop, hnil]
  | succ turns ih =>
    cases rest with
    | nil => simp [mangleLoop]
    | cons c rest =>
      rw [List.length_cons] at hturns
      by_cases hroom : buf.length < limit
      · have hchar := length_mangleChar c rest
        have hnext := ih (by omega : (mangleChar c rest).2.length ≤ turns)
          (buf ++ (mangleChar c rest).1)
        simp only [mangleLoop, if_pos hroom, List.length_append, List.length_cons] at hnext ⊢
        omega
      · simp only [mangleLoop, if_neg hroom]
        omega

theorem length_symbolWord (c : UInt8) : (symbolWord c).length ≤ 7 := by
  fun_cases symbolWord c <;> decide

theorem length_mangleChar_word (c : UInt8) (rest : Bytes) : (mangleChar c rest).1.length ≤ 7 := by
  unfold mangleChar
  split
  · simp
  · split
    · simp only [codepointWord, List.length_cons, length_hexFixed]
      split
      · omega
      · split <;> omega
    · exact length_symbolWord c

/-- The last word starts below the limit. -/
theorem length_mangleLoop_lt {limit : Nat} (turns : Nat) (rest : Bytes) {buf : Bytes}
    (hbuf : buf.length < limit + 7) : (mangleLoop limit turns rest buf).length < limit + 7 := by
  induction turns generalizing rest buf with
  | zero => exact hbuf
  | succ turns ih =>
    cases rest with
    | nil => exact hbuf
    | cons c rest =>
      by_cases hroom : buf.length < limit
      · have hword := length_mangleChar_word c rest
        simp only [mangleLoop, if_pos hroom]
        exact ih (mangleChar c rest).2 (by rw [List.length_append]; omega)
      · simpa only [mangleLoop, if_neg hroom] using hbuf

/-! ## §2 The two buffers -/

/-- The words of the symbol and the hash suffix fit into the name of a use. -/
def symbolFits (symbol : Bytes) : Bool := wordsFit symbol.length symbol 3

@[simp] theorem drop_opName (symbol : Bytes) : (opName symbol).drop 3 = symbol := rfl

/-- The words for a symbol in a buffer of `size` bytes. -/
def symbolWords (size : Nat) (symbol : Bytes) : Bytes :=
  mangleLoop (size - 12) symbol.length symbol (bytes "op_")

theorem length_symbolWords {size : Nat} (h : 12 ≤ size) (symbol : Bytes) :
    (symbolWords size symbol).length ≤ size - 6 := by
  have hop : (bytes "op_").length = 3 := rfl
  have hroom : (bytes "op_").length < size - 12 + 7 := by
    rw [hop]
    omega
  have := length_mangleLoop_lt symbol.length symbol hroom
  rw [symbolWords]
  omega

theorem symbolWords_eq_append (size : Nat) (symbol : Bytes) :
    ∃ more, symbolWords size symbol = bytes "op_" ++ more :=
  mangleLoop_extends (size - 12) symbol.length symbol (bytes "op_")

/-- The words of a long symbol leave no room for the hash. -/
theorem length_symbolWords_of_long {symbol : Bytes} (h : 60 < symbol.length) :
    64 ≤ (symbolWords 128 symbol).length := by
  have : 116 ≤ (mangleLoop 116 symbol.length symbol (bytes "op_")).length ∨
      (bytes "op_").length + symbol.length ≤
        (mangleLoop 116 symbol.length symbol (bytes "op_")).length :=
    length_mangleLoop (Nat.le_refl symbol.length) (bytes "op_")
  have hop : (bytes "op_").length = 3 := rfl
  rw [hop] at this
  show 64 ≤ (mangleLoop 116 symbol.length symbol (bytes "op_")).length
  omega

/-- A name is the words, an underscore and the first digits of the hash. -/
theorem mangleName_opName {size : Nat} (h : 12 ≤ size) (symbol : Bytes) (hash : UInt32) :
    mangleName size (opName symbol) hash =
      symbolWords size symbol ++
        95 :: (hexFixed 97 8 hash.toNat).take (size - 2 - (symbolWords size symbol).length) := by
  have hlen := length_symbolWords h symbol
  have hname : mangleName size (opName symbol) hash =
      (symbolWords size symbol ++ 95 :: hexFixed 97 8 hash.toNat).take (size - 1) := by
    rw [mangleName, drop_opName, List.append_assoc]
    rfl
  have hcount : size - 1 - (symbolWords size symbol).length =
      size - 2 - (symbolWords size symbol).length + 1 := by omega
  rw [hname, List.take_append, List.take_of_length_le (by omega), hcount, List.take_succ_cons]

theorem hash_digit_range {c : UInt8} {hash : UInt32} {n : Nat}
    (h : c ∈ (hexFixed 97 8 hash.toNat).take n) : c.toNat ≤ 57 ∨ 97 ≤ c.toNat ∧ c.toNat ≤ 102 := by
  obtain ⟨d, hd, hdigit⟩ := mem_hexFixed (List.mem_of_mem_take h)
  have hnat := congrArg UInt8.toNat hdigit
  have h97 : (97 : UInt8).toNat = 97 := rfl
  rw [toNat_hexDigit (by decide) hd, h97] at hnat
  split at hnat <;> omega

theorem underscore_notMem_hash (hash : UInt32) (n : Nat) :
    95 ∉ (hexFixed 97 8 hash.toNat).take n := by
  intro h
  have hrange := hash_digit_range h
  have h95 : (95 : UInt8).toNat = 95 := rfl
  omega

/-- The symbol of a definition and that of a use have the same words, and
the hash fits behind them. -/
def SameWords (defined used : Bytes) : Prop :=
  symbolWords 128 defined = symbolWords 64 used ∧ (symbolWords 64 used).length ≤ 54

/-- The name of a definition is that of a use when their words and hashes
agree. -/
theorem mangleName_eq_iff (defined used : Bytes) (hash hash' : UInt32) :
    mangleName 128 (opName defined) hash = mangleName 64 (opName used) hash' ↔
      SameWords defined used ∧ hash = hash' := by
  rw [mangleName_opName (by omega), mangleName_opName (by omega)]
  have hused := length_symbolWords (by omega : 12 ≤ 64) used
  constructor
  · intro h
    obtain ⟨hwords, hdigits⟩ := append_separator_inj (underscore_notMem_hash hash _)
      (underscore_notMem_hash hash' _) h
    -- the definition has all eight digits, so the use has them too
    have hlen := congrArg List.length hdigits
    rw [List.length_take, List.length_take, length_hexFixed, length_hexFixed, hwords] at hlen
    have hfits : (symbolWords 64 used).length ≤ 54 := by omega
    rw [hwords, List.take_of_length_le (by rw [length_hexFixed]; omega),
      List.take_of_length_le (by rw [length_hexFixed]; omega)] at hdigits
    have hbound := hash.toNat_lt
    have hbound' := hash'.toNat_lt
    exact ⟨⟨hwords, hfits⟩, UInt32.toNat_inj.mp
      (hexFixed_injective (by decide) (by decide) (by omega) (by omega) hdigits)⟩
  · rintro ⟨⟨hwords, hfits⟩, rfl⟩
    rw [hwords, List.take_of_length_le (by rw [length_hexFixed]; omega),
      List.take_of_length_le (by rw [length_hexFixed]; omega)]

theorem symbolFits_iff (symbol : Bytes) :
    symbolFits symbol = true ↔ SameWords symbol symbol := by
  have hfits := wordsFit_iff symbol.length symbol (bytes "op_")
  constructor
  · intro h
    have ⟨hwords, hlen⟩ := hfits.mp h
    exact ⟨hwords.symm, hlen⟩
  · intro ⟨hwords, hlen⟩
    exact hfits.mpr ⟨hwords.symm, hlen⟩

theorem length_of_sameWords {defined used : Bytes} (h : SameWords defined used) :
    defined.length ≤ 60 := by
  by_contra hlong
  have hwords := length_symbolWords_of_long (Nat.lt_of_not_le hlong)
  rw [h.1] at hwords
  have := h.2
  omega

theorem customOpName_eq (symbol : Bytes) : customOpName symbol = opName (symbol.take 60) := by
  have hop : (bytes "op_").length = 3 := rfl
  rw [customOpName, opName, List.take_append, hop, List.take_of_length_le (by rw [hop]; omega),
    List.take_take]
  rfl

/-! ## §3 The two hashes -/

/-- The type a parameter is declared with. -/
def paramType : AstNode → Option AstNode
  | .param _ type _ _ _ => type
  | _ => none

/-- The type of the declaration that an identifier stands for. -/
def identType (resolved : Bytes → Option AstNode) (name : Bytes) : Option AstNode :=
  (resolved name).bind declaredType

/-- The type an operand is hashed with: a literal has the type of its kind,
and what is no identifier has none. -/
def operandType (resolved : Bytes → Option AstNode) : Option AstNode → Option AstNode
  | some (.ident name) => identType resolved name
  | some (.literalInt _ _) => some (.typePrimitive .i64)
  | some (.literalFloat _) => some (.typePrimitive .f64)
  | _ => none

/-- The hash of a name and the types behind it. -/
def hashTypes (name : Bytes) (types : List (Option AstNode)) : UInt32 :=
  types.foldl hashType (name.foldl hashByte 5381)

-- the equations, before the proofs that share them
section
attribute [local simp] identType hashTypes
end

theorem hashParam_eq (hash : UInt32) (param : AstNode) :
    hashParam hash param = hashType hash (paramType param) := by
  cases param with
  | param _ type _ _ _ =>
    cases type with
    | none => rfl
    | some type => cases type <;> rfl
  | _ => rfl

theorem hashOperand_eq (resolved : Bytes → Option AstNode) (hash : UInt32)
    (operand : Option AstNode) :
    hashOperand resolved hash operand = hashType hash (operandType resolved operand) := by
  unfold hashOperand operandType
  split
  · next name =>
    cases hdecl : resolved name with
    | none => simp [identType, hdecl, hashType]
    | some decl => simp [identType, hdecl]
  · rfl
  · rfl
  · simp_all [hashType]

/-- The parser hashes the types of the parameters. -/
theorem sigHash_eq (name : Bytes) (params : List AstNode) :
    sigHash name params = hashTypes name (params.map paramType) := by
  rw [sigHash, hashTypes, List.foldl_map]
  exact congrArg (fun f => params.foldl f _) (funext fun h => funext fun p => hashParam_eq h p)

/-- A use hashes the types of two operands, of which one may be missing. -/
theorem computeOpSigHash_eq (resolved : Bytes → Option AstNode) (name : Bytes)
    (left right : Option AstNode) :
    computeOpSigHash resolved name left right =
      hashTypes name [operandType resolved left, operandType resolved right] := by
  simp only [computeOpSigHash, hashOperand_eq, hashTypes, List.foldl_cons, List.foldl_nil]

/-- A missing operand is hashed as well, which changes the parity. -/
theorem hashByte_ff_ne (hash : UInt32) : hashByte hash 0xFF ≠ hash := by
  intro h
  have hnat := congrArg UInt32.toNat h
  have hshift : (hash <<< 5).toNat = hash.toNat * 32 % 4294967296 := by
    simp [Nat.shiftLeft_eq]
  simp only [hashByte, UInt32.toNat_add, hshift] at hnat
  have hff : (255 : UInt8).toUInt32.toNat = 255 := rfl
  rw [hff] at hnat
  have := hash.toNat_lt
  omega

/-! ## §4 Operator functions and their names -/

/-- An operator function with what the parser computes for it. -/
structure OperatorFunc where
  symbol : Bytes
  typeParams : List AstNode
  params : List AstNode
  returnType : Option AstNode
  preConditions : List AstNode
  postConditions : List AstNode
  body : Option AstNode
  info : FuncInfo
  isOperator : info.isOperator = true
  hashed : info.sigHash = sigHash (opName symbol) params

namespace OperatorFunc

def node (f : OperatorFunc) : AstNode :=
  .funcDecl (opName f.symbol) f.typeParams f.params f.returnType f.preConditions f.postConditions
    f.body f.info

/-- The types of the parameters. -/
def types (f : OperatorFunc) : List (Option AstNode) := f.params.map paramType

theorem sigHash_eq (f : OperatorFunc) : f.info.sigHash = hashTypes (opName f.symbol) f.types := by
  rw [f.hashed, CTranspiler.sigHash_eq, types]

/-- A plain function's name gets no prefix and no suffix. -/
def IsPlain (f : OperatorFunc) : Prop := f.info.isSys = false ∧ isMethod f.params = false

end OperatorFunc

theorem opName_ne_main (symbol : Bytes) : opName symbol ≠ bytes "main" := by
  intro h
  have hhead := congrArg (List.take 1) h
  rw [opName, List.take_append_of_le_length (by decide)] at hhead
  revert hhead
  decide

theorem isOperatorName_opName (symbol : Bytes) : isOperatorName (opName symbol) = true := by
  rw [isOperatorName, opName, List.take_append_of_le_length (by decide)]
  rfl

theorem cFuncPrototypeName_node (f : OperatorFunc) :
    cFuncPrototypeName f.node = cFuncDeclName f.node := by
  simp [cFuncPrototypeName, cFuncDeclName, OperatorFunc.node, opName_ne_main]

theorem cFuncDeclName_node (f : OperatorFunc) :
    cFuncDeclName f.node = some ((if f.info.isSys then bytes "__aether_sys_" else []) ++
      mangleName 128 (opName f.symbol) f.info.sigHash ++
        (if isMethod f.params then methodSuffix f.returnType else [])) := by
  simp [cFuncDeclName, OperatorFunc.node, opName_ne_main, mangleFuncName, isOperatorName_opName]

/-- The suffix of a method is no hash. -/
theorem name_ne_methodName (name : Bytes) (returnType : Option AstNode) (symbol : Bytes)
    (hash : UInt32) : name ++ methodSuffix returnType ≠ mangleOpSig (opName symbol) hash := by
  intro h
  obtain ⟨word, hsuffix, hword, hlast⟩ : ∃ word, methodSuffix returnType = 95 :: word ∧
      (95 : UInt8) ∉ word ∧ (114 : UInt8) ∈ word := by
    cases returnType with
    | none => exact ⟨bytes "setter", rfl, by decide, by decide⟩
    | some type => exact ⟨bytes "getter", rfl, by decide, by decide⟩
  rw [hsuffix, mangleOpSig, mangleName_opName (by omega)] at h
  obtain ⟨-, hdigits⟩ := append_separator_inj hword (underscore_notMem_hash hash _) h
  rw [hdigits] at hlast
  have hrange := hash_digit_range hlast
  have h114 : (114 : UInt8).toNat = 114 := rfl
  omega

/-- The prefix of a `sys` function does not start a mangled name. -/
theorem name_ne_sysName (rest : Bytes) (symbol : Bytes) (hash : UInt32) :
    bytes "__aether_sys_" ++ rest ≠ mangleOpSig (opName symbol) hash := by
  intro h
  obtain ⟨more, hmore⟩ := symbolWords_eq_append 64 symbol
  rw [mangleOpSig, mangleName_opName (by omega), hmore] at h
  exact absurd (List.head_eq_of_cons_eq h) (by decide)

/-- When the name of a definition is the name at a use. -/
theorem cFuncDeclName_eq_iff (f : OperatorFunc) (used : Bytes) (hash : UInt32) :
    cFuncDeclName f.node = some (mangleOpSig (opName used) hash) ↔
      f.IsPlain ∧ SameWords f.symbol used ∧ f.info.sigHash = hash := by
  rw [cFuncDeclName_node, Option.some.injEq]
  cases hsys : f.info.isSys with
  | true =>
    simp only [if_true, OperatorFunc.IsPlain, hsys, Bool.true_eq_false, false_and, iff_false,
      List.append_assoc]
    exact name_ne_sysName _ used hash
  | false =>
    cases hmethod : isMethod f.params with
    | true =>
      simp only [if_true, OperatorFunc.IsPlain, hmethod, Bool.true_eq_false, and_false, false_and,
        iff_false]
      exact name_ne_methodName _ f.returnType used hash
    | false =>
      simp only [Bool.false_eq_true, if_false, List.nil_append, List.append_nil,
        OperatorFunc.IsPlain, hsys, hmethod, and_self, true_and]
      exact mangleName_eq_iff f.symbol used f.info.sigHash hash

/-! ## §5 Linkage -/

/-- How a binary operator is spelled, none for the word operators. -/
def binarySpelling (op : BinOp) (customOp : Bytes) : Option Bytes :=
  match op with
  | .custom => some customOp
  | .and => some (bytes "&&")
  | .or => some (bytes "||")
  | .power => some (bytes "**")
  | .range => some (bytes "..")
  | .rangeInclusive => some (bytes "..=")
  | .assign => some (bytes "=")
  | .addAssign => some (bytes "+=")
  | .subAssign => some (bytes "-=")
  | .mulAssign => some (bytes "*=")
  | .divAssign => some (bytes "/=")
  | .errorContext => some (bytes "?")
  | .concat | .orElse => none
  | op => binopToOpSymbol op

/-- How a unary operator is spelled, none for the word operators. -/
def unarySpelling : UnaryOp → Option Bytes
  | .deref => some (bytes "*")
  | .addr => some (bytes "&")
  | .arrayLen => some (bytes "#")
  | .inc => some (bytes "++")
  | .dec => some (bytes "--")
  | op => unaryopToOpSymbol op

/-- An operator between identifiers. -/
inductive Use where
  | unary (op : UnaryOp) (operand : Bytes)
  | binary (op : BinOp) (left right : Bytes) (customOp : Bytes)

namespace Use

def node : Use → AstNode
  | unary op operand => .unaryOp op (some (.ident operand))
  | binary op left right customOp => .binaryOp op (some (.ident left)) (some (.ident right)) customOp

def symbol : Use → Option Bytes
  | unary op _ => unarySpelling op
  | binary op _ _ customOp => binarySpelling op customOp

def operands : Use → List Bytes
  | unary _ operand => [operand]
  | binary _ left right _ => [left, right]

end Use

/-- A use of an operator function of the program, on identifiers that are
declared with the types of its parameters. -/
structure OperatorUse (resolved : Bytes → Option AstNode) (decls : List AstNode) where
  func : OperatorFunc
  use : Use
  declared : func.node ∈ decls
  spelled : use.symbol = some func.symbol
  typed : use.operands.map (identType resolved) = func.types

variable {resolved : Bytes → Option AstNode} {decls : List AstNode}

/-- The use finds the function, under the name that its definition and its
prototype are written with. -/
def Linked (u : OperatorUse resolved decls) : Prop :=
  ∃ name, (dispatch resolved decls u.use.node = .overload u.func.node name ∨
      dispatch resolved decls u.use.node = .direct name) ∧
    cFuncDeclName u.func.node = some name ∧ cFuncPrototypeName u.func.node = some name

/-- The function is the first operator function with its name and hash. -/
def FirstOverload (decls : List AstNode) (f : OperatorFunc) : Prop :=
  ∃ before after, decls = before ++ f.node :: after ∧
    ∀ g ∈ before, isOpFunc (opName f.symbol) f.info.sigHash g = false

/-- The operator dispatches to the function: a custom operator whose name
fits, or one of `binop_to_op_symbol` with this function in front. -/
def Dispatches (decls : List AstNode) (f : OperatorFunc) : Use → Prop
  | .unary .. => False
  | .binary op .. =>
    (op = .custom ∧ symbolFits f.symbol = true) ∨
      ((binopToOpSymbol op).isSome ∧ FirstOverload decls f)

-- the equations, before the proofs that share them
section
attribute [local simp] Linked Dispatches
end

theorem findOpFuncBySig_node_iff (f : OperatorFunc) :
    findOpFuncBySig decls (opName f.symbol) f.info.sigHash = some f.node ↔
      FirstOverload decls f := by
  have hself : isOpFunc (opName f.symbol) f.info.sigHash f.node = true := by
    simp [isOpFunc, OperatorFunc.node, f.isOperator]
  rw [findOpFuncBySig, List.find?_eq_some_iff_append]
  simp only [hself, true_and, FirstOverload, Bool.not_eq_true']

theorem isOpFunc_node_iff (name : Bytes) (hash : UInt32) (f : OperatorFunc) :
    isOpFunc name hash f.node = true ↔ opName f.symbol = name ∧ f.info.sigHash = hash := by
  simp [isOpFunc, OperatorFunc.node, f.isOperator]

theorem dispatchBySig_eq_overload {name uName : Bytes} {hash : UInt32} {func : AstNode}
    (h : dispatchBySig decls name hash = .overload func uName) :
    findOpFuncBySig decls name hash = some func ∧ uName = mangleOpSig name hash := by
  unfold dispatchBySig at h
  split at h
  · next hfind =>
    cases h
    exact ⟨hfind, rfl⟩
  · cases h

theorem dispatchBySig_ne_direct (name uName : Bytes) (hash : UInt32) :
    dispatchBySig decls name hash ≠ .direct uName := by
  unfold dispatchBySig
  split
  · intro h
    cases h
  · intro h
    cases h

/-- The hash of a binary use is that of the function. -/
theorem hash_binary (u : OperatorUse resolved decls) {op : BinOp} {left right customOp : Bytes}
    (huse : u.use = .binary op left right customOp) (name : Bytes) :
    computeOpSigHash resolved name (some (.ident left)) (some (.ident right)) =
      hashTypes name u.func.types := by
  have htyped := u.typed
  rw [huse] at htyped
  rw [computeOpSigHash_eq, ← htyped]
  rfl

/-- A unary use hashes a missing operand, so it never finds its function. -/
theorem not_linked_unary (u : OperatorUse resolved decls) {op : UnaryOp} {operand : Bytes}
    (huse : u.use = .unary op operand) : ¬ Linked u := by
  rintro ⟨name, hdispatch, -, -⟩
  have hspelled := u.spelled
  have htyped := u.typed
  rw [huse] at hdispatch hspelled htyped
  simp only [Use.node, dispatch, dispatchUnary] at hdispatch
  cases hsymbol : unaryopToOpSymbol op with
  | none => simp [hsymbol] at hdispatch
  | some symbol =>
    have hsame : symbol = u.func.symbol := by
      cases op with
      | neg | not | bitNot => exact Option.some.inj (hsymbol.symm.trans hspelled)
      | _ => cases hsymbol
    have hhash : computeOpSigHash resolved (opName u.func.symbol) (some (.ident operand)) none =
        hashByte u.func.info.sigHash 0xFF := by
      rw [computeOpSigHash_eq, u.func.sigHash_eq, ← htyped]
      rfl
    simp only [hsymbol, hsame, hhash] at hdispatch
    cases hdispatch with
    | inl h =>
      have hfound := List.find?_some (dispatchBySig_eq_overload h).1
      exact hashByte_ff_ne _ ((isOpFunc_node_iff _ _ _).mp hfound).2.symm
    | inr h => exact dispatchBySig_ne_direct _ _ _ h

/-- The symbols of `binop_to_op_symbol` are short and spelled as they are. -/
theorem binopToOpSymbol_spec {op : BinOp} {symbol : Bytes} (h : binopToOpSymbol op = some symbol)
    (customOp : Bytes) :
    op ≠ .custom ∧ binarySpelling op customOp = some symbol ∧ symbolFits symbol = true := by
  cases op with
  | and | or | power | range | rangeInclusive | assign | addAssign | subAssign | mulAssign
  | divAssign | errorContext | concat | orElse | custom => cases h
  | _ => cases h; exact ⟨nofun, rfl, by decide⟩

/-- A binary use of an operator with a symbol looks its function up. -/
theorem linked_symbol_iff (u : OperatorUse resolved decls) {op : BinOp} {left right customOp : Bytes}
    (huse : u.use = .binary op left right customOp) {symbol : Bytes}
    (hsymbol : binopToOpSymbol op = some symbol) :
    Linked u ↔ u.func.IsPlain ∧ FirstOverload decls u.func := by
  obtain ⟨-, hspelling, hfits⟩ := binopToOpSymbol_spec hsymbol customOp
  have hspelled := u.spelled
  rw [huse] at hspelled
  obtain rfl : symbol = u.func.symbol := Option.some.inj (hspelling.symm.trans hspelled)
  -- what is emitted is the search with the parser's hash
  have hdispatch : dispatch resolved decls u.use.node =
      dispatchBySig decls (opName u.func.symbol) u.func.info.sigHash := by
    rw [huse, Use.node, dispatch, dispatchBinary, hsymbol]
    simp only [hash_binary u huse, ← u.func.sigHash_eq]
  have hname := cFuncDeclName_eq_iff u.func u.func.symbol u.func.info.sigHash
  rw [Linked, hdispatch]
  constructor
  · rintro ⟨name, hfound | hdirect, hdecl, -⟩
    · obtain ⟨hfind, rfl⟩ := dispatchBySig_eq_overload hfound
      exact ⟨(hname.mp hdecl).1, (findOpFuncBySig_node_iff u.func).mp hfind⟩
    · exact absurd hdirect (dispatchBySig_ne_direct _ _ _)
  · rintro ⟨hplain, hfirst⟩
    have hdecl := hname.mpr ⟨hplain, (symbolFits_iff _).mp hfits, rfl⟩
    refine ⟨mangleOpSig (opName u.func.symbol) u.func.info.sigHash, Or.inl ?_, hdecl, ?_⟩
    · rw [dispatchBySig, (findOpFuncBySig_node_iff u.func).mpr hfirst]
    · rw [cFuncPrototypeName_node, hdecl]

/-- A custom operator is called by the name that its symbol gives. -/
theorem linked_custom_iff (u : OperatorUse resolved decls) {left right customOp : Bytes}
    (huse : u.use = .binary .custom left right customOp) :
    Linked u ↔ u.func.IsPlain ∧ symbolFits u.func.symbol = true := by
  have hspelled := u.spelled
  rw [huse] at hspelled
  obtain rfl : customOp = u.func.symbol := Option.some.inj hspelled
  have hdispatch : dispatch resolved decls u.use.node =
      .direct (mangleOpSig (opName (u.func.symbol.take 60))
        (hashTypes (opName (u.func.symbol.take 60)) u.func.types)) := by
    rw [huse, Use.node, dispatch, dispatchBinary]
    simp only [binopToOpSymbol, if_true, hash_binary u huse, customOpName_eq]
  have hname := cFuncDeclName_eq_iff u.func (u.func.symbol.take 60)
    (hashTypes (opName (u.func.symbol.take 60)) u.func.types)
  rw [Linked, hdispatch]
  constructor
  · rintro ⟨name, hfound | hdirect, hdecl, -⟩
    · cases hfound
    · cases hdirect
      obtain ⟨hplain, hwords, -⟩ := hname.mp hdecl
      rw [List.take_of_length_le (length_of_sameWords hwords)] at hwords
      exact ⟨hplain, (symbolFits_iff _).mpr hwords⟩
  · rintro ⟨hplain, hfits⟩
    have hwords := (symbolFits_iff _).mp hfits
    rw [List.take_of_length_le (length_of_sameWords hwords)] at hname ⊢
    have hdecl := hname.mpr ⟨hplain, hwords, u.func.sigHash_eq⟩
    exact ⟨_, Or.inr rfl, hdecl, by rw [cFuncPrototypeName_node, hdecl]⟩

/-- A use of an operator function calls it, by the name of its definition
and its prototype, if and only if the function is plain and the operator
dispatches to it. -/
theorem overload_linked_iff (u : OperatorUse resolved decls) :
    Linked u ↔ u.func.IsPlain ∧ Dispatches decls u.func u.use := by
  cases huse : u.use with
  | unary op operand =>
    simp only [not_linked_unary u huse, Dispatches, and_false]
  | binary op left right customOp =>
    by_cases hcustom : op = .custom
    · subst hcustom
      simp [linked_custom_iff u huse, Dispatches, binopToOpSymbol]
    · cases hsymbol : binopToOpSymbol op with
      | some symbol => simp [linked_symbol_iff u huse hsymbol, Dispatches, hcustom, hsymbol]
      | none =>
        have hbuiltin : ¬ Linked u := by
          rintro ⟨name, hdispatch, -, -⟩
          rw [huse] at hdispatch
          simp [Use.node, dispatch, dispatchBinary, hsymbol, hcustom] at hdispatch
        simp [hbuiltin, Dispatches, hcustom, hsymbol]

/-- `func op_-(a: Vector): Vector {}`, with the hash of the parser. -/
def negateVector : OperatorFunc where
  symbol := bytes "-"
  typeParams := []
  params := [.param (bytes "a") (some (.typeNamed (bytes "Vector"))) false false none]
  returnType := some (.typeNamed (bytes "Vector"))
  preConditions := []
  postConditions := []
  body := some (.block [])
  info := { isOperator := true
            sigHash := sigHash (opName (bytes "-"))
              [.param (bytes "a") (some (.typeNamed (bytes "Vector"))) false false none] }
  isOperator := rfl
  hashed := rfl

/-- `-v` for a variable `v: Vector`. -/
def negateUse : OperatorUse
    (fun _ => some (.letNode (bytes "v") (some (.typeNamed (bytes "Vector"))) none false false))
    [negateVector.node] where
  func := negateVector
  use := .unary .neg (bytes "v")
  declared := List.mem_singleton_self _
  spelled := rfl
  typed := rfl

/-- `-v` does not find `op_-(a: Vector)`. -/
theorem negation_not_linked : ¬ Linked negateUse :=
  not_linked_unary negateUse rfl

end Aether.CTranspiler
