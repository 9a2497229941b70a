/-
Aether.CTranspiler.Names — the C names of functions: `mangle_func_name`
and the naming of `c_emit_func_prototype` and `c_emit_func_decl` in
`c_func.c`, and `mangle_op_sig` in `c_expr.c`.

The two manglers are one algorithm over buffers of 128 and 64 bytes: it
writes words for the characters of an operator symbol while fewer than
`size - 12` bytes are written, then the signature hash in hexadecimal, and
`snprintf` cuts what does not fit. Names hold no NUL.
-/
import Aether.Lib.Numerals
import Aether.Parser.Decl

namespace Aether.CTranspiler

open Lib.Numerals

/-! ## §1 Mangling -/

/-- `isalnum` in the C locale, or an underscore. -/
def isWordChar (c : UInt8) : Bool := isIdentContinue c

/-- The word for an ASCII operator character. -/
def symbolWord (c : UInt8) : Bytes :=
  if c = 43 then bytes "plus"
  else if c = 45 then bytes "minus"
  else if c = 42 then bytes "star"
  else if c = 47 then bytes "slash"
  else if c = 37 then bytes "percent"
  else if c = 61 then bytes "eq"
  else if c = 33 then bytes "bang"
  else if c = 60 then bytes "lt"
  else if c = 62 then bytes "gt"
  else if c = 38 then bytes "amp"
  else if c = 124 then bytes "pipe"
  else if c = 94 then bytes "caret"
  else if c = 126 then bytes "tilde"
  else bytes "_"

/-- Up to `n` continuation bytes of a code point. -/
def takeContinuation : Nat → Nat → Bytes → Nat × Bytes
  | 0, cp, rest => (cp, rest)
  | _ + 1, cp, [] => (cp, [])
  | n + 1, cp, c :: rest => takeContinuation n (cp <<< 6 ||| (c &&& 0x3F).toNat) rest

/-- The code point that starts with the byte `c`, and the rest. A byte that
starts none has the code point 0. -/
def takeCodepoint (c : UInt8) (rest : Bytes) : Nat × Bytes :=
  if c &&& 0xE0 = 0xC0 then takeContinuation 1 (c &&& 0x1F).toNat rest
  else if c &&& 0xF0 = 0xE0 then takeContinuation 2 (c &&& 0x0F).toNat rest
  else if c &&& 0xF8 = 0xF0 then takeContinuation 3 (c &&& 0x07).toNat rest
  else (0, rest)

/-- `u%04X` of a code point of at most 21 bits. -/
def codepointWord (cp : Nat) : Bytes :=
  117 :: hexFixed 65 (if cp < 0x10000 then 4 else if cp < 0x100000 then 5 else 6) cp

/-- What is written for the character at the front, and the rest. -/
def mangleChar (c : UInt8) (rest : Bytes) : Bytes × Bytes :=
  if isWordChar c then ([c], rest)
  else if c ≥ 128 then
    let (cp, rest) := takeCodepoint c rest
    (codepointWord cp, rest)
  else (symbolWord c, rest)

/-- The loop of the manglers: at most one turn for each byte of the name. -/
def mangleLoop (limit : Nat) : Nat → Bytes → Bytes → Bytes
  | 0, _, buf => buf
  | _ + 1, [], buf => buf
  | turns + 1, c :: rest, buf =>
    if buf.length < limit then
      let (word, rest) := mangleChar c rest
      mangleLoop limit turns rest (buf ++ word)
    else buf

/-- The mangled name in a buffer of `size` bytes. -/
def mangleName (size : Nat) (name : Bytes) (sigHash : UInt32) : Bytes :=
  let symbol := name.drop 3
  let buf := mangleLoop (size - 12) symbol.length symbol (bytes "op_")
  (buf ++ bytes "_" ++ hexFixed 97 8 sigHash.toNat).take (size - 1)

/-- `mangle_func_name`, at definitions and prototypes. -/
def mangleFuncName (fname : Bytes) (sigHash : UInt32) : Bytes :=
  if isOperatorName fname then mangleName 128 fname sigHash else fname.take 127

/-- `mangle_op_sig`, at uses. -/
def mangleOpSig (opName : Bytes) (sigHash : UInt32) : Bytes := mangleName 64 opName sigHash

/-! ## §2 The name of a function -/

/-- The first parameter is named `self`. -/
def isMethod : List AstNode → Bool
  | .param name _ _ _ _ :: _ => name == bytes "self"
  | _ => false

def methodSuffix (returnType : Option AstNode) : Bytes :=
  if returnType.isSome then bytes "_getter" else bytes "_setter"

/-- The name that `c_emit_func_decl` writes, none for other nodes. -/
def cFuncDeclName : AstNode → Option Bytes
  | .funcDecl name _ params returnType _ _ _ info =>
    if name = bytes "main" then some (bytes "main")
    else
      some ((if info.isSys then bytes "__aether_sys_" else []) ++ mangleFuncName name info.sigHash ++
        (if isMethod params then methodSuffix returnType else []))
  | _ => none

/-- The name that `c_emit_func_prototype` writes, none for `main` and for
other nodes. Only `NODE_IMPL_BLOCK` emission marks impl methods, and those
get no prototype here. -/
def cFuncPrototypeName : AstNode → Option Bytes
  | .funcDecl name _ params returnType _ _ _ info =>
    if name = bytes "main" then none
    else
      some ((if info.isSys then bytes "__aether_sys_" else []) ++ mangleFuncName name info.sigHash ++
        (if isMethod params then methodSuffix returnType else []))
  | _ => none

end Aether.CTranspiler
