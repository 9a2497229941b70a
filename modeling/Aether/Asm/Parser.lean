/-
Aether.Asm.Parser — `src/asm_parser.c`, the parser of NASM text.

A position is the text from there to the end, which has no NUL: it is what
`strlen` measures. Lines and columns are counted but nothing reads them, so
they are left out. A function that fills a record through a pointer returns
the record; a record that C leaves uninitialised is a parameter, `stale`.
-/
import Aether.Asm.Ir
import Aether.Tokenizer

namespace Aether.Asm

/-! ## §1 Tokens -/

inductive AsmTokenType where
  | eof | ident | register | number | string | comma | colon | lbracket | rbracket | plus | minus
  | star | dollar | percent | newline | sizeSpec | directive | prefixWord | error
  deriving DecidableEq, Repr

/-- The text runs from the start of the token to the end of the source. -/
structure AsmToken where
  type : AsmTokenType
  start : Bytes := []
  len : Nat := 0
  intValue : Int64 := 0
  deriving DecidableEq

def AsmToken.text (tok : AsmToken) : Bytes := tok.start.take tok.len

/-- `ASM_MAX_LABEL_LEN`, with the NUL. -/
def ASM_MAX_LABEL_LEN : Nat := 48

/-- `tok_copy` into a field for a name. -/
def tokCopy (tok : AsmToken) : Bytes := tok.text.take (ASM_MAX_LABEL_LEN - 1)

/-- The registers that have an x86-64 name, in the order of the table. -/
def asmRegisters : List AsmRegister :=
  [.rax, .rbx, .rcx, .rdx, .rsi, .rdi, .rbp, .rsp, .r8, .r9, .r10, .r11, .r12, .r13, .r14, .r15,
    .eax, .ebx, .ecx, .edx, .esi, .edi, .ebp, .esp, .r8d, .r9d, .r10d, .r11d, .r12d, .r13d,
    .r14d, .r15d, .ax, .bx, .cx, .dx, .si, .di, .bp, .sp, .r8w, .r9w, .r10w, .r11w, .r12w, .r13w,
    .r14w, .r15w, .al, .bl, .cl, .dl, .ah, .bh, .ch, .dh, .sil, .dil, .bpl, .spl, .r8b, .r9b,
    .r10b, .r11b, .r12b, .r13b, .r14b, .r15b, .xmm0, .xmm1, .xmm2, .xmm3, .xmm4, .xmm5, .xmm6,
    .xmm7, .xmm8, .xmm9, .xmm10, .xmm11, .xmm12, .xmm13, .xmm14, .xmm15, .cs, .ds, .es, .fs, .gs,
    .ss]

def asmRegFromName (name : Bytes) : AsmRegister :=
  (asmRegisters.find? fun reg => (asmRegName reg .x86_64).map bytes == some name).getD .count

/-- `reg_from_tok` -/
def regFromTok (tok : AsmToken) : AsmRegister := asmRegFromName (tok.text.take 15)

def asmIsRegister (word : Bytes) : Bool :=
  2 ≤ word.length && word.length ≤ 4 && asmRegFromName word != .count

def asmSizeSpecs : List Bytes := ["byte", "word", "dword", "qword", "oword", "tword"].map bytes

def asmDirectives : List Bytes :=
  ["section", "global", "extern", "align", "org", "bits", "times", "db", "dw", "dd", "dq", "resb",
    "resw", "resd", "resq", "incbin", "equ", "struc", "endstruc", "istruc", "at", "iend", "macro",
    "endmacro", "imacro", "endimacro"].map bytes

def asmPrefixes : List Bytes := ["lock", "rep", "repe", "repne"].map bytes

def wordType (word : Bytes) : AsmTokenType :=
  if asmIsRegister word then .register
  else if asmSizeSpecs.contains word then .sizeSpec
  else if asmDirectives.contains word then .directive
  else if asmPrefixes.contains word then .prefixWord
  else .ident

/-! ## §2 The lexer -/

def isBlank (c : UInt8) : Bool := c == ch ' ' || c == ch '\t'

def isBinDigit (c : UInt8) : Bool := c == ch '0' || c == ch '1'

def isWordChar (c : UInt8) : Bool := isAlpha c || isDigit c || c == ch '_' || c == ch '.'

/-- The accumulating loops of the numbers. -/
def accumulate (base : Int64) (digits : Bytes) : Int64 :=
  digits.foldl (fun v c => v * base + Int64.ofNat (digitValue c)) 0

/-- A number whose digits start at `start` and run as `accept` says. -/
def lexDigits (base : Int64) (accept : UInt8 → Bool) (start : Bytes) : AsmToken × Bytes :=
  let digits := start.takeWhile accept
  ({ type := .number, start, len := digits.length, intValue := accumulate base digits },
    start.dropWhile accept)

/-- A zero alone is a number of one digit, whatever follows. -/
def lexZero (text : Bytes) : Bytes → AsmToken × Bytes
  | c :: cs =>
    if c = ch 'x' ∨ c = ch 'X' then lexDigits 16 isHexChar cs
    else if c = ch 'b' ∨ c = ch 'B' then lexDigits 2 isBinDigit cs
    else ({ type := .number, start := text, len := 1 }, c :: cs)
  | [] => ({ type := .number, start := text, len := 1 }, [])

/-- The loop of a string: its length, which counts an escape as one, and the
text behind its closing quote. -/
def stringLoop (quote : UInt8) : Bytes → Nat × Bytes
  | [] => (0, [])
  | c :: cs =>
    if c = quote then (0, cs)
    else if c = ch '\\' then
      match cs with
      | [] => (1, [])
      | _ :: cs' => ((stringLoop quote cs').1 + 1, (stringLoop quote cs').2)
    else ((stringLoop quote cs).1 + 1, (stringLoop quote cs).2)

/-- The characters that are tokens of their own. -/
def punctuation : List (UInt8 × AsmTokenType) :=
  [(ch ',', .comma), (ch ':', .colon), (ch '[', .lbracket), (ch ']', .rbracket), (ch '+', .plus),
    (ch '-', .minus), (ch '*', .star), (ch '$', .dollar), (ch '%', .percent)]

/-- A token at a character that is neither blank nor the start of a comment. -/
def lexAt (c : UInt8) (cs : Bytes) : AsmToken × Bytes :=
  if c = ch '\n' then ({ type := .newline, start := c :: cs, len := 1 }, cs)
  else if c = ch '"' ∨ c = ch '\'' then
    ({ type := .string, start := cs, len := (stringLoop c cs).1 }, (stringLoop c cs).2)
  else if isDigit c then
    if c = ch '0' then lexZero (c :: cs) cs else lexDigits 10 isDigit (c :: cs)
  else
    match punctuation.lookup c with
    | some type => ({ type, start := c :: cs, len := 1 }, cs)
    | none =>
      if isAlpha c || c == ch '_' || c == ch '.' then
        let word := (c :: cs).takeWhile isWordChar
        ({ type := wordType word, start := c :: cs, len := word.length },
          (c :: cs).dropWhile isWordChar)
      else ({ type := .error, start := c :: cs, len := 1 }, cs)

/-- `asm_lex_next`; behind a comment there is a line end or nothing. -/
def asmLexNext (source : Bytes) : AsmToken × Bytes :=
  let text := source.dropWhile isBlank
  let text := if text.head? = some (ch ';') then text.dropWhile (· != ch '\n') else text
  match text with
  | [] => ({ type := .eof }, [])
  | c :: cs => lexAt c cs

/-! ## §3 The parser -/

structure AsmParser where
  rest : Bytes
  errorMsg : Bytes := []
  hasError : Bool := false
  deriving DecidableEq

namespace AsmParser

def peek (p : AsmParser) : AsmToken := (asmLexNext p.rest).1

/-- `asm_parser_next`, without the token. -/
def next (p : AsmParser) : AsmParser := { p with rest := (asmLexNext p.rest).2 }

def error (p : AsmParser) (message : String) : AsmParser :=
  { p with errorMsg := bytes message, hasError := true }

/-- `asm_parser_match` -/
def accept (p : AsmParser) (type : AsmTokenType) : Bool × AsmParser :=
  if p.peek.type = type then (true, p.next) else (false, p)

/-- `asm_parser_expect`; the token is taken in either case. -/
def expect (p : AsmParser) (type : AsmTokenType) (message : String) : AsmParser :=
  if p.peek.type = type then p.next else p.next.error message

end AsmParser

def expectBracket (p : AsmParser) : AsmParser :=
  p.expect .rbracket "expected token in memory operand"

/-- The displacement behind an index. -/
def asmParseDisp (p : AsmParser) (mem : AsmMem) : AsmMem × AsmParser :=
  let tok := p.peek
  if tok.type = .plus ∨ tok.type = .minus then
    let s2 : Int64 := if tok.type = .minus then -1 else 1
    let number := p.next.peek
    (if number.type = .number then
        { mem with displacement := s2 * number.intValue, mode := .baseIndexDisp }
      else mem, p.next.next)
  else (mem, p)

/-- The scale behind an index. -/
def asmParseScale (p : AsmParser) (mem : AsmMem) : AsmMem × AsmParser :=
  if p.peek.type = .star then
    let tok := p.next.peek
    (if tok.type = .number then { mem with scale := tok.intValue.toInt32.toInt } else mem,
      p.next.next)
  else (mem, p)

/-- What follows the base register, up to the bracket. -/
def asmParseAfterBase (p : AsmParser) (mem : AsmMem) : AsmMem × AsmParser :=
  let tok := p.peek
  if tok.type = .plus ∨ tok.type = .minus then
    let sign : Int64 := if tok.type = .minus then -1 else 1
    let p := p.next
    let tok := p.peek
    if tok.type = .register then
      let (mem, p) := asmParseScale p.next { mem with index := regFromTok tok, mode := .baseIndex }
      asmParseDisp p mem
    else if tok.type = .number then
      ({ mem with displacement := sign * tok.intValue, mode := .baseDisp }, p.next)
    else (mem, p)
  else (mem, p)

/-- `asm_parse_mem` -/
def asmParseMem (p : AsmParser) : Bool × AsmMem × AsmParser :=
  let mem := asmMemInit
  match p.accept .lbracket with
  | (false, p) => (false, mem, p.error "expected '[' for memory operand")
  | (true, p) =>
    let tok := p.peek
    if tok.type = .ident ∧ tok.text = bytes "rel" then
      let tok := p.next.peek
      let p := p.next.next
      let mem :=
        if tok.type = .ident ∨ tok.type = .register then
          { mem with mode := .ripRel, label := tokCopy tok }
        else mem
      (true, mem, expectBracket p)
    else
      match tok.type with
      | .register =>
        let (mem, p) := asmParseAfterBase p.next { mem with base := regFromTok tok, mode := .base }
        (true, mem, expectBracket p)
      | .ident =>
        (true, { mem with mode := .direct, label := tokCopy tok }, expectBracket p.next)
      | .number =>
        (true, { mem with mode := .direct, displacement := tok.intValue }, expectBracket p.next)
      | _ => (false, mem, p.error "expected register or label in memory operand")

/-- `strncpy` of `asm_op_expr` and `asm_op_label`. -/
def labelField (text : Bytes) : Bytes := text.take (ASM_MAX_LABEL_LEN - 1)

/-- `asm_parse_operand`: the operand is the record `op` where nothing sets
it. A string is copied from its start on, without its length. -/
def asmParseOperand (p : AsmParser) (op : AsmOperand) : Bool × AsmOperand × AsmParser :=
  let tok := p.peek
  match tok.type with
  | .sizeSpec =>
    let (ok, mem, p) := asmParseMem p.next
    (ok, { op with mem }, p)
  | .register => (true, asmOpReg (regFromTok tok), p.next)
  | .lbracket =>
    match asmParseMem p with
    | (true, mem, p) => (true, asmOpMem mem, p)
    | (false, _, p) => (false, op, p)
  | .number => (true, asmOpImm tok.intValue, p.next)
  | .string => (true, asmOpExpr (labelField tok.start), p.next)
  | .ident => (true, asmOpLabel (labelField (tokCopy tok)), p.next)
  | .dollar => (true, asmOpImm 0, p.next)
  | _ => (false, op, p.error "expected operand")

/-- `asm_parse_data_values`, with `room` places left. -/
def asmParseDataValues (stale : AsmOperand) : Nat → AsmParser → List AsmOperand × AsmParser
  | 0, p => ([], p)
  | room + 1, p =>
    match asmParseOperand p stale with
    | (false, _, p) => ([], p)
    | (true, op, p) =>
      match p.accept .comma with
      | (false, p) => ([op], p)
      | (true, p) =>
        let (ops, p) := asmParseDataValues stale room p
        (op :: ops, p)

/-- The prefixes in front of a mnemonic: whether one is `lock`, whether one
is another. -/
def asmParsePrefixes : Nat → AsmParser → Bool × Bool × AsmParser
  | 0, p => (false, false, p)
  | fuel + 1, p =>
    if p.peek.type = .prefixWord then
      let isLock := p.peek.text = bytes "lock"
      let (lock, rep, p) := asmParsePrefixes fuel p.next
      (isLock || lock, !isLock || rep, p)
    else (false, false, p)

def sizeSpecOf (word : Bytes) : AsmSizeSpec :=
  if word = bytes "byte" then .byte
  else if word = bytes "word" then .word
  else if word = bytes "dword" then .dword
  else if word = bytes "qword" then .qword
  else if word = bytes "oword" then .oword
  else if word = bytes "tword" then .tword
  else .none

/-- The operands behind the first; one record is used for all. -/
def asmParseOperands (op : AsmOperand) (instr : AsmInstruction) : Nat → AsmParser →
    Bool × AsmInstruction × AsmParser
  | 0, p => (true, instr, p)
  | fuel + 1, p =>
    match p.accept .comma with
    | (false, p) => (true, instr, p)
    | (true, p) =>
      match asmParseOperand p op with
      | (false, _, p) => (false, instr, p)
      | (true, op, p) => asmParseOperands op (asmInstrAddOperand instr op) fuel p

/-- `asm_parse_instruction`; each loop takes a token a turn. -/
def asmParseInstruction (stale : AsmOperand) (p : AsmParser) : Option AsmInstruction × AsmParser :=
  let fuel := p.rest.length
  let (lock, rep, p) := asmParsePrefixes fuel p
  let tok := p.peek
  if tok.type ≠ .ident then (none, p.error "expected instruction mnemonic")
  else
    let instr := { asmInstrInit tok.text with isLockPrefix := lock, isRepPrefix := rep }
    let p := p.next
    let tok := p.peek
    let (instr, p) :=
      if tok.type = .sizeSpec then ({ instr with sizeSpec := some (sizeSpecOf tok.text) }, p.next)
      else (instr, p)
    let type := p.peek.type
    if type ≠ .newline ∧ type ≠ .eof ∧ type ≠ .colon then
      match asmParseOperand p stale with
      | (false, _, p) => (none, p)
      | (true, op, p) =>
        match asmParseOperands op (asmInstrAddOperand instr op) fuel p with
        | (true, instr, p) => (some instr, p)
        | (false, _, p) => (none, p)
    else (some instr, p)

/-- The directives that take a name, a number or data. -/
inductive DirectiveArg where
  | sectionName | name | number | data | fileName | none

def directiveKind (word : Bytes) : AsmDirectiveType × DirectiveArg :=
  if word = bytes "section" then (.sectionDir, .sectionName)
  else if word = bytes "global" then (.global, .name)
  else if word = bytes "extern" then (.externDir, .name)
  else if word = bytes "align" then (.align, .number)
  else if word = bytes "org" then (.org, .number)
  else if word = bytes "bits" then (.bits, .number)
  else if word = bytes "times" then (.times, .number)
  else if word = bytes "db" then (.db, .data)
  else if word = bytes "dw" then (.dw, .data)
  else if word = bytes "dd" then (.dd, .data)
  else if word = bytes "dq" then (.dq, .data)
  else if word = bytes "resb" then (.resb, .number)
  else if word = bytes "resw" then (.resw, .number)
  else if word = bytes "resd" then (.resd, .number)
  else if word = bytes "resq" then (.resq, .number)
  else if word = bytes "incbin" then (.incbin, .fileName)
  else if word = bytes "equ" then (.equ, .number)
  else (.none, .none)

/-- `asm_parse_directive`. The token behind the word is taken without a look
at its kind, a line end as well. -/
def asmParseDirective (stale : AsmOperand) (p : AsmParser) : Option AsmDirective × AsmParser :=
  let tok := p.peek
  let p := p.next
  if tok.type ≠ .directive then (none, p.error "expected directive")
  else
    let (type, arg) := directiveKind tok.text
    let dir : AsmDirective := { type, name := tokCopy tok }
    let next := p.peek
    let named := { dir with name := tokCopy next }
    match arg with
    | .sectionName =>
      (some (if next.type = .ident ∨ next.type = .string then named else dir), p.next)
    | .name => (some (if next.type = .ident then named else dir), p.next)
    | .number =>
      (some (if next.type = .number then { dir with value := next.intValue } else dir), p.next)
    | .data =>
      let (ops, p) := asmParseDataValues stale ASM_MAX_OPERANDS p
      (some { dir with dataOperands := ops }, p)
    | .fileName => (some (if next.type = .string then named else dir), p.next)
    | .none => (some dir, p)

/-- `asm_parse_label` -/
def asmParseLabel (p : AsmParser) : Option (AsmLabel × AsmParser) :=
  let tok := p.peek
  if tok.type = .ident ∧ p.next.peek.type = .colon then
    some ({ name := tokCopy tok, isLocal := tok.start.head? = some (ch '.') }, p.next.next)
  else none

/-- The recovery loop: to the next line end. -/
def asmSkipLine : Nat → AsmParser → AsmParser
  | 0, p => p
  | fuel + 1, p =>
    if p.peek.type ≠ .newline ∧ p.peek.type ≠ .eof then asmSkipLine fuel p.next else p

/-- The loop of `asm_parse_block`. The test for a directive in brackets
looks at the bracket again, so it never holds and is not there. -/
def asmParseBlockLoop (stale : AsmOperand) : Nat → AsmParser → AsmIRBlock × AsmParser
  | 0, p => ([], p)
  | fuel + 1, p =>
    match p.peek.type with
    | .eof => ([], p)
    | .newline => asmParseBlockLoop stale fuel p.next
    | type =>
      match asmParseLabel p with
      | some (label, p) =>
        let (block, p) := asmParseBlockLoop stale fuel p
        (.label label :: block, p)
      | none =>
        match type with
        | .directive =>
          let (dir, p) := asmParseDirective stale p
          let (block, p) := asmParseBlockLoop stale fuel (asmSkipLine p.rest.length p)
          ((dir.map AsmElement.directive).toList ++ block, p)
        | .ident | .prefixWord | .lbracket =>
          let (instr, p) := asmParseInstruction stale p
          let (block, p) := asmParseBlockLoop stale fuel (asmSkipLine p.rest.length p)
          ((instr.map AsmElement.instruction).toList ++ block, p)
        | _ => asmParseBlockLoop stale fuel p.next

/-- `asm_parse_string`: the block, and whether there was an error. -/
def asmParseString (stale : AsmOperand) (source : Bytes) : AsmIRBlock × Bool :=
  let (block, p) := asmParseBlockLoop stale (source.length + 1) { rest := source }
  (block, p.hasError)

end Aether.Asm
