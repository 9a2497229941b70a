/-
Aether.Codegen.Functions — functions on words in the NASM generator.

`computeFrame`, `cgExpr`, `cgStmt` and `cgFunc` of `src/codegen.c`, line by
line, for the targets that are not hosts. The code of a function is `none`
where it is not followed: strings, arrays, fields, floats and pointers,
`for`, `match`, `try` and `defer`, contracts, two variables of one name, a
variable without a slot, and more than six arguments.

The machine has one memory for slots, saved registers and pushed words. An
address is an integer, and all of them here are a multiple of eight from
`rbp`; the stack has no end. `callFunc` is what a call means.
-/
import Aether.Lib.CallCode
import Aether.Codegen.Layout
import Aether.Codegen.RangeLoops

namespace Aether.Codegen.Functions

open Aether.Lib Layout
open RangeLoops (Word setIf loadSized)

/-! ## §1 Frames -/

/-- `VarSlot`; `node` is known by its name. -/
structure VarSlot where
  name : Bytes
  stackOffset : Int
  size : Nat
  actualSize : Nat
  prim : PrimType
  deriving DecidableEq, Repr

/-- The list of slots, the last collected first, and the bytes they take. -/
structure FrameState where
  slots : List VarSlot := []
  offset : Nat := 0
  deriving DecidableEq, Repr

/-- `(n + 7) & ~7`. -/
def alignTo8 (n : Nat) : Nat := (n + 7) / 8 * 8

def FrameState.add (f : FrameState) (name : Bytes) (size actualSize : Nat) (prim : PrimType) :
    FrameState where
  slots := ⟨name, -((f.offset + size : Nat) : Int), size, actualSize, prim⟩ :: f.slots
  offset := f.offset + size

def primFromType : Option AstNode → PrimType
  | some (.typePrimitive prim) => prim
  | _ => .void

/-- The slot of a loop variable. -/
def FrameState.addLoopVar (f : FrameState) : Option Bytes → FrameState
  | none => f
  | some name => f.add name 8 8 .u64

mutual

def frameCollect (reg : Registry) : AstNode → FrameState → FrameState
  | .block stmts, f => frameCollectItems reg stmts f
  | .letNode name type value _ _, f =>
    let rawSize := typeSizeOpt reg type
    frameCollectOpt reg value (f.add name (alignTo8 rawSize) rawSize (primFromType type))
  | .ifNode condition thenBlock elifChain elseBlock, f =>
    frameCollectOpt reg elseBlock (frameCollectOpt reg elifChain
      (frameCollectOpt reg thenBlock (frameCollectOpt reg condition f)))
  | .ifLet _ condition thenBlock, f =>
    frameCollectOpt reg thenBlock (frameCollectOpt reg condition f)
  | .whileNode condition body, f =>
    frameCollectOpt reg body (frameCollectOpt reg condition f)
  | .forNode var indexVar iterable body, f =>
    frameCollectOpt reg body (frameCollectOpt reg iterable ((f.addLoopVar var).addLoopVar indexVar))
  | .tryNode body catchArms _, f =>
    frameCollectArms reg catchArms (frameCollectOpt reg body f)
  | _, f => f

def frameCollectOpt (reg : Registry) : Option AstNode → FrameState → FrameState
  | none, f => f
  | some node, f => frameCollect reg node f

def frameCollectItems (reg : Registry) : List AstNode → FrameState → FrameState
  | [], f => f
  | node :: nodes, f => frameCollectItems reg nodes (frameCollect reg node f)

/-- Only the bodies of catch arms; their variables are no declarations. -/
def frameCollectArms (reg : Registry) : List AstNode → FrameState → FrameState
  | [], f => f
  | .catchArm _ _ body _ :: arms, f => frameCollectArms reg arms (frameCollectOpt reg body f)
  | _ :: arms, f => frameCollectArms reg arms f

end

def paramName : AstNode → Bytes
  | .param name .. => name
  | _ => []

def paramType : AstNode → Option AstNode
  | .param _ type .. => type
  | _ => none

def frameParams (reg : Registry) : List AstNode → FrameState → FrameState
  | [], f => f
  | param :: params, f =>
    let psize := alignTo8 (typeSizeOpt reg (paramType param))
    frameParams reg params (f.add (paramName param) psize psize (primFromType (paramType param)))

/-- `compute_frame`: the slots, and the bytes of the frame. -/
def computeFrame (reg : Registry) (params : List AstNode) (body : Option AstNode) :
    List VarSlot × Nat :=
  let f := frameCollectOpt reg body (frameParams reg params {})
  (f.slots, (f.offset + 15) / 16 * 16)

/-- The slot that `find_var_offset` and `find_var_size` read. -/
def findSlot (slots : List VarSlot) (name : Bytes) : Option VarSlot :=
  slots.find? fun slot => slot.name == name

/-! ## §2 Instructions -/

inductive Reg where
  | rax | rcx | rdx | rdi | rsi | r8 | r9
  deriving DecidableEq, Repr

inductive Label where
  /-- `L_%x`. -/
  | num (n : Nat)
  /-- `L_and_false_%d`. -/
  | andFalse (n : Nat)
  /-- `L_or_true_%d`. -/
  | orTrue (n : Nat)
  /-- `L_or_else_has_%d`. -/
  | orElseHas (n : Nat)
  | func (name : Bytes)
  deriving DecidableEq, Repr

/-- One instruction on `rax` and `rcx`, or `cmp rax, rcx` with a `set`. -/
inductive Alu where
  | add | sub | and | or | xor
  /-- `shl rax, cl`. -/
  | shl
  /-- `shr rax, cl`. -/
  | shr
  | sete | setne | setl | setg | setle | setge
  deriving DecidableEq, Repr

inductive Instr where
  | label (l : Label)
  /-- `mov r, n`. -/
  | mov (r : Reg) (w : Word)
  /-- `mov r, q`. -/
  | copy (r q : Reg)
  /-- `cg_load_var`. -/
  | load (offset : Int) (size : Nat)
  /-- `cg_store_var`. -/
  | store (offset : Int) (size : Nat)
  /-- `mov [rbp+offset], r`. -/
  | spill (offset : Int) (r : Reg)
  /-- `mov qword [rbp+offset], 0`. -/
  | zero (offset : Int)
  | push (r : Reg)
  | pop (r : Reg)
  /-- `mov r, [rsp+n]`. -/
  | peek (r : Reg) (n : Nat)
  | alu (op : Alu)
  /-- `mul rcx`. -/
  | mul
  /-- `xor rdx, rdx` and `div rcx`, and `mov rax, rdx` for the remainder. -/
  | div (remainder : Bool)
  /-- `neg rax`. -/
  | neg
  /-- `not rax`. -/
  | not
  /-- `test r, r`. -/
  | test (r : Reg)
  /-- `setnz al` and `movzx rax, al`. -/
  | setnz
  /-- `sete al` and `movzx rax, al`. -/
  | setz
  /-- `dec r8`. -/
  | dec
  | jz (l : Label)
  | jnz (l : Label)
  | jmp (l : Label)
  /-- `add rsp, n`. -/
  | drop (n : Nat)
  /-- `sub rsp, n`. -/
  | reserve (n : Nat)
  /-- `push rbp`. -/
  | pushBase
  /-- `mov rbp, rsp`. -/
  | enter
  /-- `mov rsp, rbp`. -/
  | leave
  /-- `pop rbp`. -/
  | popBase
  | call (l : Label)
  | ret
  deriving DecidableEq, Repr

def Instr.labelOf : Instr → Option Label
  | .label l => some l
  | _ => none

/-! ## §3 Emission -/

def isNamedType : Option AstNode → Bool
  | some (.typeNamed _) => true
  | _ => false

def isStringType (type : Option AstNode) : Bool := primFromType type == .string

def isVarargs : AstNode → Bool
  | .param _ _ _ isVarargs _ => isVarargs
  | _ => false

/-- The function that a call by this name is resolved to. -/
def findFunc (decls : List AstNode) (name : Bytes) : Option AstNode :=
  decls.find? fun
    | .funcDecl name' .. => name' == name
    | _ => false

/-- How many arguments a call of this function takes, where it is followed. -/
def arity (decls : List AstNode) (name : Bytes) : Option Nat :=
  match findFunc decls name with
  | some (.funcDecl _ _ params returnType _ _ _ info) =>
    if info.isSys || params.any isVarargs || isStringType returnType || 6 < params.length then none
    else some params.length
  | _ => none

/-- What is loaded for a constant: its literal, or 0. -/
def constantWord : Option AstNode → Word
  | some (.literalInt n _) => n.toBitVec
  | _ => 0

/-- The value of the constant of this name. -/
def findConst : List AstNode → Bytes → Option Word
  | [], _ => none
  | .constDecl name' value :: decls, name =>
    if name' = name then some (constantWord value) else findConst decls name
  | _ :: decls, name => findConst decls name

/-- `push` and `call` order of the argument registers. -/
def argRegs : List Reg := [.rdi, .rsi, .rdx, .rcx, .r8, .r9]

def isCompound : BinOp → Bool
  | .addAssign | .subAssign | .mulAssign | .divAssign => true
  | _ => false

abbrev Code := List Instr × Nat

/-- The instructions after `rax` and `rcx` hold the operands, and the label
counter. -/
def cgBinary (k : Nat) : BinOp → Option Code
  | .sub | .subAssign => some ([.alu .sub], k)
  | .mul | .mulAssign => some ([.mul], k)
  | .div | .divAssign => some ([.div false], k)
  | .mod => some ([.div true], k)
  | .eq => some ([.alu .sete], k)
  | .neq => some ([.alu .setne], k)
  | .lt => some ([.alu .setl], k)
  | .gt => some ([.alu .setg], k)
  | .le => some ([.alu .setle], k)
  | .ge => some ([.alu .setge], k)
  | .bitAnd => some ([.alu .and], k)
  | .bitOr => some ([.alu .or], k)
  | .bitXor => some ([.alu .xor], k)
  | .shl => some ([.alu .shl], k)
  | .shr => some ([.alu .shr], k)
  | .power =>
    let powStart := k
    let powDone := k + 1
    some ([.push .rcx, .push .rax, .peek .rcx 0, .mov .rax 1, .peek .r8 8, .test .r8,
      .jz (.num powDone), .label (.num powStart), .mul, .dec, .jnz (.num powStart),
      .label (.num powDone), .drop 16], k + 2)
  | .and =>
    some ([.test .rax, .jz (.andFalse k), .test .rcx, .setnz, .label (.andFalse k)], k + 1)
  | .or =>
    some ([.test .rax, .jnz (.orTrue k), .test .rcx, .setnz, .label (.orTrue k), .test .rax,
      .setnz], k + 1)
  | .orElse =>
    some ([.test .rax, .jnz (.orElseHas k), .copy .rax .rcx, .label (.orElseHas k)], k + 1)
  | .range => some ([.copy .rax .rcx], k)
  | .concat | .assign => none
  -- `+`, `+=` and every operator without a case
  | _ => some ([.alu .add], k)

def cgUnary : UnaryOp → Option (List Instr)
  | .neg => some [.neg]
  | .not => some [.test .rax, .setz]
  | .bitNot => some [.not]
  | _ => none

section

variable (decls : List AstNode) (slots : List VarSlot)

/-- The store of an assignment, `mov qword [rbp+offset], rax`. -/
def storeTo : AstNode → Option (List Instr)
  | .ident name => (findSlot slots name).map fun slot => [.store slot.stackOffset 8]
  | _ => none

/-- `store_assign`, where the operator is compound. -/
def storeBack (op : BinOp) (left : AstNode) : Option (List Instr) :=
  if isCompound op then storeTo slots left else some []

/-- The arguments from the stack into the registers. -/
def popArgs (argc : Nat) : List Instr := (argRegs.take argc).map .pop

mutual

def cgExpr : AstNode → Nat → Option Code
  | .literalInt n _, k => some ([.mov .rax n.toBitVec], k)
  | .literalBool b, k => some ([.mov .rax (setIf b)], k)
  | .literalChar c, k => some ([.mov .rax (c.toBitVec.setWidth 64)], k)
  | .literalNone, k => some ([.mov .rax 0], k)
  | .ident name, k =>
    match findConst decls name with
    | some w => some ([.mov .rax w], k)
    | none => (findSlot slots name).map fun slot => ([.load slot.stackOffset slot.actualSize], k)
  | .binaryOp op (some left) (some right) _, k => do
    let r ← cgExpr right k
    if op = .assign then
      let store ← storeTo slots left
      return (r.1 ++ [.push .rax, .pop .rax] ++ store, r.2)
    else
      let l ← cgExpr left r.2
      let o ← cgBinary l.2 op
      let store ← storeBack slots op left
      return (r.1 ++ [.push .rax] ++ l.1 ++ [.pop .rcx] ++ o.1 ++ store, o.2)
  | .unaryOp op (some operand), k => do
    let e ← cgExpr operand k
    let o ← cgUnary op
    return (e.1 ++ o, e.2)
  | .call (some (.ident name)) args, k => do
    let argc ← arity decls name
    if args.length = argc then
      let a ← cgArgs args k
      return (a.1 ++ popArgs argc ++ [.call (.func name)], a.2)
    else none
  | _, _ => none

/-- The arguments, the last one first. -/
def cgArgs : List AstNode → Nat → Option Code
  | [], k => some ([], k)
  | arg :: args, k => do
    let a ← cgArgs args k
    let e ← cgExpr arg a.2
    return (a.1 ++ e.1 ++ [.push .rax], e.2)

end

def epilogue : List Instr := [.leave, .popBase, .ret]

mutual

def cgStmt : AstNode → Nat → Option Code
  | .returnNode (some value), k => do
    let e ← cgExpr decls slots value k
    return (e.1 ++ [.push .rax, .pop .rax] ++ epilogue, e.2)
  | .letNode name type value _ _, k => do
    let slot ← findSlot slots name
    if isNamedType type then none
    else
      match value with
      | none => return ([.zero slot.stackOffset], k)
      | some value =>
        let e ← cgExpr decls slots value k
        return (e.1 ++ [.store slot.stackOffset slot.actualSize], e.2)
  | .exprStmt (some expr), k => cgExpr decls slots expr k
  | .block stmts, k => cgStmts stmts k
  | .ifNode (some condition) thenBlock elifChain elseBlock, k =>
    let elseLabel := Label.num k
    let endLabel := Label.num (k + 1)
    if elifChain.isSome && elseBlock.isSome then none
    else do
      let c ← cgExpr decls slots condition (k + 2)
      let t ← cgStmtOpt thenBlock c.2
      let elif ← cgStmtOpt elifChain t.2
      let e ← cgStmtOpt elseBlock elif.2
      return (c.1 ++ [.test .rax, .jz elseLabel] ++ t.1 ++ [.jmp endLabel, .label elseLabel] ++
        elif.1 ++ e.1 ++ [.label endLabel], e.2)
  | .whileNode (some condition) body, k => do
    let startLabel := Label.num k
    let endLabel := Label.num (k + 1)
    let c ← cgExpr decls slots condition (k + 2)
    let b ← cgStmtOpt body c.2
    return ([.label startLabel] ++ c.1 ++ [.test .rax, .jz endLabel] ++ b.1 ++
      [.jmp startLabel, .label endLabel], b.2)
  | .unsafeNode body, k => cgStmts body k
  | .runBlock _, k => some ([], k)
  | _, _ => none

def cgStmtOpt : Option AstNode → Nat → Option Code
  | none, k => some ([], k)
  | some stmt, k => cgStmt stmt k

def cgStmts : List AstNode → Nat → Option Code
  | [], k => some ([], k)
  | stmt :: stmts, k => do
    let s ← cgStmt stmt k
    let r ← cgStmts stmts s.2
    return (s.1 ++ r.1, r.2)

end

end

def isReturn : AstNode → Bool
  | .returnNode _ => true
  | _ => false

/-- `body_has_return`: the body is a return, or ends with one. -/
def bodyHasReturn : AstNode → Bool
  | .returnNode _ => true
  | .block stmts => stmts.getLast?.any isReturn
  | _ => false

/-- The registers of the parameters into their slots. -/
def spillParams (slots : List VarSlot) : List AstNode → List Reg → Option (List Instr)
  | param :: params, r :: regs => do
    let slot ← findSlot slots (paramName param)
    let rest ← spillParams slots params regs
    return .spill slot.stackOffset r :: rest
  | _, _ => some []

/-- A variable that is followed: of some size, no string, and no constant. -/
def isPlain (decls : List AstNode) (slot : VarSlot) : Bool :=
  0 < slot.size && slot.prim != .string && (findConst decls slot.name).isNone

/-- Each variable is plain, and has its name for itself. -/
def plainSlots (decls : List AstNode) (slots : List VarSlot) : Bool :=
  slots.all (isPlain decls) && decide (slots.map VarSlot.name).Nodup

def cgFunc (reg : Registry) (decls : List AstNode) : AstNode → Nat → Option Code
  | .funcDecl name _ params (some returnType) [] [] (some body) info, k => do
    let frame := computeFrame reg params (some body)
    if info.hasLayout || info.isThrows || isStringType (some returnType) || 6 < params.length ||
        !plainSlots decls frame.1 then none
    else
      let spills ← spillParams frame.1 params argRegs
      let b ← cgStmt decls frame.1 body k
      return ([.label (.func name), .pushBase, .enter] ++
        (if 0 < frame.2 then [.reserve frame.2] else []) ++ spills ++ b.1 ++
        (if bodyHasReturn body then [] else [.mov .rax 0]) ++ epilogue, b.2)
  | _, _ => none

def hasBody : AstNode → Bool
  | .funcDecl _ _ _ _ _ _ (some _) _ => true
  | _ => false

/-- The functions of the program, in its order, from one label counter. -/
def cgFuncs (reg : Registry) (decls : List AstNode) : List AstNode → Nat → Option Code
  | [], k => some ([], k)
  | decl :: rest, k =>
    if hasBody decl then do
      let f ← cgFunc reg decls decl k
      let r ← cgFuncs reg decls rest f.2
      return (f.1 ++ r.1, r.2)
    else cgFuncs reg decls rest k

def funcName : AstNode → Option Bytes
  | .funcDecl name .. => some name
  | _ => none

/-- The code of the functions, which have each its name for itself. -/
def cgProgram (decls : List AstNode) : Option Code :=
  if (decls.filterMap funcName).Nodup then cgFuncs (buildLayouts decls) decls decls 0 else none

/-! ## §4 Execution -/

/-- A cell of eight bytes: a word, a saved `rbp`, or a place to return to. -/
inductive Cell where
  | word (w : Word)
  | base (address : Int)
  | place (pc : Nat)
  deriving DecidableEq, Repr

def Cell.bits : Cell → Word
  | .word w => w
  | .base address => BitVec.ofInt 64 address
  | .place pc => BitVec.ofNat 64 pc

structure State where
  regs : Reg → Word
  rsp : Int
  rbp : Int
  zero : Bool
  mem : Int → Cell

def State.set (s : State) (r : Reg) (w : Word) : State :=
  { s with regs := fun q => if q = r then w else s.regs q }

def State.write (s : State) (address : Int) (cell : Cell) : State :=
  { s with mem := fun a => if a = address then cell else s.mem a }

def State.pushed (s : State) (cell : Cell) : State :=
  { s.write (s.rsp - 8) cell with rsp := s.rsp - 8 }

/-- The low bytes of a word over those of another. -/
def overLow (size : Nat) (old new : Word) : Word :=
  match size with
  | 1 => (old >>> 8 <<< 8) ||| (new.setWidth 8).setWidth 64
  | 2 => (old >>> 16 <<< 16) ||| (new.setWidth 16).setWidth 64
  | 4 => (old >>> 32 <<< 32) ||| (new.setWidth 32).setWidth 64
  | _ => new

def Alu.run (a b : Word) : Alu → Word
  | .add => a + b
  | .sub => a - b
  | .and => a &&& b
  | .or => a ||| b
  | .xor => a ^^^ b
  | .shl => a <<< (b.toNat % 64)
  | .shr => a >>> (b.toNat % 64)
  | .sete => setIf (a == b)
  | .setne => setIf (a != b)
  | .setl => setIf (a.slt b)
  | .setg => setIf (b.slt a)
  | .setle => setIf (a.sle b)
  | .setge => setIf (b.sle a)

/-- The upper half of a product. -/
def mulHigh (a b : Word) : Word := BitVec.ofNat 64 (a.toNat * b.toNat / 18446744073709551616)

def Instr.exec (pc : Nat) (s : State) : Instr → Option (Move Label State)
  | .label _ => some (.next s)
  | .mov r w => some (.next (s.set r w))
  | .copy r q => some (.next (s.set r (s.regs q)))
  | .load offset size =>
    some (.next (s.set .rax (loadSized size (s.mem (s.rbp + offset)).bits)))
  | .store offset size =>
    some (.next (s.write (s.rbp + offset)
      (.word (overLow size (s.mem (s.rbp + offset)).bits (s.regs .rax)))))
  | .spill offset r => some (.next (s.write (s.rbp + offset) (.word (s.regs r))))
  | .zero offset => some (.next (s.write (s.rbp + offset) (.word 0)))
  | .push r => some (.next (s.pushed (.word (s.regs r))))
  | .pop r => some (.next { s.set r (s.mem s.rsp).bits with rsp := s.rsp + 8 })
  | .peek r n => some (.next (s.set r (s.mem (s.rsp + n)).bits))
  | .alu op => some (.next (s.set .rax (op.run (s.regs .rax) (s.regs .rcx))))
  | .mul =>
    some (.next ((s.set .rdx (mulHigh (s.regs .rax) (s.regs .rcx))).set .rax
      (s.regs .rax * s.regs .rcx)))
  | .div remainder =>
    if s.regs .rcx = 0 then none
    else
      let quotient := s.regs .rax / s.regs .rcx
      let rest := s.regs .rax % s.regs .rcx
      some (.next ((s.set .rdx rest).set .rax (if remainder then rest else quotient)))
  | .neg => some (.next (s.set .rax (0 - s.regs .rax)))
  | .not => some (.next (s.set .rax (~~~ s.regs .rax)))
  | .test r => some (.next { s with zero := s.regs r == 0 })
  | .setnz => some (.next (s.set .rax (setIf (!s.zero))))
  | .setz => some (.next (s.set .rax (setIf s.zero)))
  | .dec => some (.next { s.set .r8 (s.regs .r8 - 1) with zero := s.regs .r8 - 1 == 0 })
  | .jz l => some (if s.zero then .goto l s else .next s)
  | .jnz l => some (if s.zero then .next s else .goto l s)
  | .jmp l => some (.goto l s)
  | .drop n => some (.next { s with rsp := s.rsp + n })
  | .reserve n => some (.next { s with rsp := s.rsp - n })
  | .pushBase => some (.next (s.pushed (.base s.rbp)))
  | .enter => some (.next { s with rbp := s.rsp })
  | .leave => some (.next { s with rsp := s.rbp })
  | .popBase =>
    match s.mem s.rsp with
    | .base address => some (.next { s with rbp := address, rsp := s.rsp + 8 })
    | _ => none
  | .call l => some (.goto l (s.pushed (.place (pc + 1))))
  | .ret =>
    match s.mem s.rsp with
    | .place pc' => some (.place pc' { s with rsp := s.rsp + 8 })
    | _ => none

def machine (items : List Instr) : CallCode Instr Label State where
  items := items
  labelOf := Instr.labelOf
  exec := fun pc item s => item.exec pc s

/-! ## §5 Meaning -/

/-- Why a program gives no value: its fuel is gone, it divides by zero, or it
does what has no meaning here. -/
inductive Stop where
  | outOfFuel
  | divideError
  | stuck
  deriving DecidableEq, Repr

abbrev Run := Except Stop

abbrev Env := Bytes → Option Word

def Env.set (env : Env) (name : Bytes) (w : Word) : Env :=
  fun name' => if name' = name then some w else env name'

def power (base : Word) : Nat → Word
  | 0 => 1
  | n + 1 => power base n * base

/-- What an operator makes of its operands. Numbers are unsigned for `/` and
`%` and signed for an ordering. -/
def binary (op : BinOp) (a b : Word) : Run Word :=
  match op with
  | .sub | .subAssign => .ok (a - b)
  | .mul | .mulAssign => .ok (a * b)
  | .div | .divAssign => if b = 0 then .error .divideError else .ok (a / b)
  | .mod => if b = 0 then .error .divideError else .ok (a % b)
  | .eq => .ok (setIf (a == b))
  | .neq => .ok (setIf (a != b))
  | .lt => .ok (setIf (a.slt b))
  | .gt => .ok (setIf (b.slt a))
  | .le => .ok (setIf (a.sle b))
  | .ge => .ok (setIf (b.sle a))
  | .bitAnd => .ok (a &&& b)
  | .bitOr => .ok (a ||| b)
  | .bitXor => .ok (a ^^^ b)
  | .shl => .ok (a <<< (b.toNat % 64))
  | .shr => .ok (a >>> (b.toNat % 64))
  | .power => .ok (power a b.toNat)
  | .and => .ok (setIf (a != 0 && b != 0))
  | .or => .ok (setIf (a != 0 || b != 0))
  | .orElse => .ok (if a = 0 then b else a)
  | .range => .ok b
  | .concat | .assign => .error .stuck
  | _ => .ok (a + b)

def unary (op : UnaryOp) (a : Word) : Run Word :=
  match op with
  | .neg => .ok (0 - a)
  | .not => .ok (setIf (a == 0))
  | .bitNot => .ok (~~~ a)
  | _ => .error .stuck

/-- What is read of a variable: its low bytes. -/
def readVar (slots : List VarSlot) (env : Env) (name : Bytes) : Run Word :=
  match findSlot slots name, env name with
  | some slot, some w => .ok (loadSized slot.actualSize w)
  | _, _ => .error .stuck

def assign (env : Env) (left : AstNode) (w : Word) : Run Env :=
  match left with
  | .ident name => .ok (env.set name w)
  | _ => .error .stuck

/-- The variables of a call. -/
def bindParams (env : Env) : List AstNode → List Word → Env
  | param :: params, w :: ws => bindParams (env.set (paramName param) w) params ws
  | _, _ => env

section

variable (reg : Registry) (decls : List AstNode)

mutual

/-- The value of an expression and the variables after it. The right operand
comes first, and both operands of `and` and `or` are evaluated. -/
def evalExpr : Nat → List VarSlot → Env → AstNode → Run (Word × Env)
  | 0, _, _, _ => .error .outOfFuel
  | n + 1, slots, env, node =>
    match node with
    | .literalInt v _ => .ok (v.toBitVec, env)
    | .literalBool b => .ok (setIf b, env)
    | .literalChar c => .ok (c.toBitVec.setWidth 64, env)
    | .literalNone => .ok (0, env)
    | .ident name =>
      match findConst decls name with
      | some w => .ok (w, env)
      | none => do
        let w ← readVar slots env name
        return (w, env)
    | .binaryOp op (some left) (some right) _ => do
      let r ← evalExpr n slots env right
      if op = .assign then
        let env ← assign r.2 left r.1
        return (r.1, env)
      else
        let l ← evalExpr n slots r.2 left
        let w ← binary op l.1 r.1
        if isCompound op then
          let env ← assign l.2 left w
          return (w, env)
        else return (w, l.2)
    | .unaryOp op (some operand) => do
      let e ← evalExpr n slots env operand
      let w ← unary op e.1
      return (w, e.2)
    | .call (some (.ident name)) args => do
      let a ← evalArgs n slots env args
      let w ← callFunc n name a.1
      return (w, a.2)
    | _ => .error .stuck

/-- The values of the arguments; the last one is evaluated first. -/
def evalArgs : Nat → List VarSlot → Env → List AstNode → Run (List Word × Env)
  | 0, _, _, _ => .error .outOfFuel
  | n + 1, slots, env, args =>
    match args with
    | [] => .ok ([], env)
    | arg :: args => do
      let a ← evalArgs n slots env args
      let e ← evalExpr n slots a.2 arg
      return (e.1 :: a.1, e.2)

/-- The variables after a statement, and the value if it returns. -/
def execStmt : Nat → List VarSlot → Env → AstNode → Run (Env × Option Word)
  | 0, _, _, _ => .error .outOfFuel
  | n + 1, slots, env, node =>
    match node with
    | .returnNode (some value) => do
      let e ← evalExpr n slots env value
      return (e.2, some e.1)
    | .letNode name _ none _ _ => .ok (env.set name 0, none)
    | .letNode name _ (some value) _ _ => do
      let e ← evalExpr n slots env value
      return (e.2.set name e.1, none)
    | .exprStmt (some expr) => do
      let e ← evalExpr n slots env expr
      return (e.2, none)
    | .block stmts => execStmts n slots env stmts
    | .ifNode (some condition) thenBlock elifChain elseBlock =>
      if elifChain.isSome && elseBlock.isSome then .error .stuck
      else do
        let c ← evalExpr n slots env condition
        if c.1 = 0 then execStmtOpt n slots c.2 (elifChain.or elseBlock)
        else execStmtOpt n slots c.2 thenBlock
    | .whileNode (some condition) body => do
      let c ← evalExpr n slots env condition
      if c.1 = 0 then return (c.2, none)
      else
        let r ← execStmtOpt n slots c.2 body
        if r.2.isSome then return r
        else execStmt n slots r.1 (.whileNode (some condition) body)
    | .unsafeNode stmts => execStmts n slots env stmts
    | .runBlock _ => .ok (env, none)
    | _ => .error .stuck

def execStmtOpt : Nat → List VarSlot → Env → Option AstNode → Run (Env × Option Word)
  | 0, _, _, _ => .error .outOfFuel
  | _ + 1, _, env, none => .ok (env, none)
  | n + 1, slots, env, some stmt => execStmt n slots env stmt

def execStmts : Nat → List VarSlot → Env → List AstNode → Run (Env × Option Word)
  | 0, _, _, _ => .error .outOfFuel
  | n + 1, slots, env, stmts =>
    match stmts with
    | [] => .ok (env, none)
    | stmt :: stmts => do
      let r ← execStmt n slots env stmt
      if r.2.isSome then return r
      else execStmts n slots r.1 stmts

/-- A call: the value that is returned, or 0 at the end of the body. -/
def callFunc : Nat → Bytes → List Word → Run Word
  | 0, _, _ => .error .outOfFuel
  | n + 1, name, ws =>
    match findFunc decls name with
    | some (.funcDecl _ _ params _ _ _ (some body) _) => do
      let slots := (computeFrame reg params (some body)).1
      let r ← execStmt n slots (bindParams (fun _ => none) params ws) body
      return r.2.getD 0
    | _ => .error .stuck

end

end

end Aether.Codegen.Functions
