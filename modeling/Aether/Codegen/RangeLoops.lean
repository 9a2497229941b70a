/-
Aether.Codegen.RangeLoops — counted loops in the NASM generator.

`cgFor` is `NODE_FOR` of `cg_stmt` over a range. It keeps the counter in
`rcx`, which `cg_expr` uses for the right operand of every binary operation.
So the code of integers, identifiers, assignments and arithmetic is here
line by line, and that of any other node is one item: it leaves a word in
`rax`, may leave one in `rcx`, and changes the variables (`Frame.effect`).
It comes to its end; statements that return are not followed.
-/
import Aether.Lib.Listing
import Aether.CTranspiler.Range

namespace Aether.Codegen.RangeLoops

open Aether.Lib CTranspiler

abbrev Word := BitVec 64

/-! ## §1 Memory -/

/-- The slots by their offsets from `rbp`, and all that is elsewhere. -/
structure Mem where
  slots : Int → Word
  world : Nat

def Mem.store (m : Mem) (offset : Int) (w : Word) : Mem :=
  { m with slots := fun o => if o = offset then w else m.slots o }

/-- What the code of a node leaves in `rax`, in `rcx` if it writes `rcx`, and
in memory. -/
structure Effect where
  value : Word
  counter : Option Word
  mem : Mem

/-- What `cg_expr` reads for an identifier. -/
inductive Access where
  | const (w : Word)
  | slot (offset : Int) (size : Nat)

/-- What the function around the loop gives: its variables, which `+` and
`+=` join strings (`is_string_expr`), and the code of the other nodes. -/
structure Frame where
  ident : Bytes → Access
  /-- `find_var_offset_by_name`. -/
  offset : Bytes → Int
  joins : BinOp → AstNode → AstNode → Bool
  effect : Mem → AstNode → Effect

/-! ## §2 Items -/

inductive Item where
  | label (l : Nat)
  /-- The code of a node that is not followed. -/
  | run (node : AstNode)
  /-- No line of the code: the place where the body begins. -/
  | body
  /-- `mov rax, n`. -/
  | movImm (w : Word)
  /-- `mov rax, [rbp+offset]`, of that many bytes. -/
  | load (offset : Int) (size : Nat)
  /-- `mov qword [rbp+offset], rax`. -/
  | store (offset : Int)
  /-- `mov qword [rbp+offset], rcx`. -/
  | storeCounter (offset : Int)
  /-- `push rax`. -/
  | push
  /-- `pop rax`. -/
  | popRax
  /-- `pop rcx`. -/
  | popRcx
  /-- `mov rcx, rax`. -/
  | movRcx
  /-- The operation on `rax` and `rcx`, into `rax`. -/
  | alu (f : Word → Word → Word)
  /-- `cmp rcx, rax`. -/
  | cmp
  | jge (l : Nat)
  | jmp (l : Nat)
  /-- `inc rcx`. -/
  | inc

def Item.labelOf : Item → Option Nat
  | .label l => some l
  | _ => none

def setIf (b : Bool) : Word := if b then 1 else 0

/-- The operations that are one instruction, or a comparison and a `set`. -/
def aluOf : BinOp → Option (Word → Word → Word)
  | .add | .addAssign => some (· + ·)
  | .sub | .subAssign => some (· - ·)
  | .mul | .mulAssign => some (· * ·)
  | .bitAnd => some (· &&& ·)
  | .bitOr => some (· ||| ·)
  | .bitXor => some (· ^^^ ·)
  | .eq => some fun a b => setIf (a == b)
  | .neq => some fun a b => setIf (a != b)
  | .lt => some fun a b => setIf (a.slt b)
  | .gt => some fun a b => setIf (b.slt a)
  | .le => some fun a b => setIf (a.sle b)
  | .ge => some fun a b => setIf (b.sle a)
  | _ => none

def isCompound : BinOp → Bool
  | .addAssign | .subAssign | .mulAssign => true
  | _ => false

def isSum : BinOp → Bool
  | .add | .addAssign => true
  | _ => false

/-! ## §3 Emission -/

section

variable (f : Frame)

/-- The operation, where its code is followed. -/
def followed (op : BinOp) (left right : AstNode) : Option (Word → Word → Word) :=
  if isSum op && f.joins op left right then none else aluOf op

def storeTo : AstNode → List Item
  | .ident name => [.store (f.offset name)]
  | _ => []

def access : Access → Item
  | .const w => .movImm w
  | .slot offset size => .load offset size

/-- `cg_expr`. -/
def cgExpr : AstNode → List Item
  | .literalInt n _ => [.movImm n.toBitVec]
  | .ident name => [access (f.ident name)]
  | .binaryOp op (some left) (some right) customOp =>
    if op = .assign then cgExpr right ++ [.push, .popRax] ++ storeTo f left
    else
      match followed f op left right with
      | some alu => cgExpr right ++ .push :: cgExpr left ++ [.popRcx, .alu alu] ++
          if isCompound op then storeTo f left else []
      | none => [.run (.binaryOp op (some left) (some right) customOp)]
  | node => [.run node]

/-- `cg_stmt` on the body. -/
def cgStmts : List AstNode → List Item
  | [] => []
  | .exprStmt (some expr) :: stmts => cgExpr f expr ++ cgStmts stmts
  | stmt :: stmts => .run stmt :: cgStmts stmts

def cgBody : Option AstNode → List Item
  | none => []
  | some (.block stmts) => cgStmts f stmts
  | some stmt => [.run stmt]

def storeCounterTo (name : Option Bytes) : List Item :=
  (name.map fun name => Item.storeCounter (f.offset name)).toList

/-- `cg_stmt` on `NODE_FOR` over a range, of either kind. -/
def cgFor (k : Nat) : AstNode → List Item
  | .forNode var indexVar (some (.binaryOp op (some start) (some stop) customOp)) body =>
    let startLabel := k
    let endLabel := k + 1
    if op = .range ∨ op = .rangeInclusive then
      cgExpr f start ++ [.movRcx] ++
        (.label startLabel :: cgExpr f stop ++ [.cmp, .jge endLabel]) ++
        (storeCounterTo f indexVar ++ storeCounterTo f var ++ .body :: cgBody f body ++
          [.inc, .jmp startLabel]) ++
        [.label endLabel]
    else [.run (.forNode var indexVar (some (.binaryOp op (some start) (some stop) customOp)) body)]
  | node => [.run node]

end

/-! ## §4 Execution -/

structure State where
  rax : Word
  rcx : Word
  stack : List Word
  /-- `rcx < rax`, signed, at the last comparison. -/
  less : Bool
  mem : Mem
  /-- The slots at each turn of the loop, where its body begins. -/
  turns : List (Int → Word)

/-- `movzx` for a byte or a word, and `mov eax` for four bytes. -/
def loadSized (size : Nat) (w : Word) : Word :=
  match size with
  | 1 => (w.setWidth 8).setWidth 64
  | 2 => (w.setWidth 16).setWidth 64
  | 4 => (w.setWidth 32).setWidth 64
  | _ => w

def Item.exec (f : Frame) (s : State) : Item → Flow Nat Unit State
  | .label _ => .next s
  | .run node =>
    let e := f.effect s.mem node
    .next { s with rax := e.value, rcx := e.counter.getD s.rcx, mem := e.mem }
  | .body => .next { s with turns := s.turns ++ [s.mem.slots] }
  | .movImm w => .next { s with rax := w }
  | .load offset size => .next { s with rax := loadSized size (s.mem.slots offset) }
  | .store offset => .next { s with mem := s.mem.store offset s.rax }
  | .storeCounter offset => .next { s with mem := s.mem.store offset s.rcx }
  | .push => .next { s with stack := s.rax :: s.stack }
  | .popRax => .next { s with rax := s.stack.headD 0, stack := s.stack.tail }
  | .popRcx => .next { s with rcx := s.stack.headD 0, stack := s.stack.tail }
  | .movRcx => .next { s with rcx := s.rax }
  | .alu g => .next { s with rax := g s.rax s.rcx }
  | .cmp => .next { s with less := s.rcx.slt s.rax }
  | .jge l => if s.less then .next s else .goto l s
  | .jmp l => .goto l s
  | .inc => .next { s with rcx := s.rcx + 1 }

def code (f : Frame) (items : List Item) : Listing Item Nat Unit State where
  items := items
  labelOf := Item.labelOf
  exec := fun item s => item.exec f s

end Aether.Codegen.RangeLoops
