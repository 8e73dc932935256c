import Lowering.Fault
import Lowering.Mips.Register

/-!
# Tiles

A tile is the work of one instruction.  Covering an expression with tiles decides
which instructions compute it, before any is emitted.  The cover is greedy: a
constant that fits becomes the immediate operand of the instruction that uses it,
and an address that is a sum with such a constant becomes the base and offset of
the load or store.

An expression that no instruction computes is covered by a faulty tile.  It faults
when the instructions are emitted, after those of the tiles before it.

## Main definitions

* `Tile` — a tree of instructions.
* `Expr.cover` — the tiles of an expression.
* `Tile.address` — a tile as base and offset.
-/

namespace Lowering

namespace Mips

/-- Whether a word fits a signed 16-bit field. -/
def fitsImmediate (n : Word) : Bool := -32768 ≤ n.toInt && n.toInt ≤ 32767

/-- Whether a word can be the amount of a shift. -/
def fitsShift (n : Word) : Bool := 0 ≤ n.toInt && n.toInt < 32

/-- An operation between a register and a constant in the instruction. -/
inductive Immediate where
  | addi | andi | ori | xori | sll | srl | sra
  deriving DecidableEq, Repr, Inhabited

/-- The mnemonic of an operation with a constant. -/
def Immediate.mnemonic : Immediate → String
  | addi => "addi"
  | andi => "andi"
  | ori => "ori"
  | xori => "xori"
  | sll => "sll"
  | srl => "srl"
  | sra => "sra"

/-- The mnemonic of an operation on two registers. -/
def binopMnemonic : BinOp → String
  | .plus => "add"
  | .minus => "sub"
  | .mul => "mul"
  | .div => "div"
  | .and => "and"
  | .or => "or"
  | .xor => "xor"
  | .shl => "sllv"
  | .shr => "srlv"
  | .sar => "srav"

/-- The mnemonic of a conditional branch. -/
def branchMnemonic : RelOp → String
  | .eq => "beq"
  | .ne => "bne"
  | .lt => "blt"
  | .gt => "bgt"
  | .le => "ble"
  | .ge => "bge"
  | .ult => "bltu"
  | .ugt => "bgtu"
  | .ule => "bleu"
  | .uge => "bgeu"

/-- The operand of a binary operation that stays in a register. -/
inductive Side where
  | left | right
  deriving DecidableEq, Repr, Inhabited

/-- A binary operation as an operation with a constant. -/
structure Folded where
  op : Immediate
  /-- Which operand is not folded in. -/
  side : Side
  value : Word
  deriving DecidableEq, Repr, Inhabited

/-- Fold either constant operand of a commutative operation, the right one first. -/
def foldEither (op : Immediate) (lhs rhs : Expr) : Option Folded :=
  let left : Option Folded :=
    match lhs with
    | .const n => if fitsImmediate n then some ⟨op, .right, n⟩ else none
    | _ => none
  match rhs with
  | .const n => if fitsImmediate n then some ⟨op, .left, n⟩ else left
  | _ => left

/-- Fold a constant amount of a shift. -/
def foldShift (op : Immediate) : Expr → Option Folded
  | .const n => if fitsShift n then some ⟨op, .left, n⟩ else none
  | _ => none

/-- Fold a constant that is subtracted, as the addition of its negation.  The least
word has no negation. -/
def foldMinus : Expr → Except Fault (Option Folded)
  | .const n =>
    if n = Int64.minValue then .error (.overflow .negate)
    else .ok (if fitsImmediate (-n) then some ⟨.addi, .left, -n⟩ else none)
  | _ => .ok none

/-- Fold a constant operand into the instruction, if there is one that fits. -/
def fold (op : BinOp) (lhs rhs : Expr) : Except Fault (Option Folded) :=
  match op with
  | .plus => .ok (foldEither .addi lhs rhs)
  | .minus => foldMinus rhs
  | .and => .ok (foldEither .andi lhs rhs)
  | .or => .ok (foldEither .ori lhs rhs)
  | .xor => .ok (foldEither .xori lhs rhs)
  | .shl => .ok (foldShift .sll rhs)
  | .shr => .ok (foldShift .srl rhs)
  | .sar => .ok (foldShift .sra rhs)
  | .mul | .div => .ok none

end Mips

/-- The instructions that compute a value. -/
inductive Tile where
  /-- None: the value is in a temporary. -/
  | temp (t : Temp)
  /-- Load a constant. -/
  | const (value : Word)
  /-- Load the address of a label. -/
  | name (label : Label)
  /-- Load the word at a distance from a base. -/
  | load (base : Tile) (offset : Word)
  /-- Combine a value with a constant. -/
  | immediate (op : Mips.Immediate) (operand : Tile) (value : Word)
  /-- Combine two values. -/
  | binop (op : BinOp) (lhs rhs : Tile)
  /-- Call the function at a label. -/
  | call (function : Label) (args : List Tile)
  /-- Call the function at a computed address. -/
  | callAt (function : Tile) (args : List Tile)
  /-- No instruction computes the value. -/
  | faulty (fault : Fault)
  deriving Repr

namespace Tile

instance : Inhabited Tile := ⟨temp Mips.zero⟩

/-- The value of a tile as a base and an offset: the sum with a constant is not
computed. -/
def address : Tile → Tile × Word
  | immediate .addi base offset => (base, offset)
  | tile => (tile, 0)

end Tile

mutual

/-- Cover an expression with tiles. -/
def Expr.cover : Expr → Tile
  | .const value => if value = 0 then .temp Mips.zero else .const value
  | .name label => .name label
  | .temp t => .temp t
  | .binop op lhs rhs =>
    match Mips.fold op lhs rhs with
    | .error fault => .faulty fault
    | .ok (some ⟨op, .left, value⟩) => .immediate op lhs.cover value
    | .ok (some ⟨op, .right, value⟩) => .immediate op rhs.cover value
    | .ok none => .binop op lhs.cover rhs.cover
  | .mem address =>
    let (base, offset) := address.cover.address
    .load base offset
  | .call (.name label) args => .call label (Expr.coverAll args)
  | .call function args => .callAt function.cover (Expr.coverAll args)
  | .eseq stmt value => .faulty (.nestedStatement (.eseq stmt value))
  termination_by structural e => e

/-- Cover each of a list of expressions. -/
def Expr.coverAll : List Expr → List Tile
  | [] => []
  | e :: rest => e.cover :: Expr.coverAll rest
  termination_by structural es => es

end

end Lowering
