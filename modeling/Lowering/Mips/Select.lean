import Lowering.Mips.Tile
import Lowering.Pass

/-!
# Instruction selection

The instructions of a statement, emitted from the tiles of its expressions in the
order of evaluation.  An instruction that computes a value draws a fresh temporary
for it after its operands.  Every emitted instruction is recorded in the journal.

A conditional branch names both of its targets and jumps to the true one only; the
false one is expected right behind it.

## Main definitions

* `Tile.select` — the instructions of a tile, and where its value is.
* `Stmt.select`, `Stmt.selectAll` — the instructions of statements.
-/

namespace Lowering

namespace Mips

/-- Emit an instruction. -/
def emit (i : Instr) : Pass (List Instr) := do
  Pass.noteInstr .trace "Selected " i ""
  pure [i]

/-- After some code, emit an instruction that writes a fresh temporary. -/
def emitResult (code : List Instr) (last : Temp → Instr) : Pass (List Instr × Temp) := do
  let t ← Pass.fresh Fresh.temp
  let emitted ← emit (last t)
  pure (code ++ emitted, t)

/-- The copy of one temporary to another. -/
def copy (dst src : Temp) : Instr := .move "move 'd0, 's0" dst src

/-- Load a constant. -/
def loadConst (dst : Temp) (value : Word) : Instr :=
  .op ("li 'd0, " ++ Word.text value) [dst] []

/-- Refuse a call with more arguments than there are argument registers. -/
def checkArgs (count : Nat) : Pass Unit :=
  if argumentRegisters.length < count then
    throw (.tooManyArguments argumentRegisters.length count)
  else
    pure ()

end Mips

open Mips

mutual

/-- The instructions of a tile, and the temporary that holds its value. -/
def Tile.select : Tile → Pass (List Instr × Temp)
  | .temp t => pure ([], t)
  | .const value => emitResult [] fun t => loadConst t value
  | .name label => emitResult [] fun t => .op ("la 'd0, " ++ label.text) [t] []
  | .load base offset => do
    let (code, b) ← base.select
    emitResult code fun t => .op ("lw 'd0, " ++ Word.text offset ++ "('s0)") [t] [b]
  | .immediate op operand value => do
    let (code, a) ← operand.select
    emitResult code fun t => .op (op.mnemonic ++ " 'd0, 's0, " ++ Word.text value) [t] [a]
  | .binop op lhs rhs => do
    let (first, a) ← lhs.select
    let (second, b) ← rhs.select
    emitResult (first ++ second) fun t => .op (binopMnemonic op ++ " 'd0, 's0, 's1") [t] [a, b]
  | .call function args => do
    checkArgs args.length
    let code ← Tile.selectArgs argumentRegisters args
    let last ← emit (.op ("jal " ++ function.text) callDefs (argumentRegisters.take args.length))
    pure (code ++ last, v0)
  | .callAt function args => do
    let (first, f) ← function.select
    checkArgs args.length
    let code ← Tile.selectArgs argumentRegisters args
    let last ← emit (.op "jalr 's0" callDefs (f :: argumentRegisters.take args.length))
    pure (first ++ code ++ last, v0)
  | .faulty fault => throw fault
  termination_by structural tile => tile

/-- Compute arguments and copy each to its register. -/
def Tile.selectArgs (registers : List Temp) : List Tile → Pass (List Instr)
  | [] => pure []
  | arg :: rest =>
    match registers with
    | [] => pure []
    | r :: registers => do
      let (code, value) ← arg.select
      let last ← emit (copy r value)
      let more ← Tile.selectArgs registers rest
      pure (code ++ last ++ more)
  termination_by structural args => args

end

/-- The instructions of a move. -/
def Stmt.selectMove : Expr → Expr → Pass (List Instr)
  | .mem address, source => do
    let (base, offset) := address.cover.address
    let (first, b) ← base.select
    let (second, value) ← source.cover.select
    let last ← emit (.op ("sw 's1, " ++ Word.text offset ++ "('s0)") [] [b, value])
    pure (first ++ second ++ last)
  | .temp dst, .const value => emit (loadConst dst value)
  | .temp dst, source => do
    let (code, src) ← source.cover.select
    let last ← emit (copy dst src)
    pure (code ++ last)
  | target, _ => throw (.unwritable target)

/-- The instructions of a branch. -/
def Branch.select : Branch → Pass (List Instr)
  | .jump (.name label) _ => emit (.jumping "j 'j0" [] [label])
  | .jump target labels => do
    let (code, address) ← target.cover.select
    let last ← emit (.jumping "jr 's0" [address] labels)
    pure (code ++ last)
  | .cjump op lhs rhs onTrue onFalse => do
    let (first, a) ← lhs.cover.select
    let (second, b) ← rhs.cover.select
    let last ← emit (.jumping (branchMnemonic op ++ " 's0, 's1, 'j0") [a, b] [onTrue, onFalse])
    pure (first ++ second ++ last)

/-- The instructions of a statement. -/
def Stmt.select : Stmt → Pass (List Instr)
  | .seq first second => do
    let head ← first.select
    let tail ← second.select
    pure (head ++ tail)
  | .label l => emit (.define l)
  | .move target source => Stmt.selectMove target source
  | .eval expr => do
    let (code, _) ← expr.cover.select
    pure code
  | .branch b => b.select

/-- The instructions of a list of statements. -/
def Stmt.selectAll : List Stmt → Pass (List Instr)
  | [] => pure []
  | s :: rest => do
    let head ← s.select
    let tail ← Stmt.selectAll rest
    pure (head ++ tail)

end Lowering
