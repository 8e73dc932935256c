import Lowering.Allocation
import Lowering.Block.Partition
import Lowering.Block.Placement
import Lowering.Mips.Select
import Lowering.Quad.Lower

/-!
# The pipeline

The passes in a row, with what each of them tells: tree code becomes canonical
statements, blocks, one list again, instructions, and in the end instructions with
registers.
-/

namespace Lowering.Pipeline

/-- The canonical statements of tree code. -/
def canonicalize (s : Stmt) : Pass (List Stmt) := do
  let stmts ← Pass.fresh s.canonical
  Pass.note .debug ("Canonicalized into " ++ toString stmts.length ++ " statements")
  pure stmts

/-- Canonicalize again what came out, as often as asked for. -/
def canonicalizeAgain : (times : Nat) → List Stmt → Pass (List Stmt)
  | 0, stmts => pure stmts
  | times + 1, stmts => do
    let stmts ← canonicalize (.ofList stmts)
    canonicalizeAgain times stmts

/-- The quads of tree code. -/
def quads (s : Stmt) : Pass (List Quad) := do
  let simple ← Pass.fresh s.simplify
  let stmts ← canonicalize simple
  Attempt.ofExcept (Quad.ofCanonicals stmts)

/-- The blocks of a flat list of statements. -/
def partition (stmts : List Stmt) : Pass BlockGraph := do
  let g ← Pass.fresh (Block.partition stmts)
  Pass.note .trace ("Partitioned statements into " ++ toString g.blocks.length ++
    " blocks, exit at " ++ g.exit.text)
  pure g

/-- Note what placing a block decided. -/
def notePlaced : List Placed → Pass Unit
  | [] => pure ()
  | p :: rest => do
    if p.starts then
      Pass.note .trace ("Starting trace at " ++ p.block.label.text)
    match p.ending with
    | .detour _ own _ =>
      Pass.note .trace ("Both targets of the branch in " ++ p.block.label.text ++
        " are traced, adding " ++ own.text)
    | _ => pure ()
    notePlaced rest

/-- The blocks of a graph as one list. -/
def schedule (g : BlockGraph) : Pass (List Stmt) := do
  let placed ← Pass.fresh g.schedule
  notePlaced placed
  pure (g.stmtsOf placed)

/-- What the passes in front of register allocation made of a function. -/
structure Selected where
  canonical : List Stmt
  scheduled : List Stmt
  /-- The instructions, over temporaries. -/
  code : List Instr

/-- The passes up to instruction selection. -/
def select (s : Stmt) : Pass Selected := do
  let canonical ← canonicalize s
  let g ← partition canonical
  let scheduled ← schedule g
  let code ← Stmt.selectAll scheduled
  pure { canonical, scheduled, code }

/-- Mark the end of the selected instructions and assign registers.  Gives the
instructions with spill code and the assignment. -/
def assign (selected : Selected) : Pass (List Instr × Allocation) :=
  allocate (Mips.withSink selected.code)

/-- All passes.  Gives the instructions with spill code and the assignment. -/
def compile (s : Stmt) : Pass (List Instr × Allocation) := do
  let selected ← select s
  assign selected

end Lowering.Pipeline
