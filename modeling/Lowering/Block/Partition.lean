import Lowering.Block.Basic
import Lowering.Supply

/-!
# Partition into blocks

A block starts at every label and ends at every branch.  A block that starts
without a label gets a fresh one.  A block that ends without a branch goes on to
the next block, and the last one to the exit.
-/

namespace Lowering.Block

/-- A block that has no branch yet. -/
structure Open where
  label : Label
  body : List Stmt

namespace Open

/-- A block with nothing in it. -/
def start (label : Label) : Open := ⟨label, []⟩

/-- The open block, or a new one with a fresh label. -/
def orFresh : Option Open → Fresh Open
  | some b => pure b
  | none => do
    let label ← Fresh.label
    pure (start label)

/-- Add a statement at the end. -/
def push (b : Open) (s : Stmt) : Open := { b with body := b.body ++ [s] }

/-- End the block with a branch. -/
def close (b : Open) (branch : Branch) : Block := ⟨b.label, b.body, branch⟩

end Open

/-- The blocks of a flat list of statements, the first of which may be open. -/
def partitionFrom (exit : Label) : Option Open → List Stmt → Fresh (List Block)
  | none, [] => pure []
  | some b, [] => pure [b.close (.goto exit)]
  | none, .label l :: rest => partitionFrom exit (some (.start l)) rest
  | some b, .label l :: rest => do
    let blocks ← partitionFrom exit (some (.start l)) rest
    pure (b.close (.goto l) :: blocks)
  | current, .branch branch :: rest => do
    let b ← Open.orFresh current
    let blocks ← partitionFrom exit none rest
    pure (b.close branch :: blocks)
  | _, .seq .. :: _ => throw .nestedSequence
  | current, s :: rest => do
    let b ← Open.orFresh current
    partitionFrom exit (some (b.push s)) rest

/-- The graph of a flat list of statements.  The exit label is drawn first. -/
def partition (stmts : List Stmt) : Fresh BlockGraph := do
  let exit ← Fresh.label
  let blocks ← partitionFrom exit none stmts
  pure ⟨blocks, exit⟩

end Lowering.Block
