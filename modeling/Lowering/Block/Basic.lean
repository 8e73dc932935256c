import Lowering.Tree.Printer

/-!
# Blocks

A block is entered through its label and left through its branch.  The graph of a
function is its list of blocks and the label at which the function is done; no
block carries that label.
-/

namespace Lowering

/-- Statements between a label and a branch. -/
structure Block where
  label : Label
  /-- What is run in between; neither a label nor a branch. -/
  body : List Stmt
  branch : Branch
  deriving Repr

namespace Block

/-- The label and the body, without the branch. -/
def opening (b : Block) : List Stmt := .label b.label :: b.body

/-- All statements of the block. -/
def stmts (b : Block) : List Stmt := b.opening ++ [.branch b.branch]

/-- The written form, one statement a line. -/
def text (b : Block) : String :=
  let body := b.body.map fun s => "        " ++ s.text ++ "\n"
  String.join (["    " ++ b.label.text ++ ":\n"] ++ body ++ ["        " ++ b.branch.text ++ "\n"])

end Block

/-- The blocks of a function and the label behind its end. -/
structure BlockGraph where
  blocks : List Block
  exit : Label
  deriving Repr

/-- The written form of a graph. -/
def BlockGraph.text (g : BlockGraph) : String :=
  String.join (g.blocks.map Block.text) ++ "    " ++ g.exit.text ++ ":\n"

end Lowering
