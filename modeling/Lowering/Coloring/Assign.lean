import Lowering.Coloring.Step

/-!
# Assigning colours

When every virtual node has been taken out or merged, the nodes are put back, the
last one taken out first.  Each gets the first colour of the palette that none of
its neighbours has; a node without such a colour is spilled.  A merged node has the
colour of the one it stands for.

## Main definitions

* `Colors` — a register for some of the temporaries.
* `Coloring.assign` — colours for the nodes on the stack.
* `Outcome`, `color` — the result of a colouring.
-/

namespace Lowering

/-- A register for some of the temporaries. -/
abbrev Colors := Std.TreeMap Temp Temp

/-- The result of a colouring. -/
structure Outcome where
  /-- The registers, those of registers included. -/
  colors : Colors
  /-- The temporaries without a register, in order. -/
  spilled : List Temp
  /-- How many copies have merged ends. -/
  coalescedMoves : Nat
  /-- What was done, in order. -/
  decisions : List Decision

namespace Coloring

/-- Look up what nodes stand for, one after another. -/
def findAll (s : Coloring) : List Temp → List Temp × Coloring
  | [] => ([], s)
  | t :: rest =>
    let (root, s) := s.find t
    let (roots, s) := s.findAll rest
    (root :: roots, s)

/-- The first colour that no neighbour of the node has. -/
def findColor (s : Coloring) (colors : Colors) (t : Temp) : Option Temp × Coloring :=
  let (roots, s) := s.findAll (s.graph.neighboursOf t).toList
  let taken := roots.filterMap (colors[·]?)
  (s.palette.find? fun c => !taken.contains c, s)

/-- Colour nodes one after another, and list those for which no colour was left. -/
def assign (s : Coloring) (colors : Colors) : List Temp → (Colors × List Temp) × Coloring
  | [] => ((colors, []), s)
  | t :: rest =>
    match s.findColor colors t with
    | (some c, s) => s.assign (colors.insert t c) rest
    | (none, s) =>
      let ((colors, spilled), s) := s.assign colors rest
      ((colors, t :: spilled), s)

/-- Every register has its own colour. -/
def registerColors (s : Coloring) : Colors :=
  (s.graph.nodes.filter Temp.isRegister).foldl (fun colors t => colors.insert t t) ∅

/-- Give merged nodes the colours of those they stand for. -/
def colorMerged (s : Coloring) (colors : Colors) : Colors :=
  let merged := s.nodesIn .coalesced
  (merged.zip (s.findAll merged).1).foldl
    (fun all (t, root) =>
      match colors[root]? with
      | some c => all.insert t c
      | none => all)
    colors

/-- The result of a colouring that has no step left. -/
def outcome (s : Coloring) : Outcome :=
  let ((colors, spilled), final) := s.assign s.registerColors s.stack
  { colors := final.colorMerged colors
    spilled := (TempSet.ofList spilled).toList
    coalescedMoves := (s.movesIn .coalesced).length
    decisions := s.decisions.reverse ++ spilled.map .spilled }

end Coloring

/-- Colour an interference graph with the registers of a palette. -/
def color (palette : List Temp) (unspillable : TempSet) (g : Interference) : Outcome :=
  (Coloring.start palette unspillable g).run.outcome

end Lowering
