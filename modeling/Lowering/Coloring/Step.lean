import Lowering.Coloring.State

/-!
# The steps of a colouring

There are four kinds of steps.  As long as a node can be simplified, it is taken
out.  Otherwise a copy is tried, the one that comes first in the code.  Otherwise
the first node of low degree gives up its copies.  Otherwise a node of high degree
is taken out in the hope that a colour will be left for it: the one that occurs
least in relation to its degree.

The first three take what they work on from its list before they start, and mark it, so
that the change of its condition does not look for it there.

Two nodes are merged only if this cannot make the graph harder to colour: if one of
them is a register, when every neighbour of the other is harmless; else when the
merged node has fewer than `k` significant neighbours.

Each step lowers the number of nodes in the graph, or else the number of those that
are not ready to be taken out, or else the number of copies to be tried.  This
bounds the number of steps.

## Main definitions

* `Coloring.simplify`, `Coloring.coalesce`, `Coloring.freeze`, `Coloring.select` —
  the four kinds of steps.
* `Coloring.step?` — the next step, if one is left.
* `Coloring.run` — all steps.
-/

namespace Lowering.Coloring

/-- A node of low degree that lost its last copy can be simplified. -/
def release (s : Coloring) (t : Temp) : Coloring :=
  if s.status t = .freeze && !s.isMoveRelated t && s.degree t < s.k then
    s.setStatus t .simplify
  else s

/-- Count one neighbour less.  A node whose degree becomes low leaves the nodes of
high degree, and copies around it are tried again. -/
def decrementDegree (s : Coloring) (t : Temp) : Coloring :=
  if t.isRegister then s
  else
    let degree := s.degree t
    let s := { s with degrees := s.degrees.set t (degree - 1) }
    if degree = s.k && s.status t = .spill then
      let s := s.enableMovesOf (s.adjacent t ++ [t])
      s.setStatus t (if s.isMoveRelated t then .freeze else .simplify)
    else s

/-! ## Simplify -/

/-- Put a node on the stack that was taken from the queue. -/
def push (s : Coloring) (t : Temp) : Coloring :=
  ((s.writeStatus t .initial).setStatus t .onStack).record (.simplified t)

/-- Take a node out that was taken from the queue. -/
def simplify (s : Coloring) (t : Temp) : Coloring :=
  let s := s.push t
  (s.adjacent t).foldl decrementDegree s

/-! ## Coalesce -/

/-- Whether the neighbour `t` does not stand in the way of merging into the register
`r`. -/
def isHarmless (s : Coloring) (t r : Temp) : Bool :=
  s.degree t < s.k || t.isRegister || s.graph.adjacent t r

/-- Whether the node merged from two has fewer than `k` significant neighbours. -/
def isConservative (s : Coloring) (u v : Temp) : Bool :=
  (TempSet.ofList (s.adjacent u ++ s.adjacent v)).toList.countP s.isSignificant < s.k

/-- Whether merging `v` into `u` is safe. -/
def canCombine (s : Coloring) (u v : Temp) : Bool :=
  if u.isRegister then (s.adjacent v).all (s.isHarmless · u) else s.isConservative u v

/-- Merge `v` into `u`. -/
def combine (s : Coloring) (u v : Temp) : Coloring :=
  let s := (s.record (.coalesced v u)).setStatus v .coalesced
  let s := ((s.redirect v u).inheritMoves u v).enableMoves v
  let s := (s.adjacent v).foldl (fun s t => (s.addEdge t u).decrementDegree t) s
  if s.isSignificant u && s.status u = .freeze then s.setStatus u .spill else s

/-- Look up what the ends of a copy stand for, a register first. -/
def endsOf (s : Coloring) (m : Move) : (Temp × Temp) × Coloring :=
  let (x, s) := s.find m.dst
  let (y, s) := s.find m.src
  (if y.isRegister then (y, x) else (x, y), s)

/-- Decide about a copy whose ends stand for `u` and `v`. -/
def settle (s : Coloring) (id : Nat) (u v : Temp) : Coloring :=
  if u = v then
    (s.setMoveStatus id .coalesced).release u
  else if v.isRegister || s.graph.adjacent u v then
    ((s.setMoveStatus id .constrained).release u).release v
  else if s.canCombine u v then
    ((s.setMoveStatus id .coalesced).combine u v).release u
  else
    s.setMoveStatus id .active

/-- Try to merge the ends of a copy that was taken from the copies to be tried. -/
def coalesce (s : Coloring) (id : Nat) (m : Move) : Coloring :=
  let ((u, v), s) := (s.writeMoveStatus id .constrained).endsOf m
  s.settle id u v

/-! ## Freeze -/

/-- Look up what the other end of a copy of `u` stands for. -/
def otherEnd (u : Temp) (s : Coloring) (m : Move) : Temp × Coloring :=
  let (dst, s) := s.find m.dst
  let (own, s) := s.find u
  s.find (if dst = own then m.src else m.dst)

/-- Give up a copy of `u`. -/
def freezeMove (u : Temp) (s : Coloring) (id : Nat) : Coloring :=
  match s.graph.moves[id]? with
  | some m =>
    let (other, s) := otherEnd u s m
    (s.setMoveStatus id .frozen).release other
  | none => s

/-- Give up all copies of a node. -/
def freezeMoves (s : Coloring) (u : Temp) : Coloring := (s.openMoves u).foldl (freezeMove u) s

/-- Give up the copies of a node of low degree that was taken from its list, so that it can be
simplified. -/
def freeze (s : Coloring) (t : Temp) : Coloring :=
  ((s.writeStatus t .initial).setStatus t .simplify).freezeMoves t

/-! ## Select -/

/-- Whether taking out `a` promises more than taking out `b`: it occurs less in
relation to its degree.  A node that should not be spilled promises least. -/
def isCheaper (s : Coloring) (a b : Temp) : Bool :=
  if s.unspillable.contains a then false
  else if s.unspillable.contains b then true
  else
    s.graph.occurrences.get a * max (s.degree b) 1 < s.graph.occurrences.get b * max (s.degree a) 1

/-- The most promising of some nodes, the first of several equal ones. -/
def cheapest (s : Coloring) : List Temp → Option Temp
  | [] => none
  | t :: rest => some (rest.foldl (fun best t => if s.isCheaper t best then t else best) t)

/-- Take out a node of high degree in hope. -/
def select (s : Coloring) (t : Temp) : Coloring :=
  ((s.record (.selected t)).setStatus t .simplify).freezeMoves t

/-! ## All steps -/

/-- The next copy to be tried. -/
def nextMove? (s : Coloring) : Option (Nat × Move) := do
  let id ← s.trySet.toList.head?
  let m ← s.graph.moves[id]?
  some (id, m)

/-- The next step. -/
def step? (s : Coloring) : Option Coloring :=
  match s.queue with
  | t :: rest => some ({ s with queue := rest }.simplify t)
  | [] =>
    match s.nextMove? with
    | some (id, m) => some ({ s with trySet := s.trySet.erase id }.coalesce id m)
    | none =>
      match s.freezeSet.toList.head? with
      | some t => some ({ s with freezeSet := s.freezeSet.erase t }.freeze t)
      | none => (s.cheapest s.spillSet.toList).map s.select

/-- The condition in which a virtual node starts. -/
def firstStatus (s : Coloring) (t : Temp) : Status :=
  if s.k ≤ s.degree t then .spill
  else if s.isMoveRelated t then .freeze
  else .simplify

/-- The state before any node is looked at. -/
def initial (palette : List Temp) (unspillable : TempSet) (g : Interference) : Coloring where
  palette := palette
  unspillable := unspillable
  graph := g
  degrees := g.nodes.foldl (fun tab t => tab.set t (g.degree t)) (.const 0)
  statuses := g.nodes.foldl (fun tab t => tab.set t (if t.isRegister then .fixed else .initial))
    (.const .initial)
  moveStatuses := Array.replicate g.moves.length .worklist
  moveLists := g.nodes.foldl (fun tab t => tab.set t (g.movesOf t)) (.const [])
  aliases := .initial
  queue := []
  freezeSet := ∅
  spillSet := ∅
  trySet := .ofList (List.range g.moves.length)
  activeSet := ∅
  stack := []
  decisions := []

/-- The state in which every node has its first condition. -/
def start (palette : List Temp) (unspillable : TempSet) (g : Interference) : Coloring :=
  (g.nodes.filter fun t => !t.isRegister).foldl (fun s t => s.setStatus t (s.firstStatus t))
    (initial palette unspillable g)

/-- Take steps until none is left, but at most `bound`. -/
def runSteps : (bound : Nat) → Coloring → Coloring
  | 0, s => s
  | bound + 1, s =>
    match s.step? with
    | some s => runSteps bound s
    | none => s

/-- Enough steps: the number of nodes in the graph, of those not ready, and of
copies to be tried, read as the digits of one number. -/
def bound (s : Coloring) : Nat :=
  (s.graph.nodes.length + 1) * (s.graph.nodes.length + 1) * (s.moveStatuses.size + 1)

/-- Take all steps. -/
def run (s : Coloring) : Coloring := runSteps s.bound s

end Lowering.Coloring
