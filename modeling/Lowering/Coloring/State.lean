import Lowering.Coloring.Aliases
import Lowering.Interference

/-!
# The state of a colouring

Colouring takes nodes out of the interference graph one after another, and merges
the ends of copies where that is safe.  Every virtual node is in one of a few
conditions and so is every copy.  The nodes and the copies that there is work for are
also in a list of work for their condition: nodes to be simplified wait in a queue, nodes
taken out lie on a stack, and the other lists are sets, from which the first member is
taken.  `setStatus` and `setMoveStatus` change a condition and the lists with it.  What was
taken from a list is marked by `writeStatus` or `writeMoveStatus`, which leave the lists
alone.

Merging a node into another makes it point to the other one.  Its leader is the node at the
end of the way from it.

## Main definitions

* `Status`, `MoveStatus` — the condition of a node and of a copy.
* `Decision` — what a colouring did.
* `Coloring` — the state.
* `Coloring.leader`, `Coloring.find` — the node that a node stands for.
* `Coloring.setStatus`, `Coloring.setMoveStatus`, `Coloring.addEdge` — the changes that keep
  its parts in step.
-/

namespace Lowering

/-- The condition of a node. -/
inductive Status where
  /-- A register. -/
  | fixed
  /-- Not looked at yet. -/
  | initial
  /-- Of low degree and in no copy: can be taken out. -/
  | simplify
  /-- Of low degree, but in a copy. -/
  | freeze
  /-- Of high degree. -/
  | spill
  /-- Merged into another node. -/
  | coalesced
  /-- Taken out. -/
  | onStack
  deriving DecidableEq, Repr, Inhabited

/-- The condition of a copy. -/
inductive MoveStatus where
  /-- To be tried. -/
  | worklist
  /-- Not safe to merge at the moment. -/
  | active
  /-- Its ends are merged. -/
  | coalesced
  /-- Its ends interfere. -/
  | constrained
  /-- Given up. -/
  | frozen
  deriving DecidableEq, Repr, Inhabited

/-- Whether the ends of a copy may still be merged. -/
def MoveStatus.isOpen : MoveStatus → Bool
  | worklist | active => true
  | _ => false

/-- A step of a colouring. -/
inductive Decision where
  /-- A node was taken out. -/
  | simplified (t : Temp)
  /-- A node was merged into another. -/
  | coalesced (t into : Temp)
  /-- A node of high degree is taken out in the hope that it can be coloured. -/
  | selected (t : Temp)
  /-- No colour was left for a node. -/
  | spilled (t : Temp)
  deriving DecidableEq, Repr, Inhabited

/-- The wording of a decision. -/
def Decision.text : Decision → String
  | simplified t => "Simplified " ++ t.text
  | coalesced t into => "Coalescing " ++ t.text ++ " into " ++ into.text
  | selected t => "Selected " ++ t.text ++ " as a potential spill"
  | spilled t => "Spilling " ++ t.text

/-- The state of a colouring. -/
structure Coloring where
  /-- The colours, in order of preference. -/
  palette : List Temp
  /-- Nodes that are taken out in hope only if there is no other. -/
  unspillable : TempSet
  /-- The graph; merging adds edges. -/
  graph : Interference
  /-- How many neighbours of each virtual node are left. -/
  degrees : Table Nat
  statuses : Table Status
  moveStatuses : Array MoveStatus
  /-- The copies of each node and of those merged into it. -/
  moveLists : Table (List Nat)
  /-- Where merged nodes point. -/
  aliases : Aliases
  /-- The nodes to be simplified, the next one first. -/
  queue : List Temp
  /-- The nodes of low degree that are in a copy. -/
  freezeSet : TempSet
  /-- The nodes of high degree. -/
  spillSet : TempSet
  /-- The copies to be tried. -/
  trySet : Std.ExtTreeSet Nat
  /-- The copies that are not safe to merge at the moment. -/
  activeSet : Std.ExtTreeSet Nat
  /-- The nodes taken out, the last one first. -/
  stack : List Temp
  /-- What was done, the last step first. -/
  decisions : List Decision

namespace Coloring

/-! ## Views -/

/-- The number of colours. -/
def k (s : Coloring) : Nat := s.palette.length

/-- The condition of a node. -/
def status (s : Coloring) (t : Temp) : Status := s.statuses.get t

/-- The condition of a copy. -/
def moveStatus (s : Coloring) (m : Nat) : MoveStatus := s.moveStatuses.getD m .frozen

/-- The number of neighbours that are left. -/
def degree (s : Coloring) (t : Temp) : Nat := s.degrees.get t

/-- The node that a node stands for: itself unless it was merged. -/
def leader (s : Coloring) (t : Temp) : Temp := s.aliases.root t

/-- Whether a node may be impossible to colour.  Registers always count. -/
def isSignificant (s : Coloring) (t : Temp) : Bool := t.isRegister || s.k ≤ s.degree t

/-- Whether a node is still in the graph. -/
def isPresent (s : Coloring) (t : Temp) : Bool :=
  s.status t ≠ .onStack && s.status t ≠ .coalesced

/-- The neighbours that are left, in order. -/
def adjacent (s : Coloring) (t : Temp) : List Temp :=
  (s.graph.neighboursOf t).toList.filter s.isPresent

/-- The copies of a node whose ends may still be merged. -/
def openMoves (s : Coloring) (t : Temp) : List Nat :=
  (s.moveLists.get t).filter fun m => (s.moveStatus m).isOpen

/-- Whether a node may still be merged with another. -/
def isMoveRelated (s : Coloring) (t : Temp) : Bool := !(s.openMoves t).isEmpty

/-- The nodes in a condition, in order. -/
def nodesIn (s : Coloring) (status : Status) : List Temp :=
  s.graph.nodes.filter fun t => s.status t = status

/-- The copies in a condition, in order. -/
def movesIn (s : Coloring) (status : MoveStatus) : List Nat :=
  (List.range s.moveStatuses.size).filter fun m => s.moveStatus m = status

/-! ## Changes -/

/-- Note a step. -/
def record (s : Coloring) (d : Decision) : Coloring := { s with decisions := d :: s.decisions }

/-- Write down the condition of a node. -/
def writeStatus (s : Coloring) (t : Temp) (status : Status) : Coloring :=
  { s with statuses := s.statuses.set t status }

/-- Write down the condition of a copy. -/
def writeMoveStatus (s : Coloring) (m : Nat) (status : MoveStatus) : Coloring :=
  { s with moveStatuses := s.moveStatuses.setIfInBounds m status }

/-- A list of work after a change from one condition to another: what leaves the condition of
the list is taken out, and what comes to it is put in. -/
def refile {κ α : Type} [DecidableEq κ] [Ord α] [Std.TransOrd α] (kind was is : κ) (a : α)
    (set : Std.ExtTreeSet α) : Std.ExtTreeSet α :=
  let left := if was = kind then set.erase a else set
  if is = kind then left.insert a else left

/-- Change the condition of a node, keeping the lists of work in step. -/
def setStatus (s : Coloring) (t : Temp) (status : Status) : Coloring :=
  let queue := if s.status t = .simplify then s.queue.filter (· ≠ t) else s.queue
  { s with
    queue := if status = .simplify then queue ++ [t] else queue
    freezeSet := refile .freeze (s.status t) status t s.freezeSet
    spillSet := refile .spill (s.status t) status t s.spillSet
    stack := if status = .onStack then t :: s.stack else s.stack
    statuses := s.statuses.set t status }

theorem status_setStatus (s : Coloring) (t u : Temp) (status : Status) :
    (s.setStatus t status).status u = if t = u then status else s.status u := by
  simp [setStatus, Coloring.status, Table.get_set]

/-- Change the condition of a copy, keeping the lists of work in step. -/
def setMoveStatus (s : Coloring) (m : Nat) (status : MoveStatus) : Coloring :=
  { s with
    trySet := refile .worklist (s.moveStatus m) status m s.trySet
    activeSet := refile .active (s.moveStatus m) status m s.activeSet
    moveStatuses := s.moveStatuses.setIfInBounds m status }

theorem moveStatus_setMoveStatus (s : Coloring) {m : Nat} (h : m < s.moveStatuses.size) (n : Nat)
    (status : MoveStatus) :
    (s.setMoveStatus m status).moveStatus n = if m = n then status else s.moveStatus n := by
  simp only [setMoveStatus, moveStatus, Array.getD_eq_getD_getElem?, Array.getElem?_setIfInBounds]
  by_cases hmn : m = n
  · subst hmn; simp [h]
  · simp [hmn]

/-- Make two nodes interfere, counting the new neighbour on both sides. -/
def addEdge (s : Coloring) (a b : Temp) : Coloring :=
  if a = b || s.graph.adjacent a b then s
  else
    let count (t : Temp) (tab : Table Nat) := if t.isRegister then tab else tab.update t (· + 1)
    { s with
      graph := s.graph.addEdge a b
      degrees := count b (count a s.degrees) }

/-- Let `v` point to `u`. -/
def redirect (s : Coloring) (v u : Temp) : Coloring := { s with aliases := s.aliases.point v u }

/-- Look up the node that a node stands for, which shortens the way to it. -/
def find (s : Coloring) (t : Temp) : Temp × Coloring :=
  let (root, aliases) := s.aliases.find t
  (root, { s with aliases })

/-- Add the copies of `v` to those of `u`. -/
def inheritMoves (s : Coloring) (u v : Temp) : Coloring :=
  let inherited := (s.moveLists.get v).filter fun m => !(s.moveLists.get u).contains m
  { s with moveLists := s.moveLists.update u (· ++ inherited) }

/-- Try the copies of a node again. -/
def enableMoves (s : Coloring) (t : Temp) : Coloring :=
  (s.openMoves t).foldl
    (fun s m => if s.moveStatus m = .active then s.setMoveStatus m .worklist else s) s

/-- Try the copies of several nodes again. -/
def enableMovesOf (s : Coloring) (ts : List Temp) : Coloring := ts.foldl enableMoves s

end Coloring

end Lowering
