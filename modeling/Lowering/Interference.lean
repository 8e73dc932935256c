import Lowering.BitMatrix
import Lowering.Liveness
import Lowering.Temp.Table

/-!
# Interference

Two temporaries interfere if they cannot share a register.  An instruction makes
each temporary that it writes interfere with all that are live after it and with
the others it writes.  A copy does not make its destination interfere with its
source, since they hold the same value.

Distinct registers always interfere.  A register outside the palette is never
handed out, so it takes no part in anything else.

Edges are kept three times: a matrix with a bit for every pair of nodes tells at once
whether two nodes interfere, lists give the neighbours of a node, and counters their
number.  The neighbours of a register are neither listed nor counted, and that two
registers interfere is not kept at all.  A copy is kept once and listed with its ends.

The graph of an instruction list is built by going through the list once: each
instruction adds its edges, and then its copy if it is one.

## Main definitions

* `Interference` — the graph: nodes, neighbours, and the copies that may go away.
* `Interference.adjacent`, `Interference.addEdge` — its edges.
* `Interference.movesOf`, `Interference.addMove` — its copies.
* `Interference.ofCode` — the graph of an instruction list.
-/

namespace Lowering

/-- Whether a temporary can take part in the assignment of the palette. -/
def Temp.isAllocatable (palette : List Temp) (t : Temp) : Bool :=
  !t.isRegister || palette.contains t

/-- A copy whose two ends may share a register. -/
structure Move where
  dst : Temp
  src : Temp
  deriving DecidableEq, Repr, Inhabited

/-- Whether a temporary is an end of the copy. -/
def Move.touches (m : Move) (t : Temp) : Bool := m.dst = t || m.src = t

/-- Which temporaries cannot share a register, and which copies would like to. -/
structure Interference where
  /-- All temporaries of the code, in order. -/
  nodes : List Temp
  /-- How often each temporary is read or written. -/
  occurrences : Table Nat
  /-- The neighbours of each virtual temporary. -/
  neighbours : Table TempSet
  /-- The number of neighbours of each virtual temporary. -/
  degrees : Table Nat
  /-- Which nodes interfere, unless both are registers. -/
  matrix : BitMatrix nodes.length
  /-- The copies, in the order of the code. -/
  moves : List Move
  /-- The indices of the copies that each temporary is an end of. -/
  moveLists : Table (List Nat)

namespace Interference

/-- The neighbours of a node that is no register. -/
def neighboursOf (g : Interference) (t : Temp) : TempSet := g.neighbours.get t

/-- The number of neighbours of a node that is no register. -/
def degree (g : Interference) (t : Temp) : Nat := g.degrees.get t

/-- The place of a node in the matrix. -/
def id? (g : Interference) (t : Temp) : Option (Fin g.nodes.length) := g.nodes.finIdxOf? t

/-- Whether the bit of two nodes is set. -/
def isMarked (g : Interference) (a b : Temp) : Bool :=
  (g.id? a).any fun u => (g.id? b).any fun v => g.matrix.contains u v

/-- Whether two nodes interfere. -/
def adjacent (g : Interference) (a b : Temp) : Bool :=
  if a ≠ b && a.isRegister && b.isRegister then true else g.isMarked a b

/-- Set the bit of two nodes. -/
def mark (g : Interference) (a b : Temp) : Interference :=
  match g.id? a, g.id? b with
  | some u, some v => { g with matrix := g.matrix.insert u v }
  | _, _ => g

@[simp] theorem nodes_mark (g : Interference) (a b : Temp) : (g.mark a b).nodes = g.nodes := by
  unfold mark; split <;> rfl

@[simp] theorem moves_mark (g : Interference) (a b : Temp) : (g.mark a b).moves = g.moves := by
  unfold mark; split <;> rfl

@[simp] theorem moveLists_mark (g : Interference) (a b : Temp) :
    (g.mark a b).moveLists = g.moveLists := by
  unfold mark; split <;> rfl

@[simp] theorem occurrences_mark (g : Interference) (a b : Temp) :
    (g.mark a b).occurrences = g.occurrences := by
  unfold mark; split <;> rfl

@[simp] theorem neighboursOf_mark (g : Interference) (a b t : Temp) :
    (g.mark a b).neighboursOf t = g.neighboursOf t := by
  unfold mark; split <;> rfl

@[simp] theorem degree_mark (g : Interference) (a b t : Temp) :
    (g.mark a b).degree t = g.degree t := by
  unfold mark; split <;> rfl

/-- List `b` among the neighbours of `a` and count it, unless `a` is a register. -/
def link (g : Interference) (a b : Temp) : Interference :=
  if a.isRegister then g
  else
    { g with
      neighbours := g.neighbours.update a (·.insert b)
      degrees := g.degrees.update a (· + 1) }

@[simp] theorem nodes_link (g : Interference) (a b : Temp) : (g.link a b).nodes = g.nodes := by
  unfold link; split <;> rfl

@[simp] theorem moves_link (g : Interference) (a b : Temp) : (g.link a b).moves = g.moves := by
  unfold link; split <;> rfl

@[simp] theorem moveLists_link (g : Interference) (a b : Temp) :
    (g.link a b).moveLists = g.moveLists := by
  unfold link; split <;> rfl

@[simp] theorem occurrences_link (g : Interference) (a b : Temp) :
    (g.link a b).occurrences = g.occurrences := by
  unfold link; split <;> rfl

@[simp] theorem isMarked_link (g : Interference) (a b x y : Temp) :
    (g.link a b).isMarked x y = g.isMarked x y := by
  unfold link; split <;> rfl

theorem neighboursOf_link (g : Interference) (a b t : Temp) :
    (g.link a b).neighboursOf t =
      if t = a ∧ !t.isRegister then (g.neighboursOf t).insert b else g.neighboursOf t := by
  by_cases hr : a.isRegister <;> by_cases ht : t = a
  · subst ht; simp [link, hr]
  · simp [link, hr, ht]
  · subst ht; simp [link, neighboursOf, Table.get_update, hr]
  · simp [link, neighboursOf, Table.get_update, hr, ht, Ne.symm ht]

theorem degree_link (g : Interference) (a b t : Temp) :
    (g.link a b).degree t = if t = a ∧ !t.isRegister then g.degree t + 1 else g.degree t := by
  by_cases hr : a.isRegister <;> by_cases ht : t = a
  · subst ht; simp [link, hr]
  · simp [link, hr, ht]
  · subst ht; simp [link, degree, Table.get_update, hr]
  · simp [link, degree, Table.get_update, hr, ht, Ne.symm ht]

/-- Make two nodes interfere. -/
def addEdge (g : Interference) (a b : Temp) : Interference :=
  if a = b || g.adjacent a b then g
  else (((g.mark a b).mark b a).link a b).link b a

@[simp] theorem nodes_addEdge (g : Interference) (a b : Temp) :
    (g.addEdge a b).nodes = g.nodes := by
  unfold addEdge; split <;> simp

@[simp] theorem moves_addEdge (g : Interference) (a b : Temp) :
    (g.addEdge a b).moves = g.moves := by
  unfold addEdge; split <;> simp

@[simp] theorem moveLists_addEdge (g : Interference) (a b : Temp) :
    (g.addEdge a b).moveLists = g.moveLists := by
  unfold addEdge; split <;> simp

@[simp] theorem occurrences_addEdge (g : Interference) (a b : Temp) :
    (g.addEdge a b).occurrences = g.occurrences := by
  unfold addEdge; split <;> simp

/-- The indices of the copies that a node is an end of. -/
def movesOf (g : Interference) (t : Temp) : List Nat := g.moveLists.get t

/-- Add a copy, and list it with its source and then with its destination. -/
def addMove (g : Interference) (m : Move) : Interference :=
  let list (t : Temp) (tab : Table (List Nat)) := tab.update t (· ++ [g.moves.length])
  { g with
    moves := g.moves ++ [m]
    moveLists := list m.dst (list m.src g.moveLists) }

theorem movesOf_addMove (g : Interference) {m : Move} (h : m.dst ≠ m.src) (t : Temp) :
    (g.addMove m).movesOf t =
      if m.touches t then g.movesOf t ++ [g.moves.length] else g.movesOf t := by
  simp only [addMove, movesOf, Table.get_update, Move.touches, Bool.or_eq_true, decide_eq_true_eq]
  by_cases hd : m.dst = t
  · simp [hd, show m.src ≠ t from fun hs => h (hd.trans hs.symm)]
  · simp [hd]

/-- The graph without edges and copies. -/
def discrete (temps : List Temp) : Interference where
  nodes := (TempSet.ofList temps).toList
  occurrences := temps.foldl (fun tab t => tab.update t (· + 1)) (.const 0)
  neighbours := .const ∅
  degrees := .const 0
  matrix := .zero _
  moves := []
  moveLists := .const []

/-- The copy that an instruction makes, if both of its ends can be assigned and it
is not a copy to itself. -/
def moveOf? (palette : List Temp) (i : Instr) : Option Move :=
  match i.copy? with
  | some (dst, src) =>
    if dst ≠ src && dst.isAllocatable palette && src.isAllocatable palette then some ⟨dst, src⟩
    else none
  | none => none

/-- The pairs of temporaries that an instruction makes interfere. -/
def conflicts (palette : List Temp) (i : Instr) (after : TempSet) : List (Temp × Temp) :=
  match i.copy? with
  | some (dst, src) =>
    if dst = src || !dst.isAllocatable palette then []
    else
      (after.toList.filter fun t => t ≠ src && t.isAllocatable palette).map (dst, ·)
  | none =>
    let others := (after.toList ++ i.defs).filter (·.isAllocatable palette)
    (i.defs.filter (·.isAllocatable palette)).flatMap fun d => others.map (d, ·)

/-- Make every pair of a list interfere. -/
def addEdges (g : Interference) (pairs : List (Temp × Temp)) : Interference :=
  pairs.foldl (fun g (a, b) => g.addEdge a b) g

@[simp] theorem addEdges_nil (g : Interference) : g.addEdges [] = g := rfl

@[simp] theorem addEdges_cons (g : Interference) (a b : Temp) (pairs : List (Temp × Temp)) :
    g.addEdges ((a, b) :: pairs) = (g.addEdge a b).addEdges pairs := rfl

@[simp] theorem nodes_addEdges (g : Interference) (pairs : List (Temp × Temp)) :
    (g.addEdges pairs).nodes = g.nodes := by
  induction pairs generalizing g with
  | nil => rfl
  | cons p rest ih => obtain ⟨a, b⟩ := p; simp [ih]

@[simp] theorem moves_addEdges (g : Interference) (pairs : List (Temp × Temp)) :
    (g.addEdges pairs).moves = g.moves := by
  induction pairs generalizing g with
  | nil => rfl
  | cons p rest ih => obtain ⟨a, b⟩ := p; simp [ih]

/-- Add the edges that an instruction makes, and its copy. -/
def addInstr (palette : List Temp) (g : Interference) (i : Instr) (after : TempSet) :
    Interference :=
  let g := g.addEdges (conflicts palette i after)
  match moveOf? palette i with
  | some m => g.addMove m
  | none => g

/-- The interference graph of an instruction list with its live sets. -/
def ofCode (palette : List Temp) (code : List Instr) (live : Liveness) : Interference :=
  code.zipIdx.foldl (fun g (i, n) => g.addInstr palette i (live.after n))
    (discrete (code.flatMap Instr.temps))

/-- Whether two temporaries interfere, if both are nodes. -/
def adjacent? (g : Interference) (a b : Temp) : Option Bool :=
  if g.nodes.contains a && g.nodes.contains b then some (g.adjacent a b) else none

/-- Make every pair of a list interfere whose members are both nodes. -/
def connect (g : Interference) (pairs : List (Temp × Temp)) : Interference :=
  g.addEdges (pairs.filter fun (a, b) => g.nodes.contains a && g.nodes.contains b)

/-! ## Written form -/

/-- The text of a temporary at the end of a column. -/
def column (t : Temp) : String := "".pushn ' ' (8 - t.text.length) ++ t.text

/-- The line of a node: its degree and its neighbours. -/
def nodeText (g : Interference) (t : Temp) : String :=
  let neighbours := (g.neighboursOf t).toList.map fun u => " " ++ u.text
  column t ++ " [" ++ toString (g.degree t) ++ "]:" ++ String.join neighbours ++ "\n"

/-- The line of a copy. -/
def moveText (m : Move) : String := column m.dst ++ " <- " ++ m.src.text ++ "\n"

/-- The virtual nodes and then the copies, one a line. -/
def text (g : Interference) : String :=
  String.join ((g.nodes.filter fun t => !t.isRegister).map g.nodeText ++ g.moves.map moveText)

end Interference

end Lowering
