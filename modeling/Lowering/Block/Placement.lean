import Lowering.Block.Basic
import Lowering.Supply

/-!
# Placing blocks

Blocks are placed one after another.  A block is followed by a target of its
branch if one is not placed yet: then a jump to it is dropped, and a comparison
is written so that the target that follows is its false one.  Such a chain of
blocks is a trace.  Where it ends, the next trace starts at the first block, in
the order of the graph, that is not placed.

A comparison neither of whose targets can follow gets a fresh false label, which
is placed right behind it and jumps on to the real one.  So in the end every
comparison is followed by its false label.

## Main definitions

* `Block.follower` — the target of a block that is placed next.
* `Ending`, `Branch.ending` — how a branch is written.
* `Placed`, `Block.place` — the blocks in the order of their places.
* `BlockGraph.schedule` — the placed blocks of a graph.
-/

namespace Lowering

/-- How the branch of a placed block is written. -/
inductive Ending where
  /-- Not at all: its target follows. -/
  | dropped
  /-- As one branch. -/
  | branch (branch : Branch)
  /-- With a false label of its own, from which a jump goes on. -/
  | detour (branch : Branch) (own onFalse : Label)
  deriving Repr

/-- The statements of an ending. -/
def Ending.stmts : Ending → List Stmt
  | dropped => []
  | branch b => [.branch b]
  | detour b own onFalse => [.branch b, .label own, .goto onFalse]

/-- Write a branch in front of the block that follows, if one of its targets does. -/
def Branch.ending : Branch → Option Label → Fresh Ending
  | .jump .., some _ => pure .dropped
  | .cjump op lhs rhs onTrue onFalse, some next =>
    if next = onFalse then
      pure (.branch (.cjump op lhs rhs onTrue onFalse))
    else
      pure (.branch (.cjump op.negate lhs rhs onFalse onTrue))
  | .jump target labels, none => pure (.branch (.jump target labels))
  | .cjump op lhs rhs onTrue onFalse, none => do
    let own ← Fresh.label
    pure (.detour (.cjump op lhs rhs onTrue own) own onFalse)

/-- A block in its place. -/
structure Placed where
  /-- Whether a trace starts here. -/
  starts : Bool
  block : Block
  ending : Ending
  deriving Repr

/-- The statements of a placed block. -/
def Placed.stmts (p : Placed) : List Stmt := p.block.opening ++ p.ending.stmts

namespace Block

/-- Whether a block with this label is among the given ones. -/
def among (label : Label) (blocks : List Block) : Bool := blocks.any (·.label = label)

/-- The target of a block that follows it, if one is not placed yet.  Of a
comparison the false target is preferred. -/
def follower (b : Block) (unplaced : List Block) : Option Label :=
  match b.branch with
  | .jump (.name target) _ => if among target unplaced then some target else none
  | .jump .. => none
  | .cjump _ _ _ onTrue onFalse =>
    if among onFalse unplaced then some onFalse
    else if among onTrue unplaced then some onTrue
    else none

/-- Take the block with a label out of a list. -/
def take? (label : Label) : List Block → Option (Block × List Block)
  | [] => none
  | b :: rest =>
    if b.label = label then some (b, rest)
    else (take? label rest).map fun (found, left) => (found, b :: left)

theorem length_of_take? {label : Label} {blocks left : List Block} {b : Block}
    (h : take? label blocks = some (b, left)) : left.length < blocks.length := by
  induction blocks generalizing b left with
  | nil => simp [take?] at h
  | cons c rest ih =>
    simp only [take?] at h
    split at h
    · cases h
      simp
    · simp only [Option.map_eq_some_iff] at h
      obtain ⟨⟨found, left'⟩, hfound, heq⟩ := h
      cases heq
      simpa using ih hfound

theorem take?_perm {label : Label} {blocks left : List Block} {b : Block}
    (h : take? label blocks = some (b, left)) : blocks.Perm (b :: left) ∧ b.label = label := by
  induction blocks generalizing b left with
  | nil => simp [take?] at h
  | cons c rest ih =>
    simp only [take?] at h
    split at h
    · cases h
      simpa
    · simp only [Option.map_eq_some_iff] at h
      obtain ⟨⟨found, left'⟩, hfound, heq⟩ := h
      cases heq
      exact ⟨((ih hfound).1.cons c).trans (.swap ..), (ih hfound).2⟩

/-- Place a block and then all that are not placed yet.  A follower has to be among
them. -/
def place (starts : Bool) (b : Block) (unplaced : List Block) : Fresh (List Placed) := do
  let next := b.follower unplaced
  let ending ← b.branch.ending next
  let placed : Placed := ⟨starts, b, ending⟩
  match next with
  | some label =>
    match _h : take? label unplaced with
    | some (b', left) => do
      let rest ← place false b' left
      pure (placed :: rest)
    | none => throw (.placedTwice label)
  | none =>
    match unplaced with
    | [] => pure [placed]
    | b' :: left => do
      let rest ← place true b' left
      pure (placed :: rest)
  termination_by unplaced.length
  decreasing_by
    · exact length_of_take? _h
    · simp

/-- The first label that occurs a second time. -/
def firstRepeated (seen : List Label) : List Block → Option Label
  | [] => none
  | b :: rest => if b.label ∈ seen then some b.label else firstRepeated (b.label :: seen) rest

end Block

namespace BlockGraph

/-- The blocks of a graph in the order of their places.  Two blocks with one label
cannot both be placed. -/
def schedule (g : BlockGraph) : Fresh (List Placed) :=
  match Block.firstRepeated [] g.blocks with
  | some label => throw (.duplicateBlock label)
  | none =>
    match g.blocks with
    | [] => pure []
    | b :: rest => b.place true rest

/-- The statements of the placed blocks, with the exit label behind them. -/
def stmtsOf (g : BlockGraph) (placed : List Placed) : List Stmt :=
  placed.flatMap Placed.stmts ++ [.label g.exit]

end BlockGraph

end Lowering
