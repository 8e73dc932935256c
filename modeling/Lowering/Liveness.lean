import Lowering.Flow

/-!
# Liveness

A temporary is live where its value may still be read.  The sets before and after
each instruction solve

* `before n = uses n ∪ (after n \ defs n)`,
* `after n = ⋃ before s` over the successors `s` of `n`.

They are found by sweeps over the code from its end to its start, each of which
uses what it has found already, starting from empty sets and going on until a
sweep changes nothing.

## Main definitions

* `Instr.liveBefore` — what is live before an instruction, from what is live after.
* `Liveness` — the sets at every instruction.
* `Liveness.sweep`, `Liveness.settle` — one sweep, and sweeps up to a fixed point.
* `Liveness.ofCode` — the live sets of an instruction list.
-/

namespace Lowering

/-- What is live before an instruction, given what is live after it. -/
def Instr.liveBefore (i : Instr) (after : TempSet) : TempSet :=
  TempSet.ofList i.uses ∪ (after \ TempSet.ofList i.defs)

@[simp] theorem Instr.mem_liveBefore {i : Instr} {after : TempSet} {t : Temp} :
    t ∈ i.liveBefore after ↔ t ∈ i.uses ∨ t ∈ after ∧ t ∉ i.defs := by
  simp [liveBefore, Std.ExtTreeSet.mem_union_iff, Std.ExtTreeSet.mem_diff_iff]

/-- The live sets at one instruction. -/
structure LivePoint where
  before : TempSet
  after : TempSet
  deriving DecidableEq, Inhabited

/-- The live sets at every instruction. -/
structure Liveness where
  points : Array LivePoint
  deriving DecidableEq, Inhabited

namespace Liveness

/-- Nothing is live anywhere. -/
def empty (size : Nat) : Liveness := ⟨Array.replicate size ⟨∅, ∅⟩⟩

/-- What is live before the instruction at an index. -/
def before (live : Liveness) (n : Nat) : TempSet := (live.points.getD n ⟨∅, ∅⟩).before

/-- What is live after the instruction at an index. -/
def after (live : Liveness) (n : Nat) : TempSet := (live.points.getD n ⟨∅, ∅⟩).after

/-- What is live before any of the given indices. -/
def joined (live : Liveness) (nodes : List Nat) : TempSet :=
  nodes.foldl (fun set n => set ∪ live.before n) ∅

theorem mem_joined {live : Liveness} {nodes : List Nat} {t : Temp} :
    t ∈ live.joined nodes ↔ ∃ n ∈ nodes, t ∈ live.before n := by
  suffices h : ∀ set : TempSet, t ∈ nodes.foldl (fun set n => set ∪ live.before n) set ↔
      t ∈ set ∨ ∃ n ∈ nodes, t ∈ live.before n by
    simpa [joined] using h ∅
  induction nodes with
  | nil => simp
  | cons n rest ih => intro set; simp [ih, Std.ExtTreeSet.mem_union_iff, or_assoc]

/-- Recompute the sets of the instruction `i` at index `n`. -/
def visit (flow : Flow) (i : Instr) (n : Nat) (live : Liveness) : Liveness :=
  let after := live.joined (flow.next n)
  ⟨live.points.setIfInBounds n ⟨i.liveBefore after, after⟩⟩

/-- Recompute the sets of all instructions, the last one first. -/
def sweep (code : List Instr) (flow : Flow) (live : Liveness) : Liveness :=
  code.zipIdx.foldr (fun (i, n) live => live.visit flow i n) live

/-- Sweep until nothing changes, but at most `bound` times.  Also gives the number
of sweeps. -/
def settle (code : List Instr) (flow : Flow) : (bound : Nat) → Liveness → Liveness × Nat
  | 0, live => (live, 0)
  | bound + 1, live =>
    let next := live.sweep code flow
    if next = live then (live, 1)
    else
      let (settled, sweeps) := settle code flow bound next
      (settled, sweeps + 1)

/-- Enough sweeps: all but the last add a temporary of the code to one of the two
sets of an instruction. -/
def bound (code : List Instr) : Nat :=
  2 * code.length * (code.flatMap Instr.temps).length + 1

/-- The live sets of an instruction list, and the number of sweeps they took. -/
def ofCode (code : List Instr) (flow : Flow) : Liveness × Nat :=
  settle code flow (bound code) (empty code.length)

end Liveness

end Lowering
