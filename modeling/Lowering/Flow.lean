import Lowering.Instr.Basic

/-!
# Control flow

The flow of an instruction list has one node per instruction, known by its index.
An instruction with a jump list goes on at each of its labels, any other at the
next instruction.  Of several definitions of a label the last one counts.
-/

namespace Lowering

/-- Whether the instruction defines a label. -/
def Instr.defines (l : Label) : Instr → Bool
  | .label _ l' => l' = l
  | _ => false

/-- Where control goes after each instruction. -/
structure Flow where
  /-- The indices that follow each index. -/
  successors : Array (List Nat)
  deriving DecidableEq, Repr, Inhabited

namespace Flow

/-- The index of the last definition of a label. -/
def definition (code : List Instr) (l : Label) : Option Nat :=
  ((code.zipIdx.filter fun p => p.1.defines l).getLast?).map Prod.snd

/-- The index that a jump to a label goes to. -/
def target (code : List Instr) (l : Label) : Except Fault Nat :=
  match definition code l with
  | some n => .ok n
  | none => .error (.undefinedLabel l)

/-- The next index, if the code of the given size goes on. -/
def fallThrough (size n : Nat) : List Nat := if n + 1 < size then [n + 1] else []

/-- The flow of an instruction list. -/
def ofCode (code : List Instr) : Except Fault Flow := do
  let size := code.length
  let successors ← code.zipIdx.mapM fun (i, n) =>
    match i.targets? with
    | some labels => labels.mapM (target code)
    | none => .ok (fallThrough size n)
  .ok ⟨successors.toArray⟩

/-- The indices that follow an index. -/
def next (flow : Flow) (n : Nat) : List Nat := flow.successors.getD n []

end Flow

end Lowering
