import Lowering.Coloring.Assign
import Lowering.Spill

/-!
# Register allocation

A round analyses the instruction list, builds its interference graph and colours
it.  Temporaries without a colour are moved to the frame, and the next round starts
with the new list.  Temporaries that spilling made up are spilled again only if
nothing else is left.  There is one round more than there are virtual temporaries
in the list; if spilling has not settled by then, allocation gives up.

## Main definitions

* `Allocation` — the registers of the temporaries of an instruction list.
* `Allocation.apply` — replace temporaries by their registers.
* `allocate` — find an allocation.
-/

namespace Lowering

/-- An assignment of registers. -/
structure Allocation where
  /-- The register of each temporary. -/
  colors : Colors
  /-- What was moved to the frame, in the order in which it happened. -/
  spilled : List Temp
  /-- How many rounds it took. -/
  rounds : Nat

namespace Allocation

/-- The register of a temporary. -/
def register? (a : Allocation) (t : Temp) : Option Temp := a.colors[t]?

/-- The place of a temporary: its register, or itself. -/
def place (a : Allocation) (t : Temp) : Temp := (a.register? t).getD t

/-- The name of the place of a temporary. -/
def name (a : Allocation) (t : Temp) : String := (a.place t).text

/-- The first temporary of an instruction that has no register. -/
def missing? (a : Allocation) (i : Instr) : Option Temp :=
  i.temps.find? fun t => !a.colors.contains t

/-- Whether the instruction copies something to itself. -/
def isSelfMove (i : Instr) : Bool :=
  match i.copy? with
  | some (dst, src) => dst = src
  | none => false

/-- Replace every temporary by its register, and drop copies that have become copies
of a register to itself. -/
def apply (a : Allocation) : List Instr → Pass (List Instr)
  | [] => pure []
  | i :: rest =>
    match a.missing? i with
    | some t => throw (.unassigned t)
    | none => do
      let placed := i.rename a.place
      if isSelfMove placed then
        Pass.noteInstr .trace "Dropping " placed ""
        a.apply rest
      else
        let code ← a.apply rest
        pure (placed :: code)

end Allocation

/-- The flow of an instruction list and its live sets. -/
def analyse (code : List Instr) : Pass Liveness := do
  let flow ← Attempt.ofExcept (Flow.ofCode code)
  let (live, sweeps) := Liveness.ofCode code flow
  Pass.note .trace ("Liveness reached a fixed point after " ++ toString sweeps ++ " iterations")
  pure live

/-- The interference graph of an instruction list. -/
def interference (palette : List Temp) (code : List Instr) : Pass Interference := do
  let live ← analyse code
  pure (Interference.ofCode palette code live)

/-- Note what was decided. -/
def noteDecisions : List Decision → Pass Unit
  | [] => pure ()
  | d :: rest => do
    Pass.note .trace d.text
    noteDecisions rest

/-- Colour an interference graph. -/
def colorGraph (palette : List Temp) (unspillable : TempSet) (g : Interference) :
    Pass Outcome := do
  let outcome := color palette unspillable g
  noteDecisions outcome.decisions
  pure outcome

/-- Colour an instruction list once. -/
def colorRound (round : Nat) (unspillable : TempSet) (code : List Instr) : Pass Outcome := do
  let frame ← Pass.frame
  let g ← interference frame.palette code
  Pass.noteText .trace fun _ =>
    .ok ("Interference graph for " ++ frame.name.text ++ ":\n" ++ g.text)
  let outcome ← colorGraph frame.palette unspillable g
  Pass.note .debug ("Round " ++ toString round ++ " for " ++ frame.name.text ++ ": " ++
    toString outcome.coalescedMoves ++ " moves coalesced, " ++
    toString outcome.spilled.length ++ " spills")
  pure outcome

/-- What the rounds so far have led to. -/
structure Progress where
  code : List Instr
  spilled : List Temp := []
  /-- What spilling made up. -/
  created : TempSet := ∅

/-- Rounds from number `round` on, `left` of them at most. -/
def allocateRounds (limit : Nat) (round : Nat) :
    (left : Nat) → Progress → Pass (List Instr × Allocation)
  | 0, _ => throw (.nonConvergence limit)
  | left + 1, p => do
    let outcome ← colorRound round p.created p.code
    if outcome.spilled.isEmpty then
      let frame ← Pass.frame
      Pass.note .info ("Allocated registers for " ++ frame.name.text ++ " in " ++ toString round ++
        " rounds, " ++ toString p.spilled.length ++ " spilled")
      pure (p.code, ⟨outcome.colors, p.spilled, round⟩)
    else
      let (code, created) ← Spill.toSlots outcome.spilled p.code
      allocateRounds limit (round + 1) left
        { code := code
          spilled := p.spilled ++ outcome.spilled
          created := p.created ∪ TempSet.ofList created }

/-- The number of virtual temporaries of an instruction list. -/
def virtualCount (code : List Instr) : Nat :=
  (TempSet.ofList ((code.flatMap Instr.temps).filter fun t => !t.isRegister)).size

/-- Assign a register of the frame's palette to every temporary.  Gives the
instruction list with spill code, still in terms of temporaries, and the
assignment. -/
def allocate (code : List Instr) : Pass (List Instr × Allocation) :=
  let limit := virtualCount code + 1
  allocateRounds limit 1 limit { code }

end Lowering
