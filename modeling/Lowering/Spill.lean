import Lowering.Pass
import Std.Data.TreeMap

/-!
# Spilling

A spilled temporary lives in a slot of the frame.  Around each instruction that
mentions it a fresh temporary takes its place, loaded from the slot before if the
instruction reads it and stored to the slot afterwards if the instruction writes
it.  So the fresh temporary lives only around this one instruction.

## Main definitions

* `Spill.Replacement` — a fresh temporary for a spilled one.
* `Spill.expand` — one instruction with its loads and stores.
* `Spill.toSlots` — a whole instruction list.
-/

namespace Lowering.Spill

/-- The slots of the spilled temporaries. -/
abbrev Slots := Std.TreeMap Temp Int

/-- A fresh temporary in the place of a spilled one. -/
structure Replacement where
  /-- The spilled temporary. -/
  spilled : Temp
  /-- Where it lives. -/
  offset : Int
  /-- What takes its place. -/
  fresh : Temp
  deriving DecidableEq, Repr, Inhabited

/-- Reserve a slot for each of some temporaries, in addition to those there are. -/
def reserveAll (slots : Slots) : List Temp → Pass Slots
  | [] => pure slots
  | t :: rest => do
    let offset ← Pass.reserve
    reserveAll (slots.insert t offset) rest

/-- The spilled temporaries of an instruction, those it reads first, each once. -/
def mentioned (slots : Slots) (i : Instr) : List (Temp × Int) :=
  (i.uses ++ i.defs).eraseDups.filterMap fun t => slots[t]?.map (t, ·)

/-- Draw a fresh temporary for each of some spilled ones. -/
def replaceAll : List (Temp × Int) → Fresh (List Replacement)
  | [] => pure []
  | (t, offset) :: rest => do
    let fresh ← Fresh.temp
    let replacements ← replaceAll rest
    pure (⟨t, offset, fresh⟩ :: replacements)

/-- What takes the place of a temporary. -/
def substitute (replacements : List Replacement) (t : Temp) : Temp :=
  match replacements.find? (·.spilled = t) with
  | some r => r.fresh
  | none => t

/-- An instruction with its spilled temporaries replaced, between loads and stores. -/
def window (replacements : List Replacement) (i : Instr) : List Instr :=
  let loads := replacements.filter fun r => i.uses.contains r.spilled
  let stores := replacements.filter fun r => i.defs.contains r.spilled
  loads.map (fun r => Mips.loadSlot r.offset r.fresh) ++
    [i.rename (substitute replacements)] ++
    stores.map fun r => Mips.storeSlot r.offset r.fresh

/-- Spill around one instruction.  Also gives the fresh temporaries. -/
def expand (slots : Slots) (i : Instr) : Pass (List Instr × List Temp) := do
  let replacements ← Pass.fresh (replaceAll (mentioned slots i))
  unless replacements.isEmpty do
    Pass.noteInstr .trace "Rewriting " i " for spilled temporaries"
  pure (window replacements i, replacements.map (·.fresh))

/-- Spill around every instruction. -/
def expandAll (slots : Slots) : List Instr → Pass (List Instr × List Temp)
  | [] => pure ([], [])
  | i :: rest => do
    let (code, created) ← expand slots i
    let (codeRest, createdRest) ← expandAll slots rest
    pure (code ++ codeRest, created ++ createdRest)

/-- Move each of some temporaries to a slot of its own.  Gives the new instruction
list and the fresh temporaries. -/
def toSlots (spilled : List Temp) (code : List Instr) : Pass (List Instr × List Temp) := do
  let slots ← reserveAll ∅ spilled
  expandAll slots code

end Lowering.Spill
