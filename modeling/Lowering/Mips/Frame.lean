import Lowering.Instr.Basic
import Lowering.Mips.Register

/-!
# Frames

The frame of one function: its name, the registers it may use, and the words it
has reserved below the frame pointer.  A reserved word is called a slot and is
known by its offset, which is never handed out twice.
-/

namespace Lowering.Mips

/-- The number of bytes in a word of the frame. -/
def wordSize : Nat := 4

/-- The activation record of a function. -/
structure Frame where
  /-- The function's label. -/
  name : Label
  /-- The registers that may be assigned, in order of preference. -/
  palette : List Temp := allocatable
  /-- How many slots are reserved. -/
  locals : Nat := 0
  deriving DecidableEq, Repr, Inhabited

namespace Frame

/-- The offset of the `n`-th slot from the frame pointer, counted from one. -/
def slotOffset (n : Nat) : Int := -(n * wordSize : Nat)

/-- Reserve a slot. -/
def reserve (frame : Frame) : Int × Frame :=
  (slotOffset (frame.locals + 1), { frame with locals := frame.locals + 1 })

end Frame

/-- Store a temporary in a slot. -/
def storeSlot (offset : Int) (t : Temp) : Instr :=
  .op ("sw 's0, " ++ toString offset ++ "('s1)") [] [t, fp]

/-- Load a temporary from a slot. -/
def loadSlot (offset : Int) (t : Temp) : Instr :=
  .op ("lw 'd0, " ++ toString offset ++ "('s0)") [t] [fp]

/-- The end of a function.  It emits nothing, goes nowhere, and reads what the
caller relies on, so that these registers are live to the end. -/
def sink : Instr := .jumping "" ([zero, ra, sp] ++ calleeSaved) []

/-- Mark the end of a function. -/
def withSink (code : List Instr) : List Instr := code ++ [sink]

end Lowering.Mips
