import Lowering.Temp

/-!
# Registers of the MIPS target

The registers that the passes treat in a special way, and the order in which the
allocator prefers them.
-/

namespace Lowering.Mips

/-- The register that always holds zero. -/
def zero : Temp := .register "zero"
/-- The register of a function's result. -/
def v0 : Temp := .register "v0"
/-- The second result register. -/
def v1 : Temp := .register "v1"
/-- The stack pointer. -/
def sp : Temp := .register "sp"
/-- The frame pointer. -/
def fp : Temp := .register "fp"
/-- The register of the return address. -/
def ra : Temp := .register "ra"

/-- Arguments are passed in these registers; none is passed in memory. -/
def argumentRegisters : List Temp :=
  [.register "a0", .register "a1", .register "a2", .register "a3"]

/-- Registers that a call may overwrite. -/
def callerSaved : List Temp :=
  [.register "t0", .register "t1", .register "t2", .register "t3", .register "t4",
   .register "t5", .register "t6", .register "t7", .register "t8", .register "t9"]

/-- Registers that a call leaves alone. -/
def calleeSaved : List Temp :=
  [.register "s0", .register "s1", .register "s2", .register "s3",
   .register "s4", .register "s5", .register "s6", .register "s7"]

/-- Every register that the allocator may hand out, the preferred ones first. -/
def allocatable : List Temp := callerSaved ++ [v0, v1] ++ argumentRegisters ++ calleeSaved

/-- What a call writes: its results, the return address, and all that need not
survive it. -/
def callDefs : List Temp := [v0, v1, ra] ++ callerSaved ++ argumentRegisters

end Lowering.Mips
