import Lowering.Main
import Lowering.Proofs.Allocation.Convergence
import Lowering.Proofs.Allocation.Meaning
import Lowering.Proofs.Allocation.Sharing
import Lowering.Proofs.Block.Schedule
import Lowering.Proofs.Block.Shape
import Lowering.Proofs.Canonical.Meaning
import Lowering.Proofs.Canonical.Normal
import Lowering.Proofs.Coloring.Greedy
import Lowering.Proofs.Coloring.Outcome
import Lowering.Proofs.Mips.Meaning
import Lowering.Proofs.Pipeline
import Lowering.Proofs.Quad.Fault
import Lowering.Proofs.Quad.Meaning
import Lowering.Proofs.Coloring.Hosts
import Lowering.Proofs.Session.Names
import Lowering.Proofs.Session.Passes
import Lowering.Proofs.Arrival
import Lowering.Proofs.Session.Hygiene
import Lowering.Proofs.Allocation.Exit
import Lowering.Proofs.Liveness.Paths
import Lowering.Proofs.Interference.Edges
import Lowering.Proofs.Spill.Reversal
import Lowering.Proofs.Mips.Arguments
import Lowering.Proofs.Block.Recovery
import Lowering.Proofs.Canonical.Fixed
import Lowering.Proofs.Canonical.Order
import Lowering.Proofs.Canonical.Rejection
import Lowering.Proofs.Allocation.Printing
import Lowering.Proofs.Block.Trace
import Lowering.Proofs.Mips.Fault
import Lowering.Proofs.Mips.Naming
import Lowering.Proofs.Mips.Field
import Lowering.Proofs.Coloring.Worklist
import Lowering.Proofs.Interference.Representation
