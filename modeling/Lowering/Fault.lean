import Lowering.Tree.Printer

/-!
# Faults

Every way in which a pass can fail, as a cause.  `Fault.message` is the only
place that words them.

Most faults mean that an earlier pass handed over something malformed.  An
overflow is not a report about the program but a number that left the range of
64-bit words.
-/

namespace Lowering

/-- A step of 64-bit arithmetic. -/
inductive Arithmetic where
  | negate | multiply | add
  deriving DecidableEq, Repr, Inhabited

/-- The word for an arithmetic step. -/
def Arithmetic.text : Arithmetic → String
  | negate => "negate"
  | multiply => "multiply"
  | add => "add"

/-- The cause of a failure. -/
inductive Fault where
  /-- A move into something that is neither a temporary nor memory. -/
  | badMoveTarget (target : Expr)
  /-- After staging, not as many operands are left as there were. -/
  | lostOperands (expected left : Nat)
  /-- After staging, the function of a call is not left. -/
  | lostFunction
  /-- A canonical statement that is no quad. -/
  | noQuadForm (stmt : Stmt)
  /-- An operand of a quad that needs evaluation. -/
  | complexOperand (expr : Expr)
  /-- A sequence in a list that should be flat. -/
  | nestedSequence
  /-- Two blocks with one label. -/
  | duplicateBlock (label : Label)
  /-- A block was to be placed that is placed already. -/
  | placedTwice (label : Label)
  /-- Selection was asked to write to something it cannot address. -/
  | unwritable (target : Expr)
  /-- Selection met a statement inside an expression. -/
  | nestedStatement (expr : Expr)
  /-- A call with more arguments than there are argument registers. -/
  | tooManyArguments (supported given : Nat)
  /-- A jump to a label that no instruction defines. -/
  | undefinedLabel (label : Label)
  /-- A temporary without a register. -/
  | unassigned (t : Temp)
  /-- Spilling has not settled within the allowed number of rounds. -/
  | nonConvergence (rounds : Nat)
  /-- A number left the range of words. -/
  | overflow (step : Arithmetic)
  deriving Repr, Inhabited

namespace Fault

/-- The wording of a fault that points to an earlier pass. -/
def invariant (detail : String) : String := "internal invariant violated: " ++ detail

/-- The report for a fault. -/
def message : Fault → String
  | badMoveTarget target => invariant ("invalid move target: " ++ target.text)
  | lostOperands expected left =>
    invariant ("expected " ++ toString expected ++ " expressions after reordering, got " ++
      toString left)
  | lostFunction => invariant "call lost its function expression during reordering"
  | noQuadForm stmt => invariant ("statement has no quad form: " ++ stmt.text)
  | complexOperand expr =>
    invariant ("expected a temporary, name or constant, but got " ++ expr.text)
  | nestedSequence => invariant "unexpected sequence in canonical statement list"
  | duplicateBlock label => invariant ("duplicate block label: " ++ label.text)
  | placedTwice label => invariant ("attempted to re-trace block " ++ label.text)
  | unwritable target => invariant ("cannot move into " ++ target.text)
  | nestedStatement expr => invariant ("unexpected eseq in " ++ expr.text)
  | undefinedLabel label => invariant ("jump to undefined label " ++ label.text)
  | unassigned t => invariant ("no register was assigned to " ++ t.text)
  | tooManyArguments supported given =>
    "target supports only " ++ toString supported ++ " call arguments, but got " ++ toString given
  | nonConvergence rounds =>
    "register allocation did not converge after " ++ toString rounds ++ " rounds"
  | overflow step => "attempt to " ++ step.text ++ " with overflow"

end Fault

end Lowering
