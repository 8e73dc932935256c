import Lowering.Canonical
import Lowering.Quad.Basic

/-!
# From trees to quads

Every operation that is an operand is first *named*: it becomes a move into a
fresh temporary, followed by that temporary.  The canonical statements of the
result have simple operands, and each is one quad; evaluating a simple operand
for its effect is none.

The source of a move is named if the target is a word of memory as it stands.
Behind a statement in the target it is not, and a source that is not simple is
then refused.
-/

namespace Lowering

/-- Whether the expression is a word of memory. -/
def Expr.isMem : Expr → Bool
  | .mem _ => true
  | _ => false

/-- Give a value that is not simple a fresh temporary. -/
def Expr.named (x : Fresh Expr) : Fresh Expr := do
  let e ← x
  if e.isSimple then
    pure e
  else
    let t ← Fresh.temp
    pure (.eseq (.move (.temp t) e) (.temp t))

mutual

/-- Name the operands of an expression. -/
def Expr.simplify : Expr → Fresh Expr
  | .const value => pure (.const value)
  | .name label => pure (.name label)
  | .temp t => pure (.temp t)
  | .binop op lhs rhs => do
    let lhs ← Expr.named lhs.simplify
    let rhs ← Expr.named rhs.simplify
    pure (.binop op lhs rhs)
  | .mem address => do
    let address ← Expr.named address.simplify
    pure (.mem address)
  | .call function args => do
    let function ← Expr.named function.simplify
    let args ← Expr.simplifyAll args
    pure (.call function args)
  | .eseq stmt value => do
    let stmt ← stmt.simplify
    let value ← Expr.named value.simplify
    pure (.eseq stmt value)
  termination_by structural e => e

/-- Name expressions that are evaluated one after another. -/
def Expr.simplifyAll : List Expr → Fresh (List Expr)
  | [] => pure []
  | e :: rest => do
    let e ← Expr.named e.simplify
    let rest ← Expr.simplifyAll rest
    pure (e :: rest)
  termination_by structural es => es

/-- Name what is inside a move target, leaving the target itself in place. -/
def Expr.simplifyTarget : Expr → Fresh Expr
  | .mem address => do
    let address ← Expr.named address.simplify
    pure (.mem address)
  | .eseq stmt target => do
    let stmt ← stmt.simplify
    let target ← target.simplifyTarget
    pure (.eseq stmt target)
  | target => pure target
  termination_by structural target => target

/-- Name the operands of a branch. -/
def Branch.simplify : Branch → Fresh Branch
  | .jump target labels => do
    let target ← Expr.named target.simplify
    pure (.jump target labels)
  | .cjump op lhs rhs onTrue onFalse => do
    let lhs ← Expr.named lhs.simplify
    let rhs ← Expr.named rhs.simplify
    pure (.cjump op lhs rhs onTrue onFalse)
  termination_by structural b => b

/-- Name the operands of a statement. -/
def Stmt.simplify : Stmt → Fresh Stmt
  | .seq first second => do
    let first ← first.simplify
    let second ← second.simplify
    pure (.seq first second)
  | .label label => pure (.label label)
  | .move target source => do
    let place ← target.simplifyTarget
    let value ← if target.isMem then Expr.named source.simplify else source.simplify
    pure (.move place value)
  | .eval expr => do
    let value ← if expr.isCall then expr.simplify else Expr.named expr.simplify
    pure (.eval value)
  | .branch branch => do
    let branch ← branch.simplify
    pure (.branch branch)
  termination_by structural s => s

end

/-- A simple expression as an operand. -/
def Operand.ofExpr : Expr → Except Fault Operand
  | .temp t => .ok (.temp t)
  | .name label => .ok (.name label)
  | .const value => .ok (.const value)
  | e => .error (.complexOperand e)

/-- The quad of a canonical statement, if it does anything. -/
def Quad.ofCanonical : Stmt → Except Fault (Option Quad)
  | .label l => .ok (some (.label l))
  | .branch (.jump target labels) => do
    let target ← Operand.ofExpr target
    .ok (some (.jump target labels))
  | .branch (.cjump op lhs rhs onTrue onFalse) => do
    let lhs ← Operand.ofExpr lhs
    let rhs ← Operand.ofExpr rhs
    .ok (some (.cjump op lhs rhs onTrue onFalse))
  | .move (.mem address) value => do
    let address ← Operand.ofExpr address
    let value ← Operand.ofExpr value
    .ok (some (.store address value))
  | .move (.temp dst) (.mem address) => do
    let address ← Operand.ofExpr address
    .ok (some (.load dst address))
  | .move (.temp dst) (.binop op lhs rhs) => do
    let lhs ← Operand.ofExpr lhs
    let rhs ← Operand.ofExpr rhs
    .ok (some (.binop op dst lhs rhs))
  | .move (.temp dst) (.call function args) => do
    let function ← Operand.ofExpr function
    let args ← args.mapM Operand.ofExpr
    .ok (some (.call function args (some dst)))
  | .move (.temp dst) source => do
    let src ← Operand.ofExpr source
    .ok (some (.move dst src))
  | .eval (.call function args) => do
    let function ← Operand.ofExpr function
    let args ← args.mapM Operand.ofExpr
    .ok (some (.call function args none))
  | .eval (.const _) | .eval (.name _) | .eval (.temp _) => .ok none
  | s => .error (.noQuadForm s)

/-- The quads of a list of canonical statements. -/
def Quad.ofCanonicals (stmts : List Stmt) : Except Fault (List Quad) := do
  let quads ← stmts.mapM Quad.ofCanonical
  .ok (quads.filterMap id)

end Lowering
