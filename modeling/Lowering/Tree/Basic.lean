import Lowering.Temp
import Lowering.Label
import Lowering.Tree.Operator

/-!
# Tree code

Expressions compute a value and statements are run for their effect; the two are
nested in each other through `Expr.eseq`.  Operands are evaluated from left to
right.

## Main definitions

* `Expr`, `Branch`, `Stmt` — tree code.
* `Stmt.ofList` — a list of statements as one, nested to the right.
-/

namespace Lowering

mutual

/-- Something that computes a word. -/
inductive Expr where
  /-- A constant. -/
  | const (value : Word)
  /-- The address of a label. -/
  | name (label : Label)
  /-- The contents of a temporary. -/
  | temp (t : Temp)
  /-- A binary operation; the left operand is evaluated first. -/
  | binop (op : BinOp) (lhs rhs : Expr)
  /-- The word of memory at an address. -/
  | mem (address : Expr)
  /-- A call; the function is evaluated first, then the arguments in order. -/
  | call (function : Expr) (args : List Expr)
  /-- A statement run for its effect, followed by the value. -/
  | eseq (stmt : Stmt) (value : Expr)
  deriving Repr

/-- A transfer of control. -/
inductive Branch where
  /-- Go to a computed address, which is that of one of the labels. -/
  | jump (target : Expr) (labels : List Label)
  /-- Compare two words and go to one of two labels. -/
  | cjump (op : RelOp) (lhs rhs : Expr) (onTrue onFalse : Label)
  deriving Repr

/-- Something that is run for its effect. -/
inductive Stmt where
  /-- One statement, then another. -/
  | seq (first second : Stmt)
  /-- The definition of a label. -/
  | label (label : Label)
  /-- Store the source in the target, which is a temporary or a word of memory. -/
  | move (target source : Expr)
  /-- Evaluate an expression and drop its value. -/
  | eval (expr : Expr)
  /-- Transfer control. -/
  | branch (branch : Branch)
  deriving Repr

end

namespace Expr

instance : Inhabited Expr := ⟨const 0⟩

/-- Constants, names and temporaries can be used as they stand. -/
def isSimple : Expr → Bool
  | const _ | name _ | temp _ => true
  | _ => false

/-- Whether the expression is itself a call. -/
def isCall : Expr → Bool
  | call .. => true
  | _ => false

/-- Whether the value depends on no state at all. -/
def isFixed : Expr → Bool
  | const _ | name _ => true
  | _ => false

end Expr

namespace Branch

/-- The jump to a known label. -/
def goto (label : Label) : Branch := jump (.name label) [label]

end Branch

namespace Stmt

/-- The statement that does nothing. -/
def nop : Stmt := eval (.const 0)

instance : Inhabited Stmt := ⟨nop⟩

/-- Evaluating a constant has no effect. -/
def isNop : Stmt → Bool
  | eval (.const _) => true
  | _ => false

/-- The jump to a known label. -/
def goto (label : Label) : Stmt := branch (.goto label)

/-- A list of statements as one statement, nested to the right. -/
def ofList : List Stmt → Stmt
  | [] => nop
  | [s] => s
  | s :: rest => seq s (ofList rest)

end Stmt

end Lowering
