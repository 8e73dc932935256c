import Lowering.Tree.Basic

/-!
# The written form of tree code

A binary operand of a binary operation is bracketed; nothing else is.  A jump to
a known label does not list its labels.
-/

namespace Lowering

/-- Items between commas. -/
def commaSeparated (items : List String) : String := ", ".intercalate items

/-- The written form of a word. -/
def Word.text (value : Word) : String := toString value.toInt

/-- Bracket the text of an operand that is itself a binary operation. -/
def Expr.bracket (operand : Expr) (text : String) : String :=
  match operand with
  | .binop .. => "(" ++ text ++ ")"
  | _ => text

mutual

/-- The written form of an expression. -/
def Expr.text : Expr → String
  | .const value => Word.text value
  | .name label => label.text
  | .temp t => t.text
  | .binop op lhs rhs => lhs.bracket lhs.text ++ " " ++ op.text ++ " " ++ rhs.bracket rhs.text
  | .mem address => "mem[" ++ address.text ++ "]"
  | .call function args =>
    "call " ++ function.text ++ "(" ++ commaSeparated (Expr.texts args) ++ ")"
  | .eseq stmt value => "eseq \x7b " ++ stmt.text ++ "; " ++ value.text ++ " \x7d"
  termination_by structural e => e

/-- The written forms of a list of expressions. -/
def Expr.texts : List Expr → List String
  | [] => []
  | e :: rest => e.text :: Expr.texts rest
  termination_by structural es => es

/-- The written form of a branch. -/
def Branch.text : Branch → String
  | .jump (.name label) _ => "jump " ++ label.text
  | .jump target labels =>
    "jump " ++ target.text ++ " [" ++ commaSeparated (labels.map Label.text) ++ "]"
  | .cjump op lhs rhs onTrue onFalse =>
    "if " ++ lhs.text ++ " " ++ op.text ++ " " ++ rhs.text ++
      " goto " ++ onTrue.text ++ " else " ++ onFalse.text
  termination_by structural b => b

/-- The written form of a statement. -/
def Stmt.text : Stmt → String
  | .seq first second => first.text ++ "; " ++ second.text
  | .label label => label.text ++ ":"
  | .move target source => target.text ++ " = " ++ source.text
  | .eval expr => expr.text
  | .branch branch => branch.text
  termination_by structural s => s

end

end Lowering
