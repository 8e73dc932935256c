import Lowering.Tree.Printer

/-!
# Quads

A quad does one thing, and its operands are used as they stand: a temporary, the
address of a label, or a constant.
-/

namespace Lowering

/-- An operand that needs no evaluation. -/
inductive Operand where
  | temp (t : Temp)
  | name (label : Label)
  | const (value : Word)
  deriving DecidableEq, Repr, Inhabited

/-- The written form of an operand. -/
def Operand.text : Operand → String
  | temp t => t.text
  | name label => label.text
  | const value => Word.text value

/-- A statement with simple operands. -/
inductive Quad where
  /-- Read the word at an address. -/
  | load (dst : Temp) (address : Operand)
  /-- Write the word at an address. -/
  | store (address value : Operand)
  /-- Apply a binary operator. -/
  | binop (op : BinOp) (dst : Temp) (lhs rhs : Operand)
  /-- Copy an operand. -/
  | move (dst : Temp) (src : Operand)
  /-- Call a function, keeping its result if there is a destination. -/
  | call (function : Operand) (args : List Operand) (dst : Option Temp)
  /-- Go to a computed address. -/
  | jump (target : Operand) (labels : List Label)
  /-- Compare and go to one of two labels. -/
  | cjump (op : RelOp) (lhs rhs : Operand) (onTrue onFalse : Label)
  /-- The definition of a label. -/
  | label (label : Label)
  deriving DecidableEq, Repr, Inhabited

/-- The written form of a quad. -/
def Quad.text : Quad → String
  | load dst address => dst.text ++ " = load " ++ address.text
  | store address value => "store " ++ address.text ++ ", " ++ value.text
  | binop op dst lhs rhs => dst.text ++ " = " ++ lhs.text ++ " " ++ op.text ++ " " ++ rhs.text
  | move dst src => dst.text ++ " = " ++ src.text
  | call function args dst =>
    (match dst with
      | some t => t.text ++ " = "
      | none => "") ++
      "call " ++ function.text ++ "(" ++ commaSeparated (args.map Operand.text) ++ ")"
  | jump (.name l) _ => "jump " ++ l.text
  | jump target labels =>
    "jump " ++ target.text ++ " [" ++ commaSeparated (labels.map Label.text) ++ "]"
  | cjump op lhs rhs onTrue onFalse =>
    "if " ++ lhs.text ++ " " ++ op.text ++ " " ++ rhs.text ++
      " goto " ++ onTrue.text ++ " else " ++ onFalse.text
  | label l => l.text ++ ":"

end Lowering
