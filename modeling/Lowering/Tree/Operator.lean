/-!
# Operators of tree code

The binary operators on machine words and the relations that a conditional
branch can test, with their written forms and their meaning on words.
-/

namespace Lowering

/-- A machine word. -/
abbrev Word := Int64

/-- A binary operator on words. -/
inductive BinOp where
  | plus | minus | mul | div | and | or | xor
  /-- Shift left. -/
  | shl
  /-- Shift right, filling with zeros. -/
  | shr
  /-- Shift right, filling with the sign. -/
  | sar
  deriving DecidableEq, Repr, Inhabited

/-- The written form of a binary operator. -/
def BinOp.text : BinOp → String
  | plus => "+"
  | minus => "-"
  | mul => "*"
  | div => "/"
  | and => "&"
  | or => "|"
  | xor => "^"
  | shl => "<<"
  | shr => ">>"
  | sar => ">>>"

/-- The value of a binary operation.  Sums, differences and products wrap around, a
quotient is rounded toward zero, and the lowest six bits of the amount of a shift
count. -/
def BinOp.eval : BinOp → Word → Word → Word
  | plus, a, b => a + b
  | minus, a, b => a - b
  | mul, a, b => a * b
  | div, a, b => a / b
  | and, a, b => a &&& b
  | or, a, b => a ||| b
  | xor, a, b => a ^^^ b
  | shl, a, b => a <<< b
  | shr, a, b => (a.toUInt64 >>> b.toUInt64).toInt64
  | sar, a, b => a >>> b

/-- A relation between words; those that start with `u` read them as unsigned. -/
inductive RelOp where
  | eq | ne | lt | gt | le | ge | ult | ugt | ule | uge
  deriving DecidableEq, Repr, Inhabited

namespace RelOp

/-- The written form of a relation. -/
def text : RelOp → String
  | eq => "=="
  | ne => "!="
  | lt => "<"
  | gt => ">"
  | le => "<="
  | ge => ">="
  | ult => "<u"
  | ugt => ">u"
  | ule => "<=u"
  | uge => ">=u"

/-- The relation that holds exactly when this one does not. -/
def negate : RelOp → RelOp
  | eq => ne
  | ne => eq
  | lt => ge
  | ge => lt
  | gt => le
  | le => gt
  | ult => uge
  | uge => ult
  | ugt => ule
  | ule => ugt

@[simp] theorem negate_negate (op : RelOp) : op.negate.negate = op := by
  cases op <;> rfl

/-- Whether the relation holds between two words. -/
def holds : RelOp → Word → Word → Bool
  | eq, a, b => a = b
  | ne, a, b => a ≠ b
  | lt, a, b => a < b
  | gt, a, b => b < a
  | le, a, b => a ≤ b
  | ge, a, b => b ≤ a
  | ult, a, b => a.toUInt64 < b.toUInt64
  | ugt, a, b => b.toUInt64 < a.toUInt64
  | ule, a, b => a.toUInt64 ≤ b.toUInt64
  | uge, a, b => b.toUInt64 ≤ a.toUInt64

@[simp] theorem holds_negate (op : RelOp) (a b : Word) :
    op.negate.holds a b = !op.holds a b := by
  rw [Bool.eq_iff_iff]
  cases op <;> simp [negate, holds, Int64.not_lt, Int64.not_le, UInt64.not_lt, UInt64.not_le]

end RelOp

end Lowering
