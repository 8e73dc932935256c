import Lowering.Tree.Basic

/-!
# Canonical form

Evaluating a pure expression has no effect.  A canonical statement is made of pure
expressions and at most one call, which is all that it evaluates or all that it
moves into a temporary.  Evaluating a constant is not canonical, since it does
nothing.

## Main definitions

* `Expr.isPure`, `Expr.isPureCall`, `Branch.isPure` — what a canonical statement is
  made of.
* `Stmt.isCanonical` — canonical statements.
-/

namespace Lowering

namespace Expr

/-- Whether there is neither a call nor a statement in the expression. -/
def isPure : Expr → Bool
  | const _ | name _ | temp _ => true
  | binop _ lhs rhs => lhs.isPure && rhs.isPure
  | mem address => address.isPure
  | call .. | eseq .. => false

/-- Whether the expression is a call of a pure function with pure arguments. -/
def isPureCall : Expr → Bool
  | call function args => function.isPure && args.all isPure
  | _ => false

/-- Whether the expression is pure except that it may itself be a call. -/
def isPureOrCall (e : Expr) : Bool := e.isPure || e.isPureCall

end Expr

/-- Whether the operands of a branch are pure. -/
def Branch.isPure : Branch → Bool
  | jump target _ => target.isPure
  | cjump _ lhs rhs _ _ => lhs.isPure && rhs.isPure

namespace Stmt

/-- Whether a statement is canonical. -/
def isCanonical : Stmt → Bool
  | seq .. => false
  | label _ => true
  | move (.temp _) source => source.isPureOrCall
  | move (.mem address) source => address.isPure && source.isPure
  | move .. => false
  | eval (.const _) => false
  | eval expr => expr.isPureOrCall
  | branch b => b.isPure

end Stmt

end Lowering
