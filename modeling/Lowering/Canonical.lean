import Lowering.Canonical.Form
import Lowering.Supply

/-!
# Canonical statements

`Stmt.canonical` turns any statement into a list of canonical ones: no statement is
nested in another, and every call is a statement of its own or the whole source of a
move into a temporary.

The effects of an expression are *staged*: run first, in the order of evaluation,
so that an expression without effects is left.  A value that later effects might
change is saved in a fresh temporary between its own effects and the later ones.
Whether a change is possible is judged from the outside: a constant or the
address of a label is never saved, everything else is, as soon as there is any
later effect.

Evaluating a constant is dropped.  A move into something that is neither a
temporary nor memory is a fault.  Operands are staged as a list, and whoever
takes them out of the list again checks how many are left.

## Main definitions

* `Staged` — effects to run first, and what is left.
* `Staged.operands`, `Staged.call` — stage operands, and check what is left of them.
* `Expr.stage`, `Expr.stageAll` — stage an expression, or a list of them.
* `Expr.stageAlone` — stage all that a statement evaluates.
* `Expr.stageInto` — stage a move into a given target.
* `Stmt.canonical` — the canonical statements of a statement.
-/

namespace Lowering

/-- A value together with the effects that have to run before it. -/
structure Staged (α : Type) where
  /-- What to run first, in order. -/
  effects : List Stmt
  /-- What is left to evaluate. -/
  value : α

/-- Whether running the effects first leaves the value of the expression alone. -/
def Expr.commutes (e : Expr) (effects : List Stmt) : Bool :=
  e.isFixed || effects.isEmpty

namespace Staged

/-- Nothing to run first. -/
def plain {α : Type} (value : α) : Staged α := ⟨[], value⟩

/-- Store the value in a temporary, as the last effect. -/
def saveIn (s : Staged Expr) (t : Temp) : Staged Expr :=
  ⟨s.effects ++ [.move (.temp t) s.value], .temp t⟩

/-- Stage an operand.  A call may change what its neighbours read, so its result
goes to a fresh temporary.  The temporary of an operand that is itself a call is
drawn before those of its parts; a call that only comes to the surface behind
other effects draws its own afterwards. -/
def operand (e : Expr) (stage : Fresh (Staged Expr)) : Fresh (Staged Expr) :=
  if e.isCall then do
    let t ← Fresh.temp
    let staged ← stage
    pure (staged.saveIn t)
  else do
    let staged ← stage
    if staged.value.isCall then
      let t ← Fresh.temp
      pure (staged.saveIn t)
    else
      pure staged

/-- Stage an operand and then what is evaluated after it, saving the operand if
the later effects could change it. -/
def pair {α : Type} (first : Fresh (Staged Expr)) (rest : Fresh (Staged α)) :
    Fresh (Staged (Expr × α)) := do
  let head ← first
  let tail ← rest
  if head.value.commutes tail.effects then
    pure ⟨head.effects ++ tail.effects, head.value, tail.value⟩
  else
    let t ← Fresh.temp
    let head := head.saveIn t
    pure ⟨head.effects ++ tail.effects, head.value, tail.value⟩

/-- Stage an operand and then operands that are evaluated after it. -/
def cons (first : Fresh (Staged Expr)) (rest : Fresh (Staged (List Expr))) :
    Fresh (Staged (List Expr)) := do
  let staged ← pair first rest
  pure ⟨staged.effects, staged.value.1 :: staged.value.2⟩

/-- Stage operands that are evaluated one after another. -/
def reorder : List (Fresh (Staged Expr)) → Fresh (Staged (List Expr))
  | [] => pure (plain [])
  | first :: rest => cons first (reorder rest)

/-- The expressions, if they are as many as expected. -/
def take (count : Nat) (es : List Expr) : Fresh (Vector Expr count) :=
  if h : es.length = count then pure ⟨es.toArray, h⟩ else throw (.lostOperands count es.length)

/-- Stage a known number of operands. -/
def operands {count : Nat} (given : Vector (Fresh (Staged Expr)) count) :
    Fresh (Staged (Vector Expr count)) := do
  let staged ← reorder given.toList
  let es ← take count staged.value
  pure ⟨staged.effects, es⟩

/-- Stage a binary operation. -/
def binop (op : BinOp) (lhs rhs : Fresh (Staged Expr)) : Fresh (Staged Expr) := do
  let staged ← operands #v[lhs, rhs]
  pure ⟨staged.effects, .binop op staged.value[0] staged.value[1]⟩

/-- Stage a read of memory. -/
def mem (address : Fresh (Staged Expr)) : Fresh (Staged Expr) := do
  let staged ← operands #v[address]
  pure ⟨staged.effects, .mem staged.value[0]⟩

/-- Stage a call, whose function is evaluated before its arguments. -/
def call (function : Fresh (Staged Expr)) (args : Fresh (Staged (List Expr))) :
    Fresh (Staged Expr) := do
  let staged ← cons function args
  match staged.value with
  | [] => throw .lostFunction
  | function :: args => pure ⟨staged.effects, .call function args⟩

/-- Stage the one operand of a statement. -/
def alone (operand : Fresh (Staged Expr)) : Fresh (Staged Expr) := do
  let staged ← operands #v[operand]
  pure ⟨staged.effects, staged.value[0]⟩

/-- The effects followed by one statement made from the value. -/
def finish {α : Type} (s : Staged α) (last : α → Stmt) : List Stmt :=
  s.effects ++ [last s.value]

/-- The effects followed by the evaluation of the value, unless it is a constant. -/
def evaluate (s : Staged Expr) : List Stmt :=
  match s.value with
  | .const _ => s.effects
  | value => s.effects ++ [.eval value]

end Staged

open Staged

/-- Whether a move into the expression goes to a temporary in the end. -/
def Expr.endsInTemp : Expr → Bool
  | .temp _ => true
  | .eseq _ target => target.endsInTemp
  | _ => false

mutual

/-- Stage an expression: what is left has no effects, except that it may itself
be a call. -/
def Expr.stage : Expr → Fresh (Staged Expr)
  | .const value => pure (plain (.const value))
  | .name label => pure (plain (.name label))
  | .temp t => pure (plain (.temp t))
  | .binop op lhs rhs => Staged.binop op (operand lhs lhs.stage) (operand rhs rhs.stage)
  | .mem address => Staged.mem (operand address address.stage)
  | .call function args => Staged.call (operand function function.stage) (Expr.stageAll args)
  | .eseq stmt value => do
    let first ← stmt.canonical
    let staged ← value.stage
    pure ⟨first ++ staged.effects, staged.value⟩
  termination_by structural e => e

/-- Stage expressions that are evaluated one after another. -/
def Expr.stageAll : List Expr → Fresh (Staged (List Expr))
  | [] => pure (plain [])
  | e :: rest => cons (operand e e.stage) (Expr.stageAll rest)
  termination_by structural es => es

/-- Stage all that a statement evaluates, or all that it moves to a temporary.  A call
is left as it is, since it has no neighbours; anything else is an operand. -/
def Expr.stageAlone : Expr → Fresh (Staged Expr)
  | .const value => alone (operand (.const value) (pure (plain (.const value))))
  | .name label => alone (operand (.name label) (pure (plain (.name label))))
  | .temp t => alone (operand (.temp t) (pure (plain (.temp t))))
  | .binop op lhs rhs =>
    alone (operand (.binop op lhs rhs)
      (Staged.binop op (operand lhs lhs.stage) (operand rhs rhs.stage)))
  | .mem address =>
    alone (operand (.mem address) (Staged.mem (operand address address.stage)))
  | .call function args => Staged.call (operand function function.stage) (Expr.stageAll args)
  | .eseq stmt value => do
    let first ← stmt.canonical
    let staged ← value.stageAlone
    pure ⟨first ++ staged.effects, staged.value⟩
  termination_by structural e => e

/-- Stage a move of `source`, whose staging is `stage`, into a target.  What the
target needs is run first. -/
def Expr.stageInto (source : Expr) (stage : Fresh (Staged Expr)) : Expr → Fresh (List Stmt)
  | .temp t => do
    let staged ← stage
    pure (staged.finish (.move (.temp t)))
  | .mem address => do
    let staged ← operands #v[operand address address.stage, operand source stage]
    pure (staged.finish fun es => .move (.mem es[0]) es[1])
  | .eseq stmt target => do
    let first ← stmt.canonical
    let rest ← Expr.stageInto source stage target
    pure (first ++ rest)
  | target => throw (.badMoveTarget target)
  termination_by structural target => target

/-- The canonical statements of a branch. -/
def Branch.canonical : Branch → Fresh (List Stmt)
  | .jump target labels => do
    let staged ← operands #v[operand target target.stage]
    pure (staged.finish fun es => .branch (.jump es[0] labels))
  | .cjump op lhs rhs onTrue onFalse => do
    let staged ← operands #v[operand lhs lhs.stage, operand rhs rhs.stage]
    pure (staged.finish fun es => .branch (.cjump op es[0] es[1] onTrue onFalse))
  termination_by structural b => b

/-- The canonical statements of a statement. -/
def Stmt.canonical : Stmt → Fresh (List Stmt)
  | .seq first second => do
    let head ← first.canonical
    let tail ← second.canonical
    pure (head ++ tail)
  | .label label => pure [.label label]
  | .move target source =>
    Expr.stageInto source (if target.endsInTemp then source.stageAlone else source.stage) target
  | .eval expr => do
    let staged ← expr.stageAlone
    pure staged.evaluate
  | .branch branch => branch.canonical
  termination_by structural s => s

end

end Lowering
