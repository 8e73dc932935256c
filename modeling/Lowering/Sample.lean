import Lowering.Supply
import Lowering.Mips.Register

/-!
# Sample functions

Three small functions to run the passes on.
-/

namespace Lowering

/-- A sample function. -/
inductive Sample where
  /-- Calls nested in the arguments of calls. -/
  | nestedCalls
  /-- A loop that adds up an array. -/
  | branches
  /-- Many values that are live at the same time. -/
  | pressure
  deriving DecidableEq, Repr, Inhabited

namespace Sample

/-- The name under which a sample is asked for. -/
def name : Sample → String
  | nestedCalls => "nested-calls"
  | branches => "branches"
  | pressure => "pressure"

/-- All samples. -/
def all : List Sample := [nestedCalls, branches, pressure]

/-- The sample with a name. -/
def ofName? (name : String) : Option Sample := all.find? (·.name = name)

/-- The label of the function. -/
def label : Sample → Label
  | nestedCalls => .named "nested_calls"
  | branches => .named "branches"
  | pressure => .named "pressure"

/-- The call of the function `f`. -/
def f (args : List Expr) : Expr := .call (.name (.named "f")) args

/-- The value of `f(f(1, 2), f(f(3, 4), 5))`, dropped. -/
def nestedCallsBody : Stmt :=
  .eval (f [f [.const 1, .const 2], f [f [.const 3, .const 4], .const 5]])

/-- Add up the first ten words of the array whose address is in the frame. -/
def branchesBody (a i sum : Temp) : Stmt :=
  let test := Label.named "test"
  let body := Label.named "body"
  let done := Label.named "done"
  let element : Expr :=
    .mem (.binop .plus (.temp a) (.binop .mul (.temp i) (.const 4)))
  .ofList [
    .move (.temp a) (.mem (.binop .plus (.temp Mips.fp) (.const 8))),
    .move (.temp i) (.const 0),
    .move (.temp sum) (.const 0),
    .label test,
    .branch (.cjump .lt (.temp i) (.const 10) body done),
    .label body,
    .move (.temp sum) (.binop .plus (.temp sum) element),
    .move (.temp i) (.binop .plus (.temp i) (.const 1)),
    .goto test,
    .label done,
    .move (.temp Mips.v0) (.temp sum)]

/-- The sum of some temporaries, from left to right. -/
def sumOf : List Temp → Expr
  | [] => .const 0
  | t :: rest => rest.foldl (fun total u => .binop .plus total (.temp u)) (.temp t)

/-- Load words from the frame and only then add them up. -/
def pressureBody (base : Temp) (values : List Temp) : Stmt :=
  let loads := values.zipIdx.map fun (t, n) =>
    Stmt.move (.temp t) (.mem (.binop .plus (.temp base) (.const (Int64.ofNat (4 * n)))))
  .ofList ([.move (.temp base) (.temp Mips.fp)] ++ loads ++
    [.move (.temp Mips.v0) (sumOf values)])

/-- Draw some fresh temporaries. -/
def freshTemps : Nat → Fresh (List Temp)
  | 0 => pure []
  | n + 1 => do
    let t ← Fresh.temp
    let rest ← freshTemps n
    pure (t :: rest)

/-- The body of a sample, over fresh temporaries. -/
def body : Sample → Fresh Stmt
  | nestedCalls => pure nestedCallsBody
  | branches => do
    let a ← Fresh.temp
    let i ← Fresh.temp
    let sum ← Fresh.temp
    pure (branchesBody a i sum)
  | pressure => do
    let base ← Fresh.temp
    let values ← freshTemps 8
    pure (pressureBody base values)

end Sample

end Lowering
