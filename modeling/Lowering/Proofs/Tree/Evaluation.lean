import Lowering.Tree.Basic
import Mathlib.Logic.Function.Basic

/-!
# What tree code means

Expressions are evaluated strictly from left to right and may change the state.  A
statement is a list of actions, the *spine* of the statement: an action defines a label,
has an effect, or branches to a label of the same spine.  A spine is run from its first
action until its end is passed.  The statement in front of an expression is a spine of its
own, which is run to its end before the expression is evaluated.

A call is a function of the temporaries, the memory and the arguments, and it may change
all temporaries and all of memory.  The calls that were made are part of the state.

Meanings are relations between states.  That there is no state behind means that the run
goes on forever, or that a branch finds no label.

## Main definitions

* `TreeState`, `World` — what tree code runs on, and what is outside of it.
* `Evaluation` — something that is evaluated in a state and leaves another.
* `Reaches`, `Runs` — running a list of actions.
* `Expr.means`, `Branch.means`, `Stmt.actions` — tree code.
-/

namespace Lowering

/-- A call that was made. -/
structure Call where
  function : Word
  args : List Word

/-- What tree code runs on. -/
structure TreeState where
  temps : Temp → Word
  memory : Word → Word
  /-- The calls so far, in order. -/
  calls : List Call

namespace TreeState

/-- Change a temporary. -/
def setTemp (s : TreeState) (t : Temp) (v : Word) : TreeState :=
  { s with temps := Function.update s.temps t v }

/-- Change a word of memory. -/
def setMemory (s : TreeState) (address v : Word) : TreeState :=
  { s with memory := Function.update s.memory address v }

end TreeState

/-- What is outside of tree code. -/
structure World where
  /-- The address of a label. -/
  address : Label → Word
  /-- Which of some labels has an address. -/
  labelAt : Word → List Label → Option Label
  labelAt_mem : ∀ {a labels l}, labelAt a labels = some l → l ∈ labels
  /-- The result of a call, and the temporaries and the memory that it leaves. -/
  call : Word → List Word → (Temp → Word) → (Word → Word) → Word × (Temp → Word) × (Word → Word)

/-- Make a call. -/
def World.invoke (W : World) (function : Word) (args : List Word) (s : TreeState) :
    Word × TreeState :=
  let (v, temps, memory) := W.call function args s.temps s.memory
  (v, ⟨temps, memory, s.calls ++ [⟨function, args⟩]⟩)

/-- Something that is evaluated in a state, with the state that is left. -/
abbrev Evaluation (α : Type) := TreeState → α → TreeState → Prop

namespace Evaluation

variable {α β : Type}

/-- A value that is read off the state. -/
def still (f : TreeState → α) : Evaluation α := fun s a s' => a = f s ∧ s' = s

/-- First one, then the other. -/
def pair (first : Evaluation α) (rest : Evaluation β) : Evaluation (α × β) :=
  fun s p s' => ∃ t, first s p.1 t ∧ rest t p.2 s'

/-- Evaluate, and then do something with the value. -/
def andThen (e : Evaluation α) (f : α → TreeState → β × TreeState) : Evaluation β :=
  fun s b s' => ∃ a t, e s a t ∧ f a t = (b, s')

/-- Evaluate, and give what goes with the value, if there is anything. -/
def select (e : Evaluation α) (g : α → Option β) : Evaluation β :=
  fun s b s' => ∃ a, e s a s' ∧ g a = some b

/-- Run something first. -/
def behind (run : Evaluation Unit) (e : Evaluation α) : Evaluation α :=
  fun s a s' => ∃ t, run s () t ∧ e t a s'

end Evaluation

/-- A part of a spine. -/
inductive Action where
  | mark (l : Label)
  | effect (run : Evaluation Unit)
  | branch (choose : Evaluation Label)

/-- What is left of a list of actions behind a label. -/
def landing (l : Label) : List Action → Option (List Action)
  | [] => none
  | .mark l' :: rest => if l' = l then some rest else landing l rest
  | _ :: rest => landing l rest

/-- A number of actions of a program are run, which leaves others to run. -/
inductive Reaches (program : List Action) :
    Nat → List Action → TreeState → List Action → TreeState → Prop where
  | refl (rest : List Action) (s : TreeState) : Reaches program 0 rest s rest s
  | mark {n : Nat} {l : Label} {rest rest' : List Action} {s s' : TreeState} :
      Reaches program n rest s rest' s' → Reaches program (n + 1) (.mark l :: rest) s rest' s'
  | effect {n : Nat} {run : Evaluation Unit} {rest rest' : List Action} {s t s' : TreeState} :
      run s () t → Reaches program n rest t rest' s' →
        Reaches program (n + 1) (.effect run :: rest) s rest' s'
  | branch {n : Nat} {choose : Evaluation Label} {l : Label} {rest target rest' : List Action}
      {s t s' : TreeState} :
      choose s l t → landing l program = some target → Reaches program n target t rest' s' →
        Reaches program (n + 1) (.branch choose :: rest) s rest' s'

/-- A program is run to its end. -/
def Runs (program : List Action) : Evaluation Unit :=
  fun s _ s' => ∃ n, Reaches program n program s [] s'

open Evaluation

mutual

/-- The value of an expression. -/
def Expr.means (W : World) : Expr → Evaluation Word
  | .const value => still fun _ => value
  | .name label => still fun _ => W.address label
  | .temp t => still fun s => s.temps t
  | .binop op lhs rhs =>
    (pair (lhs.means W) (rhs.means W)).andThen fun (a, b) s => (op.eval a b, s)
  | .mem address => (address.means W).andThen fun a s => (s.memory a, s)
  | .call function args =>
    (pair (function.means W) (Expr.meansAll W args)).andThen fun (f, as) s => W.invoke f as s
  | .eseq stmt value => behind (Runs (stmt.actions W)) (value.means W)
  termination_by structural e => e

/-- The values of expressions that are evaluated one after another. -/
def Expr.meansAll (W : World) : List Expr → Evaluation (List Word)
  | [] => still fun _ => []
  | e :: rest => (pair (e.means W) (Expr.meansAll W rest)).andThen fun (v, vs) s => (v :: vs, s)
  termination_by structural es => es

/-- A move of a source into a target.  What the target needs is evaluated first. -/
def Expr.moves (W : World) (source : Evaluation Word) : Expr → Evaluation Unit
  | .temp t => source.andThen fun v s => ((), s.setTemp t v)
  | .mem address => (pair (address.means W) source).andThen fun (a, v) s => ((), s.setMemory a v)
  | .eseq stmt target => behind (Runs (stmt.actions W)) (Expr.moves W source target)
  | _ => fun _ _ _ => False
  termination_by structural target => target

/-- The label at which a branch goes on. -/
def Branch.means (W : World) : Branch → Evaluation Label
  | .jump target labels => (target.means W).select fun a => W.labelAt a labels
  | .cjump op lhs rhs onTrue onFalse =>
    (pair (lhs.means W) (rhs.means W)).andThen fun (a, b) s =>
      (if op.holds a b then onTrue else onFalse, s)
  termination_by structural b => b

/-- The spine of a statement. -/
def Stmt.actions (W : World) : Stmt → List Action
  | .seq first second => first.actions W ++ second.actions W
  | .label l => [.mark l]
  | .move target source => [.effect (Expr.moves W (source.means W) target)]
  | .eval expr => [.effect ((expr.means W).andThen fun _ s => ((), s))]
  | .branch b => [.branch (b.means W)]
  termination_by structural s => s

end

/-- The spine of a list of statements. -/
def Stmt.actionsAll (W : World) (code : List Stmt) : List Action := code.flatMap (Stmt.actions W)

end Lowering
