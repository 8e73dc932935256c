import Lowering.Proofs.Tree.Fragment

/-!
# Labels and temporaries of tree code

A statement is well formed if its moves go to temporaries or to memory, and if each of its
branches names labels of its own spine only.

## Main definitions

* `Stmt.labels`, `Stmt.temps` — all labels that are defined, and all temporaries.
* `Stmt.spineLabels` — the labels on the spine.
* `Stmt.label?`, `Stmt.isStraight` — statements of a list, one by one.
* `Stmt.WellFormed` — well-formed statements.
-/

namespace Lowering

mutual

/-- The labels that are defined inside an expression, in order. -/
def Expr.labels : Expr → List Label
  | .const _ | .name _ | .temp _ => []
  | .binop _ lhs rhs => lhs.labels ++ rhs.labels
  | .mem address => address.labels
  | .call function args => function.labels ++ Expr.labelsAll args
  | .eseq stmt value => stmt.labels ++ value.labels
  termination_by structural e => e

@[inherit_doc Expr.labels]
def Expr.labelsAll : List Expr → List Label
  | [] => []
  | e :: rest => e.labels ++ Expr.labelsAll rest
  termination_by structural es => es

@[inherit_doc Expr.labels]
def Branch.labels : Branch → List Label
  | .jump target _ => target.labels
  | .cjump _ lhs rhs _ _ => lhs.labels ++ rhs.labels
  termination_by structural b => b

/-- The labels that a statement defines, in order. -/
def Stmt.labels : Stmt → List Label
  | .seq first second => first.labels ++ second.labels
  | .label l => [l]
  | .move target source => target.labels ++ source.labels
  | .eval expr => expr.labels
  | .branch b => b.labels
  termination_by structural s => s

end

mutual

/-- The temporaries of an expression. -/
def Expr.temps : Expr → List Temp
  | .const _ | .name _ => []
  | .temp t => [t]
  | .binop _ lhs rhs => lhs.temps ++ rhs.temps
  | .mem address => address.temps
  | .call function args => function.temps ++ Expr.tempsAll args
  | .eseq stmt value => stmt.temps ++ value.temps
  termination_by structural e => e

@[inherit_doc Expr.temps]
def Expr.tempsAll : List Expr → List Temp
  | [] => []
  | e :: rest => e.temps ++ Expr.tempsAll rest
  termination_by structural es => es

@[inherit_doc Expr.temps]
def Branch.temps : Branch → List Temp
  | .jump target _ => target.temps
  | .cjump _ lhs rhs _ _ => lhs.temps ++ rhs.temps
  termination_by structural b => b

/-- The temporaries of a statement. -/
def Stmt.temps : Stmt → List Temp
  | .seq first second => first.temps ++ second.temps
  | .label _ => []
  | .move target source => target.temps ++ source.temps
  | .eval expr => expr.temps
  | .branch b => b.temps
  termination_by structural s => s

end

/-- The labels on the spine of a statement. -/
def Stmt.spineLabels : Stmt → List Label
  | .seq first second => first.spineLabels ++ second.spineLabels
  | .label l => [l]
  | _ => []

/-- The label that a statement defines, if it does nothing else. -/
def Stmt.label? : Stmt → Option Label
  | .label l => some l
  | _ => none

/-- Whether the statement neither defines a label nor branches. -/
def Stmt.isStraight : Stmt → Bool
  | .label _ | .branch _ => false
  | _ => true

theorem filterMap_label?_of_isStraight {code : List Stmt}
    (h : ∀ st ∈ code, st.isStraight = true) :
    code.filterMap Stmt.label? = [] := by
  refine List.filterMap_eq_nil_iff.2 fun st hst => ?_
  have := h st hst
  cases st with
  | label => simp [Stmt.isStraight] at this
  | _ => rfl

theorem marks_actions (W : World) (stmt : Stmt) :
    marks (stmt.actions W) = stmt.spineLabels := by
  cases stmt with
  | seq first second =>
    rw [Stmt.actions, marks_append, marks_actions W first, marks_actions W second,
      Stmt.spineLabels]
  | label => rfl
  | move => rfl
  | eval => rfl
  | branch => rfl
termination_by structural stmt

mutual

/-- The statements inside the expression are well formed. -/
def Expr.WellFormed : Expr → Prop
  | .const _ | .name _ | .temp _ => True
  | .binop _ lhs rhs => lhs.WellFormed ∧ rhs.WellFormed
  | .mem address => address.WellFormed
  | .call function args => function.WellFormed ∧ Expr.AllWellFormed args
  | .eseq stmt value => stmt.WellFormed stmt.spineLabels ∧ value.WellFormed
  termination_by structural e => e

@[inherit_doc Expr.WellFormed]
def Expr.AllWellFormed : List Expr → Prop
  | [] => True
  | e :: rest => e.WellFormed ∧ Expr.AllWellFormed rest
  termination_by structural es => es

/-- A temporary or memory, behind any number of statements. -/
def Expr.IsTarget : Expr → Prop
  | .temp _ => True
  | .mem address => address.WellFormed
  | .eseq stmt target => stmt.WellFormed stmt.spineLabels ∧ target.IsTarget
  | _ => False
  termination_by structural target => target

/-- The branch names some of the given labels only. -/
def Branch.WellFormed (on : List Label) : Branch → Prop
  | .jump target labels => target.WellFormed ∧ ∀ l ∈ labels, l ∈ on
  | .cjump _ lhs rhs onTrue onFalse =>
    lhs.WellFormed ∧ rhs.WellFormed ∧ onTrue ∈ on ∧ onFalse ∈ on
  termination_by structural b => b

/-- Moves go to temporaries or to memory, and branches to the labels `on` their spine. -/
def Stmt.WellFormed (on : List Label) : Stmt → Prop
  | .seq first second => first.WellFormed on ∧ second.WellFormed on
  | .label _ => True
  | .move target source => target.IsTarget ∧ source.WellFormed
  | .eval expr => expr.WellFormed
  | .branch b => b.WellFormed on
  termination_by structural s => s

end

end Lowering
