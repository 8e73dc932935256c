import Lowering.Proofs.Tree.Scope

/-!
# Branches and move targets

A statement is well formed for two reasons that have nothing to do with each other: each of
its branches names labels of its own spine only, and its moves go to temporaries or to
memory.  The first move that does not is found by a search in the order of evaluation.

## Main definitions

* `Stmt.Scoped` — branches stay on their spine.
* `Stmt.badTarget?` — the first move target that is none.
* `Stmt.wellFormed_of_scoped` — the two make a well-formed statement.
-/

namespace Lowering

mutual

/-- The branches inside the expression stay on their spines. -/
def Expr.Scoped : Expr → Prop
  | .const _ | .name _ | .temp _ => True
  | .binop _ lhs rhs => lhs.Scoped ∧ rhs.Scoped
  | .mem address => address.Scoped
  | .call function args => function.Scoped ∧ Expr.AllScoped args
  | .eseq stmt value => stmt.Scoped stmt.spineLabels ∧ value.Scoped
  termination_by structural e => e

@[inherit_doc Expr.Scoped]
def Expr.AllScoped : List Expr → Prop
  | [] => True
  | e :: rest => e.Scoped ∧ Expr.AllScoped rest
  termination_by structural es => es

/-- The branch names some of the given labels only. -/
def Branch.Scoped (on : List Label) : Branch → Prop
  | .jump target labels => target.Scoped ∧ ∀ l ∈ labels, l ∈ on
  | .cjump _ lhs rhs onTrue onFalse => lhs.Scoped ∧ rhs.Scoped ∧ onTrue ∈ on ∧ onFalse ∈ on
  termination_by structural b => b

/-- Branches go to the labels `on` their spine. -/
def Stmt.Scoped (on : List Label) : Stmt → Prop
  | .seq first second => first.Scoped on ∧ second.Scoped on
  | .label _ => True
  | .move target source => target.Scoped ∧ source.Scoped
  | .eval expr => expr.Scoped
  | .branch b => b.Scoped on
  termination_by structural s => s

end

mutual

/-- The first target of a move inside the expression that is neither a temporary nor memory,
behind any number of statements. -/
def Expr.badTarget? : Expr → Option Expr
  | .const _ | .name _ | .temp _ => none
  | .binop _ lhs rhs => lhs.badTarget?.or rhs.badTarget?
  | .mem address => address.badTarget?
  | .call function args => function.badTarget?.or (Expr.badTargetAll? args)
  | .eseq stmt value => stmt.badTarget?.or value.badTarget?
  termination_by structural e => e

@[inherit_doc Expr.badTarget?]
def Expr.badTargetAll? : List Expr → Option Expr
  | [] => none
  | e :: rest => e.badTarget?.or (Expr.badTargetAll? rest)
  termination_by structural es => es

/-- The first such target in a move into the expression, if the source has the given one. -/
def Expr.badTargetInto? (source : Option Expr) : Expr → Option Expr
  | .temp _ => source
  | .mem address => address.badTarget?.or source
  | .eseq stmt target => stmt.badTarget?.or (target.badTargetInto? source)
  | target => some target
  termination_by structural target => target

@[inherit_doc Expr.badTarget?]
def Branch.badTarget? : Branch → Option Expr
  | .jump target _ => target.badTarget?
  | .cjump _ lhs rhs _ _ => lhs.badTarget?.or rhs.badTarget?
  termination_by structural b => b

/-- The first target of a move that is neither a temporary nor memory, behind any number of
statements. -/
def Stmt.badTarget? : Stmt → Option Expr
  | .seq first second => first.badTarget?.or second.badTarget?
  | .label _ => none
  | .move target source => target.badTargetInto? source.badTarget?
  | .eval expr => expr.badTarget?
  | .branch b => b.badTarget?
  termination_by structural s => s

end

mutual

theorem Expr.wellFormed_of_scoped : ∀ e : Expr, e.Scoped → e.badTarget? = none → e.WellFormed
  | .const _, _, _ => trivial
  | .name _, _, _ => trivial
  | .temp _, _, _ => trivial
  | .binop _ lhs rhs, h, hbad => by
    obtain ⟨hl, hr⟩ := Option.or_eq_none_iff.1 hbad
    exact ⟨lhs.wellFormed_of_scoped h.1 hl, rhs.wellFormed_of_scoped h.2 hr⟩
  | .mem address, h, hbad => address.wellFormed_of_scoped h hbad
  | .call function args, h, hbad => by
    obtain ⟨hf, has⟩ := Option.or_eq_none_iff.1 hbad
    exact ⟨function.wellFormed_of_scoped h.1 hf, Expr.allWellFormed_of_scoped args h.2 has⟩
  | .eseq stmt value, h, hbad => by
    obtain ⟨hs, hv⟩ := Option.or_eq_none_iff.1 hbad
    exact ⟨stmt.wellFormed_of_scoped h.1 hs, value.wellFormed_of_scoped h.2 hv⟩
  termination_by structural e => e

theorem Expr.allWellFormed_of_scoped : ∀ es : List Expr, Expr.AllScoped es →
    Expr.badTargetAll? es = none → Expr.AllWellFormed es
  | [], _, _ => trivial
  | e :: rest, h, hbad => by
    obtain ⟨he, hr⟩ := Option.or_eq_none_iff.1 hbad
    exact ⟨e.wellFormed_of_scoped h.1 he, Expr.allWellFormed_of_scoped rest h.2 hr⟩
  termination_by structural es => es

theorem Expr.isTarget_of_scoped : ∀ (target : Expr) {source : Option Expr}, target.Scoped →
    target.badTargetInto? source = none → target.IsTarget ∧ source = none
  | .temp _, _, _, hbad => ⟨trivial, hbad⟩
  | .mem address, _, h, hbad => by
    obtain ⟨ha, hs⟩ := Option.or_eq_none_iff.1 hbad
    exact ⟨address.wellFormed_of_scoped h ha, hs⟩
  | .eseq stmt target, _, h, hbad => by
    obtain ⟨hs, ht⟩ := Option.or_eq_none_iff.1 hbad
    obtain ⟨htarget, hsource⟩ := target.isTarget_of_scoped h.2 ht
    exact ⟨⟨stmt.wellFormed_of_scoped h.1 hs, htarget⟩, hsource⟩
  | .const _, _, _, hbad => nomatch hbad
  | .name _, _, _, hbad => nomatch hbad
  | .binop .., _, _, hbad => nomatch hbad
  | .call .., _, _, hbad => nomatch hbad
  termination_by structural target => target

theorem Branch.wellFormed_of_scoped : ∀ (b : Branch) {on : List Label}, b.Scoped on →
    b.badTarget? = none → b.WellFormed on
  | .jump target _, _, h, hbad => ⟨target.wellFormed_of_scoped h.1 hbad, h.2⟩
  | .cjump _ lhs rhs _ _, _, h, hbad => by
    obtain ⟨hl, hr⟩ := Option.or_eq_none_iff.1 hbad
    exact ⟨lhs.wellFormed_of_scoped h.1 hl, rhs.wellFormed_of_scoped h.2.1 hr, h.2.2⟩
  termination_by structural b => b

/-- **Statements whose branches stay on their spine and whose moves have targets are well
formed.** -/
theorem Stmt.wellFormed_of_scoped : ∀ (stmt : Stmt) {on : List Label}, stmt.Scoped on →
    stmt.badTarget? = none → stmt.WellFormed on
  | .seq first second, _, h, hbad => by
    obtain ⟨hf, hs⟩ := Option.or_eq_none_iff.1 hbad
    exact ⟨first.wellFormed_of_scoped h.1 hf, second.wellFormed_of_scoped h.2 hs⟩
  | .label _, _, _, _ => trivial
  | .move target source, _, h, hbad => by
    obtain ⟨htarget, hsource⟩ := target.isTarget_of_scoped h.1 hbad
    exact ⟨htarget, source.wellFormed_of_scoped h.2 hsource⟩
  | .eval expr, _, h, hbad => expr.wellFormed_of_scoped h hbad
  | .branch b, _, h, hbad => b.wellFormed_of_scoped h hbad
  termination_by structural s => s

end

end Lowering
