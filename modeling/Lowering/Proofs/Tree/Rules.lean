import Lowering.Proofs.Names
import Lowering.Proofs.Tree.Scope

/-!
# Rules for tree code

What a later pass makes of tree code depends on what occurs in it: the constants, the labels
whose address is taken, the temporaries that are read or written, the number of arguments of a
call, the labels that are defined, and those that branches lead to.  A set of rules says which
of these may occur.

A jump leads to the labels in its list, and also to the label that its target is the address
of, behind any number of statements.

## Main definitions

* `Rules` — what may occur in tree code.
* `Stmt.Obeys` — nothing else occurs.
-/

namespace Lowering

/-- What may occur in tree code. -/
structure Rules where
  /-- As a constant. -/
  const : Word → Prop
  /-- As a label whose address is taken. -/
  name : Label → Prop
  /-- As a temporary that is read. -/
  temp : Temp → Prop
  /-- As a temporary that a move goes to. -/
  target : Temp → Prop
  /-- As the number of arguments of a call. -/
  arity : Nat → Prop
  /-- As a label that is defined. -/
  label : Label → Prop
  /-- As a label that a branch leads to. -/
  goal : Label → Prop

/-- Temporaries that are drawn may be written and read. -/
def Rules.Admits (R : Rules) (lo hi : Nat) : Prop :=
  ∀ t : Temp, t.Drawn lo hi → R.temp t ∧ R.target t

theorem Rules.Admits.mono {R : Rules} {lo lo' hi hi' : Nat} (h : R.Admits lo' hi') (hlo : lo' ≤ lo)
    (hhi : hi ≤ hi') : R.Admits lo hi :=
  fun t ht => h t (ht.mono hlo hhi)

/-- If the expression is the address of a label, behind any number of statements, then that is
one of the given goals. -/
def Expr.Leads (goal : Label → Prop) : Expr → Prop
  | .name l => goal l
  | .eseq _ value => value.Leads goal
  | _ => True

mutual

/-- Everything in the expression obeys the rules. -/
def Expr.Obeys (R : Rules) : Expr → Prop
  | .const value => R.const value
  | .name l => R.name l
  | .temp t => R.temp t
  | .binop _ lhs rhs => lhs.Obeys R ∧ rhs.Obeys R
  | .mem address => address.Obeys R
  | .call function args => R.arity args.length ∧ function.Obeys R ∧ Expr.AllObey R args
  | .eseq stmt value => stmt.Obeys R ∧ value.Obeys R
  termination_by structural e => e

@[inherit_doc Expr.Obeys]
def Expr.AllObey (R : Rules) : List Expr → Prop
  | [] => True
  | e :: rest => e.Obeys R ∧ Expr.AllObey R rest
  termination_by structural es => es

/-- Everything in the target of a move obeys the rules. -/
def Expr.ObeysInto (R : Rules) : Expr → Prop
  | .temp t => R.target t
  | .mem address => address.Obeys R
  | .eseq stmt target => stmt.Obeys R ∧ target.ObeysInto R
  | _ => True
  termination_by structural target => target

@[inherit_doc Expr.Obeys]
def Branch.Obeys (R : Rules) : Branch → Prop
  | .jump target labels => target.Obeys R ∧ target.Leads R.goal ∧ ∀ l ∈ labels, R.goal l
  | .cjump _ lhs rhs onTrue onFalse =>
    (lhs.Obeys R ∧ rhs.Obeys R) ∧ R.goal onTrue ∧ R.goal onFalse
  termination_by structural b => b

/-- Everything in the statement obeys the rules. -/
def Stmt.Obeys (R : Rules) : Stmt → Prop
  | .seq first second => first.Obeys R ∧ second.Obeys R
  | .label l => R.label l
  | .move target source => target.ObeysInto R ∧ source.Obeys R
  | .eval expr => expr.Obeys R
  | .branch b => b.Obeys R
  termination_by structural s => s

end

/-! ## Wider rules -/

/-- Whatever obeys the first rules may occur under the second. -/
structure Rules.Narrower (R R' : Rules) : Prop where
  const : ∀ {v}, R.const v → R'.const v
  name : ∀ {l}, R.name l → R'.name l
  temp : ∀ {t}, R.temp t → R'.temp t
  target : ∀ {t}, R.target t → R'.target t
  arity : ∀ {n}, R.arity n → R'.arity n
  label : ∀ {l}, R.label l → R'.label l
  goal : ∀ {l}, R.goal l → R'.goal l

theorem Expr.Leads.mono {goal goal' : Label → Prop} (h : ∀ {l}, goal l → goal' l) :
    ∀ {e : Expr}, e.Leads goal → e.Leads goal'
  | .name _, he => h he
  | .eseq _ value, he => Leads.mono (e := value) h he
  | .const _, _ | .temp _, _ | .binop .., _ | .mem _, _ | .call .., _ => trivial

section

variable {R R' : Rules}

mutual

theorem Expr.obeys_mono (h : R.Narrower R') : ∀ e : Expr, e.Obeys R → e.Obeys R'
  | .const _, he => h.const he
  | .name _, he => h.name he
  | .temp _, he => h.temp he
  | .binop _ lhs rhs, he => ⟨lhs.obeys_mono h he.1, rhs.obeys_mono h he.2⟩
  | .mem address, he => address.obeys_mono h he
  | .call function args, he =>
    ⟨h.arity he.1, function.obeys_mono h he.2.1, Expr.allObey_mono h args he.2.2⟩
  | .eseq stmt value, he => ⟨stmt.obeys_mono h he.1, value.obeys_mono h he.2⟩
  termination_by structural e => e

theorem Expr.allObey_mono (h : R.Narrower R') :
    ∀ es : List Expr, Expr.AllObey R es → Expr.AllObey R' es
  | [], _ => trivial
  | e :: rest, he => ⟨e.obeys_mono h he.1, Expr.allObey_mono h rest he.2⟩
  termination_by structural es => es

theorem Expr.obeysInto_mono (h : R.Narrower R') :
    ∀ target : Expr, target.ObeysInto R → target.ObeysInto R'
  | .temp _, he => h.target he
  | .mem address, he => address.obeys_mono h he
  | .eseq stmt target, he => ⟨stmt.obeys_mono h he.1, target.obeysInto_mono h he.2⟩
  | .const _, _ => trivial
  | .name _, _ => trivial
  | .binop .., _ => trivial
  | .call .., _ => trivial
  termination_by structural target => target

theorem Branch.obeys_mono (h : R.Narrower R') : ∀ b : Branch, b.Obeys R → b.Obeys R'
  | .jump target _, hb =>
    ⟨target.obeys_mono h hb.1, hb.2.1.mono h.goal, fun l hl => h.goal (hb.2.2 l hl)⟩
  | .cjump _ lhs rhs _ _, hb =>
    ⟨⟨lhs.obeys_mono h hb.1.1, rhs.obeys_mono h hb.1.2⟩, h.goal hb.2.1, h.goal hb.2.2⟩
  termination_by structural b => b

/-- **What obeys narrower rules obeys wider ones.** -/
theorem Stmt.obeys_mono (h : R.Narrower R') : ∀ s : Stmt, s.Obeys R → s.Obeys R'
  | .seq first second, hs => ⟨first.obeys_mono h hs.1, second.obeys_mono h hs.2⟩
  | .label _, hs => h.label hs
  | .move target source, hs => ⟨target.obeysInto_mono h hs.1, source.obeys_mono h hs.2⟩
  | .eval expr, hs => expr.obeys_mono h hs
  | .branch b, hs => b.obeys_mono h hs
  termination_by structural s => s

end

end

end Lowering
