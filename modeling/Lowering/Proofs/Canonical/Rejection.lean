import Lowering.Proofs.Canonical.Fault
import Lowering.Proofs.Canonical.Normal

/-!
# Statements that are rejected

All moves of a statement, at any depth, are listed in the order in which evaluation reaches them: a
move is reached behind the statements that stand in front of its target, and before what its target
and its source are computed from.  A statement has no canonical statements exactly if one of these
moves goes to something that is neither a temporary nor memory, and the first such move is the
fault.

## Main definitions

* `Expr.stripped`, `Expr.isPlace` — where a move goes, and whether it can go there.
* `Stmt.moveTargets` — where the moves of a statement go, in order.
* `Stmt.perm_moveTargets` — no move is left out.
* `canonicalize_rejects_bad_targets` — the main result.
-/

namespace Lowering

/-- The expression behind all statements that stand in front of it. -/
def Expr.stripped : Expr → Expr
  | .eseq _ value => value.stripped
  | e => e

/-- Whether a value can be stored there. -/
def Expr.isPlace : Expr → Bool
  | .temp _ | .mem _ => true
  | _ => false

/-- Where a node moves something to. -/
def Node.moveTarget? : Node → Option Expr
  | .stmt (.move target _) => some target.stripped
  | _ => none

theorem Node.moveTarget?_eq_some_iff {n : Node} {e : Expr} :
    n.moveTarget? = some e ↔
      ∃ target source, n = .stmt (.move target source) ∧ target.stripped = e := by
  cases n with
  | expr => simp [Node.moveTarget?]
  | stmt s => cases s <;> simp [Node.moveTarget?]

mutual

/-- Where the moves inside an expression go, in the order in which they are reached. -/
def Expr.moveTargets : Expr → List Expr
  | .const _ | .name _ | .temp _ => []
  | .binop _ lhs rhs => lhs.moveTargets ++ rhs.moveTargets
  | .mem address => address.moveTargets
  | .call function args => function.moveTargets ++ Expr.moveTargetsAll args
  | .eseq stmt value => stmt.moveTargets ++ value.moveTargets
  termination_by structural e => e

@[inherit_doc Expr.moveTargets]
def Expr.moveTargetsAll : List Expr → List Expr
  | [] => []
  | e :: rest => e.moveTargets ++ Expr.moveTargetsAll rest
  termination_by structural es => es

/-- Where a move into the expression goes, behind the moves in front of it and before the moves
inside of it. -/
def Expr.moveTargetsInto : Expr → List Expr
  | .eseq stmt target => stmt.moveTargets ++ target.moveTargetsInto
  | .const value => [.const value]
  | .name l => [.name l]
  | .temp t => [.temp t]
  | .binop op lhs rhs => .binop op lhs rhs :: (lhs.moveTargets ++ rhs.moveTargets)
  | .mem address => .mem address :: address.moveTargets
  | .call function args =>
    .call function args :: (function.moveTargets ++ Expr.moveTargetsAll args)
  termination_by structural target => target

@[inherit_doc Expr.moveTargets]
def Branch.moveTargets : Branch → List Expr
  | .jump target _ => target.moveTargets
  | .cjump _ lhs rhs _ _ => lhs.moveTargets ++ rhs.moveTargets
  termination_by structural b => b

/-- Where the moves of a statement go, in the order in which they are reached. -/
def Stmt.moveTargets : Stmt → List Expr
  | .seq first second => first.moveTargets ++ second.moveTargets
  | .label _ => []
  | .move target source => target.moveTargetsInto ++ source.moveTargets
  | .eval expr => expr.moveTargets
  | .branch b => b.moveTargets
  termination_by structural s => s

end

/-! ## No move is left out -/

section

variable {es fs : List Expr} {nodes nodes' : List Node}

/-- Moves in one piece of code and then in another. -/
theorem perm_moveTarget_append (h : es.Perm (nodes.filterMap Node.moveTarget?))
    (h' : fs.Perm (nodes'.filterMap Node.moveTarget?)) :
    (es ++ fs).Perm ((nodes ++ nodes').filterMap Node.moveTarget?) := by
  rw [List.filterMap_append]
  exact h.append h'

mutual

theorem Expr.perm_moveTargets : ∀ e : Expr,
    e.moveTargets.Perm (e.nodes.filterMap Node.moveTarget?)
  | .const _ => .nil
  | .name _ => .nil
  | .temp _ => .nil
  | .binop _ lhs rhs => perm_moveTarget_append lhs.perm_moveTargets rhs.perm_moveTargets
  | .mem address => address.perm_moveTargets
  | .call function args =>
    perm_moveTarget_append function.perm_moveTargets (Expr.perm_moveTargetsAll args)
  | .eseq stmt value => perm_moveTarget_append stmt.perm_moveTargets value.perm_moveTargets
  termination_by structural e => e

theorem Expr.perm_moveTargetsAll : ∀ es : List Expr,
    (Expr.moveTargetsAll es).Perm ((Expr.nodesAll es).filterMap Node.moveTarget?)
  | [] => .nil
  | e :: rest => perm_moveTarget_append e.perm_moveTargets (Expr.perm_moveTargetsAll rest)
  termination_by structural es => es

theorem Expr.perm_moveTargetsInto : ∀ target : Expr,
    target.moveTargetsInto.Perm (target.stripped :: target.nodes.filterMap Node.moveTarget?)
  | .eseq stmt target => by
    have hnodes : (Expr.eseq stmt target).nodes.filterMap Node.moveTarget? =
        stmt.nodes.filterMap Node.moveTarget? ++ target.nodes.filterMap Node.moveTarget? :=
      List.filterMap_append
    rw [Expr.moveTargetsInto, Expr.stripped, hnodes]
    exact (stmt.perm_moveTargets.append target.perm_moveTargetsInto).trans List.perm_middle
  | .const _ => .refl _
  | .name _ => .refl _
  | .temp _ => .refl _
  | .binop _ lhs rhs => (perm_moveTarget_append lhs.perm_moveTargets rhs.perm_moveTargets).cons _
  | .mem address => address.perm_moveTargets.cons _
  | .call function args =>
    (perm_moveTarget_append function.perm_moveTargets (Expr.perm_moveTargetsAll args)).cons _
  termination_by structural target => target

theorem Branch.perm_moveTargets : ∀ b : Branch,
    b.moveTargets.Perm (b.nodes.filterMap Node.moveTarget?)
  | .jump target _ => target.perm_moveTargets
  | .cjump _ lhs rhs _ _ => perm_moveTarget_append lhs.perm_moveTargets rhs.perm_moveTargets
  termination_by structural b => b

/-- **The list holds every move once.** -/
theorem Stmt.perm_moveTargets : ∀ stmt : Stmt,
    stmt.moveTargets.Perm (stmt.nodes.filterMap Node.moveTarget?)
  | .seq first second => perm_moveTarget_append first.perm_moveTargets second.perm_moveTargets
  | .label _ => .nil
  | .move target source => by
    have hnodes : (Stmt.move target source).nodes.filterMap Node.moveTarget? =
        (target.stripped :: target.nodes.filterMap Node.moveTarget?) ++
          source.nodes.filterMap Node.moveTarget? :=
      congrArg (target.stripped :: ·) List.filterMap_append
    rw [Stmt.moveTargets, hnodes]
    exact target.perm_moveTargetsInto.append source.perm_moveTargets
  | .eval expr => expr.perm_moveTargets
  | .branch b => b.perm_moveTargets
  termination_by structural s => s

end

end

/-! ## The first move that goes nowhere -/

mutual

theorem Expr.badTarget?_eq_find? : ∀ e : Expr,
    e.badTarget? = e.moveTargets.find? (!·.isPlace)
  | .const _ => rfl
  | .name _ => rfl
  | .temp _ => rfl
  | .binop _ lhs rhs => by
    rw [Expr.badTarget?, Expr.moveTargets, List.find?_append, lhs.badTarget?_eq_find?,
      rhs.badTarget?_eq_find?]
  | .mem address => address.badTarget?_eq_find?
  | .call function args => by
    rw [Expr.badTarget?, Expr.moveTargets, List.find?_append, function.badTarget?_eq_find?,
      Expr.badTargetAll?_eq_find? args]
  | .eseq stmt value => by
    rw [Expr.badTarget?, Expr.moveTargets, List.find?_append, stmt.badTarget?_eq_find?,
      value.badTarget?_eq_find?]
  termination_by structural e => e

theorem Expr.badTargetAll?_eq_find? : ∀ es : List Expr,
    Expr.badTargetAll? es = (Expr.moveTargetsAll es).find? (!·.isPlace)
  | [] => rfl
  | e :: rest => by
    rw [Expr.badTargetAll?, Expr.moveTargetsAll, List.find?_append, e.badTarget?_eq_find?,
      Expr.badTargetAll?_eq_find? rest]
  termination_by structural es => es

theorem Expr.badTargetInto?_eq_find? : ∀ (target : Expr) (source : Option Expr),
    target.badTargetInto? source = (target.moveTargetsInto.find? (!·.isPlace)).or source
  | .eseq stmt target, source => by
    rw [Expr.badTargetInto?, Expr.moveTargetsInto, List.find?_append, stmt.badTarget?_eq_find?,
      target.badTargetInto?_eq_find? source, Option.or_assoc]
  | .temp _, _ => rfl
  | .mem address, _ => by
    rw [Expr.badTargetInto?, Expr.moveTargetsInto, address.badTarget?_eq_find?]
    rfl
  | .const _, _ => rfl
  | .name _, _ => rfl
  | .binop .., _ => rfl
  | .call .., _ => rfl
  termination_by structural target => target

theorem Branch.badTarget?_eq_find? : ∀ b : Branch,
    b.badTarget? = b.moveTargets.find? (!·.isPlace)
  | .jump target _ => target.badTarget?_eq_find?
  | .cjump _ lhs rhs _ _ => by
    rw [Branch.badTarget?, Branch.moveTargets, List.find?_append, lhs.badTarget?_eq_find?,
      rhs.badTarget?_eq_find?]
  termination_by structural b => b

/-- **The search finds the first move that goes to no place.** -/
theorem Stmt.badTarget?_eq_find? : ∀ stmt : Stmt,
    stmt.badTarget? = stmt.moveTargets.find? (!·.isPlace)
  | .seq first second => by
    rw [Stmt.badTarget?, Stmt.moveTargets, List.find?_append, first.badTarget?_eq_find?,
      second.badTarget?_eq_find?]
  | .label _ => rfl
  | .move target source => by
    rw [Stmt.badTarget?, Stmt.moveTargets, List.find?_append, source.badTarget?_eq_find?,
      target.badTargetInto?_eq_find?]
  | .eval expr => expr.badTarget?_eq_find?
  | .branch b => b.badTarget?_eq_find?
  termination_by structural s => s

end

/-- There is such a move if one occurs anywhere in the statement. -/
theorem Stmt.exists_badTarget_iff {stmt : Stmt} :
    (∃ target, stmt.badTarget? = some target) ↔
      ∃ target source, .stmt (.move target source) ∈ stmt.nodes ∧
        target.stripped.isPlace = false := by
  rw [← Option.isSome_iff_exists, stmt.badTarget?_eq_find?, List.find?_isSome]
  simp only [stmt.perm_moveTargets.mem_iff, List.mem_filterMap, Node.moveTarget?_eq_some_iff,
    Bool.not_eq_true']
  constructor
  · rintro ⟨_, ⟨_, hn, target, source, rfl, rfl⟩, hplace⟩
    exact ⟨target, source, hn, hplace⟩
  · rintro ⟨target, source, hn, hplace⟩
    exact ⟨target.stripped, ⟨_, hn, target, source, rfl, rfl⟩, hplace⟩

/-! ## The main result -/

/-- The pass succeeds, or it names the first move that goes to no place. -/
theorem run_canonicalize_cases (stmt : Stmt) (w : Workspace) :
    (stmt.badTarget? = none ∧ ∃ code w', (Pipeline.canonicalize stmt).run w = (.ok code, w')) ∨
    ∃ target w', stmt.badTarget? = some target ∧
      (Pipeline.canonicalize stmt).run w = (.error (.badMoveTarget target), w') := by
  have hends := stmt.ends_canonical
  cases hbad : stmt.badTarget? with
  | none =>
    rw [hbad] at hends
    obtain ⟨code, supply, hcanonical⟩ := hends w.supply
    exact .inl ⟨rfl, code, exists_run_canonicalize hcanonical⟩
  | some target =>
    rw [hbad] at hends
    obtain ⟨supply, hcanonical⟩ := hends w.supply
    obtain ⟨w', hrun⟩ := exists_run_canonicalize_error hcanonical
    exact .inr ⟨target, w', rfl, hrun⟩

/-- **Canonicalization rejects exactly the moves that go to no place.**  The fault names the first
of them, and there is no other fault.  Where operands are staged, as many expressions are left as
there were operands; so neither the check on a known number of operands nor the one for the function
of a call ever faults, whatever the operands are. -/
theorem canonicalize_rejects_bad_targets (stmt : Stmt) (w : Workspace) :
    ((∃ fault w', (Pipeline.canonicalize stmt).run w = (.error fault, w')) ↔
      ∃ target source, .stmt (.move target source) ∈ stmt.nodes ∧
        target.stripped.isPlace = false) ∧
    (∀ fault w', (Pipeline.canonicalize stmt).run w = (.error fault, w') →
      ∃ target, stmt.moveTargets.find? (!·.isPlace) = some target ∧
        fault = .badMoveTarget target ∧
        fault.message = Fault.invariant ("invalid move target: " ++ target.text)) ∧
    (∀ given supply staged supply', (Staged.reorder given).run supply = (.ok staged, supply') →
      staged.value.length = given.length) ∧
    (∀ es supply staged supply', (Expr.stageAll es).run supply = (.ok staged, supply') →
      staged.value.length = es.length) ∧
    (∀ count (given : Vector (Fresh (Staged Expr)) count) supply fault supply',
      (Staged.operands given).run supply = (.error fault, supply') →
        (Staged.reorder given.toList).run supply = (.error fault, supply')) ∧
    ∀ function args supply fault supply',
      (Staged.call function args).run supply = (.error fault, supply') →
        (Staged.cons function args).run supply = (.error fault, supply') := by
  refine and_assoc.1 ⟨?_, fun _ _ _ _ => Staged.length_reorder,
    fun _ _ _ _ => Expr.length_stageAll, fun _ _ _ _ _ => Staged.run_operands_error,
    fun _ _ _ _ _ => Staged.run_call_error⟩
  rw [← Stmt.exists_badTarget_iff, ← stmt.badTarget?_eq_find?]
  rcases run_canonicalize_cases stmt w with ⟨hgood, code, w₁, hrun⟩ | ⟨target, w₁, hbad, hrun⟩
  · rw [hrun, hgood]
    refine ⟨iff_of_false ?_ (by simp), fun fault w' hfault => by cases hfault⟩
    rintro ⟨fault, w', hfault⟩
    cases hfault
  · rw [hrun, hbad]
    refine ⟨iff_of_true ⟨_, w₁, rfl⟩ ⟨target, rfl⟩, fun fault w' hfault => ?_⟩
    cases hfault
    exact ⟨target, rfl, rfl, rfl⟩

/-- A move inside an address, and behind it a move to a constant, in the source of which there is
a move to a label. -/
def strayMove : Stmt :=
  .eval (.binop .plus
    (.mem (.eseq (.move (.temp (.virtual 1)) (.const 1)) (.temp (.virtual 1))))
    (.eseq (.move (.eseq (.label (.named "a")) (.const 2))
      (.eseq (.move (.name (.named "b")) (.const 3)) (.const 4))) (.const 5)))

theorem strayMove_rejected :
    ∃ fault w', (Pipeline.canonicalize strayMove).run { frame := { name := .named "f" } } =
        (.error fault, w') ∧ fault = .badMoveTarget (.const 2) ∧
      fault.message = Fault.invariant ("invalid move target: " ++ (Expr.const 2).text) := by
  obtain ⟨hiff, hfirst, -⟩ := canonicalize_rejects_bad_targets strayMove
    { frame := { name := .named "f" } }
  obtain ⟨fault, w', hrun⟩ := hiff.2 ⟨.name (.named "b"), .const 3,
    by simp [strayMove, Stmt.nodes, Expr.nodes], rfl⟩
  obtain ⟨target, hfind, hfault, hmessage⟩ := hfirst fault w' hrun
  have htarget : some (Expr.const 2) = some target := hfind
  cases htarget
  exact ⟨fault, w', hrun, hfault, hmessage⟩

end Lowering
