import Lowering.Canonical

/-!
# Operands are not lost

Operands are staged as a list and then taken out of it again.  As many expressions are left as
there were operands, so the checks that are made on the way find what they expect: taking the
operands out faults only if staging them does.

With the checks out of the way, an operation on two operands stages a pair, and one on a single
operand stages just that.  A statement stages all that it evaluates as if it were part of an
expression.

## Main definitions

* `Staged.length_reorder` — as many expressions are left as there were operands.
* `Staged.run_operands_error`, `Staged.run_call_error` — the checks never fault.
* `Expr.stageAlone_eq_stage` — it does not matter that an expression stands alone.
* `Expr.stage_binop`, `Expr.stageInto_mem`, `Stmt.canonical_move` and the like — staging without
  the checks.
-/

namespace Lowering

namespace Staged

variable {supply supply' : Supply} {fault : Fault}

/-! ## The checks -/

section

variable {first : Fresh (Staged Expr)} {rest : Fresh (Staged (List Expr))}
  {staged : Staged (List Expr)}

/-- What is left of operands begins with what is left of the first. -/
theorem exists_cons_of_run_cons (h : (cons first rest).run supply = (.ok staged, supply')) :
    ∃ v tail s s', rest.run s = (.ok tail, s') ∧ staged.value = v :: tail.value := by
  obtain ⟨p, s₁, hpair, h⟩ := Attempt.run_bind_eq_ok_iff.1 h
  cases h
  obtain ⟨head, s₂, -, hpair⟩ := Attempt.run_bind_eq_ok_iff.1 hpair
  obtain ⟨tail, s₃, htail, hpair⟩ := Attempt.run_bind_eq_ok_iff.1 hpair
  refine ⟨p.value.1, tail, s₂, s₃, htail, congrArg (p.value.1 :: ·) ?_⟩
  -- Whether or not the first operand is saved, the others are left as they are.
  split at hpair
  · cases hpair
    rfl
  · obtain ⟨t, s₄, -, hpair⟩ := Attempt.run_bind_eq_ok_iff.1 hpair
    cases hpair
    rfl

/-- **As many expressions are left as there were operands.** -/
theorem length_reorder : ∀ {given : List (Fresh (Staged Expr))} {supply supply' : Supply}
    {staged : Staged (List Expr)}, (reorder given).run supply = (.ok staged, supply') →
    staged.value.length = given.length
  | [], _, _, _, h => by
    cases h
    rfl
  | _ :: _, _, _, _, h => by
    obtain ⟨v, tail, s, s', htail, hvalue⟩ := exists_cons_of_run_cons h
    rw [hvalue, List.length_cons, length_reorder htail, List.length_cons]

/-- **A known number of operands can be taken out again**: if there is a fault, it is one of
staging them. -/
theorem run_operands_error {count : Nat} {given : Vector (Fresh (Staged Expr)) count}
    (h : (operands given).run supply = (.error fault, supply')) :
    (reorder given.toList).run supply = (.error fault, supply') := by
  rcases Attempt.run_bind_eq_error_iff.1 h with h | ⟨staged, s, hstaged, h⟩
  · exact h
  · have hlength : staged.value.length = count := by simpa using length_reorder hstaged
    rw [take, dif_pos hlength] at h
    cases h

/-- **The function of a call is left**: if there is a fault, it is one of staging the function and
the arguments. -/
theorem run_call_error (h : (call first rest).run supply = (.error fault, supply')) :
    (cons first rest).run supply = (.error fault, supply') := by
  rcases Attempt.run_bind_eq_error_iff.1 h with h | ⟨staged, s, hstaged, h⟩
  · exact h
  · obtain ⟨v, tail, -, -, -, hvalue⟩ := exists_cons_of_run_cons hstaged
    rw [hvalue] at h
    cases h

end

/-! ## Staging without the checks -/

section

variable (lhs rhs address : Fresh (Staged Expr))

/-- What is done with the value that is left of the second does not matter for the first. -/
theorem pair_map {α β : Type} (rest : Fresh (Staged α)) (f : α → β) :
    pair lhs (do let staged ← rest; pure ⟨staged.effects, f staged.value⟩) = (do
      let staged ← pair lhs rest
      pure ⟨staged.effects, staged.value.1, f staged.value.2⟩) := by
  simp only [pair, bind_assoc, pure_bind]
  refine bind_congr fun head => bind_congr fun tail => ?_
  split <;> simp

/-- There is nothing behind the last operand, so it is never saved. -/
theorem reorder_singleton :
    reorder [address] = (do
      let staged ← address
      pure ⟨staged.effects, [staged.value]⟩) := by
  simp [reorder, cons, pair, plain, Expr.commutes]

theorem operands_singleton :
    operands #v[address] = (do
      let staged ← address
      pure ⟨staged.effects, #v[staged.value]⟩) := by
  simp [operands, reorder_singleton, take]

theorem operands_pair :
    operands #v[lhs, rhs] = (do
      let staged ← pair lhs rhs
      pure ⟨staged.effects, #v[staged.value.1, staged.value.2]⟩) := by
  have hreorder : reorder [lhs, rhs] = (do
      let staged ← pair lhs rhs
      pure ⟨staged.effects, [staged.value.1, staged.value.2]⟩) := by
    rw [reorder, reorder_singleton, cons, pair_map lhs rhs (fun v => [v])]
    simp
  simp [operands, hreorder, take]

theorem binop_eq (op : BinOp) :
    Staged.binop op lhs rhs = (do
      let staged ← pair lhs rhs
      pure ⟨staged.effects, .binop op staged.value.1 staged.value.2⟩) := by
  simp [Staged.binop, operands_pair]

theorem mem_eq :
    Staged.mem address = (do
      let staged ← address
      pure ⟨staged.effects, .mem staged.value⟩) := by
  simp [Staged.mem, operands_singleton]

theorem call_eq (function : Fresh (Staged Expr)) (args : Fresh (Staged (List Expr))) :
    Staged.call function args = (do
      let staged ← pair function args
      pure ⟨staged.effects, .call staged.value.1 staged.value.2⟩) := by
  simp [Staged.call, cons]

theorem alone_eq : alone address = address := by
  simp [alone, operands_singleton]

end

end Staged

open Staged

section

variable (lhs rhs : Expr)

theorem Expr.stage_binop (op : BinOp) :
    (Expr.binop op lhs rhs).stage = (do
      let staged ← pair (operand lhs lhs.stage) (operand rhs rhs.stage)
      pure ⟨staged.effects, .binop op staged.value.1 staged.value.2⟩) := by
  rw [Expr.stage, Staged.binop_eq]

theorem Expr.stage_mem (address : Expr) :
    (Expr.mem address).stage = (do
      let staged ← operand address address.stage
      pure ⟨staged.effects, .mem staged.value⟩) := by
  rw [Expr.stage, Staged.mem_eq]

theorem Expr.stage_call (function : Expr) (args : List Expr) :
    (Expr.call function args).stage = (do
      let staged ← pair (operand function function.stage) (Expr.stageAll args)
      pure ⟨staged.effects, .call staged.value.1 staged.value.2⟩) := by
  rw [Expr.stage, Staged.call_eq]

/-- The arguments of a call are staged one after another. -/
theorem Expr.stageAll_eq_reorder (es : List Expr) :
    Expr.stageAll es = reorder (es.map fun e => operand e e.stage) := by
  induction es with
  | nil => rw [Expr.stageAll, List.map_nil, reorder]
  | cons e rest ih => rw [Expr.stageAll, ih, List.map_cons, reorder]

theorem Expr.length_stageAll {es : List Expr} {supply supply' : Supply}
    {staged : Staged (List Expr)}
    (h : (Expr.stageAll es).run supply = (.ok staged, supply')) :
    staged.value.length = es.length := by
  rw [Expr.stageAll_eq_reorder] at h
  rw [length_reorder h, List.length_map]

theorem Expr.stageInto_mem (source : Expr) (stage : Fresh (Staged Expr)) (address : Expr) :
    Expr.stageInto source stage (.mem address) = (do
      let staged ← pair (operand address address.stage) (operand source stage)
      pure (staged.finish fun p => .move (.mem p.1) p.2)) := by
  rw [Expr.stageInto, operands_pair]
  simp [finish]

theorem Branch.canonical_jump (target : Expr) (labels : List Label) :
    (Branch.jump target labels).canonical = (do
      let staged ← operand target target.stage
      pure (staged.finish fun target => .branch (.jump target labels))) := by
  rw [Branch.canonical, operands_singleton]
  simp [finish]

theorem Branch.canonical_cjump (op : RelOp) (onTrue onFalse : Label) :
    (Branch.cjump op lhs rhs onTrue onFalse).canonical = (do
      let staged ← pair (operand lhs lhs.stage) (operand rhs rhs.stage)
      pure (staged.finish fun p => .branch (.cjump op p.1 p.2 onTrue onFalse))) := by
  rw [Branch.canonical, operands_pair]
  simp [finish]

end

/-! ## All that a statement evaluates -/

/-- An operation is no call, also when its operands are staged. -/
theorem Staged.operand_map {γ : Type} {e : Expr} (x : Fresh (Staged γ)) (f : γ → Expr)
    (he : e.isCall = false) (hf : ∀ v, (f v).isCall = false) :
    operand e (do let staged ← x; pure ⟨staged.effects, f staged.value⟩) =
      (do let staged ← x; pure ⟨staged.effects, f staged.value⟩) := by
  simp [operand, he, hf]

/-- **It does not matter that an expression stands alone.** -/
theorem Expr.stageAlone_eq_stage (e : Expr) : e.stageAlone = e.stage := by
  cases e with
  | const value => simp [Expr.stageAlone, Expr.stage, alone_eq, operand, plain, Expr.isCall]
  | name l => simp [Expr.stageAlone, Expr.stage, alone_eq, operand, plain, Expr.isCall]
  | temp t => simp [Expr.stageAlone, Expr.stage, alone_eq, operand, plain, Expr.isCall]
  | binop op lhs rhs =>
    rw [Expr.stageAlone, Expr.stage, alone_eq, binop_eq,
      operand_map _ (fun p : Expr × Expr => Expr.binop op p.1 p.2) rfl fun _ => rfl]
  | mem address =>
    rw [Expr.stageAlone, Expr.stage, alone_eq, mem_eq, operand_map _ Expr.mem rfl fun _ => rfl]
  | call function args => rw [Expr.stageAlone, Expr.stage]
  | eseq stmt value => rw [Expr.stageAlone, Expr.stage, value.stageAlone_eq_stage]
  termination_by structural e

theorem Stmt.canonical_move (target source : Expr) :
    (Stmt.move target source).canonical = Expr.stageInto source source.stage target := by
  rw [Stmt.canonical, source.stageAlone_eq_stage, ite_self]

theorem Stmt.canonical_eval (expr : Expr) :
    (Stmt.eval expr).canonical = (do
      let staged ← expr.stage
      pure staged.evaluate) := by
  rw [Stmt.canonical, expr.stageAlone_eq_stage]

end Lowering
