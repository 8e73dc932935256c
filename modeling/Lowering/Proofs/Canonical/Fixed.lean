import Lowering.Proofs.Canonical.Fault
import Lowering.Proofs.Canonical.Normal

/-!
# Canonical statements are left alone

Nothing is staged in a pure expression, and nothing in front of a call of pure expressions.  So
staging gives back a canonical statement as it is and draws no temporary, and joining canonical
statements to one statement is undone by staging it.  What canonicalization gives is canonical;
to canonicalize it again therefore changes nothing.

## Main definitions

* `Expr.stage_of_isPure`, `Stmt.canonical_of_isCanonical` — nothing is staged.
* `canonical_ofList` — joined statements come apart again.
* `canonicalize_fixes_normal_form` — the main result.
-/

namespace Lowering

open Staged

/-! ## Nothing to stage -/

theorem Expr.isCall_of_isPure {e : Expr} (h : e.isPure = true) : e.isCall = false := by
  cases e with
  | call => simp [Expr.isPure] at h
  | _ => rfl

namespace Staged

theorem operand_plain {e : Expr} (h : e.isCall = false) :
    operand e (pure (plain e)) = pure (plain e) := by
  simp [operand, plain, h]

/-- Behind an operand with nothing to stage, one with nothing to stage. -/
theorem pair_plain {α : Type} (v : Expr) (a : α) :
    pair (pure (plain v)) (pure (plain a)) = pure (plain (v, a)) := by
  simp [pair, plain, Expr.commutes]

end Staged

/-- **Nothing is staged in a pure expression.** -/
theorem Expr.stage_of_isPure : ∀ {e : Expr}, e.isPure = true → e.stage = pure (plain e)
  | .const _, _ => by rw [Expr.stage]
  | .name _, _ => by rw [Expr.stage]
  | .temp _, _ => by rw [Expr.stage]
  | .binop op lhs rhs, h => by
    obtain ⟨hl, hr⟩ := Bool.and_eq_true_iff.1 h
    rw [Expr.stage_binop, stage_of_isPure hl, stage_of_isPure hr,
      operand_plain (isCall_of_isPure hl), operand_plain (isCall_of_isPure hr), pair_plain,
      pure_bind]
    rfl
  | .mem address, h => by
    have ha : address.isPure = true := h
    rw [Expr.stage_mem, stage_of_isPure ha, operand_plain (isCall_of_isPure ha), pure_bind]
    rfl

/-- A pure expression is an operand as it stands. -/
theorem Expr.operand_of_isPure {e : Expr} (h : e.isPure = true) :
    operand e e.stage = pure (plain e) := by
  rw [stage_of_isPure h, operand_plain (isCall_of_isPure h)]

theorem Expr.stageAll_of_isPure {es : List Expr} (h : es.all Expr.isPure = true) :
    Expr.stageAll es = pure (plain es) := by
  induction es with
  | nil => rw [Expr.stageAll]
  | cons e rest ih =>
    obtain ⟨he, hrest⟩ := Bool.and_eq_true_iff.1 (List.all_cons ▸ h)
    rw [Expr.stageAll, cons, operand_of_isPure he, ih hrest, pair_plain, pure_bind]
    rfl

/-- In front of a call of pure expressions there is nothing to stage either. -/
theorem Expr.stage_of_isPureOrCall {e : Expr} (h : e.isPureOrCall = true) :
    e.stage = pure (plain e) := by
  rcases Bool.or_eq_true_iff.1 h with hpure | hcall
  · exact stage_of_isPure hpure
  · cases e with
    | call function args =>
      obtain ⟨hf, has⟩ := Bool.and_eq_true_iff.1 hcall
      rw [Expr.stage_call, operand_of_isPure hf, stageAll_of_isPure has, pair_plain, pure_bind]
      rfl
    | _ => cases hcall

/-! ## Canonical statements -/

theorem Branch.canonical_of_isPure {b : Branch} (h : b.isPure = true) :
    b.canonical = pure [.branch b] := by
  cases b with
  | jump target labels =>
    have htarget : target.isPure = true := h
    rw [Branch.canonical_jump, Expr.operand_of_isPure htarget, pure_bind]
    rfl
  | cjump op lhs rhs onTrue onFalse =>
    obtain ⟨hl, hr⟩ := Bool.and_eq_true_iff.1 h
    rw [Branch.canonical_cjump, Expr.operand_of_isPure hl, Expr.operand_of_isPure hr, pair_plain,
      pure_bind]
    rfl

/-- **A canonical statement is all that staging makes of it**, and no temporary is drawn. -/
theorem Stmt.canonical_of_isCanonical {s : Stmt} (h : s.isCanonical = true) :
    s.canonical = pure [s] := by
  cases s with
  | seq => cases h
  | label l => rw [Stmt.canonical]
  | move target source =>
    rw [Stmt.canonical_move]
    cases target with
    | temp t =>
      have hsource : source.isPureOrCall = true := h
      rw [Expr.stageInto, Expr.stage_of_isPureOrCall hsource, pure_bind]
      rfl
    | mem address =>
      obtain ⟨ha, hv⟩ := Bool.and_eq_true_iff.1 h
      rw [Expr.stageInto_mem, Expr.operand_of_isPure ha, Expr.operand_of_isPure hv, pair_plain,
        pure_bind]
      rfl
    | _ => cases h
  | eval expr =>
    -- A constant would be dropped, but evaluating one is not canonical.
    cases expr with
    | const => cases h
    | eseq => cases h
    | _ =>
      rw [Stmt.canonical_eval, Expr.stage_of_isPureOrCall h, pure_bind]
      rfl
  | branch b =>
    rw [Stmt.canonical]
    exact Branch.canonical_of_isPure h

/-- **Joined canonical statements come apart again**, also if there are none. -/
theorem canonical_ofList {stmts : List Stmt} (h : ∀ s ∈ stmts, s.isCanonical = true) :
    (Stmt.ofList stmts).canonical = pure stmts := by
  induction stmts with
  | nil =>
    rw [Stmt.ofList, Stmt.nop, Stmt.canonical_eval, Expr.stage, pure_bind]
    rfl
  | cons s rest ih =>
    obtain ⟨hs, hrest⟩ := List.forall_mem_cons.1 h
    cases rest with
    | nil => exact Stmt.canonical_of_isCanonical hs
    | cons s' rest =>
      rw [Stmt.ofList, Stmt.canonical, Stmt.canonical_of_isCanonical hs, ih hrest, pure_bind,
        pure_bind]
      · rfl
      · exact List.cons_ne_nil s' rest

/-! ## Again and again -/

section

variable {code : List Stmt}

theorem run_canonicalize_ofList (h : ∀ s ∈ code, s.isCanonical = true) (w : Workspace) :
    ∃ w', (Pipeline.canonicalize (.ofList code)).run w = (.ok code, w') ∧
      w'.supply = w.supply := by
  have hcanonical : (Stmt.ofList code).canonical.run w.supply = (.ok code, w.supply) := by
    rw [canonical_ofList h, Attempt.run_pure]
  obtain ⟨w', hrun⟩ := exists_run_canonicalize hcanonical
  have hsupply := run_canonicalize_eq_ok hrun
  rw [hcanonical] at hsupply
  exact ⟨w', hrun, (Prod.mk.inj hsupply).2.symm⟩

theorem run_canonicalizeAgain (h : ∀ s ∈ code, s.isCanonical = true) (times : Nat)
    (w : Workspace) :
    ∃ w', (Pipeline.canonicalizeAgain times code).run w = (.ok code, w') ∧
      w'.supply = w.supply := by
  induction times generalizing w with
  | zero => exact ⟨w, rfl, rfl⟩
  | succ times ih =>
    obtain ⟨w₁, hrun, hsupply⟩ := run_canonicalize_ofList h w
    obtain ⟨w', hrun', hsupply'⟩ := ih w₁
    refine ⟨w', ?_, hsupply'.trans hsupply⟩
    rw [Pipeline.canonicalizeAgain, Attempt.run_bind_ok _ hrun, hrun']

end

/-- **Canonicalization is idempotent.**  It gives back every list of statements in normal form,
joined to one statement, and draws no names.  So what it made of a statement stays the same, however
often it is canonicalized again. -/
theorem canonicalize_fixes_normal_form :
    (∀ (stmts : List Stmt) (w : Workspace), (∀ s ∈ stmts, s.IsNormal) →
      ∃ w', (Pipeline.canonicalize (.ofList stmts)).run w = (.ok stmts, w') ∧
        w'.supply = w.supply) ∧
    ∀ (stmt : Stmt) (code : List Stmt) (w w' : Workspace),
      (Pipeline.canonicalize stmt).run w = (.ok code, w') →
      ∀ (times : Nat) (later : Workspace), ∃ w'',
        (Pipeline.canonicalizeAgain times code).run later = (.ok code, w'') ∧
          w''.supply = later.supply := by
  refine ⟨fun stmts w h => ?_, fun stmt code w w' h times later => ?_⟩
  · exact run_canonicalize_ofList (fun s hs => Stmt.isCanonical_iff_isNormal.2 (h s hs)) w
  · obtain ⟨-, -, hlowered⟩ := stmt.yields_canonical (run_canonicalize_eq_ok h)
    exact run_canonicalizeAgain hlowered.canonical times later

theorem surfacedCallCode_fixed :
    (∀ s ∈ surfacedCallCode, s.IsNormal) ∧
    (∃ w', (Pipeline.canonicalize (.ofList surfacedCallCode)).run
        { supply := ⟨4, 0⟩, frame := { name := .named "f" } } = (.ok surfacedCallCode, w') ∧
      w'.supply = ⟨4, 0⟩) ∧
    ∃ w', (Pipeline.canonicalize surfacedCall).run { frame := { name := .named "f" } } =
        (.ok surfacedCallCode, w') ∧
      ∃ w'', (Pipeline.canonicalizeAgain 3 surfacedCallCode).run w' =
          (.ok surfacedCallCode, w'') ∧ w''.supply = w'.supply := by
  have hnormal : ∀ s ∈ surfacedCallCode, s.IsNormal := by
    intro s hs
    refine Stmt.isCanonical_iff_isNormal.1 (List.all_eq_true.1 ?_ s hs)
    rfl
  have hrun : (Pipeline.canonicalize surfacedCall).run { frame := { name := .named "f" } } =
      (.ok surfacedCallCode, _) := rfl
  exact ⟨hnormal, canonicalize_fixes_normal_form.1 _ _ hnormal, _, hrun,
    canonicalize_fixes_normal_form.2 _ _ _ _ hrun 3 _⟩

end Lowering
