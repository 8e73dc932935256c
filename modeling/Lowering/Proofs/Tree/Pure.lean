import Lowering.Canonical.Form
import Lowering.Proofs.Tree.Fragment

/-!
# Pure expressions

The value of a pure expression is read off the state, and what a canonical statement does is a
function of the state.

## Main definitions

* `Evaluation.step` — changing the state.
* `Expr.value` — the value of a pure expression.
* `Expr.means_of_isPure` — it is what the expression means.
* `Stmt.steps` — what a statement does and where it goes.
* `Stmt.steps_iff_outcome` — the same as a function.
-/

namespace Lowering

open Evaluation

variable {α β : Type} {W : World}

/-! ## Values that are read off the state -/

/-- Change the state. -/
def Evaluation.step (f : TreeState → TreeState) : Evaluation Unit := fun s _ s' => s' = f s

section

variable {f : TreeState → α} {g : TreeState → β}

theorem pair_still : (still f).pair (still g) = still fun s => (f s, g s) := by
  funext s p s'
  refine propext ⟨?_, ?_⟩
  · rintro ⟨t, ⟨hp, rfl⟩, hq, rfl⟩
    exact ⟨Prod.ext hp hq, rfl⟩
  · rintro ⟨rfl, rfl⟩
    exact ⟨s', ⟨rfl, rfl⟩, rfl, rfl⟩

/-- Something is done with a value that is read off the state. -/
theorem andThen_still_eq (h : α → TreeState → β × TreeState) :
    (still f).andThen h = fun s b s' => h (f s) s = (b, s') := by
  funext s b s'
  refine propext ⟨?_, fun heq => ⟨f s, s, ⟨rfl, rfl⟩, heq⟩⟩
  rintro ⟨a, t, ⟨rfl, rfl⟩, heq⟩
  exact heq

/-- Something is read off the state that goes with a value. -/
theorem andThen_still_read (h : α → TreeState → β) :
    ((still f).andThen fun a s => (h a s, s)) = still fun s => h (f s) s := by
  rw [andThen_still_eq]
  funext s b s'
  simp only [still, Prod.mk.injEq, eq_comm]

theorem andThen_still (f : TreeState → α) (g : α → β) :
    ((still f).andThen fun a s => (g a, s)) = still fun s => g (f s) :=
  andThen_still_read fun a _ => g a

/-- An effect that depends on a value that is read off the state. -/
theorem andThen_still_eq_step (h : α → TreeState → Unit × TreeState) :
    (still f).andThen h = step fun s => (h (f s) s).2 := by
  rw [andThen_still_eq]
  funext s _ s'
  exact propext ⟨fun heq => (congrArg Prod.snd heq).symm, fun heq => Prod.ext rfl heq.symm⟩

theorem andThen_andThen {γ : Type} {e : Evaluation α} (h : α → TreeState → β × TreeState)
    (k : β → TreeState → γ × TreeState) :
    (e.andThen h).andThen k = e.andThen fun a s => k (h a s).1 (h a s).2 := by
  funext s c s'
  refine propext ⟨?_, ?_⟩
  · rintro ⟨b, t, ⟨a, u, he, heq⟩, hk⟩
    refine ⟨a, u, he, ?_⟩
    dsimp only
    rw [heq]
    exact hk
  · rintro ⟨a, u, he, hk⟩
    exact ⟨_, _, ⟨a, u, he, rfl⟩, hk⟩

theorem select_still (h : α → Option β) :
    (still f).select h = fun s b s' => h (f s) = some b ∧ s' = s := by
  funext s b s'
  refine propext ⟨?_, ?_⟩
  · rintro ⟨a, ⟨rfl, rfl⟩, hb⟩
    exact ⟨hb, rfl⟩
  · rintro ⟨hb, rfl⟩
    exact ⟨f s', ⟨rfl, rfl⟩, hb⟩

end

/-! ## Calls -/

/-- What is left of a state after a call. -/
def World.finishCall (W : World) (function : Word) (args : List Word) (dst : Option Temp)
    (s : TreeState) : TreeState :=
  match dst with
  | some t => (W.invoke function args s).2.setTemp t (W.invoke function args s).1
  | none => (W.invoke function args s).2

/-! ## Expressions -/

/-- The value of a pure expression. -/
def Expr.value (W : World) (s : TreeState) : Expr → Word
  | .const value => value
  | .name label => W.address label
  | .temp t => s.temps t
  | .binop op lhs rhs => op.eval (lhs.value W s) (rhs.value W s)
  | .mem address => s.memory (address.value W s)
  | .call .. | .eseq .. => 0

/-- **A pure expression means its value.** -/
theorem Expr.means_of_isPure (W : World) : ∀ {e : Expr}, e.isPure = true →
    e.means W = still fun s => e.value W s
  | .const _, _ => rfl
  | .name _, _ => rfl
  | .temp _, _ => rfl
  | .binop op lhs rhs, h => by
    obtain ⟨hl, hr⟩ := Bool.and_eq_true_iff.1 h
    rw [Expr.means, means_of_isPure W hl, means_of_isPure W hr, pair_still]
    exact andThen_still (fun s => (lhs.value W s, rhs.value W s)) fun p => op.eval p.1 p.2
  | .mem address, h => by
    rw [Expr.means, means_of_isPure W (e := address) h]
    exact andThen_still_read fun a s => s.memory a

theorem Expr.meansAll_of_isPure (W : World) {es : List Expr} (h : es.all Expr.isPure = true) :
    Expr.meansAll W es = still fun s => es.map (Expr.value W s) := by
  induction es with
  | nil => rfl
  | cons e es ih =>
    rw [List.all_cons, Bool.and_eq_true] at h
    rw [Expr.meansAll, Expr.means_of_isPure W h.1, ih h.2, pair_still]
    exact andThen_still (fun s => (e.value W s, es.map (Expr.value W s))) fun p => p.1 :: p.2

/-! ## Canonical statements -/

/-- What a statement does and the label to which it goes, if it branches.  A jump to a label goes
there, whatever labels it lists. -/
def Stmt.steps (W : World) : Stmt → Evaluation (Option Label)
  | .branch (.jump (.name l) _) => still fun _ => some l
  | .branch b => (b.means W).andThen fun l s => (some l, s)
  | stmt => (Runs (stmt.actions W)).andThen fun _ s => (none, s)

/-- The same as a function, for a canonical statement and for one that does nothing. -/
def Stmt.outcome (W : World) (s : TreeState) : Stmt → Option (Option Label × TreeState)
  | .label _ => some (none, s)
  | .move (.temp t) (.call function args) =>
    some (none, W.finishCall (function.value W s) (args.map (Expr.value W s)) (some t) s)
  | .move (.temp t) source => some (none, s.setTemp t (source.value W s))
  | .move (.mem address) source =>
    some (none, s.setMemory (address.value W s) (source.value W s))
  | .eval (.call function args) =>
    some (none, W.finishCall (function.value W s) (args.map (Expr.value W s)) none s)
  | .eval _ => some (none, s)
  | .branch (.jump (.name l) _) => some (some l, s)
  | .branch (.jump target labels) => (W.labelAt (target.value W s) labels).map fun l => (some l, s)
  | .branch (.cjump op lhs rhs onTrue onFalse) =>
    some (some (if op.holds (lhs.value W s) (rhs.value W s) then onTrue else onFalse), s)
  | _ => none

section Outcome

variable {W : World} {s s' : TreeState} {next : Option Label} {stmt : Stmt}

theorem runs_mark {l : Label} : Runs [.mark l] = still fun _ => () := by
  funext s _ s'
  refine propext ⟨?_, ?_⟩
  · rintro ⟨_, h⟩
    cases h with
    | mark h =>
      cases h
      exact ⟨rfl, rfl⟩
  · rintro ⟨-, rfl⟩
    exact ⟨1, .mark (.refl _ _)⟩

/-- A statement that changes the state goes on behind it. -/
theorem Stmt.steps_iff_of_actions {f : TreeState → TreeState}
    (hactions : stmt.actions W = [.effect (step f)])
    (houtcome : stmt.outcome W s = some (none, f s)) :
    stmt.steps W s next s' ↔ stmt.outcome W s = some (next, s') := by
  have hsteps : stmt.steps W = (Runs (stmt.actions W)).andThen fun _ s => (none, s) := by
    cases stmt with
    | branch b => simp [Stmt.actions] at hactions
    | _ => rfl
  rw [hsteps, hactions, houtcome]
  constructor
  · rintro ⟨_, t, hrun, heq⟩
    cases heq
    rw [runs_effect.1 hrun]
  · intro heq
    cases heq
    exact ⟨(), f s, runs_effect.2 rfl, rfl⟩

theorem means_of_isPureCall {function : Expr} {args : List Expr}
    (h : (Expr.call function args).isPureCall = true) :
    (Expr.call function args).means W = (still fun s =>
      (function.value W s, args.map (Expr.value W s))).andThen fun p s => W.invoke p.1 p.2 s := by
  obtain ⟨hf, has⟩ := Bool.and_eq_true_iff.1 h
  rw [Expr.means, Expr.means_of_isPure W hf, Expr.meansAll_of_isPure W has, pair_still]

/-- What a canonical move does is determined. -/
theorem Stmt.steps_move {target source : Expr}
    (h : (Stmt.move target source).isCanonical = true) :
    (Stmt.move target source).steps W s next s' ↔
      (Stmt.move target source).outcome W s = some (next, s') := by
  cases target with
  | temp t =>
    rcases Bool.or_eq_true_iff.1 h with hpure | hcall
    · have hactions : (Stmt.move (.temp t) source).actions W =
          [.effect (step fun s => s.setTemp t (source.value W s))] := by
        rw [Stmt.actions, Expr.moves, Expr.means_of_isPure W hpure, andThen_still_eq_step]
      refine Stmt.steps_iff_of_actions hactions ?_
      cases source with
      | call => cases hpure
      | _ => rfl
    · cases source with
      | call function args =>
        have hactions : (Stmt.move (.temp t) (.call function args)).actions W =
            [.effect (step fun s => W.finishCall (function.value W s)
              (args.map (Expr.value W s)) (some t) s)] := by
          rw [Stmt.actions, Expr.moves, means_of_isPureCall hcall, andThen_andThen,
            andThen_still_eq_step]
          rfl
        exact Stmt.steps_iff_of_actions hactions rfl
      | _ => cases hcall
  | mem address =>
    obtain ⟨ha, hv⟩ := Bool.and_eq_true_iff.1 h
    have hactions : (Stmt.move (.mem address) source).actions W =
        [.effect (step fun s => s.setMemory (address.value W s) (source.value W s))] := by
      rw [Stmt.actions, Expr.moves, Expr.means_of_isPure W ha, Expr.means_of_isPure W hv,
        pair_still, andThen_still_eq_step]
    exact Stmt.steps_iff_of_actions hactions rfl
  | _ => cases h

/-- What evaluating an expression does is determined. -/
theorem Stmt.steps_eval {expr : Expr} (h : expr.isPureOrCall = true) :
    (Stmt.eval expr).steps W s next s' ↔ (Stmt.eval expr).outcome W s = some (next, s') := by
  rcases Bool.or_eq_true_iff.1 h with hpure | hcall
  · have hactions : (Stmt.eval expr).actions W = [.effect (step fun s => s)] := by
      rw [Stmt.actions, Expr.means_of_isPure W hpure, andThen_still_eq_step]
    refine Stmt.steps_iff_of_actions hactions ?_
    cases expr with
    | call => cases hpure
    | _ => rfl
  · cases expr with
    | call function args =>
      have hactions : (Stmt.eval (.call function args)).actions W =
          [.effect (step fun s => W.finishCall (function.value W s)
            (args.map (Expr.value W s)) none s)] := by
        rw [Stmt.actions, means_of_isPureCall hcall, andThen_andThen, andThen_still_eq_step]
        rfl
      exact Stmt.steps_iff_of_actions hactions rfl
    | _ => cases hcall

/-- Where a branch goes is determined. -/
theorem Stmt.steps_branch {b : Branch} (h : b.isPure = true) :
    (Stmt.branch b).steps W s next s' ↔ (Stmt.branch b).outcome W s = some (next, s') := by
  cases b with
  | jump target labels =>
    have hpure : target.isPure = true := h
    -- A target that is no label is looked for among the labels that are listed.
    have hfound : ((Branch.jump target labels).means W).andThen (fun l s => (some l, s)) s next s' ↔
        (W.labelAt (target.value W s) labels).map (fun l => (some l, s)) = some (next, s') := by
      rw [Branch.means, Expr.means_of_isPure W hpure, select_still, Option.map_eq_some_iff]
      constructor
      · rintro ⟨l, _, ⟨hl, rfl⟩, heq⟩
        exact ⟨l, hl, heq⟩
      · rintro ⟨l, hl, heq⟩
        exact ⟨l, s, ⟨hl, rfl⟩, heq⟩
    cases target with
    | name l =>
      rw [Stmt.steps, Stmt.outcome, still, Option.some_inj, Prod.mk.injEq, eq_comm,
        eq_comm (a := s)]
    | _ => exact hfound
  | cjump op lhs rhs onTrue onFalse =>
    obtain ⟨hl, hr⟩ := Bool.and_eq_true_iff.1 h
    rw [Stmt.steps, Branch.means, Expr.means_of_isPure W hl, Expr.means_of_isPure W hr, pair_still,
      andThen_andThen, andThen_still_eq]
    · exact (Option.some_inj).symm
    · nofun

/-- **What a canonical statement does is determined.** -/
theorem Stmt.steps_iff_outcome (h : stmt.isCanonical = true ∨ stmt.isNop = true) :
    stmt.steps W s next s' ↔ stmt.outcome W s = some (next, s') := by
  cases stmt with
  | seq => simp [Stmt.isCanonical, Stmt.isNop] at h
  | label l =>
    have hsteps : (Stmt.label l).steps W = (Runs [.mark l]).andThen fun _ s => (none, s) := rfl
    rw [hsteps, runs_mark, andThen_still_eq]
    exact (Option.some_inj).symm
  | move target source => exact Stmt.steps_move (h.resolve_right Bool.false_ne_true)
  | eval expr =>
    refine Stmt.steps_eval ?_
    cases expr with
    | const => rfl
    | _ => exact h.resolve_right Bool.false_ne_true
  | branch b => exact Stmt.steps_branch (h.resolve_right Bool.false_ne_true)

end Outcome

end Lowering
