import Lowering.Pipeline
import Lowering.Proofs.Canonical.Operands
import Lowering.Proofs.Tree.Target

/-!
# When there are no canonical statements

Staging faults at the first move in the order of evaluation whose target is neither a
temporary nor memory, and for no other reason.

## Main definitions

* `Attempt.Ends` — how a computation ends, from every state.
* `Stmt.ends_canonical` — how staging ends.
* `run_canonicalize_eq_ok`, `exists_run_canonicalize` — the pass does what staging does.
-/

namespace Lowering

namespace Attempt

variable {σ α β : Type} {x : Attempt σ α} {f f' : Option Fault}

/-- From every state, the computation ends with the fault, or with a value if there is none. -/
def Ends (x : Attempt σ α) : Option Fault → Prop
  | none => ∀ s, ∃ a s', x.run s = (.ok a, s')
  | some e => ∀ s, ∃ s', x.run s = (.error e, s')

theorem ends_pure (a : α) : Ends (pure a : Attempt σ α) none := fun s => ⟨a, s, rfl⟩

theorem ends_throw (e : Fault) : Ends (throw e : Attempt σ α) (some e) := fun s => ⟨s, rfl⟩

/-- The first fault counts. -/
theorem Ends.bind {g : α → Attempt σ β} (hx : x.Ends f) (hg : ∀ a, (g a).Ends f') :
    (x >>= g).Ends (f.or f') := by
  cases f with
  | some e =>
    intro s
    obtain ⟨s', hrun⟩ := hx s
    exact ⟨s', run_bind_error g hrun⟩
  | none =>
    cases f' with
    | some e =>
      intro s
      obtain ⟨a, s', hrun⟩ := hx s
      obtain ⟨s'', hrun'⟩ := hg a s'
      exact ⟨s'', by rw [run_bind_ok g hrun, hrun']⟩
    | none =>
      intro s
      obtain ⟨a, s', hrun⟩ := hx s
      obtain ⟨b, s'', hrun'⟩ := hg a s'
      exact ⟨b, s'', by rw [run_bind_ok g hrun, hrun']⟩

theorem Ends.map {g : α → Attempt σ β} (hx : x.Ends f) (hg : ∀ a, (g a).Ends none) :
    (x >>= g).Ends f := by
  simpa using hx.bind hg

theorem Ends.eq_none (hx : x.Ends f) {s s' : σ} {a : α} (h : x.run s = (.ok a, s')) : f = none := by
  cases f with
  | none => rfl
  | some e =>
    obtain ⟨s'', hrun⟩ := hx s
    rw [h] at hrun
    cases hrun

end Attempt

open Attempt

theorem ends_temp : Fresh.temp.Ends none := fun s => ⟨_, _, Fresh.run_temp s⟩

namespace Staged

variable {α : Type} {f f' : Option Fault} {stage : Fresh (Staged Expr)} {rest : Fresh (Staged α)}

theorem ends_operand (e : Expr) (h : stage.Ends f) : (operand e stage).Ends f := by
  unfold operand
  split
  · exact ends_temp.bind fun _ => h.map fun _ => ends_pure _
  · refine h.map fun staged => ?_
    split
    · exact ends_temp.map fun _ => ends_pure _
    · exact ends_pure _

theorem ends_pair (h : stage.Ends f) (h' : rest.Ends f') : (pair stage rest).Ends (f.or f') := by
  unfold pair
  refine h.bind fun head => h'.map fun tail => ?_
  split
  · exact ends_pure _
  · exact ends_temp.map fun _ => ends_pure _

end Staged

open Staged

mutual

theorem Expr.ends_stage : ∀ e : Expr, e.stage.Ends (e.badTarget?.map .badMoveTarget)
  | .const _ => ends_pure _
  | .name _ => ends_pure _
  | .temp _ => ends_pure _
  | .binop op lhs rhs => by
    rw [Expr.stage_binop, Expr.badTarget?, Option.map_or]
    exact (ends_pair (ends_operand lhs lhs.ends_stage) (ends_operand rhs rhs.ends_stage)).map
      fun _ => ends_pure _
  | .mem address => by
    rw [Expr.stage_mem]
    exact (ends_operand address address.ends_stage).map fun _ => ends_pure _
  | .call function args => by
    rw [Expr.stage_call, Expr.badTarget?, Option.map_or]
    exact (ends_pair (ends_operand function function.ends_stage) (Expr.ends_stageAll args)).map
      fun _ => ends_pure _
  | .eseq stmt value => by
    rw [Expr.badTarget?, Option.map_or]
    exact stmt.ends_canonical.bind fun _ => value.ends_stage.map fun _ => ends_pure _
  termination_by structural e => e

theorem Expr.ends_stageAll : ∀ es : List Expr,
    (Expr.stageAll es).Ends ((Expr.badTargetAll? es).map .badMoveTarget)
  | [] => ends_pure _
  | e :: rest => by
    rw [Expr.badTargetAll?, Option.map_or]
    exact (ends_pair (ends_operand e e.ends_stage) (Expr.ends_stageAll rest)).map
      fun _ => ends_pure _
  termination_by structural es => es

theorem Expr.ends_stageInto : ∀ (target source : Expr) {stage : Fresh (Staged Expr)}
    {bad : Option Expr}, stage.Ends (bad.map .badMoveTarget) →
    (Expr.stageInto source stage target).Ends ((target.badTargetInto? bad).map .badMoveTarget)
  | .temp _, _, _, _, h => h.map fun _ => ends_pure _
  | .mem address, source, _, _, h => by
    rw [Expr.stageInto_mem, Expr.badTargetInto?, Option.map_or]
    exact (ends_pair (ends_operand address address.ends_stage) (ends_operand source h)).map
      fun _ => ends_pure _
  | .eseq stmt target, source, _, _, h => by
    rw [Expr.badTargetInto?, Option.map_or]
    exact stmt.ends_canonical.bind fun _ =>
      (target.ends_stageInto source h).map fun _ => ends_pure _
  | .const _, _, _, _, _ => ends_throw _
  | .name _, _, _, _, _ => ends_throw _
  | .binop .., _, _, _, _ => ends_throw _
  | .call .., _, _, _, _ => ends_throw _
  termination_by structural target => target

theorem Branch.ends_canonical : ∀ b : Branch,
    b.canonical.Ends (b.badTarget?.map .badMoveTarget)
  | .jump target _ => by
    rw [Branch.canonical_jump]
    exact (ends_operand target target.ends_stage).map fun _ => ends_pure _
  | .cjump _ lhs rhs _ _ => by
    rw [Branch.canonical_cjump, Branch.badTarget?, Option.map_or]
    exact (ends_pair (ends_operand lhs lhs.ends_stage) (ends_operand rhs rhs.ends_stage)).map
      fun _ => ends_pure _
  termination_by structural b => b

/-- **Staging faults at the first bad move target**, and only there. -/
theorem Stmt.ends_canonical : ∀ stmt : Stmt,
    stmt.canonical.Ends (stmt.badTarget?.map .badMoveTarget)
  | .seq first second => by
    rw [Stmt.badTarget?, Option.map_or]
    exact first.ends_canonical.bind fun _ => second.ends_canonical.map fun _ => ends_pure _
  | .label _ => ends_pure _
  | .move target source => by
    rw [Stmt.canonical_move]
    exact target.ends_stageInto source source.ends_stage
  | .eval expr => by
    rw [Stmt.canonical_eval]
    exact expr.ends_stage.map fun _ => ends_pure _
  | .branch b => b.ends_canonical
  termination_by structural s => s

end

/-! ## The pass -/

theorem ends_note (level : Level) (message : String) : (Pass.note level message).Ends none := by
  intro w
  cases hr : w.journal.records? with
  | none => exact ⟨(), w, Pass.run_noteText_of_silent hr ..⟩
  | some records =>
    refine ⟨(), { w with journal := ⟨some (records.push ⟨level, message⟩)⟩ }, ?_⟩
    simp [Pass.note, Pass.noteText, Journal.add, hr]

section

variable {stmt : Stmt} {w : Workspace} {supply : Supply}

theorem exists_run_canonicalize {code : List Stmt}
    (h : stmt.canonical.run w.supply = (.ok code, supply)) :
    ∃ w', (Pipeline.canonicalize stmt).run w = (.ok code, w') := by
  obtain ⟨_, w', hnote⟩ := ends_note .debug
    ("Canonicalized into " ++ toString code.length ++ " statements") { w with supply }
  refine ⟨w', ?_⟩
  rw [Pipeline.canonicalize, Attempt.run_bind_ok _ (Pass.run_fresh_eq_ok_iff.2 ⟨supply, h, rfl⟩),
    Attempt.run_bind_ok _ hnote]
  rfl

/-- What the pass gives is what staging gives, from the same supply. -/
theorem run_canonicalize_eq_ok {code : List Stmt} {w' : Workspace}
    (h : (Pipeline.canonicalize stmt).run w = (.ok code, w')) :
    stmt.canonical.run w.supply = (.ok code, w'.supply) := by
  rw [Pipeline.canonicalize, Attempt.run_bind_eq_ok_iff] at h
  obtain ⟨code, w₁, hfresh, h⟩ := h
  obtain ⟨supply, hcanonical, rfl⟩ := Pass.run_fresh_eq_ok_iff.1 hfresh
  rw [Attempt.run_bind_eq_ok_iff] at h
  obtain ⟨_, w₂, hnote, hpure⟩ := h
  cases hpure
  rw [(Pass.run_noteText_eq_ok hnote).1]
  exact hcanonical

theorem exists_run_canonicalize_error {fault : Fault}
    (h : stmt.canonical.run w.supply = (.error fault, supply)) :
    ∃ w', (Pipeline.canonicalize stmt).run w = (.error fault, w') :=
  ⟨_, Pass.run_fresh_bind_error _ h⟩

end

end Lowering
