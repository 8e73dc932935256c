import Lowering.Proofs.Canonical.Operands
import Lowering.Proofs.Tree.Rules

/-!
# The form of staged code

Staging gives canonical statements.  They define the labels of the source, in order, and what
occurs in them occurs in the source or is a temporary that was drawn.

## Main definitions

* `Lowered` — what staging makes of a statement.
* `Staged.Leaves` — what it makes of an expression.
* `Stmt.yields_canonical` — the main result.
-/

namespace Lowering

open Staged

variable {γ δ : Type} {labels labels' : List Label} {obeys obeys' : Rules → Prop}
  {lo lo' mid hi hi' : Nat} {code code' : List Stmt}

/-- The statements are canonical and define the given labels.  They obey all rules that the
source obeys, wherever temporaries that were drawn may occur. -/
structure Lowered (labels : List Label) (obeys : Rules → Prop) (lo hi : Nat) (code : List Stmt) :
    Prop where
  labels : code.filterMap Stmt.label? = labels
  canonical : ∀ s ∈ code, s.isCanonical = true
  obeys : ∀ {R : Rules}, obeys R → R.Admits lo hi → ∀ s ∈ code, s.Obeys R

namespace Lowered

theorem nil : Lowered [] obeys lo hi [] := ⟨rfl, by simp, by simp⟩

theorem mono (h : Lowered labels obeys lo hi code) (hlo : lo' ≤ lo) (hhi : hi ≤ hi')
    (hobeys : ∀ R, obeys' R → obeys R) : Lowered labels obeys' lo' hi' code :=
  { h with obeys := fun ho hR => h.obeys (hobeys _ ho) (hR.mono hlo hhi) }

theorem append (h : Lowered labels obeys lo hi code) (h' : Lowered labels' obeys lo hi code') :
    Lowered (labels ++ labels') obeys lo hi (code ++ code') where
  labels := by rw [List.filterMap_append, h.labels, h'.labels]
  canonical := by
    intro s hs
    exact (List.mem_append.1 hs).elim (h.canonical s) (h'.canonical s)
  obeys := by
    intro R ho hR s hs
    exact (List.mem_append.1 hs).elim (h.obeys ho hR s) (h'.obeys ho hR s)

/-- A last statement that defines no label. -/
theorem concat (h : Lowered labels obeys lo hi code) {last : Stmt} (hlabel : last.label? = none)
    (hcanonical : last.isCanonical = true)
    (hobeys : ∀ {R : Rules}, obeys R → R.Admits lo hi → last.Obeys R) :
    Lowered labels obeys lo hi (code ++ [last]) := by
  have hlast : Lowered [] obeys lo hi [last] := by
    refine ⟨by simp [hlabel], ?_, ?_⟩
    · simpa using hcanonical
    · intro R ho hR
      simpa using hobeys ho hR
  simpa using h.append hlast

end Lowered

/-- The effects are lowered, and the value that is left has some form and obeys the rules. -/
structure Staged.Leaves (labels : List Label) (obeys : Rules → Prop) (form : γ → Prop)
    (holds : Rules → γ → Prop) (lo hi : Nat) (staged : Staged γ) : Prop where
  effects : Lowered labels obeys lo hi staged.effects
  form : form staged.value
  value : ∀ {R : Rules}, obeys R → R.Admits lo hi → holds R staged.value

/-- What may be left of an expression. -/
structure Expr.Rests (e v : Expr) : Prop where
  pureOrCall : v.isPureOrCall = true
  leads : ∀ {goal}, e.Leads goal → v.Leads goal

/-- What may be left of an expression that is an operand. -/
structure Expr.RestsPure (e v : Expr) : Prop where
  pure : v.isPure = true
  leads : ∀ {goal}, e.Leads goal → v.Leads goal

namespace Staged.Leaves

variable {form form' : γ → Prop} {holds holds' : Rules → γ → Prop} {staged : Staged γ}

theorem mono (h : Leaves labels obeys form holds lo hi staged) (hlo : lo' ≤ lo) (hhi : hi ≤ hi')
    (hobeys : ∀ R, obeys' R → obeys R) : Leaves labels obeys' form holds lo' hi' staged where
  effects := h.effects.mono hlo hhi hobeys
  form := h.form
  value ho hR := h.value (hobeys _ ho) (hR.mono hlo hhi)

/-- Nothing is staged. -/
theorem plain {v : γ} (hform : form v) (hholds : ∀ {R}, obeys R → holds R v) :
    Leaves [] obeys form holds lo hi (Staged.plain v) :=
  ⟨.nil, hform, fun ho _ => hholds ho⟩

/-- The value is stored in a temporary that was drawn. -/
theorem saveIn {e : Expr} {form : Expr → Prop} {staged : Staged Expr} {t : Temp}
    (h : Leaves labels obeys form (fun R v => v.Obeys R) lo hi staged)
    (hvalue : staged.value.isPureOrCall = true) (ht : t.Drawn lo hi) :
    Leaves labels obeys e.RestsPure (fun R v => v.Obeys R) lo hi (staged.saveIn t) where
  effects := h.effects.concat rfl hvalue fun ho hR => ⟨(hR t ht).2, h.value ho hR⟩
  form := ⟨rfl, fun _ => trivial⟩
  value _ hR := (hR t ht).1

theorem pair {head : Staged Expr} {form' : Expr → Prop}
    (h : Leaves labels obeys form' (fun R v => v.Obeys R) lo hi head)
    (h' : Leaves labels' obeys form holds lo hi staged) :
    Leaves (labels ++ labels') obeys (fun p : Expr × γ => form' p.1 ∧ form p.2)
      (fun R p => p.1.Obeys R ∧ holds R p.2) lo hi
      ⟨head.effects ++ staged.effects, head.value, staged.value⟩ where
  effects := h.effects.append h'.effects
  form := ⟨h.form, h'.form⟩
  value ho hR := ⟨h.value ho hR, h'.value ho hR⟩

/-- A last statement is made from the value. -/
theorem finish (h : Leaves labels obeys form holds lo hi staged) {last : γ → Stmt}
    (hlabel : (last staged.value).label? = none)
    (hcanonical : form staged.value → (last staged.value).isCanonical = true)
    (hobeys : ∀ R, obeys' R → obeys R)
    (hlast : ∀ {R}, obeys' R → holds R staged.value → (last staged.value).Obeys R) :
    Lowered labels obeys' lo hi (staged.finish last) :=
  (h.effects.mono (Nat.le_refl lo) (Nat.le_refl hi) hobeys).concat hlabel (hcanonical h.form)
    fun ho hR => hlast ho (h.value (hobeys _ ho) hR)

end Staged.Leaves

section Combinators

variable {stage : Fresh (Staged Expr)} {rest : Fresh (Staged γ)} {form : γ → Prop}
  {holds : Rules → γ → Prop}

theorem yields_operand (e : Expr)
    (h : stage.Yields (Leaves labels obeys e.Rests fun R v => v.Obeys R)) :
    (operand e stage).Yields (Leaves labels obeys e.RestsPure fun R v => v.Obeys R) := by
  unfold operand
  split
  · refine .bind .temp fun t => .bind h fun staged => .pure fun hi mid hhi hs lo hlo ht => ?_
    obtain ⟨rfl, rfl⟩ := ht
    refine (hs.mono hlo (Nat.le_refl hi) fun _ => id).saveIn hs.form.pureOrCall ?_
    exact ⟨lo + 1, rfl, Nat.lt_succ_self lo, hhi⟩
  · refine .bind h fun staged => ?_
    split
    · refine .bind .temp fun t => .pure fun hi mid hhi ht lo hlo hs => ?_
      obtain ⟨rfl, rfl⟩ := ht
      exact (hs.mono (Nat.le_refl lo) (Nat.le_succ mid) fun _ => id).saveIn hs.form.pureOrCall
        (Temp.drawn_succ hlo)
    · next hcall =>
      refine .pure fun hi lo _ hs => { hs with form := ⟨?_, hs.form.leads⟩ }
      -- What is pure or a call, and not a call, is pure.
      have hpure := hs.form.pureOrCall
      cases hv : staged.value with
      | call => simp [hv, Expr.isCall] at hcall
      | _ => simpa [hv, Expr.isPureOrCall, Expr.isPureCall] using hpure

theorem yields_pair {e : Expr}
    (h : stage.Yields (Leaves labels obeys e.RestsPure fun R v => v.Obeys R))
    (h' : rest.Yields (Leaves labels' obeys' form holds)) :
    (pair stage rest).Yields (Leaves (labels ++ labels') (fun R => obeys R ∧ obeys' R)
      (fun p => e.RestsPure p.1 ∧ form p.2) fun R p => p.1.Obeys R ∧ holds R p.2) := by
  refine .bind h fun head => .bind h' fun tail => ?_
  split
  · refine .pure fun hi mid hhi ht lo hlo hh => ?_
    exact (hh.mono (Nat.le_refl lo) hhi fun _ => And.left).pair
      (ht.mono hlo (Nat.le_refl hi) fun _ => And.right)
  · refine .bind .temp fun t => .pure fun hi mid' hhi' ht mid hhi htail lo hlo hh => ?_
    obtain ⟨rfl, rfl⟩ := ht
    have hle : mid ≤ mid' + 1 := Nat.le_succ_of_le hhi
    have hpure : head.value.isPureOrCall = true := by simp [Expr.isPureOrCall, hh.form.pure]
    have hdrawn := Temp.drawn_succ (Nat.le_trans hlo hhi)
    exact ((hh.mono (Nat.le_refl lo) hle fun _ => And.left).saveIn hpure hdrawn).pair
      (htail.mono hlo (Nat.le_succ mid') fun _ => And.right)

theorem yields_map (h : rest.Yields (Leaves labels obeys form holds)) (g : γ → δ)
    {form' : δ → Prop} {holds' : Rules → δ → Prop} (hobeys : ∀ R, obeys' R → obeys R)
    (hform : ∀ {v}, form v → form' (g v))
    (hholds : ∀ {R v}, obeys' R → form v → holds R v → holds' R (g v)) :
    (do let staged ← rest; pure ⟨staged.effects, g staged.value⟩ : Fresh (Staged δ)).Yields
      (Leaves labels obeys' form' holds') :=
  .bind h fun _ => .pure fun hi lo _ hs =>
    ⟨hs.effects.mono (Nat.le_refl lo) (Nat.le_refl hi) hobeys, hform hs.form,
      fun ho hR => hholds ho hs.form (hs.value (hobeys _ ho) hR)⟩

theorem yields_finish (h : rest.Yields (Leaves labels obeys form holds)) {last : γ → Stmt}
    (hlabel : ∀ v, (last v).label? = none)
    (hcanonical : ∀ {v}, form v → (last v).isCanonical = true)
    (hobeys : ∀ R, obeys' R → obeys R)
    (hlast : ∀ {R v}, obeys' R → form v → holds R v → (last v).Obeys R) :
    (do let staged ← rest; pure (staged.finish last)).Yields (Lowered labels obeys') :=
  .bind h fun _ => .pure fun _ _ _ hs =>
    hs.finish (hlabel _) hcanonical hobeys fun ho => hlast ho hs.form

end Combinators

/-- What may be left of a list of expressions. -/
structure Expr.AllRest (es vs : List Expr) : Prop where
  length : vs.length = es.length
  pure : vs.all Expr.isPure = true

mutual

theorem Expr.yields_stage : ∀ e : Expr,
    e.stage.Yields (Leaves e.labels (fun R => e.Obeys R) e.Rests fun R v => v.Obeys R)
  | .const _ => .pure fun _ => .plain ⟨rfl, fun _ => trivial⟩ id
  | .name _ => .pure fun _ => .plain ⟨rfl, id⟩ id
  | .temp _ => .pure fun _ => .plain ⟨rfl, fun _ => trivial⟩ id
  | .binop op lhs rhs => by
    have hpair := yields_pair (yields_operand lhs lhs.yields_stage)
      (yields_operand rhs rhs.yields_stage)
    rw [Expr.stage_binop]
    exact yields_map hpair (fun p => Expr.binop op p.1 p.2) (fun _ ho => ho)
      (fun h => ⟨by simp [Expr.isPureOrCall, Expr.isPure, h.1.pure, h.2.pure], fun _ => trivial⟩)
      fun _ _ h => h
  | .mem address => by
    have haddress := yields_operand address address.yields_stage
    rw [Expr.stage_mem]
    exact yields_map haddress Expr.mem (fun _ ho => ho)
      (fun h => ⟨by simp [Expr.isPureOrCall, Expr.isPure, h.pure], fun _ => trivial⟩)
      fun _ _ h => h
  | .call function args => by
    have hpair := yields_pair (yields_operand function function.yields_stage)
      (Expr.yields_stageAll args)
    rw [Expr.stage_call]
    refine yields_map hpair (fun p => Expr.call p.1 p.2) (fun _ ho => ho.2) (fun h => ⟨?_, ?_⟩)
      fun ho hform h => ⟨hform.2.length ▸ ho.1, h⟩
    · simpa [Expr.isPureOrCall, Expr.isPureCall, Expr.isPure, h.1.pure] using h.2.pure
    · exact fun _ => trivial
  | .eseq stmt value =>
    .bind stmt.yields_canonical fun first => .bind value.yields_stage fun staged =>
      .pure fun hi mid hhi hs lo hlo hfirst =>
        ⟨(hfirst.mono (Nat.le_refl lo) hhi fun _ => And.left).append
            (hs.effects.mono hlo (Nat.le_refl hi) fun _ => And.right),
          ⟨hs.form.pureOrCall, hs.form.leads⟩,
          fun ho hR => hs.value ho.2 (hR.mono hlo (Nat.le_refl hi))⟩
  termination_by structural e => e

theorem Expr.yields_stageAll : ∀ es : List Expr,
    (Expr.stageAll es).Yields (Leaves (Expr.labelsAll es) (fun R => Expr.AllObey R es)
      (Expr.AllRest es) fun R vs => Expr.AllObey R vs)
  | [] => .pure fun _ => .plain ⟨rfl, rfl⟩ id
  | e :: rest => by
    have hpair := yields_pair (yields_operand e e.yields_stage) (Expr.yields_stageAll rest)
    refine yields_map hpair (fun p => p.1 :: p.2) (fun _ ho => ho) (fun h => ⟨?_, ?_⟩)
      fun _ _ h => h
    · simp [h.2.length]
    · simpa [h.1.pure] using h.2.pure
  termination_by structural es => es

theorem Expr.yields_stageInto : ∀ (target source : Expr) {stage : Fresh (Staged Expr)}
    {labels : List Label} {obeys : Rules → Prop},
    stage.Yields (Leaves labels obeys source.Rests fun R v => v.Obeys R) →
    (Expr.stageInto source stage target).Yields
      (Lowered (target.labels ++ labels) fun R => target.ObeysInto R ∧ obeys R)
  | .temp t, _, _, _, _, h =>
    yields_finish h (fun _ => rfl) (fun hv => hv.pureOrCall) (fun _ => And.right)
      fun ho _ hv => ⟨ho.1, hv⟩
  | .mem address, source, _, _, _, h => by
    rw [Expr.stageInto_mem]
    exact yields_finish (yields_pair (yields_operand address address.yields_stage)
      (yields_operand source h)) (fun _ => rfl)
      (fun hv => by simp [Stmt.isCanonical, hv.1.pure, hv.2.pure]) (fun _ ho => ho)
      fun _ _ hv => hv
  | .eseq stmt target, source, _, _, _, h => by
    rw [Expr.labels, List.append_assoc]
    exact .bind stmt.yields_canonical fun first =>
      .bind (target.yields_stageInto source h) fun rest =>
        .pure fun hi mid hhi hrest lo hlo hfirst =>
          (hfirst.mono (Nat.le_refl lo) hhi fun _ ho => ho.1.1).append
            (hrest.mono hlo (Nat.le_refl hi) fun _ ho => ⟨ho.1.2, ho.2⟩)
  | .const _, _, _, _, _, _ => .throw _
  | .name _, _, _, _, _, _ => .throw _
  | .binop .., _, _, _, _, _ => .throw _
  | .call .., _, _, _, _, _ => .throw _
  termination_by structural target => target

theorem Branch.yields_canonical : ∀ b : Branch,
    b.canonical.Yields (Lowered b.labels fun R => b.Obeys R)
  | .jump target _ => by
    rw [Branch.canonical_jump]
    exact yields_finish (yields_operand target target.yields_stage) (fun _ => rfl)
      (fun hv => hv.pure) (fun _ => And.left) fun ho hv hvalue => ⟨hvalue, hv.leads ho.2.1, ho.2.2⟩
  | .cjump _ lhs rhs _ _ => by
    rw [Branch.canonical_cjump]
    exact yields_finish (yields_pair (yields_operand lhs lhs.yields_stage)
      (yields_operand rhs rhs.yields_stage)) (fun _ => rfl)
      (fun hv => by simp [Stmt.isCanonical, Branch.isPure, hv.1.pure, hv.2.pure])
      (fun _ => And.left)
      fun ho _ hv => ⟨hv, ho.2⟩
  termination_by structural b => b

/-- **Staging gives canonical statements** that define the labels of the source, and they obey
the rules that the source obeys. -/
theorem Stmt.yields_canonical : ∀ stmt : Stmt,
    stmt.canonical.Yields (Lowered stmt.labels fun R => stmt.Obeys R)
  | .seq first second =>
    .bind first.yields_canonical fun head => .bind second.yields_canonical fun tail =>
      .pure fun hi mid hhi htail lo hlo hhead =>
        (hhead.mono (Nat.le_refl lo) hhi fun _ => And.left).append
          (htail.mono hlo (Nat.le_refl hi) fun _ => And.right)
  | .label l => .pure fun _ => ⟨rfl, by simp [Stmt.isCanonical], fun ho _ => by simpa using ho⟩
  | .move target source => by
    rw [Stmt.canonical_move]
    exact target.yields_stageInto source source.yields_stage
  | .eval expr => by
    rw [Stmt.canonical_eval]
    refine .bind expr.yields_stage fun staged => .pure fun hi lo _ hs => ?_
    unfold evaluate
    split
    · exact hs.effects
    · next hconst =>
      refine hs.effects.concat rfl ?_ fun ho hR => hs.value ho hR
      -- A constant would not have been written down.
      have hform := hs.form.pureOrCall
      cases hv : staged.value with
      | const value => exact absurd hv (hconst value)
      | _ => simpa [hv, Stmt.isCanonical] using hform
  | .branch b => b.yields_canonical
  termination_by structural s => s

end

end Lowering
