import Lowering.Proofs.Canonical.Operands
import Lowering.Proofs.Canonical.Stage
import Lowering.Proofs.Names
import Lowering.Proofs.Tree.Scope

/-!
# Canonical statements mean the same

Canonical statements do what the statement does that they come from.  The proof follows the
recursion that makes them: each expression is staged (`Stages`), each statement is replaced on
its spine (`Tiles`), and what is drawn in between is hidden from everything else.

A value that is saved survives the effects behind it because these change no hidden temporary
but their own, and the temporary of the value is drawn before or after all of theirs.

## Main definitions

* `World.Conceals` — a world in which the temporaries that are drawn are hidden.
* `StagedAs`, `PerformedAs`, `TiledAs` — what staging draws names for, in all such worlds.
* `Expr.ensures_stage`, `Stmt.ensures_canonical` — staging gives that.
* `canonical_preserves_meaning` — the main result.
-/

namespace Lowering

open Evaluation

variable {α β γ δ : Type} {labels labels' : List Label} {temps temps' : List Temp}

/-- The temporaries that are drawn are hidden: calls do not touch them, and the code that is
given does not mention them. -/
structure World.Conceals (W : World) (hidden : Temp → Prop) (lo hi : Nat) (temps : List Temp) :
    Prop where
  spares : W.Spares hidden
  drawn : ∀ x, x.Drawn lo hi → hidden x
  temps : ∀ x ∈ temps, ¬hidden x

namespace World.Conceals

variable {W : World} {hidden : Temp → Prop} {lo mid hi : Nat}

theorem mono {lo' hi' : Nat} (h : W.Conceals hidden lo' hi' temps) (hlo : lo' ≤ lo)
    (hhi : hi ≤ hi') : W.Conceals hidden lo hi temps :=
  { h with drawn := fun x hx => h.drawn x (hx.mono hlo hhi) }

theorem left (h : W.Conceals hidden lo hi (temps ++ temps')) (hhi : mid ≤ hi) :
    W.Conceals hidden lo mid temps :=
  { h.mono (Nat.le_refl lo) hhi with temps := fun x hx => h.temps x (List.mem_append_left _ hx) }

theorem right (h : W.Conceals hidden lo hi (temps ++ temps')) (hlo : lo ≤ mid) :
    W.Conceals hidden mid hi temps' :=
  { h.mono hlo (Nat.le_refl hi) with temps := fun x hx => h.temps x (List.mem_append_right _ hx) }

end World.Conceals

/-- The effects and the value that is left stage an evaluation, wherever the temporaries that
were drawn are hidden. -/
def StagedAs (labels : List Label) (temps : List Temp) (m : World → Evaluation α)
    (means : World → γ → Evaluation α) (lo hi : Nat) (staged : Staged γ) : Prop :=
  ∀ ⦃W : World⦄ ⦃hidden : Temp → Prop⦄, W.Conceals hidden lo hi temps →
    Stages W hidden (Temp.Drawn lo hi) labels (m W) (means W staged.value) staged.effects

section Combinators

variable {m : World → Evaluation α} {means : World → γ → Evaluation α}
  {m' : World → Evaluation β} {means' : World → δ → Evaluation β}
  {mw : World → Evaluation Word} {stage : Fresh (Staged Expr)} {rest : Fresh (Staged δ)}

/-- The value is stored in a temporary that was drawn before its effects or after them. -/
theorem StagedAs.saveIn {lo lo' hi hi' id : Nat} {staged : Staged Expr}
    (h : StagedAs labels temps mw Expr.means lo hi staged) (hnodup : labels.Nodup)
    (hlo : lo' ≤ lo) (hhi : hi ≤ hi') (hid : (Temp.virtual id).Drawn lo' hi') :
    StagedAs labels temps mw Expr.means lo' hi' (staged.saveIn (.virtual id)) := by
  intro W hidden hW
  exact ((h (hW.mono hlo hhi)).mono fun x hx => hx.mono hlo hhi).save hnodup (hW.drawn _ hid) hid

theorem ensures_operand (e : Expr) (h : stage.Ensures (StagedAs labels temps mw Expr.means))
    (hnodup : labels.Nodup) :
    (Staged.operand e stage).Ensures (StagedAs labels temps mw Expr.means) := by
  unfold Staged.operand
  split
  · refine .bind .temp fun t => .bind h fun staged => .pure fun hi mid hhi hs lo hlo ht => ?_
    obtain ⟨rfl, rfl⟩ := ht
    have hdrawn := (Temp.drawn_succ (Nat.le_refl lo)).mono (Nat.le_refl lo) hhi
    exact hs.saveIn hnodup hlo (Nat.le_refl hi) hdrawn
  · refine .bind h fun staged => ?_
    split
    · refine .bind .temp fun t => .pure fun hi mid _ ht lo hle hs => ?_
      obtain ⟨rfl, rfl⟩ := ht
      exact hs.saveIn hnodup (Nat.le_refl _) (by omega) (Temp.drawn_succ hle)
    · exact .pure fun hi lo _ hs => hs

/-- A value that commutes with effects is not changed by them. -/
theorem exists_still_of_commutes {e : Expr} {effects : List Stmt} (h : e.commutes effects)
    (W : World) : effects = [] ∨ ∃ f, e.means W = still f ∧
      ∀ {s s'}, Runs (Stmt.actionsAll W effects) s () s' → f s' = f s := by
  rw [Expr.commutes, Bool.or_eq_true, List.isEmpty_iff] at h
  rcases h with h | h
  · refine .inr ?_
    cases e with
    | const value => exact ⟨fun _ => value, rfl, fun _ => rfl⟩
    | name label => exact ⟨fun _ => W.address label, rfl, fun _ => rfl⟩
    | _ => simp [Expr.isFixed] at h
  · exact .inl h

/-- One staged evaluation and then another one. -/
theorem StagedAs.pair {lo mid hi : Nat} {head : Staged Expr} {tail : Staged δ}
    (hnodup : (labels ++ labels').Nodup) (hlo : lo ≤ mid) (hhi : mid ≤ hi)
    (h : StagedAs labels temps mw Expr.means lo mid head)
    (h' : StagedAs labels' temps' m' means' mid hi tail)
    (hcommute : head.value.commutes tail.effects) :
    StagedAs (labels ++ labels') (temps ++ temps') (fun W => (mw W).pair (m' W))
      (fun W (p : Expr × δ) => (p.1.means W).pair (means' W p.2)) lo hi
      ⟨head.effects ++ tail.effects, head.value, tail.value⟩ := by
  intro W hidden hW
  exact ((h (hW.left hhi)).mono fun x hx => hx.mono (Nat.le_refl _) hhi).pair
    ((h' (hW.right hlo)).mono fun x hx => hx.mono hlo (Nat.le_refl _)) hnodup
    (exists_still_of_commutes hcommute W)

/-- The value of the first is stored in a temporary that the second does not change. -/
theorem StagedAs.pair_saveIn {lo mid hi : Nat} {head : Staged Expr} {tail : Staged δ}
    (hnodup : (labels ++ labels').Nodup) (hlo : lo ≤ mid) (hhi : mid ≤ hi)
    (h : StagedAs labels temps mw Expr.means lo mid head)
    (h' : StagedAs labels' temps' m' means' mid hi tail) :
    StagedAs (labels ++ labels') (temps ++ temps') (fun W => (mw W).pair (m' W))
      (fun W (p : Expr × δ) => (p.1.means W).pair (means' W p.2)) lo (hi + 1)
      ⟨(head.saveIn (.virtual (hi + 1))).effects ++ tail.effects,
        (head.saveIn (.virtual (hi + 1))).value, tail.value⟩ := by
  intro W hidden hW
  have hdrawn : (Temp.virtual (hi + 1)).Drawn lo (hi + 1) := Temp.drawn_succ (Nat.le_trans hlo hhi)
  have hs := h.saveIn (List.nodup_append.1 hnodup).1 (Nat.le_refl _) (by omega) hdrawn
    (hW.left (Nat.le_refl _))
  have hs' := h' ((hW.right hlo).mono (Nat.le_refl _) (Nat.le_succ hi))
  refine hs.pair (hs'.mono fun x hx => hx.mono hlo (Nat.le_succ _)) hnodup (.inr ⟨_, rfl, ?_⟩)
  -- The effects of the second do not change the temporary, since it was drawn behind them.
  intro s s' hrun
  refine hs'.preserves hrun _ ⟨hW.drawn _ hdrawn, ?_⟩
  rintro ⟨id, heq, -, hle⟩
  cases heq
  omega

theorem ensures_pair (h : stage.Ensures (StagedAs labels temps mw Expr.means))
    (h' : rest.Ensures (StagedAs labels' temps' m' means')) (hnodup : (labels ++ labels').Nodup) :
    (Staged.pair stage rest).Ensures (StagedAs (labels ++ labels') (temps ++ temps')
      (fun W => (mw W).pair (m' W))
      fun W (p : Expr × δ) => (p.1.means W).pair (means' W p.2)) := by
  unfold Staged.pair
  refine .bind h fun head => .bind h' fun tail => ?_
  split
  · next hcommute =>
    exact .pure fun hi mid hhi ht lo hlo hs => hs.pair hnodup hlo hhi ht hcommute
  · refine .bind .temp fun t => .pure fun top hi htop hdrawn mid hhi ht lo hlo hs => ?_
    obtain ⟨rfl, rfl⟩ := hdrawn
    exact hs.pair_saveIn hnodup hlo hhi ht

/-- Something is done with the value. -/
theorem ensures_map {x : Fresh (Staged γ)} (h : x.Ensures (StagedAs labels temps m means))
    {f : World → α → TreeState → β × TreeState} (g : γ → δ)
    (hg : ∀ W c, means' W (g c) = (means W c).andThen (f W))
    (hf : ∀ {W hidden}, W.Spares hidden → Respects hidden (f W) ∧
      ∀ a s x, hidden x → (f W a s).2.temps x = s.temps x) :
    (do let staged ← x; pure ⟨staged.effects, g staged.value⟩ : Fresh (Staged δ)).Ensures
      (StagedAs labels temps (fun W => (m W).andThen (f W)) means') := by
  refine .bind h fun staged => .pure fun hi lo _ hs W hidden hW => ?_
  rw [hg]
  exact (hs hW).andThen (hf hW.spares).1 (hf hW.spares).2

/-- Code does the same as an evaluation that gives nothing. -/
def PerformedAs (labels : List Label) (temps : List Temp) (run : World → Evaluation Unit)
    (lo hi : Nat) (code : List Stmt) : Prop :=
  StagedAs labels temps run (fun _ _ => still fun _ => ()) lo hi (⟨code, ()⟩ : Staged Unit)

/-- Code takes the place of a spine. -/
def TiledAs (on labels : List Label) (temps : List Temp) (spine : World → List Action)
    (lo hi : Nat) (code : List Stmt) : Prop :=
  ∀ ⦃W : World⦄ ⦃hidden : Temp → Prop⦄, W.Conceals hidden lo hi temps →
    Tiles W hidden (Temp.Drawn lo hi) on labels (spine W) code

theorem TiledAs.performedAs {stmt : Stmt} {lo hi : Nat} {code : List Stmt}
    (h : TiledAs stmt.spineLabels labels temps (fun W => stmt.actions W) lo hi code)
    (hnodup : labels.Nodup) :
    PerformedAs labels temps (fun W => Runs (stmt.actions W)) lo hi code := by
  intro W hidden hW
  refine (h hW).stages hnodup fun l hl => ?_
  rwa [marks_actions]

theorem TiledAs.append {on : List Label} {spine spine' : World → List Action} {lo mid hi : Nat}
    {head tail : List Stmt} (hlo : lo ≤ mid) (hhi : mid ≤ hi)
    (h : TiledAs on labels temps spine lo mid head)
    (h' : TiledAs on labels' temps' spine' mid hi tail) :
    TiledAs on (labels ++ labels') (temps ++ temps') (fun W => spine W ++ spine' W) lo hi
      (head ++ tail) := by
  intro W hidden hW
  exact ((h (hW.left hhi)).mono fun x hx => hx.mono (Nat.le_refl _) hhi).append
    ((h' (hW.right hlo)).mono fun x hx => hx.mono hlo (Nat.le_refl _))

/-- Code is run in front of staged code. -/
theorem StagedAs.behind {run : World → Evaluation Unit} {lo mid hi : Nat} {code : List Stmt}
    {staged : Staged γ} (hnodup : (labels ++ labels').Nodup) (hlo : lo ≤ mid) (hhi : mid ≤ hi)
    (h : PerformedAs labels temps run lo mid code)
    (h' : StagedAs labels' temps' m means mid hi staged) :
    StagedAs (labels ++ labels') (temps ++ temps') (fun W => .behind (run W) (m W)) means lo hi
      ⟨code ++ staged.effects, staged.value⟩ := by
  intro W hidden hW
  exact ((h (hW.left hhi)).mono fun x hx => hx.mono (Nat.le_refl _) hhi).behind
    ((h' (hW.right hlo)).mono fun x hx => hx.mono hlo (Nat.le_refl _)) hnodup

/-- A last statement does something with the value. -/
theorem StagedAs.finish {lo hi : Nat} {staged : Staged γ}
    (h : StagedAs labels temps m means lo hi staged) (hnodup : labels.Nodup)
    (temps' : List Temp) (f : α → TreeState → Unit × TreeState) {last : γ → Stmt}
    (hlast : ∀ W, (last staged.value).actions W =
      [.effect ((means W staged.value).andThen f)])
    (hf : ∀ {hidden}, (∀ x ∈ temps', ¬hidden x) → Respects hidden f ∧
      ∀ a s x, hidden x → (f a s).2.temps x = s.temps x) :
    PerformedAs labels (temps' ++ temps) (fun W => (m W).andThen f) lo hi
      (staged.finish last) := by
  intro W hidden hW
  obtain ⟨hrespects, hkeep⟩ := hf fun x hx => hW.temps x (List.mem_append_left _ hx)
  exact (h (hW.right (Nat.le_refl lo))).finish hnodup hrespects
    (fun a s x hx => hkeep a s x hx.1) (hlast W)

end Combinators

/-! ## Tree code -/

theorem respects_value {hidden : Temp → Prop} {f : α → TreeState → β}
    (hf : ∀ {a s t}, s.Agrees hidden t → f a s = f a t) :
    Respects hidden fun a s => (f a s, s) := fun _ _ _ hst => ⟨hf hst, hst⟩

mutual

theorem Expr.ensures_stage : ∀ e : Expr, e.WellFormed → e.labels.Nodup →
    e.stage.Ensures (StagedAs e.labels e.temps (fun W => e.means W) Expr.means)
  | .const value, _, _ => .pure fun n W hidden hW =>
    .plain (.still fun _ => rfl) (.still _)
  | .name label, _, _ => .pure fun n W hidden hW =>
    .plain (.still fun _ => rfl) (.still _)
  | .temp t, _, _ => .pure fun n W hidden hW =>
    .plain (.still fun hst => hst.temps t (hW.temps t List.mem_cons_self)) (.still _)
  | .binop op lhs rhs, hwf, hnodup => by
    obtain ⟨hl, hr, -⟩ := List.nodup_append.1 hnodup
    have hpair := ensures_pair (ensures_operand lhs (lhs.ensures_stage hwf.1 hl) hl)
      (ensures_operand rhs (rhs.ensures_stage hwf.2 hr) hr) hnodup
    rw [Expr.stage_binop]
    exact ensures_map (f := fun _ p s => (op.eval p.1 p.2, s)) hpair
      (fun p => Expr.binop op p.1 p.2) (fun _ _ => rfl)
      fun _ => ⟨respects_value fun _ => rfl, fun _ _ _ _ => rfl⟩
  | .mem address, hwf, hnodup => by
    have haddress := ensures_operand address (address.ensures_stage hwf hnodup) hnodup
    rw [Expr.stage_mem]
    exact ensures_map (f := fun _ a s => (s.memory a, s)) haddress Expr.mem (fun _ _ => rfl)
      fun _ => ⟨respects_value fun hst => congrFun hst.memory _, fun _ _ _ _ => rfl⟩
  | .call function args, hwf, hnodup => by
    obtain ⟨hf, has, -⟩ := List.nodup_append.1 hnodup
    have hpair := ensures_pair (ensures_operand function (function.ensures_stage hwf.1 hf) hf)
      (Expr.ensures_stageAll args hwf.2 has) hnodup
    rw [Expr.stage_call]
    exact ensures_map (f := fun W p s => W.invoke p.1 p.2 s) hpair
      (fun p => Expr.call p.1 p.2) (fun _ _ => rfl)
      fun hW => ⟨hW.respects, fun _ _ _ hx => hW.writes hx⟩
  | .eseq stmt value, hwf, hnodup => by
    obtain ⟨hs, hv, -⟩ := List.nodup_append.1 hnodup
    exact .bind (stmt.ensures_canonical hwf.1 hs) fun code =>
      .bind (value.ensures_stage hwf.2 hv) fun staged =>
        .pure fun hi mid hhi hstaged lo hlo hcode =>
          .behind hnodup hlo hhi (hcode.performedAs hs) hstaged
  termination_by structural e => e

theorem Expr.ensures_stageAll : ∀ es : List Expr, Expr.AllWellFormed es →
    (Expr.labelsAll es).Nodup → (Expr.stageAll es).Ensures
      (StagedAs (Expr.labelsAll es) (Expr.tempsAll es) (fun W => Expr.meansAll W es)
        Expr.meansAll)
  | [], _, _ => .pure fun n W hidden hW => .plain (.still fun _ => rfl) (.still _)
  | e :: rest, hwf, hnodup => by
    obtain ⟨he, hr, -⟩ := List.nodup_append.1 hnodup
    have hpair := ensures_pair (ensures_operand e (e.ensures_stage hwf.1 he) he)
      (Expr.ensures_stageAll rest hwf.2 hr) hnodup
    exact ensures_map (f := fun _ p s => (p.1 :: p.2, s)) hpair
      (fun p => p.1 :: p.2) (fun _ _ => rfl)
      fun _ => ⟨respects_value fun _ => rfl, fun _ _ _ _ => rfl⟩
  termination_by structural es => es

theorem Expr.ensures_stageInto : ∀ target : Expr, target.IsTarget →
    ∀ (source : Expr) {stage : Fresh (Staged Expr)} {mw : World → Evaluation Word}
      {labels : List Label} {temps : List Temp},
    stage.Ensures (StagedAs labels temps mw Expr.means) → (target.labels ++ labels).Nodup →
    (Expr.stageInto source stage target).Ensures
      (PerformedAs (target.labels ++ labels) (target.temps ++ temps)
        fun W => Expr.moves W (mw W) target)
  | .temp t, _, source, _, _, _, _, hstage, hnodup => by
    refine .bind hstage fun staged => .pure fun hi lo _ hs => ?_
    refine StagedAs.finish hs hnodup [t] _ (fun _ => rfl)
      fun ht => ⟨fun v _ _ hst => ⟨rfl, hst.setTemp t v⟩, fun v s x hx => ?_⟩
    have hxt : x ≠ t := fun heq => ht t List.mem_cons_self (heq ▸ hx)
    simp [TreeState.setTemp, hxt]
  | .mem address, hwf, source, _, _, _, _, hstage, hnodup => by
    obtain ⟨ha, hs, -⟩ := List.nodup_append.1 hnodup
    have hpair := ensures_pair (ensures_operand address (address.ensures_stage hwf ha) ha)
      (ensures_operand source hstage hs) hnodup
    rw [Expr.stageInto_mem]
    refine .bind hpair fun staged => .pure fun hi lo _ hs => ?_
    exact hs.finish hnodup [] _ (fun _ => rfl)
      fun _ => ⟨fun p _ _ hst => ⟨rfl, hst.setMemory p.1 p.2⟩, fun _ _ _ _ => rfl⟩
  | .eseq stmt target, hwf, source, _, _, _, _, hstage, hnodup => by
    rw [Expr.labels, List.append_assoc] at hnodup
    rw [Expr.labels, Expr.temps, List.append_assoc, List.append_assoc]
    obtain ⟨hs, ht, -⟩ := List.nodup_append.1 hnodup
    exact .bind (stmt.ensures_canonical hwf.1 hs) fun code =>
      .bind (target.ensures_stageInto hwf.2 source hstage ht) fun rest =>
        .pure fun hi mid hhi hrest lo hlo hcode =>
          StagedAs.behind hnodup hlo hhi (hcode.performedAs hs) hrest
  | .const _, h, _, _, _, _, _, _, _ => h.elim
  | .name _, h, _, _, _, _, _, _, _ => h.elim
  | .binop .., h, _, _, _, _, _, _, _ => h.elim
  | .call .., h, _, _, _, _, _, _, _ => h.elim
  termination_by structural target => target

theorem Branch.ensures_canonical : ∀ (b : Branch) {on : List Label}, b.WellFormed on →
    b.labels.Nodup → b.canonical.Ensures
      (TiledAs on b.labels b.temps fun W => [.branch (b.means W)])
  | .jump target labels, on, hwf, hnodup => by
    rw [Branch.canonical_jump]
    refine .bind (ensures_operand target (target.ensures_stage hwf.1 hnodup) hnodup)
      fun staged => .pure fun hi lo _ hs W hidden hW => ?_
    refine ((hs hW).select _).tiles_branch rfl ?_
    rintro s l t ⟨a, -, hl⟩
    exact hwf.2 l (W.labelAt_mem hl)
  | .cjump op lhs rhs onTrue onFalse, on, hwf, hnodup => by
    obtain ⟨hl, hr, -⟩ := List.nodup_append.1 hnodup
    have hpair := ensures_pair (ensures_operand lhs (lhs.ensures_stage hwf.1 hl) hl)
      (ensures_operand rhs (rhs.ensures_stage hwf.2.1 hr) hr) hnodup
    rw [Branch.canonical_cjump]
    refine .bind hpair fun staged => .pure fun hi lo _ hs W hidden hW => ?_
    refine ((hs hW).andThen (f := fun p s =>
      (if op.holds p.1 p.2 then onTrue else onFalse, s)) (respects_value fun _ => rfl)
      fun _ _ _ _ => rfl).tiles_branch rfl ?_
    rintro s l t ⟨p, u, -, heq⟩
    cases heq
    split
    · exact hwf.2.2.1
    · exact hwf.2.2.2
  termination_by structural b => b

theorem Stmt.ensures_canonical : ∀ (stmt : Stmt) {on : List Label}, stmt.WellFormed on →
    stmt.labels.Nodup → stmt.canonical.Ensures
      (TiledAs on stmt.labels stmt.temps fun W => stmt.actions W)
  | .seq first second, on, hwf, hnodup => by
    obtain ⟨hf, hs, -⟩ := List.nodup_append.1 hnodup
    exact .bind (first.ensures_canonical hwf.1 hf) fun head =>
      .bind (second.ensures_canonical hwf.2 hs) fun tail =>
        .pure fun hi mid hhi htail lo hlo hhead => TiledAs.append hlo hhi hhead htail
  | .label l, on, _, _ => .pure fun n W hidden hW => .label l
  | .move target source, on, hwf, hnodup => by
    have hsource := source.ensures_stage hwf.2 (List.nodup_append.1 hnodup).2.1
    rw [Stmt.canonical_move]
    exact (target.ensures_stageInto hwf.1 source hsource hnodup).imp
      fun lo hi code _ h W hidden hW => (h hW).tiles
  | .eval expr, on, hwf, hnodup => by
    rw [Stmt.canonical_eval]
    refine .bind (expr.ensures_stage hwf hnodup) fun staged =>
      .pure fun hi lo _ hs W hidden hW => ?_
    unfold Staged.evaluate
    split
    · next hvalue =>
      -- A constant is left, so its evaluation is not even written down.
      have hdrop := (hs hW).andThen (respects_value (f := fun _ _ => ()) fun _ => rfl)
        fun _ _ _ _ => rfl
      rw [hvalue, Expr.means, andThen_still _ fun _ => ()] at hdrop
      exact hdrop.tiles
    · exact ((hs hW).finish hnodup (respects_value (f := fun _ _ => ()) fun _ => rfl)
        (fun _ _ _ _ => rfl) rfl).tiles
  | .branch b, on, hwf, hnodup => b.ensures_canonical hwf hnodup
  termination_by structural s => s

end

/-! ## The main result -/

theorem functional_actionsAll (W : World) (code : List Stmt) :
    (Runs (Stmt.actionsAll W code)).Functional := by
  refine functional_runs fun a ha => ?_
  obtain ⟨stmt, -, ha⟩ := List.mem_flatMap.1 ha
  exact stmt.functional_actions W a ha

/-- **The canonical statements of a statement mean what the statement means.**  A well-formed
statement has canonical statements.  If calls do not touch the temporaries that were drawn for
them, then they end from the states from which the statement ends, and they leave the same
memory, the same calls and the same values in all temporaries that were there before. -/
theorem canonical_preserves_meaning {stmt : Stmt} (supply : Supply)
    (hwf : stmt.WellFormed stmt.spineLabels) (hlabels : stmt.labels.Nodup)
    (htemps : ∀ t ∈ stmt.temps, t.Within supply.temps) :
    ∃ code supply', stmt.canonical.run supply = (.ok code, supply') ∧
      ∀ W : World, W.Spares (Temp.Drawn supply.temps supply'.temps) → ∀ s,
        ((∃ s', Runs (stmt.actions W) s () s') ↔
          ∃ t', Runs (Stmt.actionsAll W code) s () t') ∧
        ∀ s' t', Runs (stmt.actions W) s () s' → Runs (Stmt.actionsAll W code) s () t' →
          s'.Agrees (Temp.Drawn supply.temps supply'.temps) t' := by
  obtain ⟨code, supply', hrun, -, htiled⟩ := stmt.ensures_canonical hwf hlabels supply
  refine ⟨code, supply', hrun, fun W hW s => ?_⟩
  have hstages := htiled.performedAs hlabels
    ⟨hW, fun _ hx => hx, fun t ht => (htemps t ht).not_drawn⟩
  have hmirrors := hstages.mirrors
  rw [behind_done] at hmirrors
  refine ⟨⟨?_, ?_⟩, ?_⟩
  · rintro ⟨s', hs'⟩
    obtain ⟨t', ht', -⟩ := hmirrors.forth (.refl s) hs'
    exact ⟨t', ht'⟩
  · rintro ⟨t', ht'⟩
    obtain ⟨s', hs', -⟩ := hmirrors.back (.refl s) ht'
    exact ⟨s', hs'⟩
  · intro s' t' hs' ht'
    obtain ⟨u, hu, hagree⟩ := hmirrors.forth (.refl s) hs'
    rw [(functional_actionsAll W code ht' hu).2]
    exact hagree

/-- A sum whose second operand goes through a loop that changes the first one. -/
def sumLoop : Stmt :=
  .move (.temp (.virtual 1)) (.binop .plus (.temp (.virtual 1)) (.eseq
    (.seq (.label (.named "top"))
      (.seq (.move (.temp (.virtual 1))
          (.call (.name (.named "next")) [.binop .plus (.temp (.virtual 1)) (.const 1)]))
        (.seq (.branch (.cjump .lt (.temp (.virtual 1)) (.const 10) (.named "top") (.named "out")))
          (.label (.named "out")))))
    (.temp (.virtual 1))))

/-- A world in which calls give their first argument and store it. -/
def storing : World where
  address _ := 0
  labelAt _ labels := labels.head?
  labelAt_mem := List.mem_of_head?
  call _ args temps memory := (args.headD 0, temps, Function.update memory 0 (args.headD 0))

theorem storing_spares (hidden : Temp → Prop) : storing.Spares hidden where
  reads _ _ _ _ _ h := ⟨rfl, h, rfl⟩
  writes _ := rfl

theorem sumLoop_preserves_meaning :
    (sumLoop.WellFormed sumLoop.spineLabels ∧ sumLoop.labels.Nodup ∧
      ∀ t ∈ sumLoop.temps, t.Within 1) ∧
    ∃ code supply', sumLoop.canonical.run ⟨1, 0⟩ = (.ok code, supply') ∧ ∀ s,
      ((∃ s', Runs (sumLoop.actions storing) s () s') ↔
        ∃ t', Runs (Stmt.actionsAll storing code) s () t') ∧
      ∀ s' t', Runs (sumLoop.actions storing) s () s' →
        Runs (Stmt.actionsAll storing code) s () t' →
        s'.Agrees (Temp.Drawn 1 supply'.temps) t' := by
  have hwf : sumLoop.WellFormed sumLoop.spineLabels := by
    simp [sumLoop, Stmt.WellFormed, Expr.WellFormed, Expr.IsTarget, Expr.AllWellFormed,
      Branch.WellFormed, Stmt.spineLabels]
  have hlabels : sumLoop.labels.Nodup := by decide
  have htemps : ∀ t ∈ sumLoop.temps, t.Within 1 := by
    simp [sumLoop, Stmt.temps, Expr.temps, Expr.tempsAll, Branch.temps]
  obtain ⟨code, supply', hrun, h⟩ :=
    canonical_preserves_meaning ⟨1, 0⟩ hwf hlabels htemps
  exact ⟨⟨hwf, hlabels, htemps⟩, code, supply', hrun, h storing (storing_spares _)⟩

end Lowering
