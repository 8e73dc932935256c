import Lowering.Pipeline
import Lowering.Proofs.Canonical.Fault
import Lowering.Proofs.Flow
import Lowering.Proofs.Quad.Simplify

/-!
# Quads mean the same

Quads are run one after another, and the operands of each are read off the state.  They do
what the statement does that they come from: naming operands does not change it, nor does
staging, and each canonical statement that is left is one quad or does nothing.

## Main definitions

* `Operand.value`, `Quad.action` — what quads mean.
* `actions_ofCanonical` — a canonical statement and its quad.
* `mirrors_ofCanonicals` — canonical statements and their quads.
* `quads_preserve_meaning` — the main result.
-/

namespace Lowering

open Evaluation

variable {W : World} {α β : Type}

/-! ## What quads mean -/

/-- The word that an operand stands for. -/
def Operand.value (W : World) (s : TreeState) : Operand → Word
  | .temp t => s.temps t
  | .name label => W.address label
  | .const value => value

/-- What a quad does. -/
def Quad.action (W : World) : Quad → Action
  | .load dst address => .effect <| step fun s => s.setTemp dst (s.memory (address.value W s))
  | .store address value =>
    .effect <| step fun s => s.setMemory (address.value W s) (value.value W s)
  | .binop op dst lhs rhs =>
    .effect <| step fun s => s.setTemp dst (op.eval (lhs.value W s) (rhs.value W s))
  | .move dst src => .effect <| step fun s => s.setTemp dst (src.value W s)
  | .call function args dst =>
    .effect <| step fun s => W.finishCall (function.value W s) (args.map (Operand.value W s)) dst s
  | .jump target labels =>
    .branch fun s l s' => W.labelAt (target.value W s) labels = some l ∧ s' = s
  | .cjump op lhs rhs onTrue onFalse =>
    .branch fun s l s' =>
      l = (if op.holds (lhs.value W s) (rhs.value W s) then onTrue else onFalse) ∧ s' = s
  | .label l => .mark l

/-! ## Canonical statements as quads -/

theorem means_ofExpr {e : Expr} {o : Operand} (h : Operand.ofExpr e = .ok o) (W : World) :
    e.means W = still fun s => o.value W s := by
  cases e <;> cases h <;> rfl

theorem meansAll_ofExpr {es : List Expr} {os : List Operand}
    (h : es.mapM Operand.ofExpr = .ok os) (W : World) :
    Expr.meansAll W es = still fun s => os.map (Operand.value W s) := by
  rw [mapM_eq_ok_iff] at h
  induction h with
  | nil => rfl
  | @cons e o es os he _ ih =>
    have hcons := andThen_still (fun s => (o.value W s, os.map (Operand.value W s)))
      fun p => p.1 :: p.2
    rw [Expr.meansAll, means_ofExpr he, ih, pair_still]
    exact hcons

/-- What is done where no quad is left. -/
def Quad.action? (W : World) : Option Quad → Action
  | some q => q.action W
  | none => .effect (still fun _ => ())

/-- **A canonical statement does what its quad does**, or nothing. -/
theorem actions_ofCanonical {stmt : Stmt} {q : Option Quad} (h : Quad.ofCanonical stmt = .ok q)
    (W : World) : stmt.actions W = [Quad.action? W q] := by
  unfold Quad.ofCanonical at h
  split at h
  case h_1 =>
    cases h
    rfl
  case h_2 =>
    obtain ⟨o, ho, h⟩ := bind_eq_ok h
    cases h
    rw [Stmt.actions, Branch.means, means_ofExpr ho, select_still]
    rfl
  case h_3 =>
    obtain ⟨a, ha, h⟩ := bind_eq_ok h
    obtain ⟨b, hb, h⟩ := bind_eq_ok h
    cases h
    rw [Stmt.actions, Branch.means, means_ofExpr ha, means_ofExpr hb, pair_still]
    exact congrArg (fun e => [Action.branch e]) (andThen_still _ _)
  case h_4 =>
    obtain ⟨a, ha, h⟩ := bind_eq_ok h
    obtain ⟨b, hb, h⟩ := bind_eq_ok h
    cases h
    rw [Stmt.actions, Expr.moves, means_ofExpr ha, means_ofExpr hb, pair_still,
      andThen_still_eq_step]
    rfl
  case h_5 =>
    obtain ⟨o, ho, h⟩ := bind_eq_ok h
    cases h
    rw [Stmt.actions, Expr.moves, Expr.means, means_ofExpr ho, andThen_andThen,
      andThen_still_eq_step]
    rfl
  case h_6 =>
    obtain ⟨a, ha, h⟩ := bind_eq_ok h
    obtain ⟨b, hb, h⟩ := bind_eq_ok h
    cases h
    rw [Stmt.actions, Expr.moves, Expr.means, means_ofExpr ha, means_ofExpr hb, pair_still,
      andThen_andThen, andThen_still_eq_step]
    rfl
  case h_7 =>
    obtain ⟨f, hf, h⟩ := bind_eq_ok h
    obtain ⟨as, has, h⟩ := bind_eq_ok h
    cases h
    rw [Stmt.actions, Expr.moves, Expr.means, means_ofExpr hf, meansAll_ofExpr has, pair_still,
      andThen_andThen, andThen_still_eq_step]
    rfl
  case h_8 =>
    obtain ⟨o, ho, h⟩ := bind_eq_ok h
    cases h
    rw [Stmt.actions, Expr.moves, means_ofExpr ho, andThen_still_eq_step]
    rfl
  case h_9 =>
    obtain ⟨f, hf, h⟩ := bind_eq_ok h
    obtain ⟨as, has, h⟩ := bind_eq_ok h
    cases h
    rw [Stmt.actions, Expr.means, means_ofExpr hf, meansAll_ofExpr has, pair_still,
      andThen_andThen, andThen_still_eq_step]
    rfl
  case h_10 | h_11 | h_12 =>
    cases h
    exact congrArg (fun e => [Action.effect e]) (andThen_still _ fun _ => ())
  case h_13 => cases h

/-! ## Lists of quads -/

/-- States that agree on everything are the same. -/
theorem TreeState.Agrees.eq {s t : TreeState} (h : s.Agrees (fun _ => False) t) : s = t := by
  obtain ⟨temps, memory, calls⟩ := s
  obtain ⟨temps', memory', calls'⟩ := t
  obtain rfl : temps = temps' := funext fun x => h.temps x id
  obtain rfl : memory = memory' := h.memory
  obtain rfl : calls = calls' := h.calls
  rfl

theorem Mirrors.self (e : Evaluation α) : Mirrors (fun _ => False) e e where
  forth hst he := ⟨_, hst.eq ▸ he, .refl _⟩
  back hst he := ⟨_, hst.eq ▸ he, .refl _⟩

variable {on : List Label}

/-- An action takes its own place. -/
theorem window_self (a : Action)
    (hon : ∀ choose, a = .branch choose → ∀ s l t, choose s l t → l ∈ on) :
    Window (fun _ => False) (fun _ => False) on a [a] := by
  cases a with
  | mark l => exact .mark l
  | effect run =>
    refine .effect (closed_effect run) ?_ fun _ _ _ _ _ => False.elim
    rw [runs_effect_eq]
    exact .self run
  | branch choose =>
    refine .branch (w := []) closed_nil ?_ (fun _ _ _ _ _ => False.elim) fun h =>
      hon choose rfl _ _ _ h
    rw [runs_nil_behind]
    exact .self choose

/-- What does nothing takes no place. -/
theorem window_done :
    Window (fun _ => False) (fun _ => False) on (.effect (still fun _ => ())) [] := by
  refine .effect closed_nil ?_ fun _ _ _ _ _ => False.elim
  have hnil : Runs [] = still fun _ => () := by
    funext s _ s'
    exact propext (runs_nil.trans ⟨fun h => ⟨rfl, h⟩, fun h => h.2⟩)
  rw [hnil]
  exact .self _

theorem windows_ofCanonicals {stmts : List Stmt} {qs : List (Option Quad)}
    (h : List.Forall₂ (fun stmt q => Quad.ofCanonical stmt = .ok q) stmts qs)
    (hon : ∀ choose, .branch choose ∈ Stmt.actionsAll W stmts →
      ∀ s l t, choose s l t → l ∈ on) :
    ∃ ws, List.Forall₂ (Window (fun _ => False) (fun _ => False) on)
        (Stmt.actionsAll W stmts) ws ∧
      ws.flatten = (qs.filterMap id).map (Quad.action W) ∧
      marks ws.flatten = marks (Stmt.actionsAll W stmts) := by
  induction h with
  | nil => exact ⟨[], .nil, rfl, rfl⟩
  | @cons stmt q stmts qs hq _ ih =>
    have heq : Stmt.actionsAll W (stmt :: stmts) =
        Quad.action? W q :: Stmt.actionsAll W stmts := by
      rw [Stmt.actionsAll, List.flatMap_cons, actions_ofCanonical hq W]
      rfl
    rw [heq] at hon ⊢
    obtain ⟨ws, hws, hflat, hmarks⟩ :=
      ih fun choose hmem => hon choose (List.mem_cons_of_mem _ hmem)
    cases q with
    | none => exact ⟨[] :: ws, .cons window_done hws, hflat, hmarks⟩
    | some q =>
      have hwindow := window_self (q.action W) fun choose ha =>
        hon choose (ha ▸ List.mem_cons_self)
      refine ⟨[q.action W] :: ws, .cons hwindow hws, ?_, ?_⟩
      · rw [List.flatten_cons, hflat]
        rfl
      · rw [List.flatten_cons, marks_append, hmarks, ← marks_append]
        rfl

/-- **Canonical statements do what their quads do.** -/
theorem mirrors_ofCanonicals {stmts : List Stmt} {quads : List Quad}
    (h : Quad.ofCanonicals stmts = .ok quads) (hclosed : Closed (Stmt.actionsAll W stmts))
    (hnodup : (marks (Stmt.actionsAll W stmts)).Nodup) :
    Mirrors (fun _ => False) (Runs (Stmt.actionsAll W stmts))
      (Runs (quads.map (Quad.action W))) := by
  obtain ⟨qs, hqs, h⟩ := bind_eq_ok h
  cases h
  obtain ⟨ws, hws, hflat, hmarks⟩ := windows_ofCanonicals (mapM_eq_ok_iff.1 hqs) hclosed
  rw [← hflat]
  exact mirrors_flatten hws (hmarks ▸ hnodup) fun l hl => hl

theorem Quad.functional_action (W : World) (q : Quad) : (q.action W).Functional := by
  cases q with
  | label => trivial
  | jump =>
    rintro s l t l' u ⟨hl, rfl⟩ ⟨hl', rfl⟩
    rw [hl] at hl'
    exact ⟨Option.some.inj hl', rfl⟩
  | cjump =>
    rintro s l t l' u ⟨rfl, rfl⟩ ⟨rfl, rfl⟩
    exact ⟨rfl, rfl⟩
  | load | store | binop | move | call =>
    rintro s a t b u rfl rfl
    exact ⟨rfl, rfl⟩

theorem functional_quads (W : World) (quads : List Quad) :
    (Runs (quads.map (Quad.action W))).Functional := by
  refine functional_runs fun a ha => ?_
  obtain ⟨q, -, rfl⟩ := List.mem_map.1 ha
  exact q.functional_action W

/-! ## One pass after another -/

section Matches

variable {hidden hidden' : Temp → Prop} {e e' e'' : Evaluation Unit}

/-- Calls that do not touch some temporaries do not touch fewer. -/
theorem World.Spares.mono (h : W.Spares hidden') (hsub : ∀ x, hidden x → hidden' x) :
    W.Spares hidden where
  reads f args m u v huv := by
    obtain ⟨hvalue, htemps, hmemory⟩ :=
      h.reads f args m fun x hx => huv x fun hx' => hx (hsub x hx')
    refine ⟨hvalue, fun x hx => ?_, hmemory⟩
    by_cases hx' : hidden' x
    · rw [h.writes hx', h.writes hx', huv x hx]
    · exact htemps x hx'
  writes hx := h.writes (hsub _ hx)

/-- From each state both evaluations end or none, and they leave states that agree. -/
structure Matches (hidden : Temp → Prop) (e e' : Evaluation Unit) : Prop where
  forth : ∀ {s s'}, e s () s' → ∃ t', e' s () t' ∧ s'.Agrees hidden t'
  back : ∀ {s t'}, e' s () t' → ∃ s', e s () s' ∧ s'.Agrees hidden t'

theorem Mirrors.matches (h : Mirrors hidden e e') (hsub : ∀ x, hidden x → hidden' x) :
    Matches hidden' e e' where
  forth he := by
    obtain ⟨t', he', hagree⟩ := h.forth (.refl _) he
    exact ⟨t', he', hagree.mono hsub⟩
  back he' := by
    obtain ⟨s', he, hagree⟩ := h.back (.refl _) he'
    exact ⟨s', he, hagree.mono hsub⟩

theorem Matches.trans (h : Matches hidden e e') (h' : Matches hidden e' e'') :
    Matches hidden e e'' where
  forth he := by
    obtain ⟨t', he', hagree⟩ := h.forth he
    obtain ⟨u', he'', hagree'⟩ := h'.forth he'
    exact ⟨u', he'', hagree.trans hagree'⟩
  back he'' := by
    obtain ⟨t', he', hagree'⟩ := h'.back he''
    obtain ⟨s', he, hagree⟩ := h.back he'
    exact ⟨s', he, hagree.trans hagree'⟩

end Matches

/-- The passes that lead to quads. -/
theorem run_quads_eq_ok {stmt : Stmt} {w w' : Workspace} {quads : List Quad}
    (h : (Pipeline.quads stmt).run w = (.ok quads, w')) :
    ∃ simple supply code, stmt.simplify.run w.supply = (.ok simple, supply) ∧
      simple.canonical.run supply = (.ok code, w'.supply) ∧ Quad.ofCanonicals code = .ok quads := by
  rw [Pipeline.quads, Attempt.run_bind_eq_ok_iff] at h
  obtain ⟨simple, w₁, hsimple, h⟩ := h
  rw [Attempt.run_bind_eq_ok_iff] at h
  obtain ⟨code, w₂, hcode, h⟩ := h
  obtain ⟨supply, hsimplify, rfl⟩ := Pass.run_fresh_eq_ok_iff.1 hsimple
  have hcanonical := run_canonicalize_eq_ok hcode
  cases hquads : Quad.ofCanonicals code with
  | error e =>
    rw [hquads] at h
    cases h
  | ok quads' =>
    rw [hquads] at h
    cases h
    exact ⟨simple, supply, code, hsimplify, hcanonical, hquads⟩

section

variable {stmt simple : Stmt} {supply supply' : Supply} {code : List Stmt} {quads : List Quad}
  {lo mid hi : Nat}

/-- Naming operands does not change what is done. -/
theorem matches_simplified (h : Kind.stmt.Simplified stmt lo mid simple) (hhi : mid ≤ hi)
    (htemps : ∀ t ∈ stmt.temps, t.Within lo) (hW : W.Spares (Temp.Drawn lo hi)) :
    Matches (Temp.Drawn lo hi) (Runs (stmt.actions W)) (Runs (simple.actions W)) := by
  have hconceals : W.Conceals (Temp.Drawn lo hi) lo mid stmt.temps :=
    ⟨hW, fun x hx => hx.mono (Nat.le_refl lo) hhi, fun t ht => (htemps t ht).not_drawn⟩
  exact (mirrors_parallel (h.mirrors hconceals)).matches fun _ hx => hx

/-- Nor do staging and taking statements as quads. -/
theorem matches_quads (hwf : simple.WellFormed simple.spineLabels)
    (hlabels : simple.labels.Nodup) (htemps : ∀ t ∈ simple.temps, t.Within supply.temps)
    (hcode : simple.canonical.run supply = (.ok code, supply'))
    (hquads : Quad.ofCanonicals code = .ok quads) (hlo : lo ≤ supply.temps)
    (hW : W.Spares (Temp.Drawn lo supply'.temps)) :
    Matches (Temp.Drawn lo supply'.temps) (Runs (simple.actions W))
      (Runs (quads.map (Quad.action W))) := by
  have hsub : ∀ x : Temp, x.Drawn supply.temps supply'.temps → x.Drawn lo supply'.temps :=
    fun x hx => hx.mono hlo (Nat.le_refl _)
  obtain ⟨_, _, hrun, -, htiled⟩ := simple.ensures_canonical hwf hlabels supply
  rw [hcode] at hrun
  cases hrun
  have hstages := htiled.performedAs hlabels
    ⟨hW.mono hsub, fun _ hx => hx, fun t ht => (htemps t ht).not_drawn⟩
  have hmirrors := hstages.mirrors
  rw [behind_done] at hmirrors
  have hnodup : (marks (Stmt.actionsAll W code)).Nodup := hstages.defines ▸ hlabels
  exact (hmirrors.matches hsub).trans
    ((mirrors_ofCanonicals hquads hstages.closed hnodup).matches fun _ => False.elim)

end

/-- **Quads mean what the statement means that they come from.**  Let a statement define each
label once, branch to labels of its own spine only, and mention no temporary that is still to be
drawn.  If it has quads, and calls do not touch the temporaries that were drawn for them, then
the quads end from the states from which the statement ends, and they leave the same memory, the
same calls and the same values in all temporaries that were not drawn. -/
theorem quads_preserve_meaning {stmt : Stmt} {quads : List Quad} {w w' : Workspace}
    (hscoped : stmt.Scoped stmt.spineLabels) (hlabels : stmt.labels.Nodup)
    (htemps : ∀ t ∈ stmt.temps, t.Within w.supply.temps)
    (h : (Pipeline.quads stmt).run w = (.ok quads, w')) (W : World)
    (hW : W.Spares (Temp.Drawn w.supply.temps w'.supply.temps)) (s : TreeState) :
    ((∃ s', Runs (stmt.actions W) s () s') ↔ ∃ t', Runs (quads.map (Quad.action W)) s () t') ∧
      ∀ s' t', Runs (stmt.actions W) s () s' → Runs (quads.map (Quad.action W)) s () t' →
        s'.Agrees (Temp.Drawn w.supply.temps w'.supply.temps) t' := by
  obtain ⟨simple, supply, code, hsimple, hcode, hquads⟩ := run_quads_eq_ok h
  obtain ⟨_, _, hrun, hle, hsimplified⟩ := stmt.ensures_simplify w.supply
  rw [hsimple] at hrun
  cases hrun
  have hwf : simple.WellFormed simple.spineLabels := by
    have hgood := Option.map_eq_none_iff.1 (simple.ends_canonical.eq_none hcode)
    refine simple.wellFormed_of_scoped ?_ hgood
    rw [hsimplified.keeps.1]
    exact hsimplified.keeps.2 _ hscoped
  have hlabels' : simple.labels.Nodup := by
    have heq : simple.labels = stmt.labels := hsimplified.labels
    rwa [heq]
  have htemps' : ∀ t ∈ simple.temps, t.Within supply.temps := by
    intro t ht
    rcases hsimplified.temps t ht with ht | ht
    · exact (htemps t ht).mono hle
    · exact ht.within
  obtain ⟨_, _, hrun', hle', -⟩ := simple.ensures_canonical hwf hlabels' supply
  rw [hcode] at hrun'
  cases hrun'
  have hmatches := (matches_simplified hsimplified hle' htemps hW).trans
    (matches_quads hwf hlabels' htemps' hcode hquads hle hW)
  refine ⟨⟨?_, ?_⟩, ?_⟩
  · rintro ⟨s', hs'⟩
    obtain ⟨t', ht', -⟩ := hmatches.forth hs'
    exact ⟨t', ht'⟩
  · rintro ⟨t', ht'⟩
    obtain ⟨s', hs', -⟩ := hmatches.back ht'
    exact ⟨s', hs'⟩
  · intro s' t' hs' ht'
    obtain ⟨u, hu, hagree⟩ := hmatches.forth hs'
    rw [(functional_quads W quads ht' hu).2]
    exact hagree

/-- A workspace that has handed out one temporary. -/
def sumSpace : Workspace where
  supply := ⟨1, 0⟩
  frame := { name := .named "f" }

theorem exists_run_quads_sumLoop :
    ∃ quads w', (Pipeline.quads sumLoop).run sumSpace = (.ok quads, w') ∧ quads.length = 8 := by
  have h : (match (Pipeline.quads sumLoop).run sumSpace with
      | (.ok quads, _) => quads.length == 8
      | _ => false) = true := by decide +kernel
  split at h
  · next quads w' hrun => exact ⟨quads, w', hrun, eq_of_beq h⟩
  · cases h

theorem sumLoop_quads_preserve_meaning :
    (sumLoop.Scoped sumLoop.spineLabels ∧ sumLoop.labels.Nodup ∧
      ∀ t ∈ sumLoop.temps, t.Within sumSpace.supply.temps) ∧
    ∃ quads w', (Pipeline.quads sumLoop).run sumSpace = (.ok quads, w') ∧ quads.length = 8 ∧ ∀ s,
      ((∃ s', Runs (sumLoop.actions storing) s () s') ↔
        ∃ t', Runs (quads.map (Quad.action storing)) s () t') ∧
      ∀ s' t', Runs (sumLoop.actions storing) s () s' →
        Runs (quads.map (Quad.action storing)) s () t' →
        s'.Agrees (Temp.Drawn 1 w'.supply.temps) t' := by
  have hscoped : sumLoop.Scoped sumLoop.spineLabels := by
    simp [sumLoop, Stmt.Scoped, Expr.Scoped, Expr.AllScoped, Branch.Scoped, Stmt.spineLabels]
  have hlabels : sumLoop.labels.Nodup := by decide
  have htemps : ∀ t ∈ sumLoop.temps, t.Within sumSpace.supply.temps := by
    simp [sumLoop, sumSpace, Stmt.temps, Expr.temps, Expr.tempsAll, Branch.temps]
  obtain ⟨quads, w', hrun, hlength⟩ := exists_run_quads_sumLoop
  exact ⟨⟨hscoped, hlabels, htemps⟩, quads, w', hrun, hlength,
    quads_preserve_meaning hscoped hlabels htemps hrun storing (storing_spares _)⟩

end Lowering
