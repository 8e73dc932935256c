import Lowering.Proofs.Canonical.Meaning
import Lowering.Proofs.Tree.Target
import Lowering.Quad.Lower

/-!
# Naming operands keeps the meaning

Naming an operand stores its value in a fresh temporary and reads it from there at once.
Nothing is reordered, so tree code whose operands are named does, action by action, what it
did before, but for the temporaries that were drawn.

Expressions, move targets, branches and statements are all treated in the same way, so each
of them is a `Kind`; what is built from parts that do the same does the same.

## Main definitions

* `Action.Mirrors`, `mirrors_parallel` — spines that do the same, action by action.
* `Kind`, `Kind.Simplified` — a kind of tree code, and what naming operands keeps of it.
* `Kind.Builds` — one kind is built from another.
* `Stmt.ensures_simplify` — naming operands keeps all of it.
-/

namespace Lowering

open Evaluation

variable {hidden : Temp → Prop} {W : World} {α β γ : Type}

/-! ## Spines in parallel -/

theorem TreeState.Agrees.symm {s t : TreeState} (h : s.Agrees hidden t) : t.Agrees hidden s :=
  ⟨fun x hx => (h.temps x hx).symm, h.memory.symm, h.calls.symm⟩

theorem Mirrors.symm {e e' : Evaluation α} (h : Mirrors hidden e e') : Mirrors hidden e' e where
  forth hst he := by
    obtain ⟨t', ht', hagree⟩ := h.back hst.symm he
    exact ⟨t', ht', hagree.symm⟩
  back hst he := by
    obtain ⟨t', ht', hagree⟩ := h.forth hst.symm he
    exact ⟨t', ht', hagree.symm⟩

/-- Two actions that do the same but for hidden temporaries. -/
inductive Action.Mirrors (hidden : Temp → Prop) : Action → Action → Prop where
  | mark (l : Label) : Mirrors hidden (.mark l) (.mark l)
  | effect {run run' : Evaluation Unit} :
      Lowering.Mirrors hidden run run' → Mirrors hidden (.effect run) (.effect run')
  | branch {choose choose' : Evaluation Label} :
      Lowering.Mirrors hidden choose choose' → Mirrors hidden (.branch choose) (.branch choose')

theorem Action.Mirrors.symm {a a' : Action} (h : a.Mirrors hidden a') : a'.Mirrors hidden a := by
  cases h with
  | mark l => exact .mark l
  | effect h => exact .effect h.symm
  | branch h => exact .branch h.symm

section Parallel

variable {spine spine' rest rest' : List Action} {l : Label} {n : Nat} {s t s' : TreeState}

theorem landing_parallel (h : List.Forall₂ (Action.Mirrors hidden) spine spine')
    (hl : landing l spine = some rest) :
    ∃ rest', landing l spine' = some rest' ∧ List.Forall₂ (Action.Mirrors hidden) rest rest' := by
  induction h with
  | nil => cases hl
  | cons ha hspine ih =>
    cases ha with
    | mark l' =>
      rw [landing] at hl ⊢
      split at hl
      · next heq =>
        cases hl
        exact ⟨_, if_pos heq, hspine⟩
      · next hne =>
        rw [if_neg hne]
        exact ih hl
    | effect => exact ih hl
    | branch => exact ih hl

theorem exists_reaches_parallel (h : List.Forall₂ (Action.Mirrors hidden) spine spine')
    (hrest : List.Forall₂ (Action.Mirrors hidden) rest rest') (hst : s.Agrees hidden t)
    (hrun : Reaches spine n rest s [] s') :
    ∃ t', Reaches spine' n rest' t [] t' ∧ s'.Agrees hidden t' := by
  induction n generalizing rest rest' s t with
  | zero =>
    cases hrun
    cases hrest
    exact ⟨t, .refl _ _, hst⟩
  | succ n ih =>
    cases hrun with
    | mark hrun =>
      cases hrest with
      | cons ha hrest =>
        cases ha
        obtain ⟨t', ht', hagree⟩ := ih hrest hst hrun
        exact ⟨t', .mark ht', hagree⟩
    | effect heffect hrun =>
      cases hrest with
      | cons ha hrest =>
        cases ha with
        | effect ha =>
          obtain ⟨u, hu, hsu⟩ := ha.forth hst heffect
          obtain ⟨t', ht', hagree⟩ := ih hrest hsu hrun
          exact ⟨t', .effect hu ht', hagree⟩
    | branch hchoose hland hrun =>
      cases hrest with
      | cons ha hrest =>
        cases ha with
        | branch ha =>
          obtain ⟨u, hu, hsu⟩ := ha.forth hst hchoose
          obtain ⟨target, htarget, hparallel⟩ := landing_parallel h hland
          obtain ⟨t', ht', hagree⟩ := ih hparallel hsu hrun
          exact ⟨t', .branch hu htarget ht', hagree⟩

/-- **Spines that do the same action by action do the same.** -/
theorem mirrors_parallel (h : List.Forall₂ (Action.Mirrors hidden) spine spine') :
    Mirrors hidden (Runs spine) (Runs spine') where
  forth := by
    rintro s t - s' hst ⟨n, hrun⟩
    obtain ⟨t', ht', hagree⟩ := exists_reaches_parallel h h hst hrun
    exact ⟨t', ⟨n, ht'⟩, hagree⟩
  back := by
    rintro s t - t' hst ⟨n, hrun⟩
    have hflip : List.Forall₂ (Action.Mirrors hidden) spine' spine :=
      h.flip.imp fun _ _ ha => ha.symm
    obtain ⟨s', hs', hagree⟩ := exists_reaches_parallel hflip hflip hst.symm hrun
    exact ⟨s', ⟨n, hs'⟩, hagree.symm⟩

end Parallel

/-! ## Kinds of tree code -/

/-- A kind of tree code: what a piece of it defines and mentions, and when a piece that takes
the place of another one is scoped like it and does the same. -/
structure Kind (α : Type) where
  labels : α → List Label
  temps : α → List Temp
  keeps : α → α → Prop
  mirrors : World → (Temp → Prop) → α → α → Prop

namespace Kind

/-- Expressions, which give a value. -/
def expr : Kind Expr where
  labels := Expr.labels
  temps := Expr.temps
  keeps e e' := e.Scoped → e'.Scoped
  mirrors W hidden e e' := Mirrors hidden (e.means W) (e'.means W)

/-- Expressions that are evaluated one after another. -/
def exprs : Kind (List Expr) where
  labels := Expr.labelsAll
  temps := Expr.tempsAll
  keeps es es' := Expr.AllScoped es → Expr.AllScoped es'
  mirrors W hidden es es' := Mirrors hidden (Expr.meansAll W es) (Expr.meansAll W es')

/-- Expressions that are moved into. -/
def target : Kind Expr where
  labels := Expr.labels
  temps := Expr.temps
  keeps e e' := e.Scoped → e'.Scoped
  mirrors W hidden e e' := ∀ {source source' : Evaluation Word}, Mirrors hidden source source' →
    Mirrors hidden (Expr.moves W source e) (Expr.moves W source' e')

/-- Branches. -/
def branch : Kind Branch where
  labels := Branch.labels
  temps := Branch.temps
  keeps b b' := ∀ on, b.Scoped on → b'.Scoped on
  mirrors W hidden b b' := Mirrors hidden (b.means W) (b'.means W)

/-- Statements. -/
def stmt : Kind Stmt where
  labels := Stmt.labels
  temps := Stmt.temps
  keeps s s' := s'.spineLabels = s.spineLabels ∧ ∀ on, s.Scoped on → s'.Scoped on
  mirrors W hidden s s' := List.Forall₂ (Action.Mirrors hidden) (s.actions W) (s'.actions W)

/-- One piece and then another. -/
def pair (K : Kind α) (L : Kind β) : Kind (α × β) where
  labels p := K.labels p.1 ++ L.labels p.2
  temps p := K.temps p.1 ++ L.temps p.2
  keeps p p' := K.keeps p.1 p'.1 ∧ L.keeps p.2 p'.2
  mirrors W hidden p p' := K.mirrors W hidden p.1 p'.1 ∧ L.mirrors W hidden p.2 p'.2

variable {K : Kind α} {L : Kind β} {M : Kind γ} {a a' : α} {b b' : β} {lo mid hi : Nat}

/-- What naming operands keeps: the labels, the temporaries but for those that were drawn, and
what is done. -/
structure Simplified (K : Kind α) (a : α) (lo hi : Nat) (a' : α) : Prop where
  labels : K.labels a' = K.labels a
  temps : ∀ t ∈ K.temps a', t ∈ K.temps a ∨ t.Drawn lo hi
  keeps : K.keeps a a'
  mirrors : ∀ ⦃W hidden⦄, W.Conceals hidden lo hi (K.temps a) → K.mirrors W hidden a a'

theorem Simplified.pair (hlo : lo ≤ mid) (hhi : mid ≤ hi) (h : K.Simplified a lo mid a')
    (h' : L.Simplified b mid hi b') : (K.pair L).Simplified (a, b) lo hi (a', b') where
  labels := by
    show K.labels a' ++ L.labels b' = K.labels a ++ L.labels b
    rw [h.labels, h'.labels]
  temps := by
    intro t ht
    show t ∈ K.temps a ++ L.temps b ∨ _
    rw [List.mem_append]
    rcases List.mem_append.1 ht with ht | ht
    · exact (h.temps t ht).imp .inl fun hd => hd.mono (Nat.le_refl _) hhi
    · exact (h'.temps t ht).imp .inr fun hd => hd.mono hlo (Nat.le_refl _)
  keeps := ⟨h.keeps, h'.keeps⟩
  mirrors _ _ hW := ⟨h.mirrors (hW.left hhi), h'.mirrors (hW.right hlo)⟩

/-- A kind is built from the pieces of another. -/
structure Builds (K : Kind α) (L : Kind β) (g : α → β) : Prop where
  labels : ∀ a, L.labels (g a) = K.labels a
  temps : ∀ a, L.temps (g a) = K.temps a
  keeps : ∀ {a a'}, K.keeps a a' → L.keeps (g a) (g a')
  mirrors : ∀ {W hidden a a'}, W.Spares hidden → K.mirrors W hidden a a' →
    L.mirrors W hidden (g a) (g a')

theorem Builds.simplified {g : α → β} (hg : Builds K L g) (h : K.Simplified a lo hi a') :
    L.Simplified (g a) lo hi (g a') where
  labels := by rw [hg.labels, hg.labels, h.labels]
  temps := by
    rw [hg.temps, hg.temps]
    exact h.temps
  keeps := hg.keeps h.keeps
  mirrors _ _ hW := hg.mirrors hW.spares (h.mirrors (hg.temps a ▸ hW))

theorem Builds.ensures {g : α → β} (hg : Builds K L g) {x : Fresh α}
    (hx : x.Ensures (K.Simplified a)) :
    (do let a ← x; pure (g a)).Ensures (L.Simplified (g a)) :=
  .bind hx fun _ => .pure fun _ _ _ h => hg.simplified h

theorem Builds.ensures_pair {g : α → β → γ} (hg : Builds (K.pair L) M fun p => g p.1 p.2)
    {x : Fresh α} {y : Fresh β} (hx : x.Ensures (K.Simplified a))
    (hy : y.Ensures (L.Simplified b)) :
    (do let a ← x; let b ← y; pure (g a b)).Ensures (M.Simplified (g a b)) :=
  .bind hx fun _ => .bind hy fun _ => .pure fun _ _ hhi h' _ hlo h =>
    hg.simplified (h.pair hlo hhi h')

/-- A piece without operands stays as it is. -/
theorem ensures_pure (hkeeps : K.keeps a a)
    (hmirrors : ∀ ⦃W hidden⦄, (∀ t ∈ K.temps a, ¬hidden t) → K.mirrors W hidden a a) :
    (pure a : Fresh α).Ensures (K.Simplified a) :=
  .pure fun _ => ⟨rfl, fun _ ht => .inl ht, hkeeps, fun _ _ hW => hmirrors hW.temps⟩

/-! ## What is built from what -/

theorem builds_binop (op : BinOp) : Builds (expr.pair expr) expr fun p => .binop op p.1 p.2 where
  labels _ := rfl
  temps _ := rfl
  keeps h := fun hs => ⟨h.1 hs.1, h.2 hs.2⟩
  mirrors _ h := (h.1.pair h.2).andThen (respects_value fun _ => rfl)

theorem builds_mem : Builds expr expr .mem where
  labels _ := rfl
  temps _ := rfl
  keeps h := h
  mirrors _ h := h.andThen (respects_value fun hst => congrFun hst.memory _)

theorem builds_call : Builds (expr.pair exprs) expr fun p => .call p.1 p.2 where
  labels _ := rfl
  temps _ := rfl
  keeps h := fun hs => ⟨h.1 hs.1, h.2 hs.2⟩
  mirrors hW h := (h.1.pair h.2).andThen hW.respects

theorem builds_eseq : Builds (stmt.pair expr) expr fun p => .eseq p.1 p.2 where
  labels _ := rfl
  temps _ := rfl
  keeps h := fun hs => ⟨h.1.1 ▸ h.1.2 _ hs.1, h.2 hs.2⟩
  mirrors _ h := (mirrors_parallel h.1).behind h.2

theorem builds_cons : Builds (expr.pair exprs) exprs fun p => p.1 :: p.2 where
  labels _ := rfl
  temps _ := rfl
  keeps h := fun hs => ⟨h.1 hs.1, h.2 hs.2⟩
  mirrors _ h := (h.1.pair h.2).andThen (respects_value fun _ => rfl)

theorem builds_memTarget : Builds expr target .mem where
  labels _ := rfl
  temps _ := rfl
  keeps h := h
  mirrors _ h := fun hs => (h.pair hs).andThen fun p _ _ hst => ⟨rfl, hst.setMemory p.1 p.2⟩

theorem builds_eseqTarget : Builds (stmt.pair target) target fun p => .eseq p.1 p.2 where
  labels _ := rfl
  temps _ := rfl
  keeps h := fun hs => ⟨h.1.1 ▸ h.1.2 _ hs.1, h.2 hs.2⟩
  mirrors _ h := fun hs => (mirrors_parallel h.1).behind (h.2 hs)

theorem builds_jump (labels : List Label) : Builds expr branch fun e => .jump e labels where
  labels _ := rfl
  temps _ := rfl
  keeps h := fun _ hs => ⟨h hs.1, hs.2⟩
  mirrors _ h := h.select _

theorem builds_cjump (op : RelOp) (onTrue onFalse : Label) :
    Builds (expr.pair expr) branch fun p => .cjump op p.1 p.2 onTrue onFalse where
  labels _ := rfl
  temps _ := rfl
  keeps h := fun _ hs => ⟨h.1 hs.1, h.2 hs.2.1, hs.2.2⟩
  mirrors _ h := (h.1.pair h.2).andThen (respects_value fun _ => rfl)

theorem builds_seq : Builds (stmt.pair stmt) stmt fun p => .seq p.1 p.2 where
  labels _ := rfl
  temps _ := rfl
  keeps h := by
    refine ⟨?_, fun on hs => ⟨h.1.2 on hs.1, h.2.2 on hs.2⟩⟩
    rw [Stmt.spineLabels, Stmt.spineLabels, h.1.1, h.2.1]
  mirrors _ h := List.rel_append h.1 h.2

theorem builds_move : Builds (target.pair expr) stmt fun p => .move p.1 p.2 where
  labels _ := rfl
  temps _ := rfl
  keeps h := ⟨rfl, fun _ hs => ⟨h.1 hs.1, h.2 hs.2⟩⟩
  mirrors _ h := .cons (.effect (h.1 h.2)) .nil

theorem builds_eval : Builds expr stmt .eval where
  labels _ := rfl
  temps _ := rfl
  keeps h := ⟨rfl, fun _ hs => h hs⟩
  mirrors _ h := .cons (.effect (h.andThen (respects_value (f := fun _ _ => ()) fun _ => rfl))) .nil

theorem builds_branch : Builds branch stmt .branch where
  labels _ := rfl
  temps _ := rfl
  keeps h := ⟨rfl, h⟩
  mirrors _ h := .cons (.branch h) .nil

end Kind

/-! ## Naming -/

open Kind

/-- A value that is stored in a temporary and read from there. -/
theorem Kind.Simplified.name {e e' : Expr} {lo hi : Nat} (hle : lo ≤ hi)
    (h : expr.Simplified e lo hi e') :
    expr.Simplified e lo (hi + 1)
      (.eseq (.move (.temp (.virtual (hi + 1))) e') (.temp (.virtual (hi + 1)))) where
  labels := by
    rw [← h.labels]
    exact List.append_nil _
  temps := by
    intro t ht
    have ht : t = .virtual (hi + 1) ∨ t ∈ e'.temps := by
      simpa [Kind.expr, Expr.temps, Stmt.temps, or_comm (a := t ∈ e'.temps)] using ht
    rcases ht with rfl | ht
    · exact .inr (Temp.drawn_succ hle)
    · exact (h.temps t ht).imp_right fun hd => hd.mono (Nat.le_refl _) (Nat.le_succ _)
  keeps := fun hs => ⟨⟨trivial, h.keeps hs⟩, trivial⟩
  mirrors := by
    intro W hidden hW
    have hm := h.mirrors (hW.mono (Nat.le_refl _) (Nat.le_succ _))
    show Mirrors hidden (e.means W) (.behind (Runs [.effect _]) _)
    rw [runs_effect_eq]
    exact hm.save (hW.drawn _ (Temp.drawn_succ hle))

theorem ensures_named {e : Expr} {x : Fresh Expr} (h : x.Ensures (expr.Simplified e)) :
    (Expr.named x).Ensures (expr.Simplified e) := by
  refine .bind h fun e' => ?_
  split
  · exact .pure fun _ _ _ he => he
  · refine .bind .temp fun t => .pure fun _ hi _ ht lo hle he => ?_
    obtain ⟨rfl, rfl⟩ := ht
    exact he.name hle

mutual

theorem Expr.ensures_simplify : ∀ e : Expr, e.simplify.Ensures (expr.Simplified e)
  | .const _ => ensures_pure id fun _ _ _ => .still fun _ => rfl
  | .name _ => ensures_pure id fun _ _ _ => .still fun _ => rfl
  | .temp t => ensures_pure id fun _ _ ht =>
    .still fun hst => hst.temps t (ht t List.mem_cons_self)
  | .binop op lhs rhs => (builds_binop op).ensures_pair (ensures_named lhs.ensures_simplify)
    (ensures_named rhs.ensures_simplify)
  | .mem address => builds_mem.ensures (ensures_named address.ensures_simplify)
  | .call function args => builds_call.ensures_pair (ensures_named function.ensures_simplify)
    (Expr.ensures_simplifyAll args)
  | .eseq stmt value => builds_eseq.ensures_pair stmt.ensures_simplify
    (ensures_named value.ensures_simplify)
  termination_by structural e => e

theorem Expr.ensures_simplifyAll : ∀ es : List Expr,
    (Expr.simplifyAll es).Ensures (exprs.Simplified es)
  | [] => ensures_pure id fun _ _ _ => .still fun _ => rfl
  | e :: rest => builds_cons.ensures_pair (ensures_named e.ensures_simplify)
    (Expr.ensures_simplifyAll rest)
  termination_by structural es => es

theorem Expr.ensures_simplifyTarget : ∀ e : Expr,
    e.simplifyTarget.Ensures (target.Simplified e)
  | .temp t => ensures_pure id fun _ _ _ _ _ hs =>
    hs.andThen fun v _ _ hst => ⟨rfl, hst.setTemp t v⟩
  | .mem address => builds_memTarget.ensures (ensures_named address.ensures_simplify)
  | .eseq stmt e => builds_eseqTarget.ensures_pair stmt.ensures_simplify e.ensures_simplifyTarget
  | .const _ => ensures_pure id fun _ _ _ _ _ _ => ⟨fun _ h => h.elim, fun _ h => h.elim⟩
  | .name _ => ensures_pure id fun _ _ _ _ _ _ => ⟨fun _ h => h.elim, fun _ h => h.elim⟩
  | .binop .. => ensures_pure id fun _ _ _ _ _ _ => ⟨fun _ h => h.elim, fun _ h => h.elim⟩
  | .call .. => ensures_pure id fun _ _ _ _ _ _ => ⟨fun _ h => h.elim, fun _ h => h.elim⟩
  termination_by structural e => e

theorem Branch.ensures_simplify : ∀ b : Branch, b.simplify.Ensures (branch.Simplified b)
  | .jump e labels => (builds_jump labels).ensures (ensures_named e.ensures_simplify)
  | .cjump op lhs rhs onTrue onFalse => (builds_cjump op onTrue onFalse).ensures_pair
    (ensures_named lhs.ensures_simplify) (ensures_named rhs.ensures_simplify)
  termination_by structural b => b

/-- **Naming operands keeps what is done**, but for the temporaries that were drawn. -/
theorem Stmt.ensures_simplify : ∀ s : Stmt, s.simplify.Ensures (stmt.Simplified s)
  | .seq first second => builds_seq.ensures_pair first.ensures_simplify second.ensures_simplify
  | .label l => ensures_pure ⟨rfl, fun _ => id⟩ fun _ _ _ => .cons (.mark l) .nil
  | .move e source => by
    rw [Stmt.simplify]
    split
    · exact builds_move.ensures_pair e.ensures_simplifyTarget
        (ensures_named source.ensures_simplify)
    · exact builds_move.ensures_pair e.ensures_simplifyTarget source.ensures_simplify
  | .eval e => by
    rw [Stmt.simplify]
    split
    · exact builds_eval.ensures e.ensures_simplify
    · exact builds_eval.ensures (ensures_named e.ensures_simplify)
  | .branch b => builds_branch.ensures b.ensures_simplify
  termination_by structural s => s

end

end Lowering
