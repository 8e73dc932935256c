import Lowering.Pipeline
import Lowering.Proofs.Canonical.Form

/-!
# Normal form

Canonical statements are described in another way, by what occurs in them at any depth: no
sequence, and no statement in front of an expression; a call only as all that is evaluated or
moved into a temporary, with no other call inside of it; moves into temporaries and memory only.
`Stmt.isCanonical` decides this, and staging gives nothing else.

## Main definitions

* `Stmt.nodes` — all expressions and statements that occur in a statement.
* `Stmt.IsNormal` — the normal form.
* `Stmt.isCanonical_iff_isNormal` — it is decided by looking at the surface.
* `canonicalize_gives_normal_form` — the main result.
-/

namespace Lowering

/-- An expression or a statement that occurs in tree code. -/
inductive Node where
  | expr (e : Expr)
  | stmt (s : Stmt)

/-- Whether an expression with effects occurs: a call, or a statement in front of a value. -/
def Node.isEffect : Node → Bool
  | .expr (.call ..) | .expr (.eseq ..) => true
  | _ => false

mutual

/-- All that occurs in an expression at any depth, the expression included. -/
def Expr.nodes : Expr → List Node
  | .const value => [.expr (.const value)]
  | .name l => [.expr (.name l)]
  | .temp t => [.expr (.temp t)]
  | .binop op lhs rhs => .expr (.binop op lhs rhs) :: (lhs.nodes ++ rhs.nodes)
  | .mem address => .expr (.mem address) :: address.nodes
  | .call function args => .expr (.call function args) :: (function.nodes ++ Expr.nodesAll args)
  | .eseq stmt value => .expr (.eseq stmt value) :: (stmt.nodes ++ value.nodes)
  termination_by structural e => e

/-- All that occurs in some expressions. -/
def Expr.nodesAll : List Expr → List Node
  | [] => []
  | e :: rest => e.nodes ++ Expr.nodesAll rest
  termination_by structural es => es

/-- All that occurs in a branch. -/
def Branch.nodes : Branch → List Node
  | .jump target _ => target.nodes
  | .cjump _ lhs rhs _ _ => lhs.nodes ++ rhs.nodes
  termination_by structural b => b

/-- All that occurs in a statement at any depth, the statement included. -/
def Stmt.nodes : Stmt → List Node
  | .seq first second => .stmt (.seq first second) :: (first.nodes ++ second.nodes)
  | .label l => [.stmt (.label l)]
  | .move target source => .stmt (.move target source) :: (target.nodes ++ source.nodes)
  | .eval expr => .stmt (.eval expr) :: expr.nodes
  | .branch b => .stmt (.branch b) :: b.nodes
  termination_by structural s => s

end

/-- The normal form of a statement, by what occurs in it. -/
structure Stmt.IsNormal (s : Stmt) : Prop where
  no_seq : ∀ first second, .stmt (.seq first second) ∉ s.nodes
  no_eseq : ∀ stmt value, .expr (.eseq stmt value) ∉ s.nodes
  call : ∀ function args, .expr (.call function args) ∈ s.nodes →
    (s = .eval (.call function args) ∨ ∃ t, s = .move (.temp t) (.call function args)) ∧
      ∀ e ∈ function :: args, ∀ function' args', .expr (.call function' args') ∉ e.nodes
  target : ∀ target source, .stmt (.move target source) ∈ s.nodes →
    (∃ t, target = .temp t) ∨ ∃ address, target = .mem address
  no_const : ∀ value, s ≠ .eval (.const value)

/-! ## Pure expressions -/

theorem Expr.mem_nodesAll {n : Node} {es : List Expr} :
    n ∈ Expr.nodesAll es ↔ ∃ e ∈ es, n ∈ e.nodes := by
  induction es with
  | nil => simp [Expr.nodesAll]
  | cons e es ih => simp [Expr.nodesAll, ih]

/-- An expression is pure if nothing in it has effects. -/
theorem Expr.isPure_eq_all_nodes : ∀ e : Expr, e.isPure = e.nodes.all (!·.isEffect)
  | .call .. | .eseq .. => by simp [Expr.isPure, Expr.nodes, Node.isEffect]
  | .const _ => rfl
  | .name _ => rfl
  | .temp _ => rfl
  | .binop _ lhs rhs => by
    rw [Expr.isPure, lhs.isPure_eq_all_nodes, rhs.isPure_eq_all_nodes]
    simp [Expr.nodes, Node.isEffect]
  | .mem address => by
    rw [Expr.isPure, address.isPure_eq_all_nodes]
    simp [Expr.nodes, Node.isEffect]

theorem Expr.isPure_iff {e : Expr} :
    e.isPure = true ↔ (∀ function args, .expr (.call function args) ∉ e.nodes) ∧
      ∀ stmt value, .expr (.eseq stmt value) ∉ e.nodes := by
  rw [e.isPure_eq_all_nodes, List.all_eq_true]
  constructor
  · intro h
    exact ⟨fun _ _ hn => by simpa [Node.isEffect] using h _ hn,
      fun _ _ hn => by simpa [Node.isEffect] using h _ hn⟩
  · rintro ⟨hcall, heseq⟩ n hn
    match n with
    | .expr (.call f as) => exact absurd hn (hcall f as)
    | .expr (.eseq s v) => exact absurd hn (heseq s v)
    | .expr (.const _) | .expr (.name _) | .expr (.temp _) | .expr (.binop ..)
    | .expr (.mem _) | .stmt _ => rfl

theorem Expr.stmt_notMem_nodes {s : Stmt} : ∀ {e : Expr}, e.isPure = true → .stmt s ∉ e.nodes
  | .const _, _ => by simp [Expr.nodes]
  | .name _, _ => by simp [Expr.nodes]
  | .temp _, _ => by simp [Expr.nodes]
  | .binop _ lhs rhs, h => by
    obtain ⟨hl, hr⟩ := Bool.and_eq_true_iff.1 h
    simp [Expr.nodes, stmt_notMem_nodes hl, stmt_notMem_nodes hr]
  | .mem address, h => by
    have ha : address.isPure = true := h
    simp [Expr.nodes, stmt_notMem_nodes ha]

/-! ## Canonical statements -/

/-- Something that may occur beside the one call of a canonical statement. -/
structure Node.IsPlain (n : Node) : Prop where
  no_stmt : ∀ s, n ≠ .stmt s
  no_call : ∀ function args, n ≠ .expr (.call function args)
  no_eseq : ∀ stmt value, n ≠ .expr (.eseq stmt value)

theorem Expr.isPlain_of_mem {e : Expr} (h : e.isPure = true) {n : Node} (hn : n ∈ e.nodes) :
    n.IsPlain where
  no_stmt s := by
    rintro rfl
    exact Expr.stmt_notMem_nodes h hn
  no_call function args := by
    rintro rfl
    exact (Expr.isPure_iff.1 h).1 _ _ hn
  no_eseq stmt value := by
    rintro rfl
    exact (Expr.isPure_iff.1 h).2 _ _ hn

section IsNormal

variable {s : Stmt}

/-- A statement in which there is nothing but the statement itself, plain parts, and the one call
that a statement may have. -/
theorem Stmt.isNormal_of_forall_nodes
    (h : ∀ n ∈ s.nodes, n = .stmt s ∨ n.IsPlain ∨ ∃ function args,
      n = .expr (.call function args) ∧
      (s = .eval (.call function args) ∨ ∃ t, s = .move (.temp t) (.call function args)) ∧
      ∀ e ∈ function :: args, e.isPure = true)
    (hseq : ∀ first second, s ≠ .seq first second)
    (htarget : ∀ target source, s = .move target source →
      (∃ t, target = .temp t) ∨ ∃ address, target = .mem address)
    (hconst : ∀ value, s ≠ .eval (.const value)) : s.IsNormal where
  no_seq first second hn := by
    rcases h _ hn with heq | hplain | ⟨_, _, heq, -⟩
    · exact hseq first second (Node.stmt.inj heq).symm
    · exact hplain.no_stmt _ rfl
    · cases heq
  no_eseq stmt value hn := by
    rcases h _ hn with heq | hplain | ⟨_, _, heq, -⟩
    · cases heq
    · exact hplain.no_eseq _ _ rfl
    · cases heq
  call function args hn := by
    rcases h _ hn with heq | hplain | ⟨_, _, heq, hs, hparts⟩
    · cases heq
    · exact absurd rfl (hplain.no_call _ _)
    · cases heq
      exact ⟨hs, fun e he => (Expr.isPure_iff.1 (hparts e he)).1⟩
  target target source hn := by
    rcases h _ hn with heq | hplain | ⟨_, _, heq, -⟩
    · exact htarget target source (Node.stmt.inj heq).symm
    · exact absurd rfl (hplain.no_stmt _)
    · cases heq
  no_const := hconst

/-- A statement in which everything but the statement itself is plain. -/
theorem Stmt.isNormal_of_isPlain (rest : List Node) (hnodes : s.nodes = .stmt s :: rest)
    (hrest : ∀ n ∈ rest, n.IsPlain) (hseq : ∀ first second, s ≠ .seq first second)
    (htarget : ∀ target source, s = .move target source →
      (∃ t, target = .temp t) ∨ ∃ address, target = .mem address)
    (hconst : ∀ value, s ≠ .eval (.const value)) : s.IsNormal := by
  refine Stmt.isNormal_of_forall_nodes (fun n hn => ?_) hseq htarget hconst
  rw [hnodes] at hn
  exact (List.mem_cons.1 hn).imp_right fun hn => .inl (hrest n hn)

/-- A statement with one call, in which everything else is plain. -/
theorem Stmt.isNormal_of_isPureCall {function : Expr} {args : List Expr} (front : List Node)
    (hpure : (Expr.call function args).isPureCall = true)
    (hs : s = .eval (.call function args) ∨ ∃ t, s = .move (.temp t) (.call function args))
    (hnodes : s.nodes = .stmt s :: (front ++ (Expr.call function args).nodes))
    (hfront : ∀ n ∈ front, n.IsPlain) : s.IsNormal := by
  obtain ⟨hf, has⟩ := Bool.and_eq_true_iff.1 hpure
  have hparts : ∀ e ∈ function :: args, e.isPure = true :=
    List.forall_mem_cons.2 ⟨hf, List.all_eq_true.1 has⟩
  have hinside : ∀ n ∈ function.nodes ++ Expr.nodesAll args, n.IsPlain := by
    intro n hn
    rcases List.mem_append.1 hn with hn | hn
    · exact Expr.isPlain_of_mem hf hn
    · obtain ⟨e, he, hn⟩ := Expr.mem_nodesAll.1 hn
      exact Expr.isPlain_of_mem (hparts e (List.mem_cons_of_mem _ he)) hn
  refine Stmt.isNormal_of_forall_nodes (fun n hn => ?_) ?_ ?_ ?_
  · rw [hnodes, Expr.nodes, List.mem_cons, List.mem_append, List.mem_cons] at hn
    rcases hn with hn | hn | hn | hn
    · exact .inl hn
    · exact .inr (.inl (hfront n hn))
    · exact .inr (.inr ⟨function, args, hn, hs, hparts⟩)
    · exact .inr (.inl (hinside n hn))
  · rintro first second rfl
    simp at hs
  · rintro target source rfl
    simp only [reduceCtorEq, Stmt.move.injEq, false_or] at hs
    exact .inl (hs.imp fun t ht => ht.1)
  · rintro value rfl
    simp at hs

theorem Stmt.isNormal_of_isCanonical (h : s.isCanonical = true) : s.IsNormal := by
  have htemp : ∀ t, ∀ n ∈ [Node.expr (.temp t)], n.IsPlain := by
    intro t n hn
    rw [List.mem_singleton.1 hn]
    exact ⟨nofun, nofun, nofun⟩
  cases s with
  | seq => cases h
  | label l => exact Stmt.isNormal_of_isPlain [] rfl nofun nofun nofun nofun
  | move target source =>
    cases target with
    | temp t =>
      rcases Bool.or_eq_true_iff.1 h with hpure | hcall
      · refine Stmt.isNormal_of_isPlain _ rfl ?_ nofun ?_ nofun
        · intro n hn
          exact (List.mem_append.1 hn).elim (htemp t n) (Expr.isPlain_of_mem hpure)
        · rintro _ _ ⟨⟩
          exact .inl ⟨t, rfl⟩
      · cases source with
        | call => exact Stmt.isNormal_of_isPureCall _ hcall (.inr ⟨t, rfl⟩) rfl (htemp t)
        | _ => cases hcall
    | mem address =>
      obtain ⟨ha, hv⟩ := Bool.and_eq_true_iff.1 h
      have hmem : (Expr.mem address).isPure = true := ha
      refine Stmt.isNormal_of_isPlain _ rfl ?_ nofun ?_ nofun
      · intro n hn
        exact (List.mem_append.1 hn).elim (Expr.isPlain_of_mem hmem) (Expr.isPlain_of_mem hv)
      · rintro _ _ ⟨⟩
        exact .inr ⟨address, rfl⟩
    | _ => cases h
  | eval expr =>
    have hconst : ∀ value, Stmt.eval expr ≠ .eval (.const value) := by
      rintro value ⟨⟩
      cases h
    have hform : expr.isPureOrCall = true := by
      cases expr with
      | const => cases h
      | _ => exact h
    rcases Bool.or_eq_true_iff.1 hform with hpure | hcall
    · exact Stmt.isNormal_of_isPlain _ rfl (fun _ => Expr.isPlain_of_mem hpure) nofun nofun hconst
    · cases expr with
      | call => exact Stmt.isNormal_of_isPureCall [] hcall (.inl rfl) rfl nofun
      | _ => cases hcall
  | branch b =>
    cases b with
    | jump target labels =>
      exact Stmt.isNormal_of_isPlain _ rfl (fun _ => Expr.isPlain_of_mem h) nofun nofun nofun
    | cjump op lhs rhs onTrue onFalse =>
      obtain ⟨hl, hr⟩ := Bool.and_eq_true_iff.1 h
      refine Stmt.isNormal_of_isPlain _ rfl ?_ nofun nofun nofun
      intro n hn
      exact (List.mem_append.1 hn).elim (Expr.isPlain_of_mem hl) (Expr.isPlain_of_mem hr)

theorem Stmt.IsNormal.isPure (h : s.IsNormal) {e : Expr} (hsub : e.nodes ⊆ s.nodes)
    (hcall : ∀ function args, .expr (.call function args) ∉ e.nodes) : e.isPure = true :=
  Expr.isPure_iff.2 ⟨hcall, fun _ _ hn => h.no_eseq _ _ (hsub hn)⟩

/-- What is evaluated is pure, but for a call that is all of it. -/
theorem Stmt.IsNormal.isPureOrCall (h : s.IsNormal) {e : Expr} (hsub : e.nodes ⊆ s.nodes)
    (hwhole : ∀ function args, (s = .eval (.call function args) ∨
      ∃ t, s = .move (.temp t) (.call function args)) → e = .call function args) :
    e.isPureOrCall = true := by
  by_cases hcall : ∃ function args, .expr (.call function args) ∈ e.nodes
  · obtain ⟨function, args, hmem⟩ := hcall
    obtain ⟨hs, hinside⟩ := h.call function args (hsub hmem)
    obtain rfl := hwhole function args hs
    have hparts : ∀ e ∈ function :: args, e.isPure = true := by
      intro e he
      refine h.isPure (fun n hn => hsub ?_) (hinside e he)
      rw [Expr.nodes, List.mem_cons, List.mem_append, Expr.mem_nodesAll]
      rcases List.mem_cons.1 he with rfl | he
      · exact .inr (.inl hn)
      · exact .inr (.inr ⟨e, he, hn⟩)
    rw [List.forall_mem_cons] at hparts
    refine Bool.or_eq_true_iff.2 (.inr (Bool.and_eq_true_iff.2 ⟨hparts.1, ?_⟩))
    exact List.all_eq_true.2 hparts.2
  · refine Bool.or_eq_true_iff.2 (.inl (h.isPure hsub fun function args hmem => ?_))
    exact hcall ⟨function, args, hmem⟩

theorem Stmt.IsNormal.isCanonical (h : s.IsNormal) : s.isCanonical = true := by
  cases s with
  | seq first second => exact absurd List.mem_cons_self (h.no_seq first second)
  | label => rfl
  | move target source =>
    have hsource : source.nodes ⊆ (Stmt.move target source).nodes := fun n hn =>
      List.mem_cons_of_mem _ (List.mem_append_right _ hn)
    have htarget : target.nodes ⊆ (Stmt.move target source).nodes := fun n hn =>
      List.mem_cons_of_mem _ (List.mem_append_left _ hn)
    rcases h.target target source List.mem_cons_self with ⟨t, rfl⟩ | ⟨address, rfl⟩
    · exact h.isPureOrCall hsource fun _ _ hs => by simpa using hs
    · have hcall : ∀ function args,
          .expr (.call function args) ∉ (Stmt.move (.mem address) source).nodes :=
        fun function args hn => by simpa using (h.call function args hn).1
      have hmem : (Expr.mem address).isPure = true :=
        h.isPure htarget fun _ _ hn => hcall _ _ (htarget hn)
      have hvalue := h.isPure hsource fun _ _ hn => hcall _ _ (hsource hn)
      exact Bool.and_eq_true_iff.2 ⟨hmem, hvalue⟩
  | eval expr =>
    have hform : expr.isPureOrCall = true :=
      h.isPureOrCall (fun n hn => List.mem_cons_of_mem _ hn) fun _ _ hs => by simpa using hs
    cases expr with
    | const value => exact absurd rfl (h.no_const value)
    | _ => exact hform
  | branch b =>
    have hcall : ∀ function args, .expr (.call function args) ∉ b.nodes := fun function args hn =>
      by simpa using (h.call function args (List.mem_cons_of_mem _ hn)).1
    have hpure : ∀ e : Expr, e.nodes ⊆ b.nodes → e.isPure = true := fun e hsub =>
      h.isPure (fun n hn => List.mem_cons_of_mem _ (hsub hn)) fun _ _ hn => hcall _ _ (hsub hn)
    cases b with
    | jump target labels => exact hpure target fun _ hn => hn
    | cjump op lhs rhs onTrue onFalse =>
      exact Bool.and_eq_true_iff.2 ⟨hpure lhs fun _ hn => List.mem_append_left _ hn,
        hpure rhs fun _ hn => List.mem_append_right _ hn⟩

/-- **A statement is canonical exactly if it is in normal form.** -/
theorem Stmt.isCanonical_iff_isNormal : s.isCanonical = true ↔ s.IsNormal :=
  ⟨Stmt.isNormal_of_isCanonical, Stmt.IsNormal.isCanonical⟩

end IsNormal

/-! ## The main result -/

/-- **What canonicalization gives is in normal form.** -/
theorem canonicalize_gives_normal_form {stmt : Stmt} {code : List Stmt} {w w' : Workspace}
    (h : (Pipeline.canonicalize stmt).run w = (.ok code, w')) : ∀ s ∈ code, s.IsNormal := by
  rw [Pipeline.canonicalize, Attempt.run_bind_eq_ok_iff] at h
  obtain ⟨stmts, w₁, hfresh, h⟩ := h
  obtain ⟨supply, hcanonical, rfl⟩ := Pass.run_fresh_eq_ok_iff.1 hfresh
  rw [Attempt.run_bind_eq_ok_iff] at h
  obtain ⟨_, w₂, -, hpure⟩ := h
  cases hpure
  obtain ⟨-, -, hlowered⟩ := stmt.yields_canonical hcanonical
  exact fun s hs => Stmt.isCanonical_iff_isNormal.1 (hlowered.canonical s hs)

/-- A store behind a label, with a call inside the address and one that comes up behind a
constant. -/
def surfacedCall : Stmt :=
  .move (.eseq (.label (.named "a")) (.mem (.call (.name (.named "f")) [])))
    (.eseq (.eval (.const 1)) (.call (.name (.named "g")) [.call (.name (.named "f")) []]))

/-- Each call is made before what it gives is used. -/
def surfacedCallCode : List Stmt := [
  .label (.named "a"),
  .move (.temp (.virtual 1)) (.call (.name (.named "f")) []),
  .move (.temp (.virtual 4)) (.temp (.virtual 1)),
  .move (.temp (.virtual 2)) (.call (.name (.named "f")) []),
  .move (.temp (.virtual 3)) (.call (.name (.named "g")) [.temp (.virtual 2)]),
  .move (.mem (.temp (.virtual 4))) (.temp (.virtual 3))]

theorem surfacedCall_gives_normal_form :
    ∃ w', (Pipeline.canonicalize surfacedCall).run { frame := { name := .named "f" } } =
        (.ok surfacedCallCode, w') ∧ ∀ s ∈ surfacedCallCode, s.IsNormal := by
  have hrun : (Pipeline.canonicalize surfacedCall).run { frame := { name := .named "f" } } =
      (.ok surfacedCallCode, _) := rfl
  exact ⟨_, hrun, canonicalize_gives_normal_form hrun⟩

end Lowering
