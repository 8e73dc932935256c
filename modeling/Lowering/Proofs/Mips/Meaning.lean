import Lowering.Proofs.Mips.Compute

/-!
# Selection preserves meaning

The instructions that are selected for a canonical statement do what the statement does.  They
leave the same memory, make the same call, and go to the same label; and temporaries hold the same,
but for those that were drawn on the way and the registers that a call may overwrite.

## Main definitions

* `Stmt.MindsRegisters` — what is asked of a statement.
* `Stmt.MayDiffer` — the temporaries that may hold something else.
* `Stmt.yields_select` — the instructions of a statement.
* `select_preserves_meaning` — the main result.
-/

namespace Lowering

open Mips

/-! ## Statements -/

/-- Registers that hold something else behind a statement because of its call.  A register into
which the result is moved is none of them. -/
def Stmt.clobbers : Stmt → Temp → Prop
  | .eval (.call ..), x => x ∈ callDefs
  | .move (.temp dst) (.call ..), x => x ∈ callDefs ∧ x ≠ dst
  | _, _ => False

/-- The temporaries that the call of a statement mentions. -/
def Stmt.callTemps : Stmt → List Temp
  | .eval (.call function args) | .move _ (.call function args) =>
    (Expr.call function args).temps
  | _ => []

/-- Both end, and go to the same label in states that agree, or none of them ends. -/
def SameEnd (hidden : Temp → Prop) (x y : Option (Option Label × TreeState)) : Prop :=
  Option.Rel (fun a b => a.1 = b.1 ∧ a.2.Agrees hidden b.2) x y

section Statements

variable {O : Outside} {s t : TreeState} {hidden : Temp → Prop}

theorem sameEnd_some {next : Option Label} (h : s.Agrees hidden t) :
    SameEnd hidden (some (next, s)) (some (next, t)) :=
  .some ⟨rfl, h⟩

/-- A temporary that is written in both states need not be hidden any more. -/
theorem TreeState.Agrees.setTemp_self (h : s.Agrees hidden t) (x : Temp) (v : Word) :
    (s.setTemp x v).Agrees (fun y => hidden y ∧ y ≠ x) (t.setTemp x v) := by
  refine ⟨fun y hy => ?_, h.memory, h.calls⟩
  by_cases hyx : y = x
  · subst hyx
    simp [TreeState.setTemp]
  · simpa [TreeState.setTemp, hyx] using h.temps y fun hidden => hy ⟨hidden, hyx⟩

/-- A statement that mentions temporaries only that were drawn before, does not write the register
that always holds zero, and has no call that mentions registers of arguments. -/
structure Stmt.MindsRegisters (n : Nat) (stmt : Stmt) : Prop where
  temps : ∀ t ∈ stmt.temps, t.Within n
  target : ∀ source, stmt ≠ .move (.temp zero) source
  call : ∀ t ∈ stmt.callTemps, t ∉ argumentRegisters

theorem Stmt.MindsRegisters.ne_zero {n : Nat} {dst : Temp} {source : Expr}
    (h : (Stmt.move (.temp dst) source).MindsRegisters n) : dst ≠ zero := by
  rintro rfl
  exact h.target source rfl

/-- What may differ behind a statement and its instructions: temporaries that were drawn, and
registers that a call overwrites. -/
def Stmt.MayDiffer (stmt : Stmt) (lo hi : Nat) (x : Temp) : Prop := x.Drawn lo hi ∨ stmt.clobbers x

/-- Instructions do what a statement does. -/
def Stmt.DoneBy (O : Outside) (stmt : Stmt) (lo hi : Nat) (code : List Instr) : Prop :=
  stmt.MindsRegisters lo → ∀ s, s.temps zero = 0 →
    SameEnd (stmt.MayDiffer lo hi) (stmt.outcome O.world s) (exec O code s)

/-- A pure value is moved into a temporary. -/
theorem Stmt.yields_copy (O : Outside) (dst : Temp) {source : Expr}
    (hpure : source.isPure = true) :
    Pass.Yields (do
      let (code, src) ← source.cover.select
      let last ← emit (copy dst src)
      pure (code ++ last)) ((Stmt.move (.temp dst) source).DoneBy O) := by
  refine .bind (Expr.yields_select O hpure) ?_
  rintro ⟨code, x⟩
  refine .bind (.emit _) fun last => .pure ?_
  rintro hi _ - ⟨rfl, rfl⟩ lo - hsource hstmt s hzero
  have htemps : ∀ t ∈ source.temps, t.Within lo := fun t ht =>
    hstmt.temps t (List.mem_append_right _ ht)
  obtain ⟨s₁, hrun, hx, hagrees⟩ := (hsource htemps hzero).run
  have houtcome : (Stmt.move (.temp dst) source).outcome O.world s =
      some (none, s.setTemp dst (source.value O.world s)) := by
    cases source with
    | call => cases hpure
    | _ => rfl
  rw [houtcome, exec_append hrun, exec_singleton, Instr.perform_copy, hx, TreeState.write,
    if_neg hstmt.ne_zero]
  exact sameEnd_some ((hagrees.setTemp dst _).mono fun _ => .inl)

/-- The result of a call is moved into a temporary. -/
theorem Stmt.yields_copy_call (O : Outside) (dst : Temp) {function : Expr} {args : List Expr}
    (h : (Expr.call function args).isPureCall = true) :
    Pass.Yields (do
      let (code, src) ← (Expr.call function args).cover.select
      let last ← emit (copy dst src)
      pure (code ++ last)) ((Stmt.move (.temp dst) (.call function args)).DoneBy O) := by
  refine .bind (Expr.yields_call O h) ?_
  rintro ⟨code, x⟩
  refine .bind (.emit _) fun last => .pure ?_
  rintro hi _ - ⟨rfl, rfl⟩ lo - hcall hstmt s hzero
  have htemps : ∀ t ∈ (Expr.call function args).temps, t.Within lo ∧ t ∉ argumentRegisters :=
    fun t ht => ⟨hstmt.temps t (List.mem_append_right _ ht), hstmt.call t ht⟩
  obtain ⟨rfl, s₁, hrun, hv, hagrees⟩ := hcall htemps hzero
  rw [exec_append hrun, exec_singleton, Instr.perform_copy, hv, TreeState.write,
    if_neg hstmt.ne_zero]
  refine sameEnd_some ((hagrees.setTemp_self dst _).mono ?_)
  rintro x ⟨hdrawn | hmem, hne⟩
  · exact .inl hdrawn
  · exact .inr ⟨hmem, hne⟩

/-- A pure value is stored. -/
theorem Stmt.yields_store (O : Outside) {address source : Expr} (ha : address.isPure = true)
    (hv : source.isPure = true) :
    Pass.Yields (Stmt.selectMove (.mem address) source)
      ((Stmt.move (.mem address) source).DoneBy O) := by
  refine .bind (address.cover.address.1.yields_select O) ?_
  rintro ⟨first, x⟩
  refine .bind (source.cover.yields_select O) ?_
  rintro ⟨second, y⟩
  refine .bind (.emit _) fun last => .pure ?_
  rintro hi _ - ⟨rfl, rfl⟩ mid hmid hsource lo hlo hbase hstmt s hzero
  have haddress : ∀ t ∈ address.cover.address.1.temps, t.Within lo := by
    rw [Tile.temps_address]
    exact Expr.forall_temps_cover ha trivial fun t ht =>
      hstmt.temps t (List.mem_append_left _ ht)
  have htemps : ∀ t ∈ source.cover.temps, t.Within lo :=
    Expr.forall_temps_cover hv trivial fun t ht => hstmt.temps t (List.mem_append_right _ ht)
  obtain ⟨b, hb, hvalue⟩ := (Expr.gives_cover hzero ha : address.cover.Gives O s _).address
  obtain ⟨s₂, hrun, hx, hy, hagrees⟩ :=
    hbase.pair hsource hlo hmid haddress htemps hb (Expr.gives_cover hzero hv)
  show SameEnd _ _ (exec O (first ++ second ++
    [.oper (Operation.store address.cover.address.2).template [] [x, y] none]) s)
  rw [exec_append hrun, exec_singleton, Instr.perform_oper, Operation.perform, hx, hy, ← hvalue]
  exact sameEnd_some ((hagrees.setMemory _ _).mono fun _ => .inl)

theorem Stmt.yields_selectMove (O : Outside) {target source : Expr}
    (h : (Stmt.move target source).isCanonical = true) :
    Pass.Yields (Stmt.selectMove target source) ((Stmt.move target source).DoneBy O) := by
  cases target with
  | temp dst =>
    rcases Bool.or_eq_true_iff.1 h with hpure | hcall
    · cases source with
      | const value =>
        refine (Pass.Yields.emit _).imp ?_
        rintro lo _ _ - ⟨rfl, rfl⟩ hstmt s hzero
        have hperform : (loadConst dst value).perform O s = some (none, s.write dst value) :=
          Instr.perform_oper (.loadConst value) _ _ _
        rw [exec_singleton, hperform, TreeState.write, if_neg hstmt.ne_zero]
        exact sameEnd_some (.refl _)
      | _ => exact Stmt.yields_copy O dst hpure
    · cases source with
      | call => exact Stmt.yields_copy_call O dst hcall
      | _ => cases hcall
  | mem address =>
    obtain ⟨ha, hv⟩ := Bool.and_eq_true_iff.1 h
    exact Stmt.yields_store O ha hv
  | _ => cases h

theorem Stmt.yields_eval (O : Outside) {expr : Expr} (h : expr.isPureOrCall = true) :
    Pass.Yields (Stmt.eval expr).select ((Stmt.eval expr).DoneBy O) := by
  rcases Bool.or_eq_true_iff.1 h with hpure | hcall
  · refine .bind (Expr.yields_select O hpure) ?_
    rintro ⟨code, -⟩
    refine .pure ?_
    rintro hi lo - hexpr hstmt s hzero
    obtain ⟨s₁, hrun, -, hagrees⟩ := (hexpr hstmt.temps hzero).run
    have houtcome : (Stmt.eval expr).outcome O.world s = some (none, s) := by
      cases expr with
      | call => cases hpure
      | _ => rfl
    rw [houtcome, hrun]
    exact sameEnd_some (hagrees.mono fun _ => .inl)
  · cases expr with
    | call function args =>
      refine .bind (Expr.yields_call O hcall) ?_
      rintro ⟨code, x⟩
      refine .pure ?_
      rintro hi lo - hexpr hstmt s hzero
      obtain ⟨-, s₁, hrun, -, hagrees⟩ :=
        hexpr (fun t ht => ⟨hstmt.temps t ht, hstmt.call t ht⟩) hzero
      rw [hrun]
      exact sameEnd_some hagrees
    | _ => cases hcall

/-- A target that is no label is computed first. -/
theorem Stmt.yields_jumpAt (O : Outside) {target : Expr} (labels : List Label)
    (hpure : target.isPure = true)
    (houtcome : ∀ s, (Stmt.branch (.jump target labels)).outcome O.world s =
      (O.labelAt (target.value O.world s) labels).map fun l => (some l, s)) :
    Pass.Yields (do
      let (code, address) ← target.cover.select
      let last ← emit (.jumping "jr 's0" [address] labels)
      pure (code ++ last)) ((Stmt.branch (.jump target labels)).DoneBy O) := by
  refine .bind (Expr.yields_select O hpure) ?_
  rintro ⟨code, x⟩
  refine .bind (.emit _) fun last => .pure ?_
  rintro hi _ - ⟨rfl, rfl⟩ lo - htarget hstmt s hzero
  obtain ⟨s₁, hrun, hx, hagrees⟩ := (htarget hstmt.temps hzero).run
  have hperform : (Instr.jumping "jr 's0" [x] labels).perform O s₁ =
      (O.labelAt (s₁.temps x) labels).map fun l => (some l, s₁) :=
    Instr.perform_oper .jumpAt _ _ _
  rw [houtcome, exec_append hrun, exec_singleton, hperform, hx]
  cases O.labelAt (target.value O.world s) labels with
  | none => exact .none
  | some l => exact sameEnd_some (hagrees.mono fun _ => .inl)

theorem Stmt.yields_branch (O : Outside) {b : Branch} (h : b.isPure = true) :
    Pass.Yields b.select ((Stmt.branch b).DoneBy O) := by
  cases b with
  | jump target labels =>
    cases target with
    | name l =>
      refine (Pass.Yields.emit _).imp ?_
      rintro lo _ _ - ⟨rfl, rfl⟩ hstmt s hzero
      have hperform : (Instr.jumping "j 'j0" [] [l]).perform O s = some (some l, s) :=
        Instr.perform_oper .jump _ _ _
      rw [exec_singleton, hperform]
      exact sameEnd_some (.refl s)
    | _ => exact Stmt.yields_jumpAt O labels h fun _ => rfl
  | cjump op lhs rhs onTrue onFalse =>
    obtain ⟨hl, hr⟩ := Bool.and_eq_true_iff.1 h
    refine .bind (lhs.cover.yields_select O) ?_
    rintro ⟨first, x⟩
    refine .bind (rhs.cover.yields_select O) ?_
    rintro ⟨second, y⟩
    refine .bind (.emit _) fun last => .pure ?_
    rintro hi _ - ⟨rfl, rfl⟩ mid hmid hrhs lo hlo hlhs hstmt s hzero
    have htemps : ∀ t ∈ lhs.cover.temps, t.Within lo :=
      Expr.forall_temps_cover hl trivial fun t ht => hstmt.temps t (List.mem_append_left _ ht)
    have htemps' : ∀ t ∈ rhs.cover.temps, t.Within lo :=
      Expr.forall_temps_cover hr trivial fun t ht => hstmt.temps t (List.mem_append_right _ ht)
    obtain ⟨s₂, hrun, hx, hy, hagrees⟩ := hlhs.pair hrhs hlo hmid htemps htemps'
      (Expr.gives_cover hzero hl) (Expr.gives_cover hzero hr)
    show SameEnd _ _ (exec O (first ++ second ++
      [.oper (Operation.branch op).template [] [x, y] (some [onTrue, onFalse])]) s)
    rw [exec_append hrun, exec_singleton, Instr.perform_oper, Operation.perform, hx, hy]
    exact sameEnd_some (hagrees.mono fun _ => .inl)

/-- **The instructions of a canonical statement do what it does.** -/
theorem Stmt.yields_select (O : Outside) {stmt : Stmt}
    (h : stmt.isCanonical = true ∨ stmt.isNop = true) :
    Pass.Yields stmt.select (stmt.DoneBy O) := by
  cases stmt with
  | seq => simp [Stmt.isCanonical, Stmt.isNop] at h
  | label l =>
    refine (Pass.Yields.emit _).imp ?_
    rintro lo _ _ - ⟨rfl, rfl⟩ - s -
    exact sameEnd_some (.refl s)
  | move target source => exact Stmt.yields_selectMove O (h.resolve_right Bool.false_ne_true)
  | eval expr =>
    refine Stmt.yields_eval O ?_
    cases expr with
    | const => rfl
    | _ => exact h.resolve_right Bool.false_ne_true
  | branch b => exact Stmt.yields_branch O (h.resolve_right Bool.false_ne_true)

end Statements

/-! ## The main result -/

/-- **Selection preserves meaning.**  Let a canonical statement, or one that does nothing, mention
temporaries only that were drawn before, not write the register that always holds zero, and mention
no registers of arguments in its call.  If it has instructions, then from every state in which that
register holds zero they end exactly if the statement does, and they go to the same label or fall
through as it does.  They leave the same memory, the same calls, and the same values in all
temporaries but those that were drawn and, if there is a call, the registers that a call may
overwrite and that are not the target of the statement. -/
theorem select_preserves_meaning {stmt : Stmt} {code : List Instr} {w w' : Workspace}
    (hform : stmt.isCanonical = true ∨ stmt.isNop = true)
    (hstmt : stmt.MindsRegisters w.supply.temps) (h : stmt.select.run w = (.ok code, w'))
    (O : Outside) {s : TreeState} (hzero : s.temps zero = 0) (next : Option Label) :
    ((∃ s', stmt.steps O.world s next s') ↔ ∃ t', exec O code s = some (next, t')) ∧
      ∀ s' t', stmt.steps O.world s next s' → exec O code s = some (next, t') →
        s'.Agrees (stmt.MayDiffer w.supply.temps w'.supply.temps) t' := by
  have hsame := (Stmt.yields_select O hform h).2 hstmt s hzero
  simp only [Stmt.steps_iff_outcome hform]
  generalize stmt.outcome O.world s = x at hsame
  generalize exec O code s = y at hsame
  cases hsame with
  | none => simp
  | @some a b hab =>
    obtain ⟨next', s₁⟩ := a
    obtain ⟨next'', t₁⟩ := b
    obtain ⟨rfl, hagrees⟩ : next' = next'' ∧ _ := hab
    refine ⟨⟨?_, ?_⟩, ?_⟩
    · rintro ⟨_, heq⟩
      cases heq
      exact ⟨t₁, rfl⟩
    · rintro ⟨_, heq⟩
      cases heq
      exact ⟨s₁, rfl⟩
    · intro s' t' hs' ht'
      cases hs'
      cases ht'
      exact hagrees

/-- A call through a temporary, whose arguments are a load from below an address and zero. -/
def callThrough : Stmt :=
  .move (.temp v0) (.call (.temp (.virtual 2))
    [.mem (.binop .minus (.temp (.virtual 1)) (.const 4)), .const 0])

/-- The offset is folded into the load, and zero is in its register. -/
def callThroughCode : List Instr := [
  .op "lw 'd0, -4('s0)" [.virtual 3] [.virtual 1],
  copy (.register "a0") (.virtual 3),
  copy (.register "a1") zero,
  .op "jalr 's0" callDefs [.virtual 2, .register "a0", .register "a1"],
  copy v0 v0]

/-- Calls give their first argument and store it, and leave nothing in other registers. -/
def echoing : Outside where
  symbol _ := 0
  labelAt _ labels := labels.head?
  labelAt_mem := List.mem_of_head?
  call _ args memory := (args.headD 0, Function.update memory 0 (args.headD 0))
  leftover _ _ _ := 0

theorem callThrough_preserves_meaning :
    ((callThrough.isCanonical = true ∨ callThrough.isNop = true) ∧ callThrough.MindsRegisters 2) ∧
    ∃ w', callThrough.select.run { supply := ⟨2, 0⟩, frame := { name := .named "f" } } =
        (.ok callThroughCode, w') ∧
      ((∃ s', callThrough.steps echoing.world ⟨fun _ => 0, id, []⟩ none s') ↔
        ∃ t', exec echoing callThroughCode ⟨fun _ => 0, id, []⟩ = some (none, t')) ∧
      ∀ s' t', callThrough.steps echoing.world ⟨fun _ => 0, id, []⟩ none s' →
        exec echoing callThroughCode ⟨fun _ => 0, id, []⟩ = some (none, t') →
        s'.Agrees (callThrough.MayDiffer 2 w'.supply.temps) t' := by
  have hform : callThrough.isCanonical = true ∨ callThrough.isNop = true := .inl rfl
  have hstmt : callThrough.MindsRegisters 2 := by
    refine ⟨?_, ?_, by decide⟩
    · simp [callThrough, Stmt.temps, Expr.temps, Expr.tempsAll, v0]
    · simp [callThrough, v0, zero]
  have hrun : callThrough.select.run { supply := ⟨2, 0⟩, frame := { name := .named "f" } } =
      (.ok callThroughCode, _) := rfl
  exact ⟨⟨hform, hstmt⟩, _, hrun, select_preserves_meaning hform hstmt hrun echoing rfl none⟩

end Lowering
