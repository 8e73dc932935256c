import Lowering.Proofs.Pipeline

/-!
# The shape of a schedule

A graph can be scheduled exactly if its blocks have different labels.  In the list each block
stands in one piece, behind the one definition of its label; the list starts with the first block
and ends with the exit; and behind every comparison stands its false label.

## Main definitions

* `FallsThrough` — every comparison of a list is followed by its false label.
* `BlockGraph.LaysOut` — the shape of a list in which the blocks of a graph are placed.
* `schedule_lays_out_blocks` — the main result.
-/

namespace Lowering

/-! ## Comparisons and their false labels -/

/-- Every comparison of a list is followed by its false label. -/
def FallsThrough (code : List Stmt) : Prop :=
  ∀ front back op lhs rhs onTrue onFalse,
    code = front ++ .branch (.cjump op lhs rhs onTrue onFalse) :: back →
      back.head? = some (.label onFalse)

section FallsThrough

variable {code rest : List Stmt} {op : RelOp} {lhs rhs : Expr} {onTrue onFalse : Label}

theorem fallsThrough_nil : FallsThrough [] := by
  intro front back op lhs rhs onTrue onFalse h
  simp at h

theorem FallsThrough.cons {st : Stmt} (h : FallsThrough rest)
    (hst : ∀ op lhs rhs onTrue onFalse, st = .branch (.cjump op lhs rhs onTrue onFalse) →
      rest.head? = some (.label onFalse)) : FallsThrough (st :: rest) := by
  intro front back op lhs rhs onTrue onFalse hsplit
  cases front with
  | nil =>
    obtain ⟨rfl, rfl⟩ := List.cons.inj hsplit
    exact hst op lhs rhs onTrue onFalse rfl
  | cons _ front => exact h front back op lhs rhs onTrue onFalse (List.cons.inj hsplit).2

theorem FallsThrough.compare (h : FallsThrough rest) (hnext : rest.head? = some (.label onFalse)) :
    FallsThrough (.branch (.cjump op lhs rhs onTrue onFalse) :: rest) := by
  refine h.cons ?_
  rintro _ _ _ _ _ ⟨⟩
  exact hnext

theorem FallsThrough.append_straight (h : FallsThrough rest)
    (hcode : ∀ st ∈ code, st.isStraight = true) : FallsThrough (code ++ rest) := by
  induction code with
  | nil => exact h
  | cons st code ih =>
    rw [List.forall_mem_cons] at hcode
    refine (ih hcode.2).cons ?_
    rintro op lhs rhs onTrue onFalse rfl
    cases hcode.1

end FallsThrough

/-! ## Placed blocks -/

section Placed

variable {g : BlockGraph} {placed front back : List Placed} {p : Placed}

theorem stmtsOf_cons : g.stmtsOf (p :: back) =
    p.block.opening ++ (p.ending.stmts ++ g.stmtsOf back) := by
  simp [BlockGraph.stmtsOf, Placed.stmts]

theorem stmtsOf_append : g.stmtsOf (front ++ back) =
    front.flatMap Placed.stmts ++ g.stmtsOf back := by
  simp [BlockGraph.stmtsOf]

theorem head?_stmtsOf : (g.stmtsOf placed).head? =
    some (.label ((Placed.labels placed).head?.getD g.exit)) := by
  cases placed with
  | nil => rfl
  | cons p back =>
    rw [stmtsOf_cons]
    rfl

/-- In front of the block that comes next, an ending has its false label behind it. -/
theorem Ending.Writes.fallsThrough {b : Branch} {later : List Label} {ending : Ending}
    {rest : List Stmt} (h : ending.Writes b later) (hrest : FallsThrough rest)
    (hnext : ∀ l, later.head? = some l → rest.head? = some (.label l)) :
    FallsThrough (ending.stmts ++ rest) := by
  cases h with
  | dropped => exact hrest
  | jump => exact hrest.cons nofun
  | same => exact hrest.compare (hnext _ rfl)
  | negated => exact hrest.compare (hnext _ rfl)
  | detour op lhs rhs onTrue onFalse own =>
    have hgoto : FallsThrough (.goto onFalse :: rest) := hrest.cons nofun
    have hown : FallsThrough (.label own :: .goto onFalse :: rest) := hgoto.cons nofun
    exact hown.compare rfl

theorem Placed.Chained.fallsThrough (h : Chained placed)
    (hbody : ∀ p ∈ placed, ∀ st ∈ p.block.body, st.isStraight = true) :
    FallsThrough (g.stmtsOf placed) := by
  induction placed with
  | nil => exact fallsThrough_nil.cons nofun
  | cons p back ih =>
    rw [List.forall_mem_cons] at hbody
    rw [stmtsOf_cons]
    have hending : FallsThrough (p.ending.stmts ++ g.stmtsOf back) := by
      refine h.1.fallsThrough (ih h.2 hbody.2) fun l hl => ?_
      rw [head?_stmtsOf, hl]
      rfl
    exact (hending.append_straight hbody.1).cons nofun

/-- What follows the body of a block is no part of a body. -/
theorem exists_head?_ending (g : BlockGraph) (ending : Ending) (back : List Placed) :
    ∃ st, st.isStraight = false ∧ (ending.stmts ++ g.stmtsOf back).head? = some st := by
  cases ending with
  | dropped => exact ⟨_, rfl, head?_stmtsOf⟩
  | branch => exact ⟨_, rfl, rfl⟩
  | detour => exact ⟨_, rfl, rfl⟩

end Placed

/-! ## The main result -/

/-- The shape of a list in which the blocks of a graph are placed. -/
structure BlockGraph.LaysOut (g : BlockGraph) (code : List Stmt) : Prop where
  /-- The label of a block is defined once. -/
  once : ∀ b ∈ g.blocks, (code.filterMap Stmt.label?).count b.label = 1
  /-- The label of a block is followed by its body and nothing else that is part of a body. -/
  whole : ∀ b ∈ g.blocks, ∃ front back st, code = front ++ .label b.label :: b.body ++ st :: back ∧
    st.isStraight = false
  nodup : (code.filterMap Stmt.label?).Nodup
  first : ∀ b, g.blocks.head? = some b → code.head? = some (.label b.label)
  exit_once : (code.filterMap Stmt.label?).count g.exit = 1
  last : code.getLast? = some (.label g.exit)
  fallsThrough : FallsThrough code

/-- A schedule has this shape. -/
theorem BlockGraph.Schedules.laysOut {g : BlockGraph} {placed : List Placed} {lo hi : Nat}
    (hs : g.Schedules lo hi placed) (hg : g.WellFormed lo) : g.LaysOut (g.stmtsOf placed) where
  once b hb := by
    refine List.count_eq_one_of_mem (nodup_stmtsOf hs hg) ?_
    rw [(filterMap_label?_stmtsOf hs hg).mem_iff]
    exact List.mem_append_left _ (List.mem_append_left _ (List.mem_map_of_mem hb))
  whole b hb := by
    obtain ⟨p, hp, rfl⟩ := List.mem_map.1 (hs.perm.mem_iff.2 hb)
    obtain ⟨front, back, rfl⟩ := List.append_of_mem hp
    obtain ⟨st, hst, hhead⟩ := exists_head?_ending g p.ending back
    obtain ⟨rest, hrest⟩ := List.head?_eq_some_iff.1 hhead
    refine ⟨front.flatMap Placed.stmts, rest, st, ?_, hst⟩
    rw [stmtsOf_append, stmtsOf_cons, hrest, List.append_assoc]
    rfl
  nodup := nodup_stmtsOf hs hg
  first b hb := by
    rw [← hs.first] at hb
    obtain ⟨p, hp, rfl⟩ := Option.map_eq_some_iff.1 hb
    rw [head?_stmtsOf, Placed.labels, List.head?_map, hp]
    rfl
  exit_once := by
    refine List.count_eq_one_of_mem (nodup_stmtsOf hs hg) ?_
    rw [(filterMap_label?_stmtsOf hs hg).mem_iff]
    exact List.mem_append_right _ List.mem_cons_self
  last := List.getLast?_concat
  fallsThrough := hs.chained.fallsThrough fun p hp => hg.body p.block (block_mem hs hp)

/-- A graph whose blocks have different labels can be scheduled. -/
theorem exists_run_schedule {g : BlockGraph} (h : (g.blocks.map (·.label)).Nodup) (w : Workspace) :
    ∃ placed hi w', (Pipeline.schedule g).run w = (.ok (g.stmtsOf placed), w') ∧
      g.Schedules w.supply.labels hi placed := by
  obtain ⟨placed, s, hrun, hs⟩ := g.exists_schedule h w.supply
  obtain ⟨w', hrun', -, -⟩ : ∃ w', (Pipeline.schedule g).run w =
      (.ok (g.stmtsOf placed), w') ∧ w.Continues w' ∧ w'.supply = s :=
    exists_run_fresh_bind hrun ((tells_notePlaced placed).bind (tells_pure _))
  exact ⟨placed, s.labels, w', hrun', hs⟩

/-- A graph in which a label is repeated is refused. -/
theorem exists_run_schedule_error {g : BlockGraph} (h : ¬(g.blocks.map (·.label)).Nodup)
    (w : Workspace) : ∃ l, 1 < (g.blocks.map (·.label)).count l ∧
      (Pipeline.schedule g).run w = (.error (.duplicateBlock l), w) := by
  obtain ⟨l, hl, hrun⟩ := BlockGraph.run_schedule_of_not_nodup h w.supply
  exact ⟨l, hl, Pass.run_fresh_bind_error _ hrun⟩

/-- **Schedules have their shape.**  A graph can be scheduled exactly if its blocks have different
labels; otherwise the fault names a label that is repeated.  The schedule of a well-formed graph
lays out its blocks. -/
theorem schedule_lays_out_blocks (g : BlockGraph) (w : Workspace) :
    ((∃ code w', (Pipeline.schedule g).run w = (.ok code, w')) ↔
      (g.blocks.map (·.label)).Nodup) ∧
    (∀ fault w', (Pipeline.schedule g).run w = (.error fault, w') →
      ∃ l, fault = .duplicateBlock l ∧ 1 < (g.blocks.map (·.label)).count l) ∧
    ∀ code w', (Pipeline.schedule g).run w = (.ok code, w') → g.WellFormed w.supply.labels →
      g.LaysOut code := by
  by_cases h : (g.blocks.map (·.label)).Nodup
  · obtain ⟨placed, hi, w₁, hrun, hs⟩ := exists_run_schedule h w
    refine ⟨iff_of_true ⟨_, _, hrun⟩ h, ?_, ?_⟩
    · intro fault w' hfault
      rw [hrun] at hfault
      cases hfault
    · intro code w' hcode hg
      rw [hrun] at hcode
      cases hcode
      exact hs.laysOut hg
  · obtain ⟨l, hl, hrun⟩ := exists_run_schedule_error h w
    refine ⟨iff_of_false ?_ h, ?_, ?_⟩
    · rintro ⟨code, w', hcode⟩
      rw [hrun] at hcode
      cases hcode
    · intro fault w' hfault
      rw [hrun] at hfault
      cases hfault
      exact ⟨l, rfl, hl⟩
    · intro code w' hcode
      rw [hrun] at hcode
      cases hcode

theorem loopGraph_lays_out_blocks :
    ∃ code w', (Pipeline.schedule loopGraph).run
        { supply := ⟨1, 1⟩, frame := { name := .named "f" } } = (.ok code, w') ∧
      loopGraph.LaysOut code := by
  obtain ⟨hok, -, hshape⟩ := schedule_lays_out_blocks loopGraph
    { supply := ⟨1, 1⟩, frame := { name := .named "f" } }
  obtain ⟨code, w', hrun⟩ := hok.2 (by decide)
  refine ⟨code, w', hrun, hshape code w' hrun ⟨by decide, by decide, ?_, ?_⟩⟩
  · simp [loopGraph, Stmt.isStraight]
  · simp [loopGraph, BlockGraph.labels, Branch.targets]

end Lowering
