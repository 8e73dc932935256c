import Lowering.Proofs.Block.Shape

/-!
# Traces are as long as they can be

A jump is left in a schedule only where nothing else could be done: its target stands before it, or
is no block.  So no jump leads to the block right behind it.  A jump comes from a block that ends
with it, or from a comparison neither of whose targets could follow.

## Main definitions

* `BlockGraph.Passed` — labels whose block, if there is one, stands in a list.
* `Placed.JumpSite` — where a jump of a schedule comes from.
* `BlockGraph.TracesOut` — which jumps are left in a list.
* `schedule_leaves_few_jumps` — the main result.
-/

namespace Lowering

/-- If there is a block with the label, it stands in the list. -/
def BlockGraph.Passed (g : BlockGraph) (code : List Stmt) (l : Label) : Prop :=
  l ∈ g.blocks.map (·.label) → ∃ b ∈ g.blocks, b.label = l ∧ b.opening <:+: code

theorem BlockGraph.Passed.append {g : BlockGraph} {code : List Stmt} {l : Label}
    (h : g.Passed code l) (more : List Stmt) : g.Passed (code ++ more) l := by
  intro hl
  obtain ⟨b, hb, hlabel, hstands⟩ := h hl
  exact ⟨b, hb, hlabel, hstands.trans (List.prefix_append ..).isInfix⟩

/-! ## Where jumps stand -/

/-- A jump stands in a placed block, in front of blocks with the given labels: as the branch of the
block, or behind a false label that was put in.  The list is what stands before it in the block. -/
inductive Placed.JumpSite (p : Placed) (later : List Label) (target : Expr) (labels : List Label) :
    List Stmt → Prop where
  | branch (hbranch : p.block.branch = .jump target labels)
      (hleft : ∀ l ∈ later, target ≠ .name l) : JumpSite p later target labels p.block.opening
  | detour (op : RelOp) (lhs rhs : Expr) (onTrue onFalse own : Label)
      (hbranch : p.block.branch = .cjump op lhs rhs onTrue onFalse)
      (htarget : target = .name onFalse) (hlabels : labels = [onFalse])
      (htrue : onTrue ∉ later) (hfalse : onFalse ∉ later) :
      JumpSite p later target labels
        (p.block.opening ++ [.branch (.cjump op lhs rhs onTrue own), .label own])

/-- A jump leads to none of the blocks behind it. -/
theorem Placed.JumpSite.notMem {p : Placed} {later labels : List Label} {l : Label}
    {inside : List Stmt} (h : p.JumpSite later (.name l) labels inside) : l ∉ later := by
  intro hl
  cases h with
  | branch hbranch hleft => exact hleft l hl rfl
  | detour op lhs rhs onTrue onFalse own hbranch htarget hlabels htrue hfalse =>
    cases htarget
    exact hfalse hl

/-- What is no member of the first list is in the second. -/
theorem exists_of_append_eq {α : Type} {xs ys front rest : List α} {x : α}
    (h : xs ++ ys = front ++ x :: rest) (hx : x ∉ xs) :
    ∃ front', front = xs ++ front' ∧ ys = front' ++ x :: rest := by
  rcases List.append_eq_append_iff.1 h with ⟨front', rfl, hys⟩ | ⟨inside, rfl, hrest⟩
  · exact ⟨front', rfl, hys⟩
  · cases inside with
    | nil => exact ⟨[], by simp, hrest.symm⟩
    | cons y inside =>
      obtain ⟨rfl, -⟩ := List.cons.inj hrest
      simp at hx

section

variable {g : BlockGraph} {placed : List Placed} {front rest : List Stmt} {target : Expr}
  {labels : List Label} {lo hi : Nat}

/-- A jump in front of other code is the first statement, or else it is in the other code. -/
theorem exists_of_cons_eq {st : Stmt} {code : List Stmt}
    (h : st :: code = front ++ .branch (.jump target labels) :: rest) :
    st = .branch (.jump target labels) ∧ front = [] ∧ rest = code ∨
      ∃ front', front = st :: front' ∧ code = front' ++ .branch (.jump target labels) :: rest := by
  cases front with
  | nil =>
    obtain ⟨rfl, rfl⟩ := List.cons.inj h
    exact .inl ⟨rfl, rfl, rfl⟩
  | cons _ front =>
    obtain ⟨rfl, hcode⟩ := List.cons.inj h
    exact .inr ⟨front, rfl, hcode⟩

/-- A jump in an ending, or else in the code behind it. -/
theorem Ending.Writes.exists_jumpSite {p : Placed} {later : List Label} {code : List Stmt}
    (hwrites : p.ending.Writes p.block.branch later)
    (h : p.ending.stmts ++ code = front ++ .branch (.jump target labels) :: rest) :
    p.JumpSite later target labels (p.block.opening ++ front) ∧ rest = code ∨
      ∃ front', front = p.ending.stmts ++ front' ∧
        code = front' ++ .branch (.jump target labels) :: rest := by
  generalize hbranch : p.block.branch = branch at hwrites
  generalize p.ending = ending at hwrites h
  cases hwrites with
  | dropped => exact .inr ⟨front, rfl, h⟩
  | jump target' labels' _ hleft =>
    refine (exists_of_cons_eq h).imp_left ?_
    rintro ⟨heq, rfl, rfl⟩
    cases heq
    rw [List.append_nil]
    exact ⟨.branch hbranch hleft, rfl⟩
  | same | negated => exact .inr (exists_of_append_eq h (by simp [Ending.stmts]))
  | detour op lhs rhs onTrue onFalse own _ htrue hfalse =>
    -- Of the three statements only the last is a jump.
    have hsplit : [.branch (.cjump op lhs rhs onTrue own), .label own] ++
        .goto onFalse :: code = front ++ .branch (.jump target labels) :: rest := h
    obtain ⟨front', rfl, hcode⟩ := exists_of_append_eq hsplit (by simp)
    refine (exists_of_cons_eq hcode).imp ?_ ?_
    · rintro ⟨heq, rfl, rfl⟩
      cases heq
      exact ⟨.detour op lhs rhs onTrue onFalse own hbranch rfl rfl htrue hfalse, rfl⟩
    · rintro ⟨front, rfl, rfl⟩
      exact ⟨front, rfl, rfl⟩

/-- **Where a jump of a schedule comes from.** -/
theorem Placed.Chained.exists_jumpSite (h : Placed.Chained placed)
    (hbody : ∀ p ∈ placed, ∀ st ∈ p.block.body, st.isStraight = true)
    (hcode : g.stmtsOf placed = front ++ .branch (.jump target labels) :: rest) :
    ∃ before p later inside, placed = before ++ p :: later ∧
      front = before.flatMap Placed.stmts ++ inside ∧ rest = g.stmtsOf later ∧
      p.JumpSite (Placed.labels later) target labels inside := by
  induction placed generalizing front with
  | nil =>
    rcases exists_of_cons_eq hcode with ⟨heq, -⟩ | ⟨front', -, hnil⟩
    · cases heq
    · simp at hnil
  | cons p placed ih =>
    rw [List.forall_mem_cons] at hbody
    have hopening : Stmt.branch (.jump target labels) ∉ p.block.opening := by
      rw [Block.opening, List.mem_cons, not_or]
      exact ⟨by simp, fun hst => by simpa [Stmt.isStraight] using hbody.1 _ hst⟩
    rw [stmtsOf_cons] at hcode
    obtain ⟨front', rfl, hending⟩ := exists_of_append_eq hcode hopening
    rcases h.1.exists_jumpSite hending with ⟨hsite, rfl⟩ | ⟨front', rfl, hback⟩
    · exact ⟨[], p, placed, _, rfl, rfl, rfl, hsite⟩
    · obtain ⟨before, q, later, inside, rfl, rfl, rfl, hsite⟩ := ih h.2 hbody.2 hback
      refine ⟨p :: before, q, later, inside, rfl, ?_, rfl, hsite⟩
      simp [Placed.stmts]

/-! ## What stands before a jump -/

/-- The label of a block that is not placed behind is passed. -/
theorem BlockGraph.Schedules.passed {before later : List Placed} {p : Placed}
    (hs : g.Schedules lo hi (before ++ p :: later)) {l : Label} (hl : l ∉ Placed.labels later) :
    g.Passed (before.flatMap Placed.stmts ++ p.block.opening) l := by
  intro hblock
  obtain ⟨b, hb, rfl⟩ := List.mem_map.1 hblock
  obtain ⟨q, hq, rfl⟩ := List.mem_map.1 (hs.perm.mem_iff.2 hb)
  refine ⟨q.block, hb, rfl, ?_⟩
  rw [List.mem_append, List.mem_cons] at hq
  rcases hq with hq | rfl | hq
  · obtain ⟨first, last, rfl⟩ := List.append_of_mem hq
    refine ⟨first.flatMap Placed.stmts,
      q.ending.stmts ++ last.flatMap Placed.stmts ++ p.block.opening, ?_⟩
    simp [Placed.stmts]
  · exact (List.suffix_append ..).isInfix
  · exact absurd (List.mem_map_of_mem hq) hl

end

/-! ## The main result -/

/-- The jumps that are left in a list in which the blocks of a graph are placed. -/
structure BlockGraph.TracesOut (g : BlockGraph) (code : List Stmt) : Prop where
  /-- A jump leads to a block that stands before it, or to no block. -/
  passed : ∀ front rest l labels, code = front ++ .branch (.jump (.name l) labels) :: rest →
    g.Passed front l
  /-- A jump leads to the label right behind it only if this is the exit. -/
  exit : ∀ front rest l labels,
    code = front ++ .branch (.jump (.name l) labels) :: .label l :: rest → l = g.exit ∧ rest = []
  /-- A jump is the branch of a block, or it belongs to a comparison both of whose targets stand
  before it or are no blocks. -/
  origin : ∀ front rest target labels, code = front ++ .branch (.jump target labels) :: rest →
    ∃ b ∈ g.blocks, ∃ before,
      b.branch = .jump target labels ∧ front = before ++ b.opening ∨
      ∃ op lhs rhs onTrue onFalse own, b.branch = .cjump op lhs rhs onTrue onFalse ∧
        target = .name onFalse ∧ labels = [onFalse] ∧
        front = before ++ b.opening ++ [.branch (.cjump op lhs rhs onTrue own), .label own] ∧
        g.Passed (before ++ b.opening) onTrue ∧ g.Passed (before ++ b.opening) onFalse

/-- A schedule has no other jumps. -/
theorem BlockGraph.Schedules.tracesOut {g : BlockGraph} {placed : List Placed} {lo hi : Nat}
    (hs : g.Schedules lo hi placed)
    (hbody : ∀ b ∈ g.blocks, ∀ st ∈ b.body, st.isStraight = true) :
    g.TracesOut (g.stmtsOf placed) := by
  have hplaced : ∀ p ∈ placed, ∀ st ∈ p.block.body, st.isStraight = true :=
    fun p hp => hbody p.block (block_mem hs hp)
  constructor
  · intro front rest l labels hcode
    obtain ⟨before, p, later, inside, rfl, rfl, -, hsite⟩ :=
      hs.chained.exists_jumpSite hplaced hcode
    have hpassed := hs.passed hsite.notMem
    cases hsite with
    | branch => exact hpassed
    | detour =>
      rw [← List.append_assoc]
      exact hpassed.append _
  · intro front rest l labels hcode
    obtain ⟨before, p, later, inside, rfl, rfl, hrest, hsite⟩ :=
      hs.chained.exists_jumpSite hplaced hcode
    cases later with
    | nil =>
      cases hrest
      exact ⟨rfl, rfl⟩
    | cons q later =>
      rw [stmtsOf_cons] at hrest
      cases hrest
      exact absurd List.mem_cons_self hsite.notMem
  · intro front rest target labels hcode
    obtain ⟨before, p, later, inside, rfl, rfl, -, hsite⟩ :=
      hs.chained.exists_jumpSite hplaced hcode
    refine ⟨p.block, block_mem hs (by simp), before.flatMap Placed.stmts, ?_⟩
    cases hsite with
    | branch hbranch => exact .inl ⟨hbranch, rfl⟩
    | detour op lhs rhs onTrue onFalse own hbranch htarget hlabels htrue hfalse =>
      exact .inr ⟨op, lhs, rhs, onTrue, onFalse, own, hbranch, htarget, hlabels,
        (List.append_assoc ..).symm, hs.passed htrue, hs.passed hfalse⟩

/-- **Traces are as long as they can be.**  A graph whose blocks have different labels, and bodies
without labels and branches, can be scheduled.  In the schedule a jump is left only if its target
stands before it or is no block; so it is followed by its target only at the exit. -/
theorem schedule_leaves_few_jumps {g : BlockGraph} (hlabels : (g.blocks.map (·.label)).Nodup)
    (hbody : ∀ b ∈ g.blocks, ∀ st ∈ b.body, st.isStraight = true) (w : Workspace) :
    ∃ code w', (Pipeline.schedule g).run w = (.ok code, w') ∧ g.TracesOut code := by
  obtain ⟨placed, hi, w', hrun, hs⟩ := exists_run_schedule hlabels w
  exact ⟨_, w', hrun, hs.tracesOut hbody⟩

/-- A jump that is dropped, a block that compares in vain, and one that goes round in a circle. -/
def circleGraph : BlockGraph where
  blocks :=
    [⟨.named "a", [], .goto (.named "b")⟩,
      ⟨.named "b", [.move (.temp (.virtual 1)) (.const 1)],
        .cjump .lt (.temp (.virtual 1)) (.const 0) (.named "a") (.named "b")⟩,
      ⟨.named "c", [], .goto (.named "c")⟩]
  exit := .named "exit"

theorem circleGraph_leaves_few_jumps :
    (circleGraph.blocks.map (·.label)).Nodup ∧
      ∃ code w', (Pipeline.schedule circleGraph).run { frame := { name := .named "f" } } =
        (.ok code, w') ∧ circleGraph.TracesOut code := by
  have hlabels : (circleGraph.blocks.map (·.label)).Nodup := by decide
  exact ⟨hlabels, schedule_leaves_few_jumps hlabels (by simp [circleGraph, Stmt.isStraight]) _⟩

end Lowering
