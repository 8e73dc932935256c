import Lowering.Proofs.Block.Placement
import Lowering.Proofs.Machine
import Lowering.Proofs.Tree.Scope
import Mathlib.Data.List.Perm.Basic

/-!
# Scheduling preserves meaning

A graph is run block by block: the statements of a block are run in order, and its branch
names the next block.  A list is run statement by statement; a branch goes on at a label.
What statements do, and what expressions are worth, is left open.

A watcher sees the labels of the blocks and the statements of their bodies, each with the
state in which it is come to.  To such a watcher a graph and its schedule are the same,
though jumps are dropped in the schedule, comparisons are negated, and labels are added.

## Main definitions

* `Interpretation` — what statements do and what expressions are worth.
* `BlockGraph.machine`, `listing` — running a graph and running a list.
* `schedule_preserves_meaning` — the main result.
-/

namespace Lowering

/-- What tree code means over states in `S`. -/
structure Interpretation (S : Type) where
  /-- What a statement does. -/
  act : Stmt → S → S
  /-- What an expression is worth. -/
  value : Expr → S → Word
  /-- Which of some labels has an address. -/
  labelAt : Word → List Label → Option Label
  labelAt_mem : ∀ {address labels l}, labelAt address labels = some l → l ∈ labels

/-- Something that a watcher sees, and the state in which it is come to. -/
inductive Visit (S : Type) where
  | block (label : Label) (s : S)
  | stmt (stmt : Stmt) (s : S)

variable {S : Type} {I : Interpretation S}

namespace Interpretation

/-- What a watcher sees of statements that are run in order. -/
def visits (I : Interpretation S) : List Stmt → S → List (Visit S)
  | [], _ => []
  | st :: rest, s => .stmt st s :: I.visits rest (I.act st s)

/-- The state behind statements that are run in order. -/
def after (I : Interpretation S) (body : List Stmt) (s : S) : S :=
  body.foldl (fun s st => I.act st s) s

end Interpretation

/-- The label at which a branch goes on. -/
def Branch.goal (I : Interpretation S) : Branch → S → Option Label
  | .jump (.name l) _, _ => some l
  | .jump target labels, s => I.labelAt (I.value target s) labels
  | .cjump op lhs rhs onTrue onFalse, s =>
    some (if op.holds (I.value lhs s) (I.value rhs s) then onTrue else onFalse)

/-- The labels that a branch names. -/
def Branch.targets : Branch → List Label
  | .jump (.name l) labels => l :: labels
  | .jump _ labels => labels
  | .cjump _ _ _ onTrue onFalse => [onTrue, onFalse]

theorem Branch.goal_mem_targets {b : Branch} {s : S} {l : Label} (h : b.goal I s = some l) :
    l ∈ b.targets := by
  cases b with
  | jump target labels =>
    cases target with
    | name l' =>
      cases h
      exact List.mem_cons_self
    | _ => exact I.labelAt_mem h
  | cjump op lhs rhs onTrue onFalse =>
    rw [← Option.some.inj h, targets]
    split <;> simp

namespace BlockGraph

/-- The block with a label. -/
def find? (g : BlockGraph) (l : Label) : Option Block := g.blocks.find? (·.label = l)

/-- Where a run of the graph starts: at its first block, if there is one. -/
def entry (g : BlockGraph) : Label := (g.blocks.head?.map (·.label)).getD g.exit

/-- Running a graph.  It is done at the exit label, and it is stuck at any other label
without a block. -/
def machine (I : Interpretation S) (g : BlockGraph) :
    Machine (Option Label × S) (Visit S) (Bool × S) where
  step
    | (none, _) => none
    | (some l, s) =>
      if l = g.exit then none
      else (g.find? l).map fun b =>
        (.block l s :: I.visits b.body s, (b.branch.goal I (I.after b.body s), I.after b.body s))
  result c := (c.1 = some g.exit, c.2)

/-- The labels that occur in a graph: those of its blocks, those that its branches name, and
its exit. -/
def labels (g : BlockGraph) : List Label :=
  g.exit :: g.blocks.flatMap fun b => b.label :: b.branch.targets

end BlockGraph

/-- The rest of a list from a label on, or nothing if there is no such label. -/
def seek (l : Label) : List Stmt → List Stmt
  | [] => []
  | .label l' :: rest => if l' = l then .label l' :: rest else seek l rest
  | _ :: rest => seek l rest

/-- Running a list, of which the statements from some place on are left.  It is done at the
exit label, and it is stuck where there is nothing left.  Only some labels are shown. -/
def listing (I : Interpretation S) (shown : List Label) (exit : Label) (code : List Stmt) :
    Machine (List Stmt × S) (Visit S) (Bool × S) where
  step
    | ([], _) => none
    | (.label l :: rest, s) =>
      if l = exit then none else some (if l ∈ shown then [.block l s] else [], (rest, s))
    | (.branch b :: _, s) => some ([], (((b.goal I s).map (seek · code)).getD [], s))
    | (st :: rest, s) => some ([.stmt st s], (rest, I.act st s))
  result
    | (.label l :: _, s) => (l = exit, s)
    | (_, s) => (false, s)

/-! ## Labels of a list -/

section

variable {code front back : List Stmt} {l : Label}

theorem seek_append (h : l ∉ front.filterMap Stmt.label?) :
    seek l (front ++ back) = seek l back := by
  induction front with
  | nil => rfl
  | cons st front ih =>
    cases st with
    | label l' =>
      simp only [List.filterMap_cons, Stmt.label?, List.mem_cons, not_or] at h
      rw [List.cons_append, seek, if_neg (Ne.symm h.1), ih h.2]
    | _ => exact ih h

theorem seek_of_notMem (h : l ∉ code.filterMap Stmt.label?) : seek l code = [] := by
  have hseek : seek l (code ++ []) = seek l [] := seek_append h
  rwa [List.append_nil] at hseek

/-- If all labels are different, a label is found where it is defined. -/
theorem seek_of_nodup (hnodup : ((front ++ .label l :: back).filterMap Stmt.label?).Nodup) :
    seek l (front ++ .label l :: back) = .label l :: back := by
  rw [List.filterMap_append, List.nodup_append] at hnodup
  have hfront : l ∉ front.filterMap Stmt.label? := fun hmem =>
    hnodup.2.2 l hmem l (by simp [Stmt.label?]) rfl
  rw [seek_append hfront, seek, if_pos rfl]

end

/-- The labels of a placed block. -/
theorem Placed.filterMap_label?_stmts {p : Placed}
    (h : ∀ st ∈ p.block.body, st.isStraight = true) :
    p.stmts.filterMap Stmt.label? = p.block.label :: p.ending.own := by
  have hending : p.ending.stmts.filterMap Stmt.label? = p.ending.own := by
    cases p.ending <;> rfl
  rw [stmts, Block.opening, List.filterMap_append, List.filterMap_cons, hending,
    filterMap_label?_of_isStraight h]
  rfl

/-! ## Running the statements of a block -/

variable {shown : List Label} {exit : Label} {code : List Stmt}

theorem step_label {l : Label} (h : l ≠ exit) (rest : List Stmt) (x : S) :
    (listing I shown exit code).step (.label l :: rest, x) =
      some (if l ∈ shown then [.block l x] else [], (rest, x)) :=
  if_neg h

theorem step_branch (b : Branch) (rest : List Stmt) (x : S) :
    (listing I shown exit code).step (.branch b :: rest, x) =
      some ([], (((b.goal I x).map (seek · code)).getD [], x)) :=
  rfl

theorem run_body {body : List Stmt} (h : ∀ st ∈ body, st.isStraight = true) (rest : List Stmt)
    (x : S) : (listing I shown exit code).Run body.length (body ++ rest, x) (I.visits body x)
      (rest, I.after body x) := by
  induction body generalizing x with
  | nil => exact .refl _
  | cons st body ih =>
    rw [List.forall_mem_cons] at h
    have hstep : (listing I shown exit code).step (st :: (body ++ rest), x) =
        some ([.stmt st x], (body ++ rest, I.act st x)) := by
      cases st with
      | label => simp [Stmt.isStraight] at h
      | branch => simp [Stmt.isStraight] at h
      | _ => rfl
    exact .head hstep (ih h.2 (I.act st x))

/-- A comparison whose false label jumps on. -/
theorem run_detour {own onFalse : Label} {rest : List Stmt}
    (hseek : seek own code = .label own :: .goto onFalse :: rest) (hne : own ≠ exit)
    (hshown : own ∉ shown) (op : RelOp) (lhs rhs : Expr) (onTrue : Label) (x : S) :
    ∃ n, (listing I shown exit code).Run n
      (.branch (.cjump op lhs rhs onTrue own) :: .label own :: .goto onFalse :: rest, x) []
      ((((Branch.cjump op lhs rhs onTrue onFalse).goal I x).map (seek · code)).getD [], x) := by
  cases hholds : op.holds (I.value lhs x) (I.value rhs x) with
  | true =>
    refine ⟨1, .single ?_⟩
    rw [step_branch]
    simp [Branch.goal, hholds]
  | false =>
    have hbranch : (listing I shown exit code).step
        (.branch (.cjump op lhs rhs onTrue own) :: .label own :: .goto onFalse :: rest, x) =
        some ([], (.label own :: .goto onFalse :: rest, x)) := by
      rw [step_branch]
      simp [Branch.goal, hholds, hseek]
    have hlabel : (listing I shown exit code).step (.label own :: .goto onFalse :: rest, x) =
        some ([], (.goto onFalse :: rest, x)) := by
      rw [step_label hne, if_neg hshown]
    have hgoto : (listing I shown exit code).step (.goto onFalse :: rest, x) = some ([],
        ((((Branch.cjump op lhs rhs onTrue onFalse).goal I x).map (seek · code)).getD [], x)) := by
      rw [Stmt.goto, step_branch]
      simp [Branch.goto, Branch.goal, hholds]
    exact ⟨3, .head hbranch (.head hlabel (.single hgoto))⟩

/-! ## The schedule of a graph -/

/-- The blocks of a graph have different labels, none of which is the exit; their bodies
neither define labels nor branch; and no label was drawn after the counter passed it. -/
structure BlockGraph.WellFormed (g : BlockGraph) (bound : Nat) : Prop where
  nodup : (g.blocks.map (·.label)).Nodup
  exit : ∀ b ∈ g.blocks, b.label ≠ g.exit
  body : ∀ b ∈ g.blocks, ∀ st ∈ b.body, st.isStraight = true
  names : ∀ l ∈ g.labels, l.Within bound

section

variable {g : BlockGraph} {placed : List Placed} {lo hi : Nat}

theorem BlockGraph.WellFormed.within_label (hg : g.WellFormed lo) {b : Block} (hb : b ∈ g.blocks) :
    b.label.Within lo :=
  hg.names _ (List.mem_cons_of_mem _ (List.mem_flatMap.2 ⟨b, hb, List.mem_cons_self⟩))

theorem BlockGraph.WellFormed.within_goal (hg : g.WellFormed lo) {b : Block} (hb : b ∈ g.blocks)
    {x : S} {l : Label} (hl : b.branch.goal I x = some l) : l.Within lo :=
  hg.names _ (List.mem_cons_of_mem _ (List.mem_flatMap.2
    ⟨b, hb, List.mem_cons_of_mem _ (Branch.goal_mem_targets hl)⟩))

variable (hs : g.Schedules lo hi placed) (hg : g.WellFormed lo)

include hs

theorem block_mem {p : Placed} (hp : p ∈ placed) : p.block ∈ g.blocks :=
  hs.perm.mem_iff.1 (List.mem_map_of_mem hp)

/-- A label that was drawn is none that occurs in the graph. -/
theorem not_within_own {l : Label} (hl : l ∈ placed.flatMap (·.ending.own)) : ¬l.Within lo := by
  obtain ⟨id, rfl, hlo, -⟩ := hs.drawn.range l hl
  exact Nat.not_le_of_lt hlo

include hg

/-- The labels of a schedule. -/
theorem filterMap_label?_stmtsOf : ((g.stmtsOf placed).filterMap Stmt.label?).Perm
    (g.blocks.map (·.label) ++ placed.flatMap (·.ending.own) ++ [g.exit]) := by
  have hplaced : (placed.flatMap Placed.stmts).filterMap Stmt.label? =
      placed.flatMap fun p => [p.block.label] ++ p.ending.own := by
    rw [List.filterMap_flatMap]
    refine List.flatMap_congr fun p hp => ?_
    exact p.filterMap_label?_stmts (hg.body p.block (block_mem hs hp))
  rw [BlockGraph.stmtsOf, List.filterMap_append, hplaced]
  refine .append_right _ ((List.flatMap_append_perm _ _ _).symm.trans (.append_right _ ?_))
  rw [← List.map_eq_flatMap]
  have hperm := hs.perm.map (·.label)
  rwa [List.map_map] at hperm

/-- The labels of a schedule are different. -/
theorem nodup_stmtsOf : ((g.stmtsOf placed).filterMap Stmt.label?).Nodup := by
  refine (filterMap_label?_stmtsOf hs hg).nodup_iff.2 ?_
  have hblock : ∀ l ∈ g.blocks.map (·.label), l.Within lo ∧ l ≠ g.exit := by
    intro l hl
    obtain ⟨b, hb, rfl⟩ := List.mem_map.1 hl
    exact ⟨hg.within_label hb, hg.exit b hb⟩
  have hown : ∀ l ∈ placed.flatMap (·.ending.own), l ≠ g.exit := by
    rintro l hl rfl
    exact not_within_own hs hl (hg.names _ List.mem_cons_self)
  rw [List.nodup_append, List.nodup_append]
  refine ⟨⟨hg.nodup, hs.drawn.nodup, ?_⟩, by simp, ?_⟩
  · rintro l hl _ hl' rfl
    exact not_within_own hs hl' (hblock l hl).1
  · intro l hl l' hl'
    rw [List.mem_singleton.1 hl']
    rcases List.mem_append.1 hl with hl | hl
    · exact (hblock l hl).2
    · exact hown l hl

/-- A block is found where it is placed. -/
theorem seek_block {front back : List Placed} {p : Placed} (hplaced : placed = front ++ p :: back) :
    seek p.block.label (g.stmtsOf placed) =
      p.stmts ++ (back.flatMap Placed.stmts ++ [.label g.exit]) := by
  have hcode : g.stmtsOf placed = front.flatMap Placed.stmts ++ .label p.block.label ::
      (p.block.body ++ p.ending.stmts ++ (back.flatMap Placed.stmts ++ [.label g.exit])) := by
    simp [BlockGraph.stmtsOf, hplaced, Placed.stmts, Block.opening]
  have hnodup := nodup_stmtsOf hs hg
  rw [hcode] at hnodup ⊢
  rw [seek_of_nodup hnodup]
  simp [Placed.stmts, Block.opening]

/-- The exit is found at the end. -/
theorem seek_exit : seek g.exit (g.stmtsOf placed) = [.label g.exit] :=
  seek_of_nodup (nodup_stmtsOf hs hg)

/-- A label of the graph that is no block's and not the exit is not found. -/
theorem seek_missing {l : Label} (hl : l.Within lo) (hfind : g.find? l = none) (hne : l ≠ g.exit) :
    seek l (g.stmtsOf placed) = [] := by
  refine seek_of_notMem fun hmem => ?_
  rw [(filterMap_label?_stmtsOf hs hg).mem_iff, List.mem_append, List.mem_append] at hmem
  rcases hmem with (hmem | hmem) | hmem
  · obtain ⟨b, hb, rfl⟩ := List.mem_map.1 hmem
    have := List.find?_eq_none.1 hfind b hb
    simp at this
  · exact not_within_own hs hmem hl
  · exact hne (List.mem_singleton.1 hmem)

/-- The label of an ending is found right behind its branch, and no watcher sees it. -/
theorem seek_own {front back : List Placed} {p : Placed} (hplaced : placed = front ++ p :: back)
    {b : Branch} {own onFalse : Label} (he : p.ending = .detour b own onFalse) :
    seek own (g.stmtsOf placed) =
        .label own :: .goto onFalse :: (back.flatMap Placed.stmts ++ [.label g.exit]) ∧
      own ≠ g.exit ∧ own ∉ g.blocks.map (·.label) := by
  have hmem : own ∈ placed.flatMap (·.ending.own) := by
    simp [hplaced, he, Ending.own]
  have hnew := not_within_own hs hmem
  refine ⟨?_, ?_, ?_⟩
  · have hcode : g.stmtsOf placed =
        (front.flatMap Placed.stmts ++ p.block.opening ++ [.branch b]) ++ .label own ::
          (.goto onFalse :: (back.flatMap Placed.stmts ++ [.label g.exit])) := by
      simp [BlockGraph.stmtsOf, hplaced, Placed.stmts, he, Ending.stmts]
    have hnodup := nodup_stmtsOf hs hg
    rw [hcode] at hnodup ⊢
    exact seek_of_nodup hnodup
  · rintro rfl
    exact hnew (hg.names _ List.mem_cons_self)
  · intro hblock
    obtain ⟨b, hb, rfl⟩ := List.mem_map.1 hblock
    exact hnew (hg.within_label hb)

/-! ## Simulation -/

/-- What is left to run of the schedule when the graph is at a label. -/
def restAt (g : BlockGraph) (placed : List Placed) (l? : Option Label) : List Stmt :=
  (l?.map (seek · (g.stmtsOf placed))).getD []

omit hs hg in
theorem Placed.Chained.writes {front back : List Placed} {p : Placed}
    (h : Chained (front ++ p :: back)) : p.ending.Writes p.block.branch (labels back) := by
  induction front with
  | nil => exact h.1
  | cons q front ih => exact ih h.2

/-- An ending goes where the branch of its block goes, and shows nothing. -/
theorem run_ending {front back : List Placed} {p : Placed} (hplaced : placed = front ++ p :: back)
    (x : S) : ∃ n, (listing I (g.blocks.map (·.label)) g.exit (g.stmtsOf placed)).Run n
      (p.ending.stmts ++ (back.flatMap Placed.stmts ++ [.label g.exit]), x) []
      (restAt g placed (p.block.branch.goal I x), x) := by
  have hchained := hs.chained
  rw [hplaced] at hchained
  have hwrites := hchained.writes
  generalize hb : p.block.branch = b at hwrites
  generalize hn : Placed.labels back = later at hwrites
  generalize he : p.ending = ending at hwrites
  cases hwrites with
  | dropped l labels =>
    refine ⟨0, ?_⟩
    obtain ⟨q, back', rfl, rfl, -⟩ := List.map_eq_cons_iff.1 hn
    have hseek := seek_block hs hg (show placed = (front ++ [p]) ++ q :: back' by
      rw [hplaced, List.append_assoc]; rfl)
    have hrest : restAt g placed (some q.block.label) =
        q.stmts ++ (back'.flatMap Placed.stmts ++ [.label g.exit]) := hseek
    rw [Branch.goal, hrest, Ending.stmts, List.flatMap_cons, List.append_assoc, List.nil_append]
    exact .refl _
  | jump | same => exact ⟨1, .single (step_branch ..)⟩
  | negated op lhs rhs onTrue onFalse =>
    refine ⟨1, .single ?_⟩
    have hgoal : (Branch.cjump op.negate lhs rhs onFalse onTrue).goal I x =
        (Branch.cjump op lhs rhs onTrue onFalse).goal I x := by
      simp only [Branch.goal, RelOp.holds_negate, Bool.not_eq_true']
      cases op.holds (I.value lhs x) (I.value rhs x) <;> rfl
    rw [← hgoal]
    exact step_branch ..
  | detour op lhs rhs onTrue onFalse own =>
    obtain ⟨hseek, hne, hshown⟩ := seek_own hs hg hplaced he
    exact run_detour hseek hne hshown op lhs rhs onTrue x

/-- A graph and its schedule, at the same label. -/
def Scheduled (g : BlockGraph) (placed : List Placed) (lo : Nat) (c : Option Label × S)
    (d : List Stmt × S) : Prop :=
  d = (restAt g placed c.1, c.2) ∧ ∀ l, c.1 = some l → l.Within lo

/-- A block of the graph is run in its place. -/
theorem run_block {b : Block} (hb : b ∈ g.blocks) (x : S) :
    ∃ n, (listing I (g.blocks.map (·.label)) g.exit (g.stmtsOf placed)).Run (n + 1)
      (restAt g placed (some b.label), x) (.block b.label x :: I.visits b.body x)
      (restAt g placed (b.branch.goal I (I.after b.body x)), I.after b.body x) := by
  obtain ⟨p, hp, rfl⟩ := List.mem_map.1 (hs.perm.mem_iff.2 hb)
  obtain ⟨front, back, hplaced⟩ := List.append_of_mem hp
  have hrest : restAt g placed (some p.block.label) = .label p.block.label :: (p.block.body ++
      (p.ending.stmts ++ (back.flatMap Placed.stmts ++ [.label g.exit]))) := by
    have hseek := seek_block hs hg hplaced
    rw [Placed.stmts, Block.opening, List.append_assoc, List.cons_append] at hseek
    exact hseek
  rw [hrest]
  have hlabel : (listing I (g.blocks.map (·.label)) g.exit (g.stmtsOf placed)).step
      (.label p.block.label :: (p.block.body ++
        (p.ending.stmts ++ (back.flatMap Placed.stmts ++ [.label g.exit]))), x) =
      some ([.block p.block.label x], (p.block.body ++
        (p.ending.stmts ++ (back.flatMap Placed.stmts ++ [.label g.exit])), x)) := by
    rw [step_label (hg.exit p.block hb), if_pos (List.mem_map_of_mem hb)]
  obtain ⟨n, hending⟩ := run_ending (I := I) hs hg hplaced (I.after p.block.body x)
  have hall := (run_body (hg.body p.block hb) _ x).append hending
  rw [List.append_nil] at hall
  exact ⟨p.block.body.length + n, .head hlabel hall⟩

/-- **A step of the graph is a run of its schedule.** -/
theorem simulation_schedule : (g.machine I).Simulation
    (listing I (g.blocks.map (·.label)) g.exit (g.stmtsOf placed)) (Scheduled g placed lo)
    fun _ => 0 where
  step := by
    rintro ⟨l?, x⟩ d es c' ⟨rfl, hwithin⟩ hstep
    cases l? with
    | none => cases hstep
    | some l =>
      simp only [BlockGraph.machine] at hstep
      split at hstep
      · cases hstep
      · obtain ⟨b, hfind, heq⟩ := Option.map_eq_some_iff.1 hstep
        cases heq
        have hb := List.mem_of_find?_eq_some hfind
        obtain rfl : b.label = l := by simpa using List.find?_some hfind
        obtain ⟨n, hrun⟩ := run_block (I := I) hs hg hb x
        exact ⟨n + 1, _, hrun, ⟨rfl, fun _ hl => hg.within_goal hb hl⟩, by simp⟩
  stop := by
    rintro ⟨l?, x⟩ d ⟨rfl, hwithin⟩ hstep
    refine ⟨0, _, .refl _, ?_⟩
    cases l? with
    | none => exact ⟨rfl, rfl⟩
    | some l =>
      simp only [BlockGraph.machine] at hstep
      split at hstep
      · next hl =>
        have hrest : restAt g placed (some l) = [.label g.exit] := by
          rw [hl]
          exact seek_exit hs hg
        rw [hrest, hl]
        simp [listing, BlockGraph.machine]
      · next hl =>
        have hrest : restAt g placed (some l) = [] :=
          seek_missing hs hg (hwithin l rfl) (by simpa using hstep) hl
        rw [hrest]
        simp [listing, BlockGraph.machine, hl]

omit hg in
theorem entry_eq : g.entry = (Placed.first? placed).getD g.exit := by
  rw [BlockGraph.entry, ← hs.first, Option.map_map]
  rfl

/-- A schedule starts with the block with which the graph starts. -/
theorem restAt_entry : restAt g placed (some g.entry) = g.stmtsOf placed := by
  rw [entry_eq hs]
  cases placed with
  | nil => exact seek_exit hs hg
  | cons p back =>
    have hseek := seek_block hs hg (show p :: back = [] ++ p :: back from rfl)
    rw [BlockGraph.stmtsOf, List.flatMap_cons, List.append_assoc, ← hseek]
    rfl

omit hs in
theorem within_entry : g.entry.Within lo := by
  rw [BlockGraph.entry]
  cases hblocks : g.blocks with
  | nil => exact hg.names _ List.mem_cons_self
  | cons b rest => exact hg.within_label (hblocks ▸ List.mem_cons_self)

end

/-- **Scheduling preserves meaning.**  A graph whose blocks have different labels can be
scheduled; and whatever statements do and expressions are worth, from any state, running the
graph from its first block and running its schedule from the first statement visit the same
labels of blocks and the same statements in the same states, and one of them reaches the exit
exactly if the other one does, in the same state. -/
theorem schedule_preserves_meaning {g : BlockGraph} {supply : Supply}
    (hg : g.WellFormed supply.labels) :
    ∃ placed supply', g.schedule.run supply = (.ok placed, supply') ∧
      ∀ {S : Type} (I : Interpretation S) (x : S),
        (g.machine I).Same (some g.entry, x)
          (listing I (g.blocks.map (·.label)) g.exit (g.stmtsOf placed)) (g.stmtsOf placed, x) := by
  obtain ⟨placed, supply', hrun, hs⟩ := g.exists_schedule hg.nodup supply
  refine ⟨placed, supply', hrun, fun I x => (simulation_schedule hs hg).same ⟨?_, ?_⟩⟩
  · rw [restAt_entry hs hg]
  · intro l hl
    cases hl
    exact within_entry hg

/-- A loop that is left through a negated comparison, and whose second block compares in
vain. -/
def loopGraph : BlockGraph where
  blocks :=
    [⟨.named "head", [], .cjump .lt (.temp (.virtual 1)) (.const 3) (.named "body") (.generated 1)⟩,
      ⟨.named "body", [.move (.temp (.virtual 1)) (.binop .plus (.temp (.virtual 1)) (.const 1))],
        .cjump .eq (.temp (.virtual 1)) (.const 0) (.named "head") (.named "head")⟩]
  exit := .generated 1

theorem loopGraph_preserves_meaning :
    ∃ placed supply', loopGraph.schedule.run ⟨1, 1⟩ = (.ok placed, supply') ∧
      ∀ {S : Type} (I : Interpretation S) (x : S),
        (loopGraph.machine I).Same (some loopGraph.entry, x)
          (listing I (loopGraph.blocks.map (·.label)) loopGraph.exit (loopGraph.stmtsOf placed))
          (loopGraph.stmtsOf placed, x) :=
  schedule_preserves_meaning ⟨by decide, by decide, by
    simp [loopGraph, Stmt.isStraight], by
    simp [loopGraph, BlockGraph.labels, Branch.targets]⟩

end Lowering
