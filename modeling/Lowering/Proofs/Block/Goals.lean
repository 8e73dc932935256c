import Lowering.Canonical.Form
import Lowering.Proofs.Block.Partition
import Lowering.Proofs.Block.Schedule
import Lowering.Proofs.Tree.Rules

/-!
# Branches have goals

Blocks that are cut from canonical statements, and the list in which they are placed, are made
of canonical statements again.  They obey the rules that the statements obey, and every branch
of the list leads to labels that are defined in it.

## Main definitions

* `Rules.leading` — rules with other labels for branches to lead to.
* `BlockGraph.Obeys` — the blocks of a graph obey rules.
* `Block.Cuts.obeys`, `BlockGraph.Schedules.obeys` — partitioning and scheduling keep rules.
-/

namespace Lowering

variable {R : Rules} {g : BlockGraph} {l : Label}

/-- The statement is canonical and obeys the rules. -/
structure Stmt.Fits (R : Rules) (st : Stmt) : Prop where
  canonical : st.isCanonical = true
  obeys : st.Obeys R

theorem Stmt.Fits.mono {R' : Rules} {st : Stmt} (h : st.Fits R) (hR : R.Narrower R') :
    st.Fits R' :=
  ⟨h.canonical, st.obeys_mono hR h.obeys⟩

theorem Stmt.fits_goto (hname : R.name l) (hgoal : R.goal l) : (Stmt.goto l).Fits R := by
  refine ⟨rfl, hname, hgoal, ?_⟩
  simpa using hgoal

/-- The same rules, but branches lead to labels that satisfy a condition, and all labels may be
defined. -/
def Rules.leading (R : Rules) (goal : Label → Prop) : Rules :=
  { R with label := fun _ => True, goal := goal }

theorem Rules.narrower_leading {goal : Label → Prop} (h : ∀ {l}, R.goal l → goal l) :
    R.Narrower (R.leading goal) :=
  ⟨id, id, id, id, id, fun _ => trivial, h⟩

/-! ## Blocks -/

/-- The exit or the label of a block. -/
def BlockGraph.Has (g : BlockGraph) (l : Label) : Prop := l = g.exit ∨ l ∈ g.blocks.map (·.label)

/-- The bodies and branches of the blocks obey the rules. -/
structure BlockGraph.Obeys (R : Rules) (g : BlockGraph) : Prop where
  body : ∀ b ∈ g.blocks, ∀ st ∈ b.body, st.Fits R
  branch : ∀ b ∈ g.blocks, (Stmt.branch b.branch).Fits R

/-- **Partitioning keeps rules**, if the labels that are defined are all that branches lead
to. -/
theorem Block.Cuts.obeys {exit : Label} {stmts : List Stmt} {lo hi : Nat} {cuts : List Block.Cut}
    (h : Block.Cuts exit none stmts lo hi cuts) (hstmts : ∀ st ∈ stmts, st.Fits R)
    (hgoal : ∀ {l}, R.goal l → l ∈ stmts.filterMap Stmt.label?)
    (hname : ∀ l, (⟨cuts.map (·.block), exit⟩ : BlockGraph).Has l → R.name l) :
    BlockGraph.Obeys (R.leading (BlockGraph.Has ⟨cuts.map (·.block), exit⟩))
      ⟨cuts.map (·.block), exit⟩ := by
  have hlabels : (cuts.map (·.block)).map (·.label) = cuts.map (·.block.label) := List.map_map
  have hnarrow : R.Narrower (R.leading (BlockGraph.Has ⟨cuts.map (·.block), exit⟩)) := by
    refine Rules.narrower_leading fun hl => .inr ?_
    rw [hlabels, h.perm_labels.mem_iff]
    exact List.mem_append_left _ (hgoal hl)
  constructor
  · intro b hb st hst
    obtain ⟨c, hc, rfl⟩ := List.mem_map.1 hb
    exact (hstmts st ((h.mem_of_mem hc).1 st hst)).mono hnarrow
  · intro b hb
    obtain ⟨c, hc, rfl⟩ := List.mem_map.1 hb
    rcases (h.mem_of_mem hc).2 with hmem | ⟨l, hgo, hl⟩
    · exact (hstmts _ hmem).mono hnarrow
    · rw [← hlabels] at hl
      rw [hgo]
      exact Stmt.fits_goto (hname l hl) hl

/-! ## Schedules -/

/-- The statements that stand for a branch obey the rules that the branch obeys, if branches may
also lead to the labels that are put in. -/
theorem Ending.Writes.fits {b : Branch} {later : List Label} {ending : Ending}
    {goal goal' : Label → Prop} (h : ending.Writes b later)
    (hb : (Stmt.branch b).Fits (R.leading goal)) (hgoal : ∀ {l}, goal l → goal' l)
    (hname : ∀ {l}, goal l → R.name l) (hown : ∀ l ∈ ending.own, goal' l) :
    ∀ st ∈ ending.stmts, st.Fits (R.leading goal') := by
  have hwide : (Stmt.branch b).Fits (R.leading goal') :=
    hb.mono (Rules.narrower_leading (R := R.leading goal) hgoal)
  cases h with
  | dropped => simp [Ending.stmts]
  | jump | same => simpa [Ending.stmts] using hwide
  | negated op lhs rhs onTrue onFalse =>
    obtain ⟨hpure, hoperands, htrue, hfalse⟩ := hwide
    have hcompare : (Stmt.branch (.cjump op.negate lhs rhs onFalse onTrue)).Fits
        (R.leading goal') := ⟨hpure, hoperands, hfalse, htrue⟩
    simpa [Ending.stmts] using hcompare
  | detour op lhs rhs onTrue onFalse own =>
    obtain ⟨hpure, hoperands, htrue, hfalse⟩ := hwide
    have hcompare : (Stmt.branch (.cjump op lhs rhs onTrue own)).Fits (R.leading goal') :=
      ⟨hpure, hoperands, htrue, hown own List.mem_cons_self⟩
    have hmark : (Stmt.label own).Fits (R.leading goal') := ⟨rfl, trivial⟩
    have hgoto : (Stmt.goto onFalse).Fits (R.leading goal') :=
      Stmt.fits_goto (hname hb.obeys.2.2) hfalse
    simpa [Ending.stmts] using ⟨hcompare, hmark, hgoto⟩

namespace BlockGraph.Schedules

variable {placed : List Placed} {lo hi : Nat} (hs : g.Schedules lo hi placed)

include hs

/-- The labels of the graph are defined in its schedule, and so are those that are put in. -/
theorem mem_stmtsOf (hl : g.Has l ∨ l ∈ placed.flatMap (·.ending.own)) :
    .label l ∈ g.stmtsOf placed := by
  have hplaced : ∀ p ∈ placed, ∀ st ∈ p.stmts, st ∈ g.stmtsOf placed := fun p hp st hst =>
    List.mem_append_left _ (List.mem_flatMap.2 ⟨p, hp, hst⟩)
  rcases hl with (rfl | hl) | hl
  · exact List.mem_append_right _ List.mem_cons_self
  · obtain ⟨b, hb, rfl⟩ := List.mem_map.1 hl
    obtain ⟨p, hp, rfl⟩ := List.mem_map.1 (hs.perm.mem_iff.2 hb)
    exact hplaced p hp _ (List.mem_append_left _ List.mem_cons_self)
  · obtain ⟨p, hp, hl⟩ := List.mem_flatMap.1 hl
    refine hplaced p hp _ (List.mem_append_right _ ?_)
    cases hending : p.ending with
    | detour b own onFalse =>
      rw [hending, Ending.own, List.mem_singleton] at hl
      simp [Ending.stmts, hl]
    | dropped => simp [hending, Ending.own] at hl
    | branch b => simp [hending, Ending.own] at hl

/-- **Scheduling keeps rules**, and every branch leads to labels of the schedule. -/
theorem obeys (hg : g.Obeys (R.leading g.Has)) (hname : ∀ {l}, g.Has l → R.name l) :
    ∀ st ∈ g.stmtsOf placed, st.Fits (R.leading fun l => .label l ∈ g.stmtsOf placed) := by
  have hlabel : ∀ l, (Stmt.label l).Fits (R.leading fun l => .label l ∈ g.stmtsOf placed) :=
    fun _ => ⟨rfl, trivial⟩
  have hgoal : ∀ {l}, g.Has l → .label l ∈ g.stmtsOf placed := fun hl => hs.mem_stmtsOf (.inl hl)
  intro st hst
  rcases List.mem_append.1 hst with hst | hst
  · obtain ⟨p, hp, hst⟩ := List.mem_flatMap.1 hst
    have hblock : p.block ∈ g.blocks := hs.perm.mem_iff.1 (List.mem_map_of_mem hp)
    rcases List.mem_append.1 hst with hst | hst
    · rcases List.mem_cons.1 hst with rfl | hst
      · exact hlabel _
      · exact (hg.body _ hblock st hst).mono (Rules.narrower_leading (R := R.leading _) hgoal)
    · obtain ⟨front, back, hsplit⟩ := List.append_of_mem hp
      have hwrites := (hsplit ▸ hs.chained : Placed.Chained (front ++ p :: back)).writes
      refine hwrites.fits (hg.branch _ hblock) hgoal hname (fun l hl => ?_) st hst
      exact hs.mem_stmtsOf (.inr (List.mem_flatMap.2 ⟨p, hp, hl⟩))
  · rw [List.mem_singleton.1 hst]
    exact hlabel _

end BlockGraph.Schedules

end Lowering
