import Lowering.Proofs.Block.Partition
import Lowering.Proofs.Pipeline

/-!
# Blocks give back the statements

A list of statements is partitioned exactly if no sequence stands in it.  Then nothing is lost,
repeated or moved: the blocks, one after another and without the labels and jumps that were put in,
are the list.

## Main definitions

* `Block.Recovers` — how the blocks lie in the list.
* `Block.Cuts.recovers` — so they do.
* `partition_recovers_statements` — the main result.
-/

namespace Lowering

namespace Block

/-- The blocks lie in the list without gaps, and no label or jump is put in without need. -/
structure Recovers (stmts : List Stmt) (exit : Label) (cuts : List Cut) : Prop where
  /-- Without what was put in, the blocks are the list. -/
  stmts : cuts.flatMap Cut.stmts = stmts
  straight : ∀ c ∈ cuts, ∀ st ∈ c.block.body, st.isStraight = true
  /-- A jump that was put in goes to the next block, behind the last block to the exit. -/
  goOn : Cut.GoOn exit cuts
  /-- Where a label was put in, the list has a statement that is no label. -/
  unlabelled : ∀ c ∈ cuts, c.labelled = false → ∃ st rest, c.stmts = st :: rest ∧ st.label? = none
  /-- Where a jump was put in, the list has a label or ends. -/
  unended : cuts.IsChain fun c c' => c.ended = false → c'.labelled = true

section

variable {exit : Label} {stmts : List Stmt} {lo hi : Nat} {cuts : List Cut}

/-- A block whose label was put in begins with its body, or else with its branch. -/
theorem Cut.exists_stmts_eq_cons {c : Cut} (hlabelled : c.labelled = false)
    (hopens : c.block.body ≠ [] ∨ c.ended = true)
    (hstraight : ∀ st ∈ c.block.body, st.isStraight = true) :
    ∃ st rest, c.stmts = st :: rest ∧ st.label? = none := by
  cases hbody : c.block.body with
  | nil =>
    have hended : c.ended = true := hopens.resolve_left fun h => h hbody
    refine ⟨.branch c.block.branch, [], ?_, rfl⟩
    simp [Cut.stmts, hlabelled, hbody, hended]
  | cons st body =>
    have hst : st.isStraight = true := hstraight st (by simp [hbody])
    refine ⟨st, body ++ if c.ended then [.branch c.block.branch] else [], ?_, ?_⟩
    · simp [Cut.stmts, hlabelled, hbody]
    · cases st with
      | label => simp [Stmt.isStraight] at hst
      | _ => rfl

theorem Cuts.recovers (h : Cuts exit none stmts lo hi cuts) : Recovers stmts exit cuts where
  stmts := h.stmts
  straight := h.straight
  goOn := h.goOn
  unlabelled := by
    intro c hc hlabelled
    have hopens : c.block.body ≠ [] ∨ c.ended = true := by simpa [hlabelled] using h.opens c hc
    exact Cut.exists_stmts_eq_cons hlabelled hopens (h.straight c hc)
  unended := by
    refine h.meets.imp fun c c' hmeets hended => ?_
    simpa [hended] using hmeets

/-- The exit is another label than those that were there and those that were put in. -/
theorem Cuts.exit_notMem {n : Nat} (h : Cuts (.generated (n + 1)) none stmts (n + 1) hi cuts)
    (hold : ∀ l ∈ stmts.filterMap Stmt.label?, l.Within n) :
    .generated (n + 1) ∉ cuts.map (·.block.label) := by
  rw [h.perm_labels.mem_iff, List.mem_append]
  rintro (hl | hl)
  · exact Nat.not_succ_le_self n (hold _ hl)
  · obtain ⟨id, heq, hid, -⟩ := h.drawn.range _ hl
    cases heq
    exact Nat.lt_irrefl _ hid

/-! ## Sequences in the list -/

theorem ends_orFresh (current : Option Open) : (Open.orFresh current).Ends none := by
  cases current with
  | some b => exact Attempt.ends_pure b
  | none => exact fun s => ⟨_, _, rfl⟩

/-- A sequence in the list is a fault, whatever comes before it. -/
theorem ends_partitionFrom {first second : Stmt} (h : .seq first second ∈ stmts)
    (current : Option Open) : (partitionFrom exit current stmts).Ends (some .nestedSequence) := by
  induction stmts generalizing current with
  | nil => cases h
  | cons st rest ih =>
    have hrest : ∀ {st'}, st' ≠ .seq first second → .seq first second ∈ st' :: rest →
        .seq first second ∈ rest := by
      intro st' hne hmem
      exact (List.mem_cons.1 hmem).resolve_left hne.symm
    cases st with
    | seq => cases current <;> exact Attempt.ends_throw _
    | label l =>
      have ih := ih (hrest (by simp) h)
      cases current with
      | none => exact ih _
      | some b => exact (ih _).map fun _ => Attempt.ends_pure _
    | branch b =>
      rw [partitionFrom_branch]
      refine (ends_orFresh current).bind fun b' => ?_
      exact (ih (hrest (by simp) h) none).map fun _ => Attempt.ends_pure _
    | move target source =>
      rw [partitionFrom_straight current rfl (by simp)]
      exact (ends_orFresh current).bind fun b => ih (hrest (by simp) h) _
    | eval expr =>
      rw [partitionFrom_straight current rfl (by simp)]
      exact (ends_orFresh current).bind fun b => ih (hrest (by simp) h) _

theorem ends_partition {first second : Stmt} (h : .seq first second ∈ stmts) :
    (partition stmts).Ends (some .nestedSequence) := by
  have hlabel : Fresh.label.Ends none := fun s => ⟨_, _, Fresh.run_label s⟩
  refine hlabel.bind fun exit => ?_
  exact (ends_partitionFrom h none).map fun _ => Attempt.ends_pure _

end

end Block

/-! ## The main result -/

/-- **Partitioning gives back the statements.**  A list in which a sequence stands is refused.
Every other list is what its blocks are made of, and the labels that are put in are drawn; if the
labels of the list are different and were drawn before, then no two blocks have the same label, and
none has that of the exit. -/
theorem partition_recovers_statements (stmts : List Stmt) (w : Workspace) :
    ((∃ first second, .seq first second ∈ stmts) →
      ∃ fault w', (Pipeline.partition stmts).run w = (.error fault, w') ∧
        fault.message = Fault.invariant "unexpected sequence in canonical statement list") ∧
    ((∀ first second, .seq first second ∉ stmts) →
      ∃ cuts exit w',
        (Pipeline.partition stmts).run w = (.ok ⟨cuts.map (·.block), exit⟩, w') ∧
        Block.Recovers stmts exit cuts ∧
        Label.Drawn w.supply.labels w'.supply.labels (exit :: cuts.flatMap Block.Cut.own) ∧
        ((stmts.filterMap Stmt.label?).Nodup →
          (∀ l ∈ stmts.filterMap Stmt.label?, l.Within w.supply.labels) →
          (exit :: cuts.map (·.block.label)).Nodup)) := by
  refine ⟨?_, fun hflat => ?_⟩
  · rintro ⟨first, second, hseq⟩
    obtain ⟨s, hrun⟩ := Block.ends_partition hseq w.supply
    exact ⟨_, _, Pass.run_fresh_bind_error _ hrun, rfl⟩
  · obtain ⟨cuts, s, hrun, -, hcuts⟩ := Block.exists_partition hflat w.supply
    obtain ⟨w', hrun', -, rfl⟩ : ∃ w', (Pipeline.partition stmts).run w =
        (.ok ⟨cuts.map (·.block), .generated (w.supply.labels + 1)⟩, w') ∧
        w.Continues w' ∧ w'.supply = s :=
      exists_run_fresh_bind hrun ((tells_noteText _ _).bind (tells_pure _))
    refine ⟨cuts, _, w', hrun', hcuts.recovers, ?_, fun hnodup hold => ?_⟩
    · exact (Label.drawn_succ w.supply.labels).append hcuts.drawn
    · refine List.nodup_cons.2 ⟨hcuts.exit_notMem hold, ?_⟩
      exact hcuts.nodup_labels hnodup fun l hl => (hold l hl).mono (Nat.le_succ _)

/-- A label behind a statement, two labels and two jumps in a row, and a statement behind a jump. -/
def boundaries : List Stmt := [
  .move (.temp (.virtual 1)) (.const 1),
  .label (.named "a"),
  .label (.generated 3),
  .goto (.generated 3),
  .goto (.named "a"),
  .eval (.call (.name (.named "f")) [])]

theorem boundaries_recovered :
    (∃ cuts exit w', (Pipeline.partition boundaries).run
          { supply := ⟨1, 3⟩, frame := { name := .named "f" } } =
        (.ok ⟨cuts.map (·.block), exit⟩, w') ∧
      Block.Recovers boundaries exit cuts ∧ (exit :: cuts.map (·.block.label)).Nodup) ∧
    ∃ fault w', (Pipeline.partition (boundaries ++ [.seq .nop .nop])).run
        { frame := { name := .named "f" } } = (.error fault, w') ∧
      fault.message = Fault.invariant "unexpected sequence in canonical statement list" := by
  obtain ⟨-, hflat⟩ := partition_recovers_statements boundaries
    { supply := ⟨1, 3⟩, frame := { name := .named "f" } }
  obtain ⟨hseq, -⟩ := partition_recovers_statements (boundaries ++ [.seq .nop .nop])
    { frame := { name := .named "f" } }
  refine ⟨?_, hseq ⟨.nop, .nop, by simp⟩⟩
  obtain ⟨cuts, exit, w', hrun, hrecovers, -, hnodup⟩ :=
    hflat (by simp [boundaries, Stmt.goto])
  refine ⟨cuts, exit, w', hrun, hrecovers, hnodup (by decide) ?_⟩
  have hlabels : boundaries.filterMap Stmt.label? = [.named "a", .generated 3] := rfl
  simp [hlabels]

end Lowering
