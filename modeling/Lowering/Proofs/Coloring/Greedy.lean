import Lowering.Proofs.Coloring.Outcome
import Lowering.Proofs.Coloring.Stuck

/-!
# Graphs that need no spilling

If the virtual nodes can be taken out one after another, each with fewer than `k`
neighbours at that time, then no set of them is stuck: the first one of the set to go
has too few neighbours in it.  Merging does not make a set stuck that was not, so no node is
ever taken in hope, and nothing is spilled.

## Main definitions

* `Interference.Peels` — a list in whose order nodes can be taken out.
* `Interference.IsGreedy` — all virtual nodes can be taken out in some order.
* `color_connect_greedy` — such a graph is coloured without spilling.
-/

namespace Lowering

namespace Interference

variable {g : Interference} {k : Nat}

/-- The nodes that are no registers. -/
def virtuals (g : Interference) : List Temp := g.nodes.filter fun t => !t.isRegister

/-- How many neighbours of a node are registers or in the list. -/
def degreeAmong (g : Interference) (t : Temp) (ts : List Temp) : Nat :=
  g.nodes.countP fun u => g.adjacent t u && (u.isRegister || ts.contains u)

/-- Each node of the list has fewer than `k` neighbours among registers and the nodes
behind it. -/
def Peels (g : Interference) (k : Nat) : List Temp → Prop
  | [] => True
  | t :: rest => g.degreeAmong t rest < k ∧ g.Peels k rest

instance (g : Interference) (k : Nat) : (order : List Temp) → Decidable (g.Peels k order)
  | [] => .isTrue trivial
  | t :: rest =>
    have := instDecidablePeels g k rest
    inferInstanceAs (Decidable (g.degreeAmong t rest < k ∧ g.Peels k rest))

/-- The virtual nodes can be taken out one after another, each when it has fewer than `k`
neighbours left. -/
def IsGreedy (g : Interference) (k : Nat) : Prop :=
  ∃ order : List Temp, order.Perm g.virtuals ∧ g.Peels k order

theorem WellFormed.degreeAmong_eq (h : g.WellFormed) {t : Temp} (ht : t.isRegister = false)
    (ts : List Temp) : g.degreeAmong t ts =
      ((g.neighboursOf t).toFinset.filter fun u => u ∈ ts ∨ u.isRegister = true).card := by
  rw [degreeAmong, List.countP_eq_length_filter, ← List.toFinset_card_of_nodup (h.nodup.filter _)]
  congr 1
  ext u
  simp only [List.mem_toFinset, List.mem_filter, Bool.and_eq_true, h.adjacent_iff ht,
    Bool.or_eq_true, List.contains_iff_mem, Finset.mem_filter, TempSet.mem_toFinset]
  constructor
  · rintro ⟨-, hu, hin⟩
    exact ⟨hu, hin.symm⟩
  · rintro ⟨hu, hin⟩
    exact ⟨(h.mem hu).2, hu, hin.symm⟩

/-- Of a set of nodes that can be taken out in some order, the first one to go has too few
neighbours for the set to be stuck. -/
theorem WellFormed.not_stuck_of_peels (h : g.WellFormed) {order : List Temp}
    (hpeels : g.Peels k order) {T : Finset Temp} (hne : T.Nonempty)
    (hT : ∀ t ∈ T, t ∈ order) : ¬g.Stuck k T := by
  intro hstuck
  induction order with
  | nil =>
    obtain ⟨t, ht⟩ := hne
    simpa using hT t ht
  | cons t rest ih =>
    obtain ⟨hlt, hpeels⟩ := hpeels
    have hrest : ∀ u ∈ T, u ≠ t → u ∈ rest := fun u hu hut =>
      (List.mem_cons.1 (hT u hu)).resolve_left hut
    by_cases ht : t ∈ T
    · obtain ⟨hv, hk⟩ := hstuck t ht
      rw [h.degreeAmong_eq hv] at hlt
      refine absurd (hk.trans (Finset.card_le_card fun u hu => ?_)) (Nat.not_le.2 hlt)
      obtain ⟨hu, hin⟩ := Finset.mem_filter.1 hu
      refine Finset.mem_filter.2 ⟨hu, hin.imp_left fun huT => hrest u huT ?_⟩
      rintro rfl
      exact h.irrefl u (TempSet.mem_toFinset.1 hu)
    · exact ih hpeels fun u hu => hrest u hu fun heq => ht (heq ▸ hu)

end Interference

variable {palette : List Temp} {unspillable : TempSet} {g : Interference}

/-- No node of a greedy graph is taken in hope. -/
theorem Interference.IsGreedy.notMem_decisions (h : g.IsGreedy palette.length)
    (hg : g.WellFormed) (hmoves : g.MovesWithin palette) (t : Temp) :
    .selected t ∉ (Coloring.start palette unspillable g).run.decisions := by
  intro ht
  obtain ⟨order, hperm, hpeels⟩ := h
  obtain ⟨T, hmem, hnodes, hstuck, -⟩ := Coloring.exists_stuck_of_selected hg hmoves ht
  refine hg.not_stuck_of_peels hpeels ⟨t, hmem⟩ (fun u hu => hperm.mem_iff.2 ?_) hstuck
  simp [virtuals, hnodes u hu, (hstuck u hu).1]

/-- **A greedy graph is coloured without spilling**, whatever copies are merged on the way,
and in any graph only what was taken in hope is spilled. -/
theorem color_connect_greedy (palette : List Temp) (unspillable : TempSet) (code : List Instr)
    (flow : Flow) (pairs : List (Temp × Temp)) (hnodup : palette.Nodup) :
    let g := (roundGraph palette code flow).connect pairs
    (g.IsGreedy palette.length → (color palette unspillable g).spilled = []) ∧
      ∀ t ∈ (color palette unspillable g).spilled,
        .selected t ∈ (color palette unspillable g).decisions := by
  have hg := (wellFormed_roundGraph palette code flow).connect pairs
  have hmoves := (movesWithin_roundGraph palette code flow).connect pairs
  intro g
  have hr := Coloring.reached_run unspillable hg hmoves
  have hselected : ∀ t ∈ (color palette unspillable g).spilled,
      .selected t ∈ (Coloring.start palette unspillable g).run.decisions := fun t ht =>
    hr.sound.selected_of_mem_spilled (hr.palette.symm ▸ hnodup) ht
  refine ⟨fun hgreedy => List.eq_nil_iff_forall_not_mem.2 fun t ht => ?_, fun t ht => ?_⟩
  · exact hgreedy.notMem_decisions hg hmoves t (hselected t ht)
  · simp [color, Coloring.outcome, hselected t ht]

/-- A copy whose ends share a neighbour that two registers leave with a high degree. -/
def copied : List Instr :=
  [.op "li 'd0, 1" [.virtual 1] [], .op "li 'd0, 2" [.virtual 2] [],
    .move "move 'd0, 's0" (.virtual 3) (.virtual 1), .op "print 's0" [] [.virtual 2],
    .op "print 's0" [] [.virtual 3]]

theorem copied_greedy :
    let palette : List Temp := [.register "t0", .register "t1"]
    let g := (roundGraph palette copied ⟨#[[1], [2], [3], [4], []]⟩).connect []
    palette.Nodup ∧ g.IsGreedy palette.length ∧ (color palette ∅ g).spilled = [] := by
  intro palette g
  have hnodup : palette.Nodup := by decide
  have horder : [.virtual 1, .virtual 2, .virtual 3].Perm g.virtuals ∧
      g.Peels palette.length [.virtual 1, .virtual 2, .virtual 3] := by decide +kernel
  have hgreedy : g.IsGreedy palette.length := ⟨_, horder⟩
  exact ⟨hnodup, hgreedy, (color_connect_greedy palette ∅ copied _ [] hnodup).1 hgreedy⟩

end Lowering
