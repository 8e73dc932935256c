import Lowering.Proofs.Coloring.Assign

/-!
# Why a node is taken in hope

When no node can be taken out and no copy is left, every node in the graph has at least
`k` neighbours there.  Such a set of nodes is *stuck*.  Taking out and merging do not
make a set stuck that was not: a merge into a register gives no new neighbour to a node
of high degree, and a merge of two virtual nodes gives a node with fewer than `k`
neighbours of high degree.  So the set was stuck in the graph from the start.

If some nodes of the graph form no stuck set, not even with the registers, then a node
is never taken in hope only because these are left.

## Main definitions

* `Interference.Stuck` — every node of a set has `k` neighbours in it or among registers.
* `Coloring.Sound.stuck_of_merges` — a set that is stuck after a merge was stuck before.
* `notMem_of_mem_spilled_color` — what should not be spilled is not spilled.
-/

namespace Lowering

/-- Every node of the set has at least `k` neighbours in it or among registers. -/
def Interference.Stuck (g : Interference) (k : Nat) (T : Finset Temp) : Prop :=
  ∀ t ∈ T, t.isRegister = false ∧
    k ≤ ((g.neighboursOf t).toFinset.filter fun u => u ∈ T ∨ u.isRegister = true).card

namespace Coloring

variable {s s' : Coloring} {t u v : Temp} {T : Finset Temp}

theorem Sound.isPresent_of_isRegister (h : s.Sound) (ht : t.isRegister = true) :
    s.isPresent t = true := by
  by_contra hp
  have hstatus : s.status t = .onStack ∨ s.status t = .coalesced := by
    by_cases hs : s.status t = .onStack
    · exact .inl hs
    · exact .inr (by simpa [isPresent, hs] using hp)
  have hv : t.isRegister = false := by
    rcases hstatus with hs | hs <;>
      exact (h.work.isRegister_eq_false (by simp [hs]) (by simp [hs])).2
  simp [hv] at ht

/-- The neighbours of a virtual node after a merge. -/
theorem Merges.mem_neighboursOf (m : Merges u v s s') (h : s.Sound) (ht : t.isRegister = false)
    {y : Temp} : y ∈ s'.graph.neighboursOf t ↔ y ∈ s.graph.neighboursOf t ∨
      (t = u ∧ y ∈ s.remaining v ∨ y = u ∧ t ∈ s.remaining v) := by
  rw [← m.graph.adjacent_iff ht, m.adjacent, h.linked.graph.adjacent_iff ht]

section

variable (h : s.Sound) (hm : s.Mergeable u v) (m : Merges u v s s')
  (hT : ∀ t ∈ T, s'.isPresent t = true)

include h hm m hT

/-- In a set of nodes after a merge, no node but the merged one has more neighbours than it
had before in the graph. -/
theorem card_le_degree (ht : t ∈ T) (hv : t.isRegister = false) (htu : t ≠ u) :
    ((s'.graph.neighboursOf t).toFinset.filter fun y => y ∈ T ∨ y.isRegister = true).card ≤
      s.degree t := by
  have hdegree := h.counts t hv (m.isPresent (hT t ht)).1
  rw [List.count_nil, Nat.add_zero] at hdegree
  rw [hdegree]
  have hin : ∀ y, y ∈ T ∨ y.isRegister = true → s.isPresent y = true ∧ y ≠ v := by
    rintro y (hy | hy)
    · exact m.isPresent (hT y hy)
    · refine ⟨h.isPresent_of_isRegister hy, ?_⟩
      rintro rfl
      simp [hm.virtual] at hy
  by_cases hadj : t ∈ s.remaining v
  · -- The neighbour `u` has come in the place of `v`.
    have hvt : v ∈ s.remaining t :=
      mem_remaining.2 ⟨h.linked.graph.symm (mem_remaining.1 hadj).1 hv, hm.present⟩
    have hsub : ((s'.graph.neighboursOf t).toFinset.filter fun y => y ∈ T ∨ y.isRegister = true) ⊆
        insert u ((s.remaining t).erase v) := by
      intro y hy
      obtain ⟨hy, hyT⟩ := Finset.mem_filter.1 hy
      rw [TempSet.mem_toFinset, m.mem_neighboursOf h hv] at hy
      obtain ⟨hp, hne⟩ := hin y hyT
      rcases hy with hy | ⟨heq, -⟩ | ⟨rfl, -⟩
      · exact Finset.mem_insert_of_mem (Finset.mem_erase.2 ⟨hne, mem_remaining.2 ⟨hy, hp⟩⟩)
      · exact absurd heq htu
      · exact Finset.mem_insert_self _ _
    calc _ ≤ (insert u ((s.remaining t).erase v)).card := Finset.card_le_card hsub
      _ ≤ ((s.remaining t).erase v).card + 1 := Finset.card_insert_le _ _
      _ = (s.remaining t).card := Finset.card_erase_add_one hvt
  · refine Finset.card_le_card fun y hy => ?_
    obtain ⟨hy, hyT⟩ := Finset.mem_filter.1 hy
    rw [TempSet.mem_toFinset, m.mem_neighboursOf h hv] at hy
    rcases hy with hy | ⟨heq, -⟩ | ⟨-, hmem⟩
    · exact mem_remaining.2 ⟨hy, (hin y hyT).1⟩
    · exact absurd heq htu
    · exact absurd hmem hadj

/-- Before a merge into a register, a set that is stuck after it was stuck. -/
theorem stuck_of_merges_register (hcan : s.canCombine u v = true) (hu : u.isRegister = true)
    (hstuck : s'.graph.Stuck s.k T) : s.graph.Stuck s.k T := by
  intro t ht
  obtain ⟨hv, hcard⟩ := hstuck t ht
  have htu : t ≠ u := by
    rintro rfl
    simp [hv] at hu
  refine ⟨hv, hcard.trans (Finset.card_le_card fun y hy => ?_)⟩
  obtain ⟨hy, hyT⟩ := Finset.mem_filter.1 hy
  rw [TempSet.mem_toFinset, m.mem_neighboursOf h hv] at hy
  refine Finset.mem_filter.2 ⟨TempSet.mem_toFinset.2 ?_, hyT⟩
  rcases hy with hy | ⟨heq, -⟩ | ⟨rfl, hmem⟩
  · exact hy
  · exact absurd heq htu
  · -- A node of high degree is harmless only as a neighbour of the register.
    rw [canCombine, if_pos hu, List.all_eq_true] at hcan
    have hharm := hcan t (mem_adjacent.2 (mem_remaining.1 hmem))
    have hhigh : ¬s.degree t < s.k :=
      Nat.not_lt.2 (hcard.trans (card_le_degree h hm m hT ht hv htu))
    have hadj : s.graph.adjacent t y = true := by simpa [isHarmless, hhigh, hv] using hharm
    exact (h.linked.graph.adjacent_iff hv).1 hadj

/-- A node merged from two virtual ones is in no stuck set. -/
theorem notMem_of_isConservative (hcons : s.isConservative u v = true)
    (hstuck : s'.graph.Stuck s.k T) : u ∉ T := by
  intro huT
  obtain ⟨hu, hcard⟩ := hstuck u huT
  simp only [isConservative, decide_eq_true_eq] at hcons
  rw [List.countP_eq_length_filter] at hcons
  have hnd : ((TempSet.ofList (s.adjacent u ++ s.adjacent v)).toList.filter
      s.isSignificant).Nodup := (TempSet.nodup_toList _).filter _
  rw [← List.toFinset_card_of_nodup hnd] at hcons
  refine absurd (hcard.trans (Finset.card_le_card fun y hy => ?_)) (Nat.not_le.2 hcons)
  obtain ⟨hy, hyT⟩ := Finset.mem_filter.1 hy
  rw [TempSet.mem_toFinset, m.mem_neighboursOf h hu] at hy
  have hyp : s.isPresent y = true :=
    hyT.elim (fun hyT => (m.isPresent (hT y hyT)).1) h.isPresent_of_isRegister
  have hyu : y ≠ u := by
    rintro rfl
    have hirr := m.graph.irrefl y
    rw [m.mem_neighboursOf h hu] at hirr
    exact hirr hy
  have hmem : y ∈ s.adjacent u ∨ y ∈ s.adjacent v := by
    rcases hy with hy | ⟨-, hy⟩ | ⟨heq, -⟩
    · exact .inl (mem_adjacent.2 ⟨hy, hyp⟩)
    · exact .inr (mem_adjacent.2 (mem_remaining.1 hy))
    · exact absurd heq hyu
  have hsig : s.isSignificant y = true := by
    cases hyr : y.isRegister with
    | true => simp [isSignificant, hyr]
    | false =>
      have hyT : y ∈ T := hyT.resolve_right (by simp [hyr])
      have hhigh := (hstuck y hyT).2.trans (card_le_degree h hm m hT hyT hyr hyu)
      simp [isSignificant, hhigh]
  rw [List.mem_toFinset, List.mem_filter, Std.ExtTreeSet.mem_toList, TempSet.mem_ofList,
    List.mem_append]
  exact ⟨hmem, hsig⟩

/-- **A set that is stuck after a merge was stuck before.** -/
theorem stuck_of_merges (hcan : s.canCombine u v = true) (hstuck : s'.graph.Stuck s.k T) :
    s.graph.Stuck s.k T := by
  cases hu : u.isRegister with
  | true => exact stuck_of_merges_register h hm m hT hcan hu hstuck
  | false =>
    have hcons : s.isConservative u v = true := by simpa [canCombine, hu] using hcan
    have huT := notMem_of_isConservative h hm m hT hcons hstuck
    intro t ht
    obtain ⟨hv, hcard⟩ := hstuck t ht
    have htu : t ≠ u := fun heq => huT (heq ▸ ht)
    refine ⟨hv, hcard.trans (Finset.card_le_card fun y hy => ?_)⟩
    obtain ⟨hy, hyT⟩ := Finset.mem_filter.1 hy
    rw [TempSet.mem_toFinset, m.mem_neighboursOf h hv] at hy
    refine Finset.mem_filter.2 ⟨TempSet.mem_toFinset.2 ?_, hyT⟩
    rcases hy with hy | ⟨heq, -⟩ | ⟨rfl, -⟩
    · exact hy
    · exact absurd heq htu
    · exact absurd hyT (by simp [huT, hu])

end

/-! ## Runs -/

/-- A set of nodes in the graph that is stuck after a step was so before. -/
theorem Sound.stuck_of_step (h : s.Sound) (hs : s.step? = some s')
    (hT : ∀ t ∈ T, s'.isPresent t = true) (hstuck : s'.graph.Stuck s'.k T) :
    (∀ t ∈ T, s.isPresent t = true) ∧ s.graph.Stuck s.k T := by
  have hf := h.follows hs
  have hk : s'.k = s.k := by rw [k, k, hf.palette]
  rw [hk] at hstuck
  rcases hf.change with ⟨hgraph, hpresent⟩ | ⟨u, v, hm, hcan, m⟩
  · exact ⟨fun t ht => hpresent t (hT t ht), hgraph ▸ hstuck⟩
  · exact ⟨fun t ht => (m.isPresent (hT t ht)).1, stuck_of_merges h hm m hT hcan hstuck⟩

/-- A set of nodes in the graph that is stuck was so at the start. -/
def Traces (g : Interference) (s : Coloring) : Prop :=
  ∀ T : Finset Temp, (∀ t ∈ T, s.isPresent t = true) → s.graph.Stuck s.k T → g.Stuck s.k T

theorem Traces.step {g : Interference} (h : s.Sound) (htr : Traces g s) (hs : s.step? = some s') :
    Traces g s' := by
  intro T hT hstuck
  have hk : s'.k = s.k := by rw [k, k, (h.follows hs).palette]
  obtain ⟨hT', hstuck'⟩ := h.stuck_of_step hs hT hstuck
  exact hk ▸ htr T hT' hstuck'

/-- The virtual nodes in the graph. -/
def virtualNodes (s : Coloring) : Finset Temp :=
  s.graph.nodes.toFinset.filter fun t => t.isRegister = false ∧ s.isPresent t = true

theorem Sound.mem_virtualNodes (h : s.Sound) (hstatus : s.status t = .spill) :
    t ∈ s.virtualNodes := by
  obtain ⟨hmem, hv⟩ := h.work.isRegister_eq_false (t := t) (by simp [hstatus]) (by simp [hstatus])
  refine Finset.mem_filter.2 ⟨List.mem_toFinset.2 hmem, hv, ?_⟩
  simp [isPresent_iff, hstatus]

/-- When only nodes of high degree are left, they are stuck. -/
theorem Sound.stuck_virtualNodes (h : s.Sound) (hq : s.queue = [])
    (hfreeze : s.freezeSet.toList = []) :
    s.graph.Stuck s.k s.virtualNodes ∧ ∀ t ∈ s.virtualNodes, t ∈ s.spillSet := by
  have hspill : ∀ t ∈ s.virtualNodes, s.status t = .spill := by
    intro t ht
    obtain ⟨hmem, hv, hp⟩ := Finset.mem_filter.1 ht
    rw [List.mem_toFinset] at hmem
    obtain ⟨hstack, hcoalesced⟩ := isPresent_iff.1 hp
    have hready : s.status t ≠ .simplify := by
      rw [ne_eq, ← h.work.filed.queue t, hq]
      exact List.not_mem_nil
    have hnofreeze : s.status t ≠ .freeze := by
      rw [ne_eq, ← h.work.filed.freezeSet t, ← Std.ExtTreeSet.mem_toList, hfreeze]
      exact List.not_mem_nil
    have hfixed : s.status t ≠ .fixed := by
      rw [ne_eq, h.work.fixed t hmem, hv]
      simp
    have hinitial := (h.work.node t).2 hmem
    cases hs : s.status t <;> simp_all
  refine ⟨fun t ht => ?_, fun t ht => ?_⟩
  · obtain ⟨hmem, hv, hp⟩ := Finset.mem_filter.1 ht
    have hfits := h.fits t
    rw [Fits, hspill t ht] at hfits
    have hhigh : s.k ≤ s.degree t := hfits
    rw [h.counts t hv hp, List.count_nil, Nat.add_zero] at hhigh
    refine ⟨hv, hhigh.trans (Finset.card_le_card fun y hy => ?_)⟩
    obtain ⟨hy, hyp⟩ := mem_remaining.1 hy
    refine Finset.mem_filter.2 ⟨TempSet.mem_toFinset.2 hy, ?_⟩
    cases hyr : y.isRegister with
    | true => exact .inr rfl
    | false =>
      exact .inl (Finset.mem_filter.2 ⟨List.mem_toFinset.2 (h.linked.graph.mem hy).2, hyr, hyp⟩)
  · exact (h.work.filed.spillSet t).2 (hspill t ht)

end Coloring

section

variable {palette : List Temp} {unspillable : TempSet} {g : Interference} {t : Temp}
  (hg : g.WellFormed) (hmoves : g.MovesWithin palette)

include hg hmoves

/-- **A node that is taken in hope is in a stuck set of the graph**, and if it should not be
spilled then nothing in that set should. -/
theorem Coloring.exists_stuck_of_selected
    (ht : .selected t ∈ (start palette unspillable g).run.decisions) :
    ∃ T : Finset Temp, t ∈ T ∧ (∀ x ∈ T, x ∈ g.nodes) ∧ g.Stuck palette.length T ∧
      (t ∈ unspillable → ∀ x ∈ T, x ∈ unspillable) := by
  have hrun := runSteps_induction (s := start palette unspillable g)
    (P := fun s => Reached palette unspillable g s ∧ Traces g s ∧
      ∀ t, .selected t ∈ s.decisions → ∃ T : Finset Temp, t ∈ T ∧ (∀ x ∈ T, x ∈ g.nodes) ∧
        g.Stuck palette.length T ∧ (t ∈ unspillable → ∀ x ∈ T, x ∈ unspillable)) ?_
    (start palette unspillable g).bound ?_
  · exact hrun.2.2 t ht
  · rintro s s' ⟨hr, htr, hsel⟩ hs
    refine ⟨hr.step hs, htr.step hr.sound hs, fun t ht => ?_⟩
    rcases (hr.sound.follows hs).selected t ht with ht | ⟨hq, hfreeze, hcheap⟩
    · exact hsel t ht
    · obtain ⟨-, hall⟩ := of_cheapest hcheap
      obtain ⟨hstuck, hspill⟩ := hr.sound.stuck_virtualNodes hq hfreeze
      have hpresent : ∀ x ∈ s.virtualNodes, s.isPresent x = true := fun x hx =>
        (Finset.mem_filter.1 hx).2.2
      have htrace := htr s.virtualNodes hpresent hstuck
      rw [Coloring.k, hr.palette] at htrace
      refine ⟨s.virtualNodes, ?_, fun x hx => ?_, htrace, fun htu x hx => ?_⟩
      · exact hr.sound.mem_virtualNodes (hr.sound.work.filed.status_of_cheapest hcheap)
      · exact hr.nodes ▸ List.mem_toFinset.1 (Finset.mem_filter.1 hx).1
      · have := hall (hr.unspillable.symm ▸ htu) x
          (Std.ExtTreeSet.mem_toList.2 (hspill x hx))
        rwa [hr.unspillable] at this
  · have hs := starts_start palette unspillable g
    refine ⟨reached_start hg hmoves, fun T _ hstuck => by rwa [hs.graph] at hstuck,
      fun t ht => ?_⟩
    simp [hs.decisions] at ht

/-- **What should not be spilled is not spilled**, if it is not stuck. -/
theorem notMem_of_mem_spilled_color
    (hfree : ∀ T : Finset Temp, T.Nonempty → (∀ t ∈ T, t ∈ unspillable) →
      ¬g.Stuck palette.length T) (hnodup : palette.Nodup)
    (ht : t ∈ (color palette unspillable g).spilled) : t ∉ unspillable := by
  have hr := Coloring.reached_run unspillable hg hmoves
  obtain ⟨T, hmem, -, hstuck, hall⟩ := Coloring.exists_stuck_of_selected hg hmoves
    (hr.sound.selected_of_mem_spilled (hr.palette.symm ▸ hnodup) ht)
  exact fun htu => hfree T ⟨t, hmem⟩ (hall htu) hstuck

end

end Lowering
