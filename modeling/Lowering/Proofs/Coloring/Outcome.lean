import Lowering.Proofs.Allocation.Round
import Lowering.Proofs.Coloring.Termination

/-!
# The outcome of a colouring

All that a colouring promises, for the graph of any instruction list, also one to which
edges were added.

## Main definitions

* `Outcome.Proper` — what holds of the outcome for a graph.
* `color_connect_proper` — it holds of every outcome.
-/

namespace Lowering

variable {palette : List Temp} {unspillable : TempSet} {g : Interference} {t : Temp}

/-! ## Adding edges to a graph -/

namespace Interference

theorem MovesWithin.connect (h : g.MovesWithin palette) (pairs : List (Temp × Temp)) :
    (g.connect pairs).MovesWithin palette := by
  intro m hm t ht
  rw [Interference.connect, moves_addEdges] at hm
  rw [Interference.connect, nodes_addEdges]
  exact h m hm t ht

end Interference

/-! ## Spilled nodes -/

/-- A node for which no colour was left has none. -/
theorem Coloring.assigned_of_mem {s : Coloring} {colors : Colors} {ts : List Temp} (hnd : ts.Nodup)
    (hcolors : colors[t]? = none) (ht : t ∈ (s.assigned colors ts).2) :
    (s.assigned colors ts).1[t]? = none := by
  induction ts generalizing colors with
  | nil => simp [assigned] at ht
  | cons u ts ih =>
    obtain ⟨hu, hnd⟩ := List.nodup_cons.1 hnd
    rcases assigned_cons s colors u ts with ⟨c, -, heq⟩ | ⟨-, heq⟩ <;> rw [heq] at ht ⊢
    · have hne : u ≠ t := fun heq => hu (heq ▸ mem_of_mem_assigned ht)
      exact ih hnd (by simp [Std.TreeMap.getElem?_insert, hne, hcolors]) ht
    · rcases List.mem_cons.1 ht with rfl | ht
      · rw [assigned_of_notMem hu, hcolors]
      · exact ih hnd hcolors ht

theorem Coloring.Sound.colors_of_mem_spilled {s : Coloring} (h : s.Sound)
    (ht : t ∈ s.outcome.spilled) : s.outcome.colors[t]? = none := by
  have hmem := (mem_spilled_outcome h).1 ht
  have hstatus := (h.linked.stack t).1 (mem_of_mem_assigned hmem)
  have hnone : s.registerColors[t]? = none := by
    rw [getElem?_registerColors]
    simp [(h.of_mem_spilled ht).2]
  rw [getElem?_colors_outcome h, h.linked.leader_self t (by simp [hstatus])]
  exact assigned_of_mem h.linked.nodup hnone hmem

/-- Spilled nodes are listed in order. -/
theorem Coloring.ordered_spilled (s : Coloring) :
    s.outcome.spilled.Pairwise fun a b => compare a b = .lt :=
  (TempSet.ofList (s.assign s.registerColors s.stack).1.2).ordered_toList

/-- A register that is a node has itself as its colour. -/
theorem Coloring.Sound.colors_of_isRegister {s : Coloring} (h : s.Sound) (ht : t ∈ s.graph.nodes)
    (hr : t.isRegister = true) : s.outcome.colors[t]? = some t := by
  have hstatus := (h.work.fixed t ht).2 hr
  have hstack : t ∉ s.stack := by simp [h.linked.stack, hstatus]
  rw [getElem?_colors_outcome h, h.linked.leader_self t (by simp [hstatus]), stackColors,
    assigned_of_notMem hstack, getElem?_registerColors, if_pos ⟨ht, hr⟩]

/-! ## Outcomes -/

/-- The colours of an outcome suit a graph, and it lists what has none. -/
structure Outcome.Proper (palette : List Temp) (g : Interference) (o : Outcome) : Prop where
  /-- Nodes that interfere have different colours. -/
  apart : ∀ (a b c d : Temp), g.adjacent a b = true →
    o.colors[a]? = some c → o.colors[b]? = some d → c ≠ d
  /-- Registers have themselves. -/
  register : ∀ r ∈ g.nodes, r.isRegister = true → o.colors[r]? = some r ∧ r ∉ o.spilled
  /-- Virtual nodes have registers of the palette. -/
  palette : ∀ (t c : Temp), t.isRegister = false → o.colors[t]? = some c → c ∈ palette
  /-- What is spilled has no colour. -/
  spilled : ∀ t ∈ o.spilled, t ∉ o.colors
  ascending : o.spilled.Pairwise fun a b => compare a b = .lt
  /-- If nothing is spilled, no node is left out. -/
  complete : o.spilled = [] → ∀ t ∈ g.nodes, t ∈ o.colors

/-- **Colouring gives a proper outcome**, whatever edges were added to the graph of an
instruction list and whatever should not be spilled. -/
theorem color_connect_proper (palette : List Temp) (unspillable : TempSet) (code : List Instr)
    (flow : Flow) (pairs : List (Temp × Temp)) :
    (color palette unspillable ((roundGraph palette code flow).connect pairs)).Proper palette
      ((roundGraph palette code flow).connect pairs) := by
  have hg := (wellFormed_roundGraph palette code flow).connect pairs
  have hmoves := (movesWithin_roundGraph palette code flow).connect pairs
  generalize (roundGraph palette code flow).connect pairs = g at hg hmoves ⊢
  have hr := Coloring.reached_run unspillable hg hmoves
  constructor
  · intro a b c d hab hc hd
    exact color_proper hg hmoves hab hc hd
  · intro r hmem hreg
    refine ⟨hr.sound.colors_of_isRegister (hr.nodes.symm ▸ hmem) hreg, fun hspilled => ?_⟩
    simp [(of_mem_spilled_color hg hmoves hspilled).2] at hreg
  · intro t c ht hc
    exact color_palette hg hmoves ht hc
  · intro t ht
    rw [← Std.TreeMap.isSome_getElem?_iff_mem]
    simp [color, hr.sound.colors_of_mem_spilled ht]
  · exact Coloring.ordered_spilled _
  · intro hspilled t ht
    obtain ⟨c, hc⟩ := exists_color_of_mem_nodes hg hmoves hspilled ht
    rw [← Std.TreeMap.isSome_getElem?_iff_mem, hc]
    rfl

end Lowering
