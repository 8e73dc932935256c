import Lowering.Proofs.Interference

/-!
# The graph of an instruction list

The graph of a list has the temporaries of the list as its nodes, and counts how often each
occurs.  An edge that is not between registers is there because of an instruction: a copy
keeps its destination apart from what is live behind it but its source, and any other
instruction keeps all that it writes apart from what is live behind it and from all else that
it writes.  Another instruction may keep the two ends of a copy apart nevertheless.

## Main definitions

* `Instr.KeepsApart` — the edges that an instruction makes.
* `interference_exact` — the main result.
-/

namespace Lowering

/-- An instruction makes a temporary that it writes interfere with another one.  Only
temporaries that can be assigned take part. -/
inductive Instr.KeepsApart (palette : List Temp) (after : TempSet) : Instr → Temp → Temp → Prop
  /-- A copy to itself does nothing, and no copy is kept apart from its source. -/
  | copy {template : String} {d s x : Temp} : d ≠ s → d.isAllocatable palette = true →
      x ∈ after → x ≠ s → x.isAllocatable palette = true →
      KeepsApart palette after (.move template d s) d x
  | write {i : Instr} {d x : Temp} : i.copy? = none → d ∈ i.defs →
      d.isAllocatable palette = true → x ∈ after ∨ x ∈ i.defs → x.isAllocatable palette = true →
      KeepsApart palette after i d x

namespace Interference

variable {palette : List Temp} {code : List Instr} {i : Instr} {after : TempSet} {x y t : Temp}

theorem nodes_ascending (palette : List Temp) (code : List Instr) (live : Liveness) :
    (ofCode palette code live).nodes.Pairwise fun a b => compare a b = .lt := by
  obtain ⟨lists, heq⟩ := copies_eq palette code
  rw [ofCode_eq, nodes_addEdges, heq]
  exact (TempSet.ofList (code.flatMap Instr.temps)).ordered_toList

/-! ## Edges -/

theorem mem_conflicts_iff :
    (x, y) ∈ conflicts palette i after ↔ i.KeepsApart palette after x y := by
  constructor
  · intro h
    obtain ⟨hx, hy, hxp, hyp⟩ := of_mem_conflicts h
    cases i with
    | move template dst src =>
      simp only [conflicts, Instr.copy?] at h
      split at h
      · cases h
      · next hd =>
        simp only [Bool.or_eq_true, decide_eq_true_eq, not_or] at hd
        simp only [List.mem_map, List.mem_filter, Std.ExtTreeSet.mem_toList, Bool.and_eq_true,
          decide_eq_true_eq, Prod.mk.injEq] at h
        obtain ⟨_, ⟨hafter, hsrc, -⟩, rfl, rfl⟩ := h
        exact .copy hd.1 hxp hafter hsrc hyp
    | _ => exact .write rfl hx hxp hy hyp
  · rintro (⟨hne, hxp, hafter, hsrc, hyp⟩ | ⟨hcopy, hx, hxp, hy, hyp⟩)
    · simp [conflicts, Instr.copy?, hne, hxp, hafter, hsrc, hyp]
    · simp only [conflicts, hcopy, List.mem_flatMap, List.mem_filter, List.mem_map,
        List.mem_append, Std.ExtTreeSet.mem_toList]
      exact ⟨x, ⟨hx, hxp⟩, y, ⟨hy, hyp⟩, rfl⟩

/-- Only temporaries of the list are live behind its instructions. -/
theorem mem_temps_of_mem_after (code : List Instr) (flow : Flow) (n : Nat) :
    ∀ t ∈ (Liveness.ofCode code flow).1.after n, t ∈ code.flatMap Instr.temps := fun t =>
  (Liveness.inside_ofCode (Liveness.solution_temps code flow) n t).2

/-! ## Occurrences -/

@[simp] theorem occurrences_addEdges (g : Interference) (pairs : List (Temp × Temp)) :
    (g.addEdges pairs).occurrences = g.occurrences := by
  induction pairs generalizing g with
  | nil => rfl
  | cons p rest ih => rw [addEdges_cons, ih, occurrences_addEdge]

theorem get_foldl_update (ts : List Temp) (tab : Table Nat) (t : Temp) :
    (ts.foldl (fun tab t => tab.update t (· + 1)) tab).get t = tab.get t + ts.count t := by
  induction ts generalizing tab with
  | nil => simp
  | cons u ts ih =>
    rw [List.foldl_cons, ih, Table.get_update, List.count_cons]
    by_cases h : u = t
    · simp [h]
      omega
    · simp [h]

theorem occurrences_ofCode (palette : List Temp) (code : List Instr) (live : Liveness) (t : Temp) :
    (ofCode palette code live).occurrences.get t =
      (code.map fun i => i.defs.count t + i.uses.count t).sum := by
  obtain ⟨lists, heq⟩ := copies_eq palette code
  rw [ofCode_eq, occurrences_addEdges, heq, discrete, get_foldl_update, Table.get_const,
    Nat.zero_add, List.count_flatMap]
  congr 2
  funext i
  exact List.count_append

/-! ## Copies -/

/-- Copies are listed in their order, since each is added behind those before it. -/
theorem WellFormed.movesOf_ascending {g : Interference} (h : g.WellFormed) (t : Temp) :
    (g.movesOf t).Pairwise (· < ·) := by
  have hsub : (touching g.moves t).Sublist (g.moves.zipIdx.map Prod.snd) :=
    List.filter_sublist.map Prod.snd
  rw [h.listed]
  refine List.Pairwise.sublist hsub ?_
  rw [List.zipIdx_map_snd]
  exact List.pairwise_lt_range'

theorem ends_moves_ofCode (palette : List Temp) (code : List Instr) (live : Liveness) :
    (ofCode palette code live).moves.map (fun m => (m.dst, m.src)) =
      (code.filterMap Instr.copy?).filter fun (d, s) =>
        d ≠ s && d.isAllocatable palette && s.isAllocatable palette := by
  rw [moves_ofCode, List.map_filterMap, List.filter_filterMap]
  congr 1
  funext i
  cases h : i.copy? with
  | none => simp [moveOf?, h]
  | some p =>
    obtain ⟨d, s⟩ := p
    simp only [moveOf?, h]
    split <;> simp_all [Option.filter_some]

end Interference

/-! ## The main result -/

/-- **The graph of an instruction list.**  Its nodes are the temporaries of the list, each once
and in order, and each with the number of its occurrences.  Two of them that are not both
registers interfere exactly if some instruction keeps them apart.  The copies are those of the
list, in its order, that are not to themselves and whose ends can be assigned; and those of a
node are the ones that it is an end of, in order. -/
theorem interference_exact (palette : List Temp) (code : List Instr) (flow : Flow) :
    let live := (Liveness.ofCode code flow).1
    let g := Interference.ofCode palette code live
    (g.nodes.Pairwise (fun a b => compare a b = .lt) ∧
        ∀ t, t ∈ g.nodes ↔ ∃ i ∈ code, t ∈ i.defs ∨ t ∈ i.uses) ∧
      (∀ t, g.occurrences.get t = (code.map fun i => i.defs.count t + i.uses.count t).sum) ∧
      (∀ a b, a ≠ b → a.isRegister = false ∨ b.isRegister = false →
        (g.adjacent a b = true ↔ ∃ (n : Nat) (i : Instr), code[n]? = some i ∧
          (i.KeepsApart palette (live.after n) a b ∨ i.KeepsApart palette (live.after n) b a))) ∧
      (g.moves.map (fun m => (m.dst, m.src)) = (code.filterMap Instr.copy?).filter fun (d, s) =>
        d ≠ s && d.isAllocatable palette && s.isAllocatable palette) ∧
      ∀ t, (g.movesOf t).Pairwise (· < ·) ∧
        ∀ id, id ∈ g.movesOf t ↔ ∃ m, g.moves[id]? = some m ∧ (m.dst = t ∨ m.src = t) := by
  intro live g
  have hlive := Interference.mem_temps_of_mem_after code flow
  have hg : g.WellFormed := Interference.wellFormed_ofCode hlive
  refine ⟨⟨Interference.nodes_ascending palette code live, fun t => ?_⟩,
    Interference.occurrences_ofCode palette code live, ?_,
    Interference.ends_moves_ofCode palette code live,
    fun t => ⟨hg.movesOf_ascending t, fun id => hg.mem_movesOf⟩⟩
  · simp [g, Instr.temps]
  · intro a b hne hvirtual
    have hregisters : ¬(a.isRegister = true ∧ b.isRegister = true) := by
      rintro ⟨ha, hb⟩
      simp [ha, hb] at hvirtual
    rw [Interference.adjacent_ofCode hlive]
    simp only [Interference.mem_conflicts_iff, hregisters, hne, false_or, ne_eq, not_false_eq_true,
      true_and]
    rfl

end Lowering
