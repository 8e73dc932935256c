import Lowering.Proofs.Allocation.Meaning
import Lowering.Proofs.Coloring.Termination

/-!
# No false sharing

The last round of an allocation spills nothing.  So its colouring has a register for every
temporary of the list, and the registers are apart where the temporaries interfere.  What
was spilled in the rounds before is gone from the list by then.

## Main definitions

* `Spills` — what a round that spills leads to.
* `exists_last_round` — what every such round keeps holds before the last round.
* `exists_run_apply` — an allocation with a register for every temporary can be applied.
* `allocate_no_false_sharing` — the main result.
-/

namespace Lowering

variable {palette : List Temp} {unspillable : TempSet} {code code' : List Instr} {flow : Flow}
  {alloc : Allocation} {limit round left : Nat} {w w' w₁ : Workspace} {p p' : Progress}

/-! ## The last round -/

/-- A round that spills some temporaries leads from one state of the rounds to the next. -/
structure Spills (ts : List Temp) (w : Workspace) (p : Progress) (w₁ : Workspace)
    (p' : Progress) : Prop where
  code : p'.code =
    (Spill.spillWindows (Spill.slotsFrom ∅ w.frame.locals ts) w.supply.temps p.code).flatten
  spilled : p'.spilled = p.spilled ++ ts
  supply : w₁.supply.temps = w.supply.temps +
    Spill.spillCount (Spill.slotsFrom ∅ w.frame.locals ts) p.code

/-- What every round that spills keeps holds before the last round, and that one spills
nothing. -/
theorem exists_last_round {P : Workspace → Progress → Prop} (hstart : P w p)
    (hspill : ∀ {w p w₁ p' ts}, P w p → ts.Nodup →
      (∀ t ∈ ts, t ∈ p.code.flatMap Instr.temps ∧ t.isRegister = false) →
      Spills ts w p w₁ p' → P w₁ p')
    (h : (allocateRounds limit round left p).run w = (.ok (code', alloc), w')) :
    ∃ w₁ p' flow outcome, P w₁ p' ∧ p'.code = code' ∧ p'.spilled = alloc.spilled ∧
      Flow.ofCode code' = .ok flow ∧
      outcome = roundOutcome w.frame.palette p'.created code' flow ∧ outcome.spilled = [] ∧
      alloc.colors = outcome.colors := by
  induction left generalizing round p w with
  | zero => cases h
  | succ left ih =>
    obtain ⟨flow, outcome, hflow, rfl, ⟨rfl, hcolors, -, hnone, hspilled⟩ |
      ⟨slots, left', p', w₁, rfl, hcode, hspilled, hsupply, hframe, hleft, h⟩⟩ :=
        allocateRounds_cases h
    · exact ⟨w, p, flow, _, hstart, rfl, hspilled.symm, hflow, rfl, hnone, hcolors⟩
    · obtain rfl := Nat.succ.inj hleft
      have hnext := hspill hstart (nodup_spilled_round ..) (fun _ => of_mem_spilled_round)
        ⟨hcode, hspilled, hsupply⟩
      obtain ⟨w₂, p₂, flow₂, outcome, hlast⟩ := ih hnext h
      rw [hframe] at hlast
      exact ⟨w₂, p₂, flow₂, outcome, hlast⟩

/-- A round that spills nothing has a register for every temporary. -/
theorem mem_colors_of_spilled_eq_nil
    (hnone : (roundOutcome palette unspillable code flow).spilled = []) {t : Temp}
    (ht : t ∈ code.flatMap Instr.temps) :
    t ∈ (roundOutcome palette unspillable code flow).colors := by
  obtain ⟨c, hc⟩ := exists_color_of_mem_nodes (wellFormed_roundGraph palette code flow)
    (movesWithin_roundGraph palette code flow) hnone (Interference.mem_nodes_ofCode.2 ht)
  rw [← Std.TreeMap.isSome_getElem?_iff_mem]
  exact Option.isSome_of_eq_some hc

/-! ## What was spilled -/

/-- All temporaries were drawn before, and what was spilled is gone. -/
structure Cleared (w : Workspace) (p : Progress) : Prop where
  within : ∀ i ∈ p.code, ∀ t ∈ i.temps, t.Within w.supply.temps
  drawn : ∀ t ∈ p.spilled, t.isRegister = false ∧ t.Within w.supply.temps
  gone : ∀ t ∈ p.spilled, t ∉ p.code.flatMap Instr.temps

/-- **What is spilled does not come back.** -/
theorem Cleared.spill {ts : List Temp} (h : Cleared w p) (hnd : ts.Nodup)
    (hmem : ∀ t ∈ ts, t ∈ p.code.flatMap Instr.temps ∧ t.isRegister = false)
    (hspill : Spills ts w p w₁ p') : Cleared w₁ p' := by
  have hle : w.supply.temps ≤ w₁.supply.temps := by rw [hspill.supply]; omega
  have hdrawn : ∀ t ∈ p'.spilled, t.isRegister = false ∧ t.Within w.supply.temps := by
    intro t ht
    rw [hspill.spilled, List.mem_append] at ht
    rcases ht with ht | ht
    · exact h.drawn t ht
    · obtain ⟨hcode, hv⟩ := hmem t ht
      obtain ⟨i, hi, hit⟩ := List.mem_flatMap.1 hcode
      exact ⟨hv, h.within i hi t hit⟩
  constructor
  · rw [hspill.code, hspill.supply]
    exact Spill.within_spillWindows h.within
  · exact fun t ht => ⟨(hdrawn t ht).1, (hdrawn t ht).2.mono hle⟩
  · intro t ht
    obtain ⟨hv, hin⟩ := hdrawn t ht
    rw [hspill.code]
    refine Spill.notMem_spillWindows hv hin ?_
    rw [hspill.spilled, List.mem_append] at ht
    refine ht.imp (h.gone t) fun ht => ?_
    rw [ne_eq, Spill.getElem?_slotsFrom_eq_none hnd]
    exact not_not_intro ht

/-! ## Applying -/

/-- Every copy of a list can be put into words, or nobody listens.  When an allocation is
applied, only copies are recorded. -/
def CopiesWordable (journal : Journal) (code : List Instr) : Prop :=
  ∀ i ∈ code, i.copy?.isSome → Spill.Wordable journal i

theorem isSome_copy?_of_isSelfMove {i : Instr} {f : Temp → Temp}
    (h : Allocation.isSelfMove (i.rename f) = true) : i.copy?.isSome := by
  cases i with
  | move => rfl
  | oper => cases h
  | label => cases h

/-- **An allocation with a register for every temporary can be applied.** -/
theorem exists_run_apply (hall : ∀ t ∈ code.flatMap Instr.temps, t ∈ alloc.colors)
    (hwords : CopiesWordable w.journal code) :
    ∃ out w', (alloc.apply code).run w = (.ok out, w') := by
  suffices hsettles : ∀ w, Spill.Settles (alloc.apply code) w fun j =>
      ∃ i ∈ code, i.copy?.isSome ∧ j = i.rename alloc.place by
    rcases hsettles w with ⟨out, w', hrun, -⟩ | ⟨j, step, w', ⟨i, hi, hcopy, rfl⟩, hno, -⟩
    · exact ⟨out, w', hrun⟩
    · refine absurd ((hwords i hi hcopy).imp_right ?_) hno
      rintro ⟨text, ht⟩
      exact Instr.exists_text_rename _ ht
  clear hwords
  induction code with
  | nil => exact fun w => Spill.settles_pure _ w _
  | cons i code ih =>
    intro w
    rw [List.flatMap_cons] at hall
    have hi : alloc.missing? i = none := by
      refine List.find?_eq_none.2 fun t ht => ?_
      simpa using hall t (List.mem_append_left _ ht)
    have hrest := ih fun t ht => hall t (List.mem_append_right _ ht)
    have hwiden : ∀ w, Spill.Settles (alloc.apply code) w fun j =>
        ∃ k ∈ i :: code, k.copy?.isSome ∧ j = k.rename alloc.place := by
      intro w
      rcases hrest w with hok | ⟨j, step, w', ⟨k, hk, hj⟩, hno⟩
      · exact .inl hok
      · exact .inr ⟨j, step, w', ⟨k, List.mem_cons_of_mem i hk, hj⟩, hno⟩
    rw [Allocation.apply, hi]
    dsimp only
    split
    · next hself =>
      refine .bind (Spill.settles_noteInstr _ _ _ w ?_) fun _ w' _ => hwiden w'
      exact ⟨i, List.mem_cons_self, isSome_copy?_of_isSelfMove hself, rfl⟩
    · exact (hwiden w).bind fun _ w' _ => Spill.settles_pure _ w' _

/-! ## Sharing -/

/-- Where the places of a round are apart, so are the registers. -/
theorem colors_ne_of_separates (hall : ∀ t ∈ code.flatMap Instr.temps, t ∈ alloc.colors)
    (hsep : Separates (Liveness.ofCode code flow).1 code alloc.place) {n : Nat} {i : Instr}
    (hi : code[n]? = some i) {d x : Temp} (hd : d ∈ i.defs)
    (hx : x ∈ (Liveness.ofCode code flow).1.after n ∨ x ∈ i.defs) (hne : x ≠ d)
    (hself : i.copy? ≠ some (d, d)) (hsource : i.copy? ≠ some (d, x)) :
    alloc.colors[d]? ≠ alloc.colors[x]? := by
  intro heq
  have hmem : d ∈ alloc.colors := hall d
    (List.mem_flatMap.2 ⟨i, List.mem_of_getElem? hi, List.mem_append_left _ hd⟩)
  obtain ⟨c, hc⟩ := Option.isSome_iff_exists.1 (Std.TreeMap.isSome_getElem?_iff_mem.2 hmem)
  have hplace : alloc.place d = alloc.place x := by
    simp only [Allocation.place, Allocation.register?]
    rw [← heq, hc]
    rfl
  exact (hsep n i hi d hd x hx hne hplace).elim hsource hself

/-- **No false sharing.**  If an allocation is found, then every temporary of its list has a
register, so that it can be applied (unless a copy cannot be put into words for someone who
listens).  What an instruction writes has another register than all else that is live behind it
or written with it, but for the source of a copy.  And if all temporaries of the first list were
drawn before, nothing that was spilled is left. -/
theorem allocate_no_false_sharing (h : (allocate code).run w = (.ok (code', alloc), w')) :
    (∀ t ∈ code'.flatMap Instr.temps, t ∈ alloc.colors) ∧
    (∀ w₁, CopiesWordable w₁.journal code' →
      ∃ out w₂, (alloc.apply code').run w₁ = (.ok out, w₂)) ∧
    (∃ flow, Flow.ofCode code' = .ok flow ∧ ∀ n i, code'[n]? = some i →
      (Allocation.isSelfMove i = false → ∀ d ∈ i.defs,
        ∀ x ∈ (Liveness.ofCode code' flow).1.after n, x ≠ d → i.copy? ≠ some (d, x) →
          alloc.colors[d]? ≠ alloc.colors[x]?) ∧
      ∀ d ∈ i.defs, ∀ x ∈ i.defs, x ≠ d → alloc.colors[d]? ≠ alloc.colors[x]?) ∧
    ((∀ i ∈ code, ∀ t ∈ i.temps, t.Within w.supply.temps) →
      ∀ t ∈ alloc.spilled, t ∉ code'.flatMap Instr.temps) := by
  obtain ⟨-, p', flow, outcome, -, -, -, hflow, rfl, hnone, hcolors⟩ :=
    exists_last_round (P := fun _ _ => True) trivial (fun _ _ _ _ => trivial) h
  have hall : ∀ t ∈ code'.flatMap Instr.temps, t ∈ alloc.colors := by
    rw [hcolors]
    exact fun t => mem_colors_of_spilled_eq_nil hnone
  have hsep := separates_place hcolors hall
  refine ⟨hall, fun w₁ => exists_run_apply hall, ⟨flow, hflow, fun n i hi => ⟨?_, ?_⟩⟩, ?_⟩
  · intro hself d hd x hx hne hsource
    refine colors_ne_of_separates hall hsep hi hd (.inl hx) hne (fun hcopy => ?_) hsource
    simp [Allocation.isSelfMove, hcopy] at hself
  · intro d hd x hx hne
    -- A copy writes one temporary only.
    have hcopy : ∀ y, i.copy? ≠ some (d, y) := by
      intro y hcopy
      cases i with
      | move template dst src =>
        simp only [Instr.defs, List.mem_singleton] at hd hx
        exact hne (hx.trans hd.symm)
      | oper => cases hcopy
      | label => cases hcopy
    exact colors_ne_of_separates hall hsep hi hd (.inr hx) hne (hcopy d) (hcopy x)
  · intro hin t ht
    obtain ⟨w₁, p', -, -, hcleared, hcode, hspilled, -⟩ := exists_last_round (P := Cleared)
      ⟨hin, by simp, by simp⟩ (fun hp hnd hmem hspill => hp.spill hnd hmem hspill) h
    rw [← hcode]
    exact hcleared.gone t (hspilled ▸ ht)

theorem crowded_no_false_sharing : ∃ code' alloc w',
    (allocate crowded).run crowdedSpace = (.ok (code', alloc), w') ∧
      alloc.spilled = [.virtual 1] ∧ .virtual 1 ∉ code'.flatMap Instr.temps ∧
      (∀ t ∈ code'.flatMap Instr.temps, t ∈ alloc.colors) ∧
      ∃ flow, Flow.ofCode code' = .ok flow ∧ ∀ n i, code'[n]? = some i →
        Allocation.isSelfMove i = false → ∀ d ∈ i.defs,
          ∀ x ∈ (Liveness.ofCode code' flow).1.after n, x ≠ d → i.copy? ≠ some (d, x) →
            alloc.colors[d]? ≠ alloc.colors[x]? := by
  obtain ⟨code', alloc, w', -, -, hrun, -, hspilled⟩ := exists_run_crowded
  obtain ⟨hall, -, ⟨flow, hflow, hshare⟩, hgone⟩ := allocate_no_false_sharing hrun
  refine ⟨code', alloc, w', hrun, hspilled, ?_, hall, flow, hflow, fun n i hi => (hshare n i hi).1⟩
  refine hgone ?_ _ (by simp [hspilled])
  simp [crowded, crowdedSpace, Instr.op, Instr.temps, Instr.defs, Instr.uses]

end Lowering
