import Lowering.Proofs.Allocation.Convergence
import Lowering.Proofs.Allocation.Sharing
import Lowering.Proofs.Mips.Select

/-!
# Selected instructions fit

Tame instructions that define every label they jump to can be allocated.  What is live at any
place are virtual temporaries and some registers of which instructions read the value.  With
these there is always room for the operands of one instruction, so spilling converges.  After the
last round every temporary has a register, and the allocation can be applied.

## Main definitions

* `Tames.fitsInto` — tame instructions fit into the registers of the target.
* `Tames.exists_allocate` — they have an allocation, and it can be applied.
-/

namespace Lowering

open Mips

variable {quiet : Prop} {goal : Label → Prop} {n : Nat} {code : List Instr} {flow : Flow}

/-! ## Room for the operands -/

theorem isRegister_of_mem_allocatable : ∀ r ∈ allocatable, r.isRegister = true := by decide

/-- Many registers of the target are never live. -/
theorem Tames.length_live_le (h : Tames quiet goal n code) {p : Temp → Bool}
    (hp : ∀ r ∈ allocatable, p r = true → r ∈ code.flatMap Instr.uses) :
    (allocatable.filter p).length ≤ 13 := by
  have hcount : allocatable.countP (· ∈ readable) ≤ 13 := by decide
  rw [← List.countP_eq_length_filter]
  refine Nat.le_trans (List.countP_mono_left fun r hr hpr => decide_eq_true ?_) hcount
  obtain ⟨i, hi, hri⟩ := List.mem_flatMap.1 (hp r hr hpr)
  exact ((h i hi).uses r hri).register (isRegister_of_mem_allocatable r hr)

theorem distinctVirtual_le (ts : List Temp) :
    distinctVirtual ts ≤ (ts.filter (!·.isRegister)).length :=
  List.toFinset_card_le _

/-- **Every instruction fits by itself.** -/
theorem Tames.fitsAt (h : Tames quiet goal n code) {k : Nat} {i : Instr}
    (hi : code[k]? = some i) : i.FitsAt allocatable (Liveness.ofCode code flow).1 k := by
  have hlive := Liveness.inside_ofCode (Liveness.solution_uses code flow) k
  have hsize : allocatable.length = 24 := rfl
  have htame := h i (List.mem_of_getElem? hi)
  constructor
  · intro _
    have hfew := Nat.le_trans (distinctVirtual_le i.uses) htame.few
    have hregs := h.length_live_le (p := fun r => r ∈ (Liveness.ofCode code flow).1.before k)
      fun r _ hr => (hlive r).1 (of_decide_eq_true hr)
    omega
  · rintro ⟨t, ht, hv⟩
    -- One temporary is written, and that is no register.
    obtain ⟨t', hdefs⟩ := List.length_eq_one_iff.1 (htame.single ⟨t, ht, hv⟩)
    obtain rfl : t = t' := by simpa [hdefs] using ht
    have hone : distinctVirtual i.defs ≤ 1 :=
      Nat.le_trans (distinctVirtual_le i.defs) (by rw [hdefs]; exact List.length_filter_le ..)
    have hregs := h.length_live_le
      (p := fun r => r ∈ (Liveness.ofCode code flow).1.before k ∨
        r ∈ (Liveness.ofCode code flow).1.after k ∨ r ∈ i.defs) fun r hr hlives => by
      rcases of_decide_eq_true hlives with hr' | hr' | hr'
      · exact (hlive r).1 hr'
      · exact (hlive r).2 hr'
      · obtain rfl : r = t := by simpa [hdefs] using hr'
        rw [isRegister_of_mem_allocatable r hr] at hv
        cases hv
    omega

theorem Tames.fitsInto (h : Tames quiet goal n code) (hflow : Flow.ofCode code = .ok flow) :
    FitsInto allocatable code flow :=
  ⟨hflow, by decide, isRegister_of_mem_allocatable, by decide, fun _ _ hi => h.fitsAt hi⟩

/-! ## Allocation -/

theorem Tames.exists_flow (h : Tames quiet goal n code)
    (hgoal : ∀ l, goal l → .define l ∈ code) : ∃ flow, Flow.ofCode code = .ok flow := by
  refine Flow.exists_ofCode_iff.2 fun i hi labels ht l hl => ?_
  exact Flow.isSome_definition (hgoal l ((h i hi).goals labels ht l hl)) (decide_eq_true rfl)

theorem Tames.within (h : Tames quiet goal n code) :
    ∀ i ∈ code, ∀ t ∈ i.temps, t.Within n := fun i hi t ht =>
  (List.mem_append.1 ht).elim ((h i hi).defs t) fun ht => ((h i hi).uses t ht).within

/-- Spilling adds no copies, and those that are there keep their words. -/
theorem exists_text_spillWindows {slots : Spill.Slots} {base : Nat}
    (h : ∀ i ∈ code, i.copy?.isSome → ∃ text, i.text = .ok text) :
    ∀ j ∈ (Spill.spillWindows slots base code).flatten, j.copy?.isSome →
      ∃ text, j.text = .ok text := by
  intro j hj hcopy
  obtain ⟨i, hi, reps, -, -, -, hj⟩ := Spill.of_mem_spillWindows hj
  rcases Spill.mem_window.1 hj with ⟨r, -, -, rfl⟩ | rfl | ⟨r, -, -, rfl⟩
  · cases hcopy
  · rw [Instr.copy?_rename, Option.isSome_map] at hcopy
    obtain ⟨text, ht⟩ := h i hi hcopy
    exact Instr.exists_text_rename _ ht
  · cases hcopy

/-- **Tame instructions have an allocation, and it can be applied.** -/
theorem Tames.exists_allocate {w : Workspace} (h : Tames quiet goal w.supply.temps code)
    (hgoal : ∀ l, goal l → .define l ∈ code) (hquiet : quiet → w.journal.records? = none)
    (hpalette : w.frame.palette = allocatable) :
    ∃ code' alloc w', (allocate code).run w = (.ok (code', alloc), w') ∧
      ∃ out w'', (alloc.apply code').run w' = (.ok out, w'') := by
  obtain ⟨flow, hflow⟩ := h.exists_flow hgoal
  have hfits : FitsInto w.frame.palette code flow := hpalette ▸ h.fitsInto hflow
  rcases exists_allocateRounds _ 1 (virtualCount code + 1) (rounds_start h.within) hfits
    (by simp) with ⟨code', alloc, w', hrun, -⟩ | ⟨i, hi, _, _, hno, -⟩
  · obtain ⟨-, p', flow', outcome, hcopies, rfl, -, -, rfl, hnone, hcolors⟩ :=
      exists_last_round (P := fun _ p => ∀ i ∈ p.code, i.copy?.isSome → ∃ text, i.text = .ok text)
        (fun i hi => (h i hi).copies)
        (fun hp _ _ hspill => hspill.code ▸ exists_text_spillWindows hp) hrun
    refine ⟨p'.code, alloc, w', hrun, exists_run_apply ?_ fun i hi hi' => .inr (hcopies i hi hi')⟩
    rw [hcolors]
    exact fun t => mem_colors_of_spilled_eq_nil hnone
  · exact absurd ((h i hi).words.imp_left hquiet) hno

end Lowering
