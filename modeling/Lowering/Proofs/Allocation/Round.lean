import Lowering.Proofs.Coloring.Assign
import Lowering.Proofs.Renaming
import Lowering.Proofs.Spill.Window

/-!
# One round of allocation

A round colours the interference graph of the list at hand.  Its colours keep apart
whatever an instruction writes and whatever is live behind it, so replacing temporaries
by their registers is a renaming under which nothing live is overwritten.

## Main definitions

* `roundGraph` — the interference graph of an instruction list with its flow.
* `run_colorRound` — what a round gives.
* `separates_place` — its colours separate what is live.
* `renamed_of_apply` — applying an allocation renames.
-/

namespace Lowering

variable {palette : List Temp} {unspillable : TempSet} {code : List Instr} {flow : Flow}

/-- The interference graph of an instruction list with its flow. -/
def roundGraph (palette : List Temp) (code : List Instr) (flow : Flow) : Interference :=
  .ofCode palette code (Liveness.ofCode code flow).1

/-- What colouring the list gives. -/
def roundOutcome (palette : List Temp) (unspillable : TempSet) (code : List Instr) (flow : Flow) :
    Outcome :=
  color palette unspillable (roundGraph palette code flow)

/-- A list in which two temporaries are live at once. -/
def crowded : List Instr :=
  [.op "li 'd0, 1" [.virtual 1] [], .op "li 'd0, 2" [.virtual 2] [],
    .op "print 's0" [] [.virtual 2], .op "print 's0" [] [.virtual 1]]

/-- A workspace with one register for them. -/
def crowdedSpace : Workspace where
  supply := ⟨2, 0⟩
  frame := { name := .named "f", palette := [.register "t0"] }

/-! ## Records -/

/-- In a given frame, the pass gives a value, and all it changes is a journal to which
someone listens. -/
def Tells {α : Type} (frame : Mips.Frame) (x : Pass α) (a : α) : Prop :=
  ∀ w, w.frame = frame → ∃ journal, x.run w = (.ok a, { w with journal := journal }) ∧
    (w.journal.records? = none → journal.records? = none)

section

variable {α β : Type} {frame : Mips.Frame}

theorem tells_pure (a : α) : Tells frame (pure a) a := fun w _ => ⟨w.journal, rfl, id⟩

theorem tells_frame : Tells frame Pass.frame frame := fun w h => ⟨w.journal, by subst h; rfl, id⟩

theorem Tells.bind {x : Pass α} {a : α} {f : α → Pass β} {b : β} (hx : Tells frame x a)
    (hf : Tells frame (f a) b) : Tells frame (x >>= f) b := by
  intro w hw
  obtain ⟨journal, hx, hsilent⟩ := hx w hw
  obtain ⟨journal', hf, hsilent'⟩ := hf { w with journal := journal } hw
  exact ⟨journal', by rw [Attempt.run_bind_ok f hx, hf], hsilent' ∘ hsilent⟩

/-- Words that cannot fault are written. -/
theorem tells_noteText (level : Level) (text : String) :
    Tells frame (Pass.noteText level fun _ => .ok text) () := by
  intro w _
  cases hr : w.journal.records? with
  | none => exact ⟨w.journal, Pass.run_noteText_of_silent hr .., fun _ => hr⟩
  | some records =>
    exact ⟨⟨some (records.push ⟨level, text⟩)⟩, by simp [Pass.noteText, Journal.add, hr], nofun⟩

theorem tells_noteDecisions (ds : List Decision) : Tells frame (noteDecisions ds) () := by
  induction ds with
  | nil => exact tells_pure ()
  | cons d ds ih => exact (tells_noteText .trace d.text).bind ih

/-- **What a round gives**, if all jumps have targets. -/
theorem tells_colorRound (hflow : Flow.ofCode code = .ok flow) (round : Nat)
    (unspillable : TempSet) : Tells frame (colorRound round unspillable code)
      (roundOutcome frame.palette unspillable code flow) := by
  have hanalyse : Tells frame (analyse code) (Liveness.ofCode code flow).1 := by
    rw [analyse, hflow]
    exact (tells_pure flow).bind ((tells_noteText _ _).bind (tells_pure _))
  refine tells_frame.bind (.bind (hanalyse.bind (tells_pure _)) ?_)
  refine (tells_noteText _ _).bind ?_
  refine .bind ((tells_noteDecisions _).bind (tells_pure _)) ?_
  exact (tells_noteText _ _).bind (tells_pure _)

/-- The end of the rounds. -/
theorem tells_finish (p : Progress) (colors : Colors) (round : Nat) : Tells frame (do
      let frame ← Pass.frame
      Pass.note .info ("Allocated registers for " ++ frame.name.text ++ " in " ++
        toString round ++ " rounds, " ++ toString p.spilled.length ++ " spilled")
      pure (p.code, (⟨colors, p.spilled, round⟩ : Allocation)))
    (p.code, ⟨colors, p.spilled, round⟩) :=
  tells_frame.bind ((tells_noteText _ _).bind (tells_pure _))

end

/-- A round needs targets for all jumps. -/
theorem flow_of_colorRound {round : Nat} {w w' : Workspace} {outcome : Outcome}
    (h : (colorRound round unspillable code).run w = (.ok outcome, w')) :
    ∃ flow, Flow.ofCode code = .ok flow := by
  rw [colorRound, Attempt.run_bind_ok _ (Pass.run_frame w), Attempt.run_bind_eq_ok_iff] at h
  obtain ⟨g, w₁, h, -⟩ := h
  rw [interference, Attempt.run_bind_eq_ok_iff] at h
  obtain ⟨live, w₂, h, -⟩ := h
  rw [analyse, Attempt.run_bind_eq_ok_iff] at h
  obtain ⟨flow, w₃, h, -⟩ := h
  cases hflow : Flow.ofCode code with
  | ok flow => exact ⟨flow, rfl⟩
  | error e =>
    rw [hflow] at h
    cases h

/-! ## The colours of a round -/

theorem mem_after_ofCode (n : Nat) (t : Temp) (ht : t ∈ (Liveness.ofCode code flow).1.after n) :
    t ∈ code.flatMap Instr.temps :=
  (Liveness.inside_ofCode (Liveness.solution_temps code flow) n t).2 ht

theorem wellFormed_roundGraph (palette : List Temp) (code : List Instr) (flow : Flow) :
    (roundGraph palette code flow).WellFormed :=
  Interference.wellFormed_ofCode mem_after_ofCode

theorem movesWithin_roundGraph (palette : List Temp) (code : List Instr) (flow : Flow) :
    (roundGraph palette code flow).MovesWithin palette := by
  intro m hm t ht
  rw [roundGraph, Interference.moves_ofCode, List.mem_filterMap] at hm
  obtain ⟨i, hi, hm⟩ := hm
  rw [roundGraph, Interference.mem_nodes_ofCode, List.mem_flatMap]
  cases i with
  | oper => cases hm
  | label => cases hm
  | move template dst src =>
    simp only [Interference.moveOf?, Instr.copy?] at hm
    split at hm
    · next hcond =>
      cases hm
      simp only [Bool.and_eq_true] at hcond
      rcases ht with rfl | rfl
      · exact ⟨⟨_, hi, by simp [Instr.temps, Instr.defs]⟩, hcond.1.2⟩
      · exact ⟨⟨_, hi, by simp [Instr.temps, Instr.uses]⟩, hcond.2⟩
    · cases hm

theorem nodup_spilled_round (palette : List Temp) (unspillable : TempSet) (code : List Instr)
    (flow : Flow) : (roundOutcome palette unspillable code flow).spilled.Nodup :=
  Coloring.nodup_spilled_outcome _

/-- A round spills virtual temporaries of its list. -/
theorem of_mem_spilled_round {t : Temp}
    (ht : t ∈ (roundOutcome palette unspillable code flow).spilled) :
    t ∈ code.flatMap Instr.temps ∧ t.isRegister = false := by
  obtain ⟨hnode, hv⟩ := of_mem_spilled_color (wellFormed_roundGraph palette code flow)
    (movesWithin_roundGraph palette code flow) ht
  exact ⟨Interference.mem_nodes_ofCode.1 hnode, hv⟩

/-- A round colours temporaries of its list, with registers and from the palette. -/
theorem of_colors_round {t c : Temp}
    (hc : (roundOutcome palette unspillable code flow).colors[t]? = some c) :
    t ∈ code.flatMap Instr.temps ∧ (c.isRegister = true ∨ c ∈ palette) := by
  have hg := wellFormed_roundGraph palette code flow
  have hmoves := movesWithin_roundGraph palette code flow
  refine ⟨Interference.mem_nodes_ofCode.1 (mem_nodes_of_color hg hmoves hc), ?_⟩
  cases ht : t.isRegister with
  | true => exact .inl (color_register_eq hg hmoves ht hc ▸ ht)
  | false => exact .inr (color_palette hg hmoves ht hc)

section

variable {alloc : Allocation}
  (hcolors : alloc.colors = (roundOutcome palette unspillable code flow).colors)

include hcolors

/-- Registers stay where they are. -/
theorem place_of_isRegister {t : Temp} (ht : t.isRegister = true) : alloc.place t = t := by
  unfold Allocation.place Allocation.register?
  rw [hcolors]
  cases hc : (roundOutcome palette unspillable code flow).colors[t]? with
  | none => rfl
  | some c =>
    exact color_register_eq (wellFormed_roundGraph palette code flow)
      (movesWithin_roundGraph palette code flow) ht hc

/-- Virtual temporaries that have a colour are in the palette. -/
theorem place_mem_palette {t : Temp} (ht : t.isRegister = false)
    (hc : t ∈ alloc.colors) : alloc.place t ∈ palette := by
  obtain ⟨c, hc⟩ := Option.isSome_iff_exists.1 (Std.TreeMap.isSome_getElem?_iff_mem.2 hc)
  unfold Allocation.place Allocation.register?
  rw [hc, Option.getD_some]
  rw [hcolors] at hc
  exact color_palette (wellFormed_roundGraph palette code flow)
    (movesWithin_roundGraph palette code flow) ht hc

/-- The frame pointer is nobody else's place, unless it is in the palette. -/
theorem place_eq_fp_iff {t : Temp} (hfp : Mips.fp ∉ palette) (hc : t ∈ alloc.colors) :
    alloc.place t = Mips.fp ↔ t = Mips.fp := by
  cases ht : t.isRegister with
  | true => rw [place_of_isRegister hcolors ht]
  | false =>
    refine iff_of_false (fun h => hfp ?_) ?_
    · rw [← h]
      exact place_mem_palette hcolors ht hc
    · rintro rfl
      cases ht

theorem place_eq_fp_iff_of_mem (hfp : Mips.fp ∉ palette)
    (hall : ∀ t ∈ code.flatMap Instr.temps, t ∈ alloc.colors) :
    ∀ i ∈ code, ∀ t ∈ i.temps, alloc.place t = Mips.fp ↔ t = Mips.fp :=
  fun i hi t ht => place_eq_fp_iff hcolors hfp (hall t (List.mem_flatMap.2 ⟨i, hi, ht⟩))

/-- Two temporaries in the same place do not interfere. -/
theorem not_adjacent_of_place_eq {a b : Temp} (ha : a ∈ alloc.colors) (hb : b ∈ alloc.colors)
    (h : alloc.place a = alloc.place b) :
    ¬(roundGraph palette code flow).adjacent a b = true := by
  intro hab
  obtain ⟨c, hc⟩ := Option.isSome_iff_exists.1 (Std.TreeMap.isSome_getElem?_iff_mem.2 ha)
  obtain ⟨d, hd⟩ := Option.isSome_iff_exists.1 (Std.TreeMap.isSome_getElem?_iff_mem.2 hb)
  unfold Allocation.place Allocation.register? at h
  rw [hc, hd, Option.getD_some, Option.getD_some] at h
  rw [hcolors] at hc hd
  exact color_proper (wellFormed_roundGraph palette code flow)
    (movesWithin_roundGraph palette code flow) hab hc hd h

/-- What takes no part in the assignment shares its place with nothing. -/
theorem place_ne_of_not_isAllocatable {a b : Temp} (ha : a.isAllocatable palette = false)
    (hb : b ∈ alloc.colors) (hne : b ≠ a) : alloc.place a ≠ alloc.place b := by
  obtain ⟨hreg, hpalette⟩ : a.isRegister = true ∧ a ∉ palette := by
    simpa [Temp.isAllocatable] using ha
  intro h
  rw [place_of_isRegister hcolors hreg] at h
  cases hbr : b.isRegister with
  | true => exact hne (by rw [h, place_of_isRegister hcolors hbr])
  | false => exact hpalette (h ▸ place_mem_palette hcolors hbr hb)

/-- **The colours of a round separate what is live.** -/
theorem separates_place (hall : ∀ t ∈ code.flatMap Instr.temps, t ∈ alloc.colors) :
    Separates (Liveness.ofCode code flow).1 code alloc.place := by
  intro n i hi d hd x hx hne hplace
  have hdefs : ∀ t ∈ i.defs, t ∈ alloc.colors := fun t ht =>
    hall t (List.mem_flatMap.2 ⟨i, List.mem_of_getElem? hi, List.mem_append_left _ ht⟩)
  have hxc : x ∈ alloc.colors :=
    hx.elim (fun hx => hall x (mem_after_ofCode n x hx)) (hdefs x)
  by_contra hcopy
  rw [not_or] at hcopy
  cases hda : d.isAllocatable palette with
  | false => exact place_ne_of_not_isAllocatable hcolors hda hxc hne hplace
  | true =>
    cases hxa : x.isAllocatable palette with
    | false =>
      exact place_ne_of_not_isAllocatable hcolors hxa (hdefs d hd) (Ne.symm hne) hplace.symm
    | true =>
      refine not_adjacent_of_place_eq hcolors (hdefs d hd) hxc hplace ?_
      refine (Interference.adjacent_ofCode mem_after_ofCode).2
        ⟨Ne.symm hne, .inr ⟨n, i, hi, .inl ?_⟩⟩
      exact Interference.mem_conflicts hd hx hne hda hxa hcopy.1 hcopy.2

end

/-! ## Applying an allocation -/

/-- Applying an allocation renames every instruction and drops copies of a place to
itself.  It succeeds only if every temporary has a register. -/
theorem renamed_of_apply {alloc : Allocation} {out : List Instr} {w w' : Workspace}
    (h : (alloc.apply code).run w = (.ok out, w')) :
    (∀ t ∈ code.flatMap Instr.temps, t ∈ alloc.colors) ∧
      ∃ windows, List.Forall₂ (Renamed alloc.place) code windows ∧ out = windows.flatten := by
  induction code generalizing w out with
  | nil =>
    cases h
    exact ⟨by simp, [], .nil, rfl⟩
  | cons i rest ih =>
    rw [Allocation.apply] at h
    split at h
    · cases h
    · next hmissing =>
      have hall : ∀ t ∈ i.temps, t ∈ alloc.colors := by
        simpa [Allocation.missing?] using hmissing
      dsimp only at h
      split at h
      · next hself =>
        rw [Attempt.run_bind_eq_ok_iff] at h
        obtain ⟨-, w₁, -, h⟩ := h
        obtain ⟨hrest, windows, hwindows, rfl⟩ := ih h
        refine ⟨?_, [] :: windows, .cons (.inr ⟨rfl, hself⟩) hwindows, rfl⟩
        simpa [or_imp, forall_and] using ⟨hall, by simpa using hrest⟩
      · rw [Attempt.run_bind_eq_ok_iff] at h
        obtain ⟨out', w₁, h, hout⟩ := h
        cases hout
        obtain ⟨hrest, windows, hwindows, rfl⟩ := ih h
        refine ⟨?_, [i.rename alloc.place] :: windows, .cons (.inl rfl) hwindows, rfl⟩
        simpa [or_imp, forall_and] using ⟨hall, by simpa using hrest⟩

end Lowering
