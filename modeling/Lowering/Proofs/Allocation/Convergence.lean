import Lowering.Proofs.Spill.Pressure

/-!
# Spilling converges

If every instruction fits into the registers by itself, then no round spills what spilling
made up.  So every round that spills at all moves a virtual temporary of the first list to
the frame, which is gone afterwards, and the rounds come to an end before they are used up.

## Main definitions

* `Rounds` — what holds before every round.
* `exists_allocateRounds` — the rounds that are left suffice.
* `allocate_converges` — the main result.
-/

namespace Lowering

/-! ## One round -/

/-- What holds before every round, for the list that the first round started with. -/
structure Rounds (code : List Instr) (w : Workspace) (p : Progress) (ds : List Spill.Detour) :
    Prop where
  detours : Spill.Detours (fun t => t ∈ p.created) code ds
  code_eq : p.code = (Spill.surround code ds).flatten
  within : ∀ i ∈ p.code, ∀ t ∈ i.temps, t.Within w.supply.temps
  source : ∀ i ∈ code, ∀ t ∈ i.temps, t.Within w.supply.temps
  created : ∀ t ∈ p.created, t.isRegister = false ∧ t.Within w.supply.temps
  nodup : p.spilled.Nodup
  spilled : ∀ t ∈ p.spilled, t ∈ code.flatMap Instr.temps ∧ t.isRegister = false
  gone : ∀ t ∈ p.spilled, t ∉ p.code.flatMap Instr.temps

variable {code : List Instr} {flow : Flow} {w : Workspace} {p : Progress} {ds : List Spill.Detour}

theorem rounds_start (hin : ∀ i ∈ code, ∀ t ∈ i.temps, t.Within w.supply.temps) :
    Rounds code w { code } (code.map fun _ => {}) where
  detours := by
    have : (fun t => t ∈ (∅ : TempSet)) = fun _ => False := by
      ext t
      simp
    rw [this]
    exact Spill.detours_nil code
  code_eq := (Spill.flatten_surround_nil code).symm
  within := hin
  source := hin
  created := by simp
  nodup := .nil
  spilled := by simp
  gone := by simp

namespace Rounds

/-- What was spilled are different virtual temporaries of the first list. -/
theorem length_spilled_le (h : Rounds code w p ds) : p.spilled.length ≤ virtualCount code := by
  rw [virtualCount, ← TempSet.card_toFinset, ← List.toFinset_card_of_nodup h.nodup]
  refine Finset.card_le_card fun t ht => ?_
  obtain ⟨hmem, hv⟩ := h.spilled t (List.mem_toFinset.1 ht)
  rw [TempSet.mem_toFinset, TempSet.mem_ofList, List.mem_filter]
  exact ⟨hmem, by simp [hv]⟩

end Rounds

/-- Every instruction of a list fits into the registers of a palette. -/
structure FitsInto (palette : List Temp) (code : List Instr) (flow : Flow) : Prop where
  flow_eq : Flow.ofCode code = .ok flow
  fp : Mips.fp ∉ palette
  registers : ∀ r ∈ palette, r.isRegister = true
  nodup : palette.Nodup
  fits : ∀ (n : Nat) (i : Instr), code[n]? = some i →
    i.FitsAt palette (Liveness.ofCode code flow).1 n

namespace Rounds

section

variable (h : Rounds code w p ds) (hfits : FitsInto w.frame.palette code flow) {flow' : Flow}
  (hflow' : Flow.ofCode p.code = .ok flow') {outcome : Outcome}
  (hout : outcome = roundOutcome w.frame.palette p.created p.code flow')

include h hfits hflow' hout

/-- **What a round spills** was not made up: it is a virtual temporary of the first list that
was not spilled before. -/
theorem of_mem_spilled {t : Temp} (ht : t ∈ outcome.spilled) :
    t ∉ p.created ∧ t.isRegister = false ∧ t ∈ code.flatMap Instr.temps ∧ t ∉ p.spilled := by
  rw [hout] at ht
  obtain ⟨hnode, hv⟩ := of_mem_spilled_round ht
  have hcreated : t ∉ p.created := by
    refine notMem_of_mem_spilled_color (wellFormed_roundGraph w.frame.palette p.code flow')
      (movesWithin_roundGraph w.frame.palette p.code flow') ?_ hfits.nodup ht
    intro T hT hmade hstuck
    rw [h.code_eq] at hstuck hflow'
    have hempty := h.detours.not_stuck hfits.flow_eq hflow' hfits.fp hfits.registers
      (fun t ht => (h.created t ht).1) hmade hstuck hfits.fits
    exact hT.ne_empty hempty
  refine ⟨hcreated, hv, ?_, fun hmem => h.gone t hmem hnode⟩
  obtain ⟨x, hx, hxt⟩ := List.mem_flatMap.1 hnode
  rw [h.code_eq] at hx
  rcases h.detours.of_mem_temps hx hxt with hmem | hm | rfl
  · exact hmem
  · exact absurd hm hcreated
  · cases hv

variable {slots : Spill.Slots} (hslots : slots = Spill.slotsFrom ∅ w.frame.locals outcome.spilled)

include hslots

theorem spares : Spill.Spares slots fun t => t ∈ p.created := by
  have hnone : ∀ {t}, t ∉ outcome.spilled → slots[t]? = none := by
    intro t ht
    rw [hslots]
    exact (Spill.getElem?_slotsFrom_eq_none (hout ▸ nodup_spilled_round ..)).2 ht
  constructor
  · exact fun ht => hnone fun hmem => (h.of_mem_spilled hfits hflow' hout hmem).1 ht
  · intro t ht
    refine hnone fun hmem => ?_
    have hv := (h.of_mem_spilled hfits hflow' hout hmem).2.1
    rw [ht] at hv
    cases hv

/-- If there are no words for something that a round rewrites, then there are none for an
instruction of the first list. -/
theorem exists_not_wordable {journal : Journal} {x : Instr} (hx : x ∈ p.code)
    (hm : Spill.mentioned slots x ≠ []) (hwords : ¬Spill.Wordable journal x) :
    ∃ i ∈ code, ¬Spill.Wordable journal i := by
  have hs := h.spares hfits hflow' hout hslots
  rw [h.code_eq] at hx
  obtain ⟨n, hn⟩ := List.getElem?_of_mem hx
  obtain ⟨j, i, d, q, hp⟩ := Spill.exists_place hn
  have hx := List.mem_of_getElem? (hp.getElem?_code hn)
  refine ⟨i, List.mem_of_getElem? hp.instr, fun hi => hwords ?_⟩
  rw [(hp.valid h.detours).eq_of_mentioned hs hx hm]
  refine hi.imp_right ?_
  rintro ⟨text, ht⟩
  exact Instr.exists_text_rename _ ht

/-- **What holds before a round holds before the next one.** -/
theorem spill {w₁ : Workspace}
    (hsupply : w₁.supply.temps = w.supply.temps + Spill.spillCount slots p.code) :
    Rounds code w₁
      { code := (Spill.spillWindows slots w.supply.temps p.code).flatten
        spilled := p.spilled ++ outcome.spilled
        created := p.created ∪ TempSet.ofList (Spill.spillTemps slots w.supply.temps p.code) }
      (Spill.respillAll slots w.supply.temps code ds) := by
  have hs := h.spares hfits hflow' hout hslots
  have hnew := fun {t} => h.of_mem_spilled hfits hflow' hout (t := t)
  have hle : w.supply.temps ≤ w₁.supply.temps := by omega
  have hspilled : ∀ t ∈ p.spilled ++ outcome.spilled,
      t ∈ code.flatMap Instr.temps ∧ t.isRegister = false := by
    intro t ht
    rcases List.mem_append.1 ht with ht | ht
    · exact h.spilled t ht
    · exact ⟨(hnew ht).2.2.1, (hnew ht).2.1⟩
  have hmade : (fun t => t ∈ p.created ∪
      TempSet.ofList (Spill.spillTemps slots w.supply.temps p.code)) =
      fun t => t ∈ p.created ∨ t ∈ Spill.spillTemps slots w.supply.temps
        (Spill.surround code ds).flatten := by
    ext t
    rw [← h.code_eq, Std.ExtTreeSet.mem_union_iff, TempSet.mem_ofList]
  constructor
  · rw [hmade]
    refine h.detours.respill hs ?_ h.source fun t ht => (h.created t ht).2
    rw [Spill.SurroundWithin, ← h.code_eq]
    exact h.within
  · show (Spill.spillWindows slots w.supply.temps p.code).flatten = _
    rw [h.code_eq, Spill.flatten_respillAll h.detours.valid hs]
  · rw [hsupply]
    exact Spill.within_spillWindows h.within
  · exact fun i hi t ht => (h.source i hi t ht).mono hle
  · intro t ht
    rw [Std.ExtTreeSet.mem_union_iff, TempSet.mem_ofList] at ht
    rcases ht with ht | ht
    · exact ⟨(h.created t ht).1, (h.created t ht).2.mono hle⟩
    · obtain ⟨id, rfl, -, hhi⟩ := Spill.of_mem_spillTemps ht
      exact ⟨rfl, by rw [hsupply]; exact hhi⟩
  · refine List.nodup_append'.2 ⟨h.nodup, hout ▸ nodup_spilled_round .., ?_⟩
    exact fun t hold hmem => (hnew hmem).2.2.2 hold
  · exact hspilled
  · intro t ht
    obtain ⟨hcode, hv⟩ := hspilled t ht
    obtain ⟨i, hi, hit⟩ := List.mem_flatMap.1 hcode
    refine Spill.notMem_spillWindows hv (h.source i hi t hit) ?_
    refine (List.mem_append.1 ht).imp (h.gone t) fun ht => ?_
    rw [hslots, ne_eq, Spill.getElem?_slotsFrom_eq_none (hout ▸ nodup_spilled_round ..)]
    exact not_not_intro ht

end

end Rounds

/-! ## All rounds -/

/-- **The rounds that are left suffice**, if there are more of them than virtual temporaries
that were not spilled yet; unless an instruction of the first list cannot be put into words. -/
theorem exists_allocateRounds (limit round left : Nat) (h : Rounds code w p ds)
    (hfits : FitsInto w.frame.palette code flow)
    (hleft : virtualCount code < p.spilled.length + left) :
    (∃ code' alloc w', (allocateRounds limit round left p).run w = (.ok (code', alloc), w') ∧
      alloc.rounds < round + left ∧ alloc.spilled.Nodup ∧
      ∀ t ∈ alloc.spilled, t ∈ code.flatMap Instr.temps ∧ t.isRegister = false) ∨
    ∃ i ∈ code, ∃ step w', ¬Spill.Wordable w.journal i ∧
      (allocateRounds limit round left p).run w = (.error (.overflow step), w') := by
  induction left generalizing round w p ds with
  | zero =>
    have := h.length_spilled_le
    omega
  | succ left ih =>
    obtain ⟨flow', hflow'⟩ := Flow.exists_ofCode_flatten h.detours.keeps hfits.flow_eq
    rw [← h.code_eq] at hflow'
    obtain ⟨journal, hround, hsilent⟩ := tells_colorRound hflow' round p.created w rfl
    rw [allocateRounds, Attempt.run_bind_ok _ hround]
    generalize hout : roundOutcome w.frame.palette p.created p.code flow' = outcome
    dsimp only
    split
    · obtain ⟨journal', hrun, -⟩ := tells_finish p outcome.colors round
        { w with journal := journal } rfl
      exact .inl ⟨_, _, _, hrun, by simp, h.nodup, h.spilled⟩
    · next hne =>
      have hlength : 0 < outcome.spilled.length := by
        rw [List.length_pos_iff]
        simpa using hne
      rcases Spill.settles_toSlots outcome.spilled p.code { w with journal := journal } with
        ⟨out, w₁, hslots, hsilent₁⟩ | ⟨x, step, w₁, ⟨hx, hm⟩, hwords, hslots⟩
      · obtain ⟨rfl, hsupply, hframe⟩ := Spill.run_toSlots_eq_ok hslots
        rw [Attempt.run_bind_ok _ hslots]
        have hcount : w₁.supply.temps = w.supply.temps +
            Spill.spillCount (Spill.slotsFrom ∅ w.frame.locals outcome.spilled) p.code := by
          rw [hsupply]
        have hnext := h.spill hfits hflow' hout.symm rfl hcount
        rcases ih (round + 1) hnext (by rw [hframe]; exact hfits)
          (by simp only [List.length_append]; omega) with
          ⟨code', alloc, w', hrun, hrounds, hrest⟩ | ⟨i, hi, step, w', hwords, hrun⟩
        · exact .inl ⟨code', alloc, w', hrun, by omega, hrest⟩
        · exact .inr ⟨i, hi, step, w', fun hw => hwords (hw.imp_left (hsilent₁ ∘ hsilent)), hrun⟩
      · obtain ⟨i, hi, hi'⟩ := h.exists_not_wordable hfits hflow' hout.symm rfl hx hm hwords
        refine .inr ⟨i, hi, step, w₁, fun hw => hi' (hw.imp_left hsilent), ?_⟩
        rw [Attempt.run_bind_error _ hslots]

/-- **Spilling converges whenever every single instruction fits.**  Let the palette hold
different registers other than the frame pointer, and let every instruction fit into them
by itself.  Then the rounds are never used up.  If nobody listens, or if there are words for
every instruction of the list, an allocation is found, in at most one round more than there
are virtual temporaries; and what is spilled are different virtual temporaries of the list,
none of them made up by spilling. -/
theorem allocate_converges (hflow : Flow.ofCode code = .ok flow) (hfp : Mips.fp ∉ w.frame.palette)
    (hregs : ∀ r ∈ w.frame.palette, r.isRegister = true) (hnodup : w.frame.palette.Nodup)
    (hnames : ∀ i ∈ code, ∀ t ∈ i.temps, t.Within w.supply.temps)
    (hfits : ∀ n i, code[n]? = some i →
      Instr.FitsAt w.frame.palette (Liveness.ofCode code flow).1 n i) :
    (∀ rounds w', (allocate code).run w ≠ (.error (.nonConvergence rounds), w')) ∧
    ((w.journal.records? = none ∨ ∀ i ∈ code, ∃ text, i.text = .ok text) →
      ∃ code' alloc w', (allocate code).run w = (.ok (code', alloc), w') ∧
        alloc.rounds ≤ virtualCount code + 1 ∧ alloc.spilled.Nodup ∧
        ∀ t ∈ alloc.spilled, t ∈ code.flatMap Instr.temps ∧ t.isRegister = false ∧
          t.Within w.supply.temps) := by
  have hrounds := exists_allocateRounds (virtualCount code + 1) 1 (virtualCount code + 1)
    (rounds_start hnames) ⟨hflow, hfp, hregs, hnodup, hfits⟩ (by simp)
  constructor
  · intro rounds w' hrun
    rcases hrounds with ⟨_, _, _, hok, -⟩ | ⟨_, _, step, _, -, herror⟩
    · cases hok.symm.trans hrun
    · cases herror.symm.trans hrun
  · intro hwords
    rcases hrounds with ⟨code', alloc, w', hrun, hle, hnodup', hspilled⟩ | ⟨i, hi, _, _, hi', -⟩
    · refine ⟨code', alloc, w', hrun, by omega, hnodup', fun t ht => ?_⟩
      obtain ⟨hmem, hv⟩ := hspilled t ht
      obtain ⟨i, hi, hit⟩ := List.mem_flatMap.1 hmem
      exact ⟨hmem, hv, hnames i hi t hit⟩
    · exact absurd (hwords.imp_right (· i hi)) hi'

theorem crowded_converges :
    (∀ rounds w', (allocate crowded).run crowdedSpace ≠ (.error (.nonConvergence rounds), w')) ∧
    ∃ code' alloc w', (allocate crowded).run crowdedSpace = (.ok (code', alloc), w') ∧
      alloc.rounds ≤ virtualCount crowded + 1 ∧ alloc.spilled.Nodup ∧
      ∀ t ∈ alloc.spilled, t ∈ crowded.flatMap Instr.temps ∧ t.isRegister = false ∧
        t.Within crowdedSpace.supply.temps := by
  have hflow : Flow.ofCode crowded = .ok ⟨#[[1], [2], [3], []]⟩ := rfl
  have hfits : ∀ p ∈ crowded.zipIdx, Instr.FitsAt crowdedSpace.frame.palette
      (Liveness.ofCode crowded ⟨#[[1], [2], [3], []]⟩).1 p.2 p.1 := by decide +kernel
  obtain ⟨hnever, hok⟩ := allocate_converges hflow (w := crowdedSpace) (by decide) (by decide)
    (by decide)
    (by simp [crowded, crowdedSpace, Instr.op, Instr.temps, Instr.defs, Instr.uses])
    fun n i hi => hfits (i, n) (List.mem_zipIdx_iff_getElem?.2 hi)
  exact ⟨hnever, hok (.inl rfl)⟩

end Lowering
