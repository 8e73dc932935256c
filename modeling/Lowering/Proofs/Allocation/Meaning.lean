import Lowering.Proofs.Allocation.Round
import Lowering.Proofs.Spill.Meaning

/-!
# Register allocation preserves meaning

The rounds of an allocation form a chain: each but the last replaces the list by its
spill windows, and the last one renames.  Every link keeps what can be seen of a run,
if it starts in the right store; these stores are chosen from the end of the chain to
its start.  They all have the same registers, and the list at the start of the chain
reads nothing else before it writes it.

## Main definitions

* `slotsBetween` — the slots that an allocation has reserved.
* `allocateRounds_cases` — what the rounds do if they end well.
* `allocate_preserves_meaning` — the main result.
-/

namespace Lowering

/-- The offsets of the slots reserved while the number of slots went from `lo` to `hi`. -/
def slotsBetween (lo hi : Nat) : List Int :=
  (List.range' (lo + 1) (hi - lo)).map Mips.Frame.slotOffset

theorem mem_slotsBetween {lo hi : Nat} {o : Int} :
    o ∈ slotsBetween lo hi ↔ ∃ n, lo < n ∧ n ≤ hi ∧ o = Mips.Frame.slotOffset n := by
  simp only [slotsBetween, List.mem_map, List.mem_range'_1]
  constructor
  · rintro ⟨n, hn, rfl⟩
    exact ⟨n, by omega, by omega, rfl⟩
  · rintro ⟨n, hlo, hhi, rfl⟩
    exact ⟨n, by omega, rfl⟩

/-! ## Rounds -/

section

variable {limit round left : Nat} {p : Progress} {w w' : Workspace} {code' : List Instr}
  {alloc : Allocation}

/-- What the rounds do if they end well: the first round colours the list, and then either
nothing was spilled, or the others go on with what was spilled in slots. -/
theorem allocateRounds_succ
    (h : (allocateRounds limit round left p).run w = (.ok (code', alloc), w')) :
    ∃ flow outcome w₁, Flow.ofCode p.code = .ok flow ∧
      outcome = roundOutcome w.frame.palette p.created p.code flow ∧
      w₁.supply = w.supply ∧ w₁.frame = w.frame ∧
      ((outcome.spilled = [] ∧ code' = p.code ∧ alloc = ⟨outcome.colors, p.spilled, round⟩ ∧
          w'.supply = w.supply ∧ w'.frame = w.frame) ∨
        ∃ left' p' created w₂, left = left' + 1 ∧
          (Spill.toSlots outcome.spilled p.code).run w₁ = (.ok (p'.code, created), w₂) ∧
          p'.spilled = p.spilled ++ outcome.spilled ∧
          (allocateRounds limit (round + 1) left' p').run w₂ = (.ok (code', alloc), w')) := by
  cases left with
  | zero => cases h
  | succ left =>
    rw [allocateRounds, Attempt.run_bind_eq_ok_iff] at h
    obtain ⟨outcome, w₁, hround, h⟩ := h
    obtain ⟨flow, hflow⟩ := flow_of_colorRound hround
    obtain ⟨journal, hround', -⟩ := tells_colorRound hflow round p.created w rfl
    rw [hround', Prod.mk.injEq, Except.ok.injEq] at hround
    obtain ⟨rfl, rfl⟩ := hround
    refine ⟨flow, _, { w with journal := journal }, hflow, rfl, rfl, rfl, ?_⟩
    split at h
    · next hspilled =>
      obtain ⟨journal', hrun, -⟩ := tells_finish p
        (roundOutcome w.frame.palette p.created p.code flow).colors round
        { w with journal := journal } rfl
      rw [hrun, Prod.mk.injEq, Except.ok.injEq, Prod.mk.injEq] at h
      obtain ⟨⟨rfl, rfl⟩, rfl⟩ := h
      exact .inl ⟨List.isEmpty_iff.1 hspilled, rfl, rfl, rfl, rfl⟩
    · rw [Attempt.run_bind_eq_ok_iff] at h
      obtain ⟨⟨code₁, created⟩, w₂, hslots, h⟩ := h
      exact .inr ⟨left, _, created, w₂, rfl, hslots, rfl, h⟩

/-- The same with the spill windows. -/
theorem allocateRounds_cases
    (h : (allocateRounds limit round left p).run w = (.ok (code', alloc), w')) :
    ∃ flow outcome, Flow.ofCode p.code = .ok flow ∧
      outcome = roundOutcome w.frame.palette p.created p.code flow ∧
      ((code' = p.code ∧ alloc.colors = outcome.colors ∧ w'.frame = w.frame ∧
          outcome.spilled = [] ∧ alloc.spilled = p.spilled) ∨
        ∃ slots left' p' w₁, slots = Spill.slotsFrom ∅ w.frame.locals outcome.spilled ∧
          p'.code = (Spill.spillWindows slots w.supply.temps p.code).flatten ∧
          p'.spilled = p.spilled ++ outcome.spilled ∧
          w₁.supply.temps = w.supply.temps + Spill.spillCount slots p.code ∧
          w₁.frame = { w.frame with locals := w.frame.locals + outcome.spilled.length } ∧
          left = left' + 1 ∧
          (allocateRounds limit (round + 1) left' p').run w₁ = (.ok (code', alloc), w')) := by
  obtain ⟨flow, outcome, w₁, hflow, hout, hsupply, hframe, ⟨hspilled, hcode, rfl, -, hframe'⟩ |
    ⟨left', p', created, w₂, hleft, hslots, hspilled, h⟩⟩ := allocateRounds_succ h
  · exact ⟨flow, outcome, hflow, hout, .inl ⟨hcode, rfl, hframe', hspilled, rfl⟩⟩
  · obtain ⟨heq, hsupply₂, hframe₂⟩ := Spill.run_toSlots_eq_ok hslots
    rw [hsupply, hframe] at heq hsupply₂
    rw [hframe] at hframe₂
    refine ⟨flow, outcome, hflow, hout, .inr
      ⟨_, left', p', w₂, rfl, congrArg Prod.fst heq, hspilled, ?_, hframe₂, hleft, h⟩⟩
    rw [hsupply₂]

theorem locals_le_of_allocateRounds
    (h : (allocateRounds limit round left p).run w = (.ok (code', alloc), w')) :
    w.frame.locals ≤ w'.frame.locals ∧ w'.frame.palette = w.frame.palette := by
  induction left generalizing round p w with
  | zero => cases h
  | succ left ih =>
    obtain ⟨flow, outcome, -, -,
        ⟨-, -, hframe, -⟩ | ⟨slots, left', p', w₁, -, -, -, -, hframe, hleft, h⟩⟩ :=
      allocateRounds_cases h
    · rw [hframe]
      exact ⟨le_rfl, rfl⟩
    · obtain rfl := Nat.succ.inj hleft
      obtain ⟨hle, hpalette⟩ := ih h
      rw [hframe] at hle hpalette
      exact ⟨by simp only at hle; omega, hpalette⟩

end

/-! ## The chain of rounds -/

section

variable {V M : Type} {offsets : List Int}

/-- Two stores with the same registers, cells and memory. -/
structure Store.Alike (s t : Store V M) : Prop where
  registers : ∀ r : Temp, r.isRegister = true → s.regs r = t.regs r
  cells : s.cells = t.cells
  memory : s.memory = t.memory

/-- The slots of what a round spills. -/
theorem spillSlots_of_round {palette : List Temp} {unspillable : TempSet} {code : List Instr}
    {flow : Flow} {outcome : Outcome} (hout : outcome = roundOutcome palette unspillable code flow)
    {locals : Nat} (hoffsets : ∀ n, locals < n → n ≤ locals + outcome.spilled.length →
      Mips.Frame.slotOffset n ∈ offsets) :
    SpillSlots offsets (Spill.slotsFrom ∅ locals outcome.spilled) := by
  have hnd : outcome.spilled.Nodup := hout ▸ nodup_spilled_round ..
  have hnew := Spill.newSlots_slotsFrom hnd locals
  constructor
  · intro x o hx
    obtain ⟨n, rfl, hlo, hhi⟩ := hnew.bounds hx
    exact hoffsets n hlo hhi
  · exact hnew.unique
  · intro x hx
    refine (Spill.getElem?_slotsFrom_eq_none hnd).2 fun hmem => ?_
    rw [hout] at hmem
    simp [(of_mem_spilled_round hmem).2] at hx

/-- The store before spilling that belongs to a store after it. -/
def Store.unspill (slots : Spill.Slots) (t : Store V M) : Store V M :=
  ⟨fun x => match slots[x]? with
    | some o => t.cells o
    | none => t.regs x, t.cells, t.memory⟩

theorem spillAgrees_unspill (slots : Spill.Slots) (bound : Nat) (t : Store V M) :
    SpillAgrees slots bound (t.unspill slots) t := by
  refine ⟨?_, ?_, fun _ => rfl, rfl⟩
  · intro x _ hx
    simp [Store.unspill, hx]
  · intro x o hx
    simp [Store.unspill, hx]

/-- The slots above `lo` up to `hi` are free for spilling: they belong to the machine, and
nothing in the code touches them. -/
structure Spillable (offsets : List Int) (bound lo hi : Nat) (code : List Instr) : Prop where
  within : ∀ i ∈ code, ∀ t ∈ i.temps, t.Within bound
  jumps : ∀ i ∈ code, i.targets?.isSome → i.defs = []
  untouched : ∀ i ∈ code, ∀ o u, i = Mips.loadSlot o u ∨ i = Mips.storeSlot o u →
    ∀ n, lo < n → n ≤ hi → o ≠ Mips.Frame.slotOffset n
  offsets : ∀ n, lo < n → n ≤ hi → Mips.Frame.slotOffset n ∈ offsets

/-- Slots that nothing in the code touches are free. -/
theorem spillable_slotsBetween {bound lo hi : Nat} {code : List Instr}
    (hnames : ∀ i ∈ code, ∀ t ∈ i.temps, t.Within bound)
    (hjump : ∀ i ∈ code, i.targets?.isSome → i.defs = [])
    (htouch : ∀ i ∈ code, i.access? (slotsBetween lo hi) = none) :
    Spillable (slotsBetween lo hi) bound lo hi code := by
  have hmem : ∀ n, lo < n → n ≤ hi → Mips.Frame.slotOffset n ∈ slotsBetween lo hi :=
    fun n hlo hhi => mem_slotsBetween.2 ⟨n, hlo, hhi, rfl⟩
  refine ⟨hnames, hjump, ?_, hmem⟩
  rintro i hi o u heq n hlo hhi rfl
  have hnone := htouch i hi
  rcases heq with rfl | rfl
  · rw [Instr.access?_loadSlot (hmem n hlo hhi)] at hnone
    cases hnone
  · rw [Instr.access?_storeSlot (hmem n hlo hhi)] at hnone
    cases hnone

/-- Spilling uses up some of the slots and leaves the others free. -/
theorem Spillable.spill {bound lo hi count : Nat} {code : List Instr} {slots : Spill.Slots}
    (h : Spillable offsets bound lo hi code) (hslots : SpillSlots offsets slots)
    (hnew : Spill.NewSlots slots lo count) :
    Spillable offsets (bound + Spill.spillCount slots code) (lo + count) hi
      (Spill.spillWindows slots bound code).flatten where
  within := Spill.within_spillWindows h.within
  jumps := Spill.defs_spillWindows h.jumps
  untouched := by
    intro j hj o u heq n hlo hhi
    rcases hslots.access_spillWindows h.within hj heq with ⟨x, hx⟩ | ⟨i, hi, v, hv⟩
    · obtain ⟨m, rfl, -, hm⟩ := hnew.bounds hx
      rw [ne_eq, Spill.slotOffset_inj]
      omega
    · exact h.untouched i hi o v hv n (by omega) hhi
  offsets n hlo hhi := h.offsets n (by omega) hhi

/-- The store before temporaries are placed that belongs to a store after it. -/
def Store.unplace (alloc : Allocation) (t : Store V M) : Store V M :=
  ⟨fun x => t.regs (alloc.place x), t.cells, t.memory⟩

theorem alike_unplace {palette : List Temp} {unspillable : TempSet} {code : List Instr}
    {flow : Flow} {alloc : Allocation}
    (hcolors : alloc.colors = (roundOutcome palette unspillable code flow).colors)
    (t : Store V M) : (t.unplace alloc).Alike t := by
  refine ⟨fun r hr => ?_, rfl, rfl⟩
  simp only [Store.unplace, place_of_isRegister hcolors hr]

/-- An allocation whose colours are those of a round is applied. -/
theorem same_of_apply {palette : List Temp} {unspillable : TempSet} {code out : List Instr}
    {flow : Flow} {alloc : Allocation} {w w' : Workspace} (hflow : Flow.ofCode code = .ok flow)
    (hcolors : alloc.colors = (roundOutcome palette unspillable code flow).colors)
    (happly : (alloc.apply code).run w = (.ok out, w')) (hfp : Mips.fp ∉ palette) :
    ∃ flow', Flow.ofCode out = .ok flow' ∧
      ∀ t : Store V M, ∃ s : Store V M, s.Alike t ∧ ∀ meaning : Meaning V M,
        (execution meaning offsets code flow).Same s.enter
          (execution meaning offsets out flow') t.enter := by
  obtain ⟨hall, windows, hwindows, rfl⟩ := renamed_of_apply happly
  obtain ⟨flow', hflow'⟩ := Flow.exists_ofCode_flatten
    (hwindows.imp fun _ _ h => (Renamed.opens h).keeps) hflow
  refine ⟨flow', hflow', fun t => ⟨t.unplace alloc, alike_unplace hcolors t, fun meaning => ?_⟩⟩
  exact same_of_separates hflow hflow' (Liveness.solves_ofCode code flow)
    (separates_place hcolors hall) (place_eq_fp_iff_of_mem hcolors hfp hall) hwindows
    ⟨fun _ _ => rfl, rfl, rfl⟩

/-- **What every link of the chain has, the chain has.**  The links are the lists of two rounds,
with stores that agree up to spilling, and the last list with its renamed form.  Every store for
the end of the chain belongs to one for its start that has the same registers, cells and memory. -/
theorem links_of_allocateRounds
    (Link : List Instr → Flow → Store V M → List Instr → Flow → Store V M → Prop)
    {limit round left : Nat} {p : Progress} {w w' : Workspace} {code' out : List Instr}
    {alloc : Allocation}
    (htrans : ∀ {code₁ code₂ code₃ flow₁ flow₂ flow₃ s₁ s₂ s₃}, Link code₁ flow₁ s₁ code₂ flow₂ s₂ →
      Link code₂ flow₂ s₂ code₃ flow₃ s₃ → Link code₁ flow₁ s₁ code₃ flow₃ s₃)
    (hspill : ∀ {slots code flow flow' bound s t}, Flow.ofCode code = .ok flow →
      Flow.ofCode (Spill.spillWindows slots bound code).flatten = .ok flow' →
      SpillSlots offsets slots → (∀ i ∈ code, i.targets?.isSome → i.defs = []) →
      (∀ i ∈ code, ∀ x ∈ i.temps, x.Within bound) →
      (∀ i ∈ code, ∀ o u, i = Mips.loadSlot o u ∨ i = Mips.storeSlot o u →
        ∀ x : Temp, slots[x]? ≠ some o) →
      SpillAgrees slots bound s t →
      Link code flow s (Spill.spillWindows slots bound code).flatten flow' t)
    (hlast : ∀ {palette unspillable flow}, Flow.ofCode code' = .ok flow →
      alloc.colors = (roundOutcome palette unspillable code' flow).colors → Mips.fp ∉ palette →
      ∃ flow', Flow.ofCode out = .ok flow' ∧
        ∀ t, ∃ s : Store V M, s.Alike t ∧ Link code' flow s out flow' t)
    (h : (allocateRounds limit round left p).run w = (.ok (code', alloc), w'))
    (hfp : Mips.fp ∉ w.frame.palette)
    (hfree : Spillable offsets w.supply.temps w.frame.locals w'.frame.locals p.code) :
    ∃ flow flow', Flow.ofCode p.code = .ok flow ∧ Flow.ofCode out = .ok flow' ∧
      ∀ t, ∃ s : Store V M, s.Alike t ∧ Link p.code flow s out flow' t := by
  induction left generalizing round p w with
  | zero => cases h
  | succ left ih =>
    obtain ⟨flow, outcome, hflow, hout, ⟨rfl, hcolors, -⟩ |
      ⟨slots, left', p', w₃, hslots, hcode, -, hsupply, hframe, hleft, h⟩⟩ := allocateRounds_cases h
    · rw [hout] at hcolors
      obtain ⟨flow', hflow', hlink⟩ := hlast hflow hcolors hfp
      exact ⟨flow, flow', hflow, hflow', hlink⟩
    · obtain rfl := Nat.succ.inj hleft
      have hle := (locals_le_of_allocateRounds h).1
      rw [hframe] at hle
      simp only at hle
      have hnew : Spill.NewSlots slots w.frame.locals outcome.spilled.length :=
        hslots ▸ Spill.newSlots_slotsFrom (hout ▸ nodup_spilled_round ..) w.frame.locals
      have hspills : SpillSlots offsets slots := by
        rw [hslots]
        exact spillSlots_of_round hout fun n hlo hhi => hfree.offsets n hlo (hhi.trans hle)
      have hfree' := hfree.spill hspills hnew
      rw [← hcode, ← hsupply] at hfree'
      obtain ⟨flow₁, flow', hflow₁, hflow', hrest⟩ := ih h (by rw [hframe]; exact hfp)
        (by rw [hframe]; exact hfree')
      rw [hcode] at hflow₁
      refine ⟨flow, flow', hflow, hflow', fun t => ?_⟩
      obtain ⟨s, halike, hlink⟩ := hrest t
      rw [hcode] at hlink
      refine ⟨s.unspill slots, ⟨?_, halike.cells, halike.memory⟩, ?_⟩
      · intro r hr
        simp only [Store.unspill, hspills.register hr]
        exact halike.registers r hr
      · refine htrans (hspill hflow hflow₁ hspills hfree.jumps hfree.within ?_
          (spillAgrees_unspill slots _ s)) hlink
        intro i hi o u heq x hx
        obtain ⟨n, rfl, hlo, hhi⟩ := hnew.bounds hx
        exact hfree.untouched i hi _ u heq n hlo (hhi.trans hle) rfl

/-- **The rounds of an allocation and its application keep what can be seen of a run**,
for a store that has the same registers, cells and memory. -/
theorem same_of_allocateRounds {limit round left : Nat} {p : Progress} {w w' w₁ w₂ : Workspace}
    {code' out : List Instr} {alloc : Allocation}
    (h : (allocateRounds limit round left p).run w = (.ok (code', alloc), w'))
    (happly : (alloc.apply code').run w₁ = (.ok out, w₂)) (hfp : Mips.fp ∉ w.frame.palette)
    (hfree : Spillable offsets w.supply.temps w.frame.locals w'.frame.locals p.code) :
    ∃ flow flow', Flow.ofCode p.code = .ok flow ∧ Flow.ofCode out = .ok flow' ∧
      ∀ t : Store V M, ∃ s : Store V M, s.Alike t ∧ ∀ meaning : Meaning V M,
        (execution meaning offsets p.code flow).Same s.enter
          (execution meaning offsets out flow') t.enter := by
  refine links_of_allocateRounds (fun code flow s out flow' t => ∀ meaning : Meaning V M,
    (execution meaning offsets code flow).Same s.enter
      (execution meaning offsets out flow') t.enter) ?_ ?_ ?_ h hfp hfree
  · exact fun hst htu meaning => (hst meaning).trans (htu meaning)
  · intro slots code flow flow' bound s t hflow hflow' hslots hjump hin htouch hst meaning
    exact same_spillWindows hflow hflow' hslots hjump hin htouch hst
  · exact fun hflow hcolors hpalette => same_of_apply hflow hcolors happly hpalette

/-- Every instruction is its own window if nothing is renamed. -/
theorem forall₂_renamed_id (code : List Instr) :
    List.Forall₂ (Renamed id) code (code.map fun i => [i]) := by
  rw [List.forall₂_map_right_iff]
  exact List.forall₂_same.2 fun i _ => .inl (by rw [Instr.rename_id])

theorem flatten_singletons (code : List Instr) : (code.map fun i => [i]).flatten = code := by
  rw [← List.flatMap_def, List.flatMap_singleton']

/-- A list in two stores that agree on what is live at its start. -/
theorem same_of_agree {code : List Instr} {flow : Flow} (hflow : Flow.ofCode code = .ok flow)
    (meaning : Meaning V M) {s t : Store V M}
    (h : ∀ x ∈ (Liveness.ofCode code flow).1.before 0, s.regs x = t.regs x)
    (hcells : s.cells = t.cells) (hmemory : s.memory = t.memory) :
    (execution meaning offsets code flow).Same s.enter
      (execution meaning offsets code flow) t.enter := by
  have hsame : (execution meaning offsets code flow).Same s.enter
      (execution meaning offsets (code.map fun i => [i]).flatten flow) t.enter :=
    same_of_separates hflow ((flatten_singletons code).symm ▸ hflow)
      (Liveness.solves_ofCode code flow)
      (fun n i _ d _ x _ hne heq => absurd heq.symm hne) (fun _ _ _ _ => .rfl)
      (forall₂_renamed_id code) ⟨h, hcells, hmemory⟩
  rwa [flatten_singletons] at hsame

/-- **Register allocation preserves meaning.**  Let no virtual temporary be live at the
start, let instructions that jump write nothing, and let nothing touch the slots that are
reserved.  If an allocation is found and applied, then whatever the operations mean, and
whatever the registers, the cells and the memory hold at first, the list and the allocated
list execute the same operations, on the same values and with the same choices, and if
one of them ends then the other one ends with the same memory. -/
theorem allocate_preserves_meaning {code code' out : List Instr} {alloc : Allocation}
    {w w' w₁ w₂ : Workspace} (hfp : Mips.fp ∉ w.frame.palette)
    (hnames : ∀ i ∈ code, ∀ t ∈ i.temps, t.Within w.supply.temps)
    (hentry : ∀ flow, Flow.ofCode code = .ok flow →
      ∀ t ∈ (Liveness.ofCode code flow).1.before 0, t.isRegister = true)
    (hjump : ∀ i ∈ code, i.targets?.isSome → i.defs = [])
    (halloc : (allocate code).run w = (.ok (code', alloc), w'))
    (happly : (alloc.apply code').run w₁ = (.ok out, w₂))
    (htouch : ∀ i ∈ code, i.access? (slotsBetween w.frame.locals w'.frame.locals) = none) :
    ∃ flow flow', Flow.ofCode code = .ok flow ∧ Flow.ofCode out = .ok flow' ∧
      ∀ (meaning : Meaning V M) (s : Store V M),
        (execution meaning (slotsBetween w.frame.locals w'.frame.locals) code flow).Same s.enter
          (execution meaning (slotsBetween w.frame.locals w'.frame.locals) out flow') s.enter := by
  obtain ⟨flow, flow', hflow, hflow', hsame⟩ := same_of_allocateRounds (V := V) (M := M) halloc
    happly hfp (spillable_slotsBetween hnames hjump htouch)
  refine ⟨flow, flow', hflow, hflow', fun meaning t => ?_⟩
  obtain ⟨s, halike, hst⟩ := hsame t
  refine (same_of_agree hflow meaning ?_ halike.cells.symm halike.memory.symm).trans (hst meaning)
  exact fun x hx => (halike.registers x (hentry flow hflow x hx)).symm

end

/-- One of two crowded temporaries is spilled, and the list that is left can be coloured. -/
theorem exists_run_crowded : ∃ code' alloc w' out w₂,
    (allocate crowded).run crowdedSpace = (.ok (code', alloc), w') ∧
      (alloc.apply code').run w' = (.ok out, w₂) ∧ alloc.spilled = [.virtual 1] := by
  have h : (match (allocate crowded).run crowdedSpace with
      | (.ok (code', alloc), w') =>
        ((alloc.apply code').run w').1.toOption.isSome && alloc.spilled = [.virtual 1]
      | _ => false) = true := by decide +kernel
  split at h
  · next code' alloc w' hrun =>
    rw [Bool.and_eq_true, decide_eq_true_eq] at h
    cases happly : (alloc.apply code').run w' with
    | mk result w₂ =>
      cases result with
      | error e =>
        rw [happly] at h
        cases h.1
      | ok out => exact ⟨code', alloc, w', out, w₂, hrun, happly, h.2⟩
  · cases h

theorem crowded_preserves_meaning : ∃ code' alloc w' out w₂ flow flow',
    (allocate crowded).run crowdedSpace = (.ok (code', alloc), w') ∧
      (alloc.apply code').run w' = (.ok out, w₂) ∧ alloc.spilled = [.virtual 1] ∧
      Flow.ofCode crowded = .ok flow ∧ Flow.ofCode out = .ok flow' ∧
      ∀ (meaning : Meaning Nat Nat) (s : Store Nat Nat),
        (execution meaning (slotsBetween 0 w'.frame.locals) crowded flow).Same s.enter
          (execution meaning (slotsBetween 0 w'.frame.locals) out flow') s.enter := by
  obtain ⟨code', alloc, w', out, w₂, hrun, happly, hspilled⟩ := exists_run_crowded
  obtain ⟨flow, flow', hflow, hflow', hsame⟩ := allocate_preserves_meaning (V := Nat) (M := Nat)
    (by decide) (by simp [crowded, crowdedSpace, Instr.op, Instr.temps, Instr.defs, Instr.uses])
    (by
      intro flow hflow
      obtain rfl : (⟨#[[1], [2], [3], []]⟩ : Flow) = flow := Except.ok.inj hflow
      have hempty : ((Liveness.ofCode crowded ⟨#[[1], [2], [3], []]⟩).1.before 0).toList = [] := by
        decide +kernel
      intro t ht
      rw [← Std.ExtTreeSet.mem_toList, hempty] at ht
      cases ht)
    (by simp [crowded, Instr.op, Instr.targets?]) hrun happly
    (by
      intro i hi
      refine Instr.access?_eq_none ?_
      revert i
      decide)
  exact ⟨code', alloc, w', out, w₂, flow, flow', hrun, happly, hspilled, hflow, hflow', hsame⟩

end Lowering
