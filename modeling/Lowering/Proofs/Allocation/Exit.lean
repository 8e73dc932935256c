import Lowering.Proofs.Allocation.Meaning
import Lowering.Proofs.Arrival

/-!
# Registers at the exit

The end of a function reads what its caller relies on.  So these registers are live to the end,
and when the allocated list comes to its end they hold what they hold in the list over
temporaries.  So does every register in which no virtual temporary is placed.

Nothing is promised of other registers, and the register for the result is one of them: the end
of a function does not read it, so a temporary that is written last may be placed in it.

## Main definitions

* `Allocation.Spares` — a register that allocation leaves alone.
* `allocate_preserves_exit` — it holds the same values when control comes to the end.
* `exists_overwritten_result` — the register for the result need not.
-/

namespace Lowering

variable {V M : Type} {offsets : List Int} {kept : Temp → Prop}

/-! ## The end of a list -/

namespace Mips

theorem isRegister_of_mem_sink : ∀ r ∈ sink.uses, r.isRegister = true := by decide

theorem rename_sink {f : Temp → Temp} (hf : ∀ r : Temp, r.isRegister = true → f r = r) :
    sink.rename f = sink := by
  have huses : sink.uses.map f = sink.uses := by
    rw [List.map_congr_left (g := id) fun r hr => hf r (isRegister_of_mem_sink r hr), List.map_id]
  exact congrArg (fun src => Instr.oper "" [] src (some [])) huses

theorem forall_mem_withSink {P : Instr → Prop} {code : List Instr} :
    (∀ i ∈ withSink code, P i) ↔ (∀ i ∈ code, P i) ∧ P sink := by
  simp [withSink, or_imp, forall_and]

end Mips

/-- The two lists arrive at their ends after the same events, with the same values in the
registers that are kept. -/
def SameExit (offsets : List Int) (kept : Temp → Prop) (code : List Instr) (flow : Flow)
    (s : Store V M) (out : List Instr) (flow' : Flow) (t : Store V M) : Prop :=
  ∀ body, code = Mips.withSink body → ∃ body', out = Mips.withSink body' ∧
    ∀ (meaning : Meaning V M) (es : List (Executed V M)) (values : Temp → V),
      Arrives meaning offsets code flow s es body.length kept values ↔
        Arrives meaning offsets out flow' t es body'.length kept values

theorem SameExit.trans {code₁ code₂ code₃ : List Instr} {flow₁ flow₂ flow₃ : Flow}
    {s₁ s₂ s₃ : Store V M} (h : SameExit offsets kept code₁ flow₁ s₁ code₂ flow₂ s₂)
    (h' : SameExit offsets kept code₂ flow₂ s₂ code₃ flow₃ s₃) :
    SameExit offsets kept code₁ flow₁ s₁ code₃ flow₃ s₃ := by
  intro body hbody
  obtain ⟨body₂, hbody₂, hiff⟩ := h body hbody
  obtain ⟨body₃, hbody₃, hiff'⟩ := h' body₂ hbody₂
  exact ⟨body₃, hbody₃, fun meaning es values =>
    (hiff meaning es values).trans (hiff' meaning es values)⟩

/-- If the last of some windows is the end of a function, they make up a function. -/
theorem flatten_eq_withSink {windows : List (List Instr)} {n : Nat} (hlen : windows.length = n + 1)
    (hw : windows[n]? = some [Mips.sink]) :
    windows.flatten = Mips.withSink (windows.take n).flatten := by
  have htake : windows = windows.take n ++ [[Mips.sink]] := by
    conv_lhs => rw [← List.take_of_length_le (Nat.le_of_eq hlen), List.take_add_one, hw]
    rfl
  rw [htake, List.flatten_append, ← htake]
  rfl

/-- A list and its windows arrive at their ends, if the end is its own window. -/
theorem sameExit_of_windowStep {code : List Instr} {windows : List (List Instr)}
    {flow flow' : Flow} {R : Nat → Store V M → Store V M → Prop}
    (hopens : List.Forall₂ Opens code windows) (hflow : Flow.ofCode code = .ok flow)
    (hflow' : Flow.ofCode windows.flatten = .ok flow')
    (hR : ∀ (meaning : Meaning V M) n i w, code[n]? = some i → windows[n]? = some w →
      WindowStep meaning offsets flow R n i w)
    (hsink : ∀ (n : Nat) w, code[n]? = some Mips.sink → windows[n]? = some w → w = [Mips.sink])
    (hkept : ∀ {n s t}, code[n]? = some Mips.sink → R n s t → ∀ r, kept r → s.regs r = t.regs r)
    {s t : Store V M} (hst : R 0 s t) (hmem : s.memory = t.memory) :
    SameExit offsets kept code flow s windows.flatten flow' t := by
  rintro body rfl
  have hn : (Mips.withSink body)[body.length]? = some Mips.sink := by simp [Mips.withSink]
  obtain ⟨w, hw, -⟩ := forall₂_getElem? hopens hn
  obtain rfl := hsink _ _ hn hw
  have hlen : windows.length = body.length + 1 := by
    rw [← hopens.length_eq]
    simp [Mips.withSink]
  refine ⟨_, flatten_eq_withSink hlen hw, fun meaning es values => ?_⟩
  exact arrives_iff_of_windowStep hopens hflow hflow' (hR meaning) hst hmem hw
    (List.cons_ne_nil _ _) (hkept hn) es values

/-! ## Registers that are renamed to themselves -/

/-- Under a renaming, nothing but the register itself is in its place. -/
def Reserved (f : Temp → Temp) (code : List Instr) (r : Temp) : Prop :=
  f r = r ∧ ∀ x ∈ code.flatMap Instr.temps, f x = r → x = r

theorem Reserved.eq_of_mem {f : Temp → Temp} {code : List Instr} {r : Temp} (h : Reserved f code r)
    {i : Instr} (hi : i ∈ code) {x : Temp} (hx : x ∈ i.temps) (hfx : f x = f r) : x = r :=
  h.2 x (List.mem_flatMap.2 ⟨i, hi, hx⟩) (hfx.trans h.1)

/-- An instruction and its window leave the same value in such a register. -/
theorem Reserved.regs_through {meaning : Meaning V M} {f : Temp → Temp} {code : List Instr}
    {r : Temp} (h : Reserved f code r) {i : Instr} (hi : i ∈ code) {w : List Instr}
    (hw : Renamed f i w) {s t : Store V M}
    (hact : t.act meaning offsets (i.rename f) = s.act meaning offsets i)
    (hst : s.regs r = t.regs r) :
    (s.after i (s.act meaning offsets i)).regs r = (t.through meaning offsets w).2.regs r := by
  rcases hw with rfl | ⟨rfl, hself⟩
  · rw [Store.through_cons, hact]
    simp only [Store.through_nil, Store.after, Instr.defs_rename]
    have hlen : (s.act meaning offsets i).values.length = i.defs.length :=
      Instr.length_values_act (by simp) _ _
    have hwrite : writeAll t.regs (i.defs.map f) (s.act meaning offsets i).values (f r) =
        writeAll s.regs i.defs (s.act meaning offsets i).values r :=
      writeAll_map (fun d hd => h.eq_of_mem hi (List.mem_append_left _ hd)) hlen
        fun _ => by rw [h.1, hst]
    rw [← hwrite, h.1]
  · cases i with
    | oper => simp [Instr.rename, Allocation.isSelfMove, Instr.copy?] at hself
    | label => simp [Instr.rename, Allocation.isSelfMove, Instr.copy?] at hself
    | move template dst src =>
      have hself : f dst = f src := by
        simpa [Instr.rename, Allocation.isSelfMove, Instr.copy?] using hself
      rw [Store.act_move]
      simp only [Store.after, Instr.defs, writeAll, Store.through_nil, Function.update_apply]
      split
      · next hdst =>
        subst hdst
        rw [h.eq_of_mem hi (x := src) (by simp [Instr.temps, Instr.uses]) hself.symm, hst]
      · exact hst

/-- **Renaming keeps registers to the exit**: those that the exit reads, and those that nothing
else is renamed to. -/
theorem sameExit_of_separates {code : List Instr} {windows : List (List Instr)} {flow flow' : Flow}
    {live : Liveness} {f : Temp → Temp} (hflow : Flow.ofCode code = .ok flow)
    (hflow' : Flow.ofCode windows.flatten = .ok flow') (hlive : live.Solves code flow)
    (hsep : Separates live code f)
    (hfp : ∀ i ∈ code, ∀ t ∈ i.temps, f t = Mips.fp ↔ t = Mips.fp)
    (hwindows : List.Forall₂ (Renamed f) code windows)
    (hreg : ∀ r : Temp, r.isRegister = true → f r = r)
    (hkept : ∀ r, kept r → r ∈ Mips.sink.uses ∨ Reserved f code r) {s t : Store V M}
    (hst : AgreesLive live f 0 s t) (hregs : ∀ r, kept r → s.regs r = t.regs r) :
    SameExit offsets kept code flow s windows.flatten flow' t := by
  refine sameExit_of_windowStep
    (R := fun n s t => AgreesLive live f n s t ∧
      ∀ r, kept r → Reserved f code r → s.regs r = t.regs r)
    (hwindows.imp fun _ _ => Renamed.opens) hflow hflow' ?_ ?_ ?_
    ⟨hst, fun r hr _ => hregs r hr⟩ hst.2.2
  · intro meaning n i w hi hw
    obtain ⟨w', hw', hren⟩ := forall₂_getElem? hwindows hi
    obtain rfl : w = w' := Option.some.inj (hw.symm.trans hw')
    have hmem := List.mem_of_getElem? hi
    have hstep : WindowStep meaning offsets flow (AgreesLive live f) n i w :=
      windowStep_of_renamed hlive hsep hi (hfp i hmem) hren
    refine ⟨fun h => hstep.events h.1, fun h => hstep.memory h.1, fun h => hstep.choice h.1, ?_⟩
    intro s t m h hm
    exact ⟨hstep.next h.1 hm, fun r hr hres => hres.regs_through hmem hren
      (h.1.act_rename hlive hi (hfp i hmem)) (h.2 r hr hres)⟩
  · intro n w hn hw
    obtain ⟨w', hw', hren⟩ := forall₂_getElem? hwindows hn
    obtain rfl : w = w' := Option.some.inj (hw.symm.trans hw')
    rcases hren with rfl | ⟨-, hself⟩
    · rw [Mips.rename_sink hreg]
    · rw [Mips.rename_sink hreg] at hself
      cases hself
  · intro n s t hn h r hr
    rcases hkept r hr with hsink | hres
    · rw [h.1.1 r (hlive.uses hn hsink), hreg r (Mips.isRegister_of_mem_sink r hsink)]
    · exact h.2 r hr hres

/-- A list in two stores that agree on its registers and on what is live at its start. -/
theorem sameExit_of_agree {code : List Instr} {flow : Flow} (hflow : Flow.ofCode code = .ok flow)
    {s t : Store V M} (h : ∀ x ∈ (Liveness.ofCode code flow).1.before 0, s.regs x = t.regs x)
    (hcells : s.cells = t.cells) (hmemory : s.memory = t.memory)
    (hregs : ∀ r, kept r → s.regs r = t.regs r) :
    SameExit offsets kept code flow s code flow t := by
  have hsame : SameExit offsets kept code flow s (code.map fun i => [i]).flatten flow t :=
    sameExit_of_separates hflow ((flatten_singletons code).symm ▸ hflow)
      (Liveness.solves_ofCode code flow)
      (fun n i _ d _ x _ hne heq => absurd heq.symm hne) (fun _ _ _ _ => .rfl)
      (forall₂_renamed_id code) (fun _ _ => rfl) (fun r _ => .inr ⟨rfl, fun _ _ => id⟩)
      ⟨h, hcells, hmemory⟩ hregs
  rwa [flatten_singletons] at hsame

/-! ## Registers in spill windows -/

/-- **Spilling keeps registers to the exit.** -/
theorem sameExit_spillWindows {slots : Spill.Slots} {code : List Instr} {flow flow' : Flow}
    {bound : Nat} (hkept : ∀ r, kept r → r.isRegister = true)
    (hflow : Flow.ofCode code = .ok flow)
    (hflow' : Flow.ofCode (Spill.spillWindows slots bound code).flatten = .ok flow')
    (hslots : SpillSlots offsets slots) (hjump : ∀ i ∈ code, i.targets?.isSome → i.defs = [])
    (hin : ∀ i ∈ code, ∀ x ∈ i.temps, x.Within bound)
    (htouch : ∀ i ∈ code, ∀ o u, i = Mips.loadSlot o u ∨ i = Mips.storeSlot o u →
      ∀ x : Temp, slots[x]? ≠ some o)
    {s t : Store V M} (hst : SpillAgrees slots bound s t) :
    SameExit offsets kept code flow s (Spill.spillWindows slots bound code).flatten flow' t := by
  refine sameExit_of_windowStep (R := fun _ => SpillAgrees slots bound)
    (Spill.forall₂_opens_spillWindows bound hjump) hflow hflow' ?_ ?_ ?_ hst hst.memory.symm
  · intro meaning n i w hi hw
    exact windowStep_spillWindows meaning flow hslots hjump hin htouch hi hw
  · intro n w hn hw
    obtain ⟨i, reps, base, -, hi, hreps, rfl⟩ := Spill.getElem?_spillWindows hw
    obtain rfl : Mips.sink = i := Option.some.inj (hn.symm.trans hi)
    -- The end reads only registers, and these are not spilled.
    have hnil : reps = [] := by
      refine List.eq_nil_iff_forall_not_mem.2 fun r hr => ?_
      have hslot := hreps.slot hr
      rw [hslots.register (Mips.isRegister_of_mem_sink _ (hreps.mentioned hr))] at hslot
      cases hslot
    have hrename : Mips.sink.rename (Spill.substitute []) = Mips.sink :=
      Mips.rename_sink fun _ _ => rfl
    rw [hnil, Spill.window, hrename]
    rfl
  · intro n s t _ h r hr
    have hreg := hkept r hr
    exact (h.kept (Temp.within_of_isRegister hreg bound) (hslots.register hreg)).symm

/-! ## Allocation -/

/-- The allocation of a list leaves a register alone: the end of a function reads it, or no virtual
temporary is placed in it. -/
def Allocation.Spares (alloc : Allocation) (code : List Instr) (r : Temp) : Prop :=
  r ∈ Mips.sink.uses ∨ r.isRegister = true ∧
    ∀ t ∈ code.flatMap Instr.temps, t.isRegister = false → alloc.place t ≠ r

theorem Allocation.Spares.isRegister {alloc : Allocation} {code : List Instr} {r : Temp}
    (h : alloc.Spares code r) : r.isRegister = true :=
  h.elim (Mips.isRegister_of_mem_sink r) And.left

/-- An allocation whose colours are those of a round is applied. -/
theorem sameExit_of_apply {palette : List Temp} {unspillable : TempSet} {code out : List Instr}
    {flow : Flow} {alloc : Allocation} {w w' : Workspace} (hflow : Flow.ofCode code = .ok flow)
    (hcolors : alloc.colors = (roundOutcome palette unspillable code flow).colors)
    (happly : (alloc.apply code).run w = (.ok out, w')) (hfp : Mips.fp ∉ palette) :
    ∃ flow', Flow.ofCode out = .ok flow' ∧ ∀ t : Store V M, ∃ s : Store V M, s.Alike t ∧
      SameExit offsets (alloc.Spares code) code flow s out flow' t := by
  obtain ⟨hall, windows, hwindows, rfl⟩ := renamed_of_apply happly
  obtain ⟨flow', hflow'⟩ := Flow.exists_ofCode_flatten
    (hwindows.imp fun _ _ h => (Renamed.opens h).keeps) hflow
  refine ⟨flow', hflow', fun t => ⟨t.unplace alloc, alike_unplace hcolors t, ?_⟩⟩
  refine sameExit_of_separates hflow hflow' (Liveness.solves_ofCode code flow)
    (separates_place hcolors hall) (place_eq_fp_iff_of_mem hcolors hfp hall) hwindows
    (fun r => place_of_isRegister hcolors) ?_ ⟨fun _ _ => rfl, rfl, rfl⟩ ?_
  · rintro r (hr | ⟨hr, hfree⟩)
    · exact .inl hr
    · refine .inr ⟨place_of_isRegister hcolors hr, fun x hx hplace => ?_⟩
      by_cases hreg : x.isRegister = true
      · rw [← hplace, place_of_isRegister hcolors hreg]
      · exact absurd hplace (hfree x hx (by simpa using hreg))
  · exact fun r hr => (alike_unplace hcolors t).registers r hr.isRegister

/-- The rounds of an allocation and its application keep registers to the exit. -/
theorem sameExit_of_allocateRounds {limit round left : Nat} {p : Progress}
    {w w' w₁ w₂ : Workspace} {code' out : List Instr} {alloc : Allocation}
    (h : (allocateRounds limit round left p).run w = (.ok (code', alloc), w'))
    (happly : (alloc.apply code').run w₁ = (.ok out, w₂)) (hfp : Mips.fp ∉ w.frame.palette)
    (hfree : Spillable offsets w.supply.temps w.frame.locals w'.frame.locals p.code) :
    ∃ flow flow', Flow.ofCode p.code = .ok flow ∧ Flow.ofCode out = .ok flow' ∧
      ∀ t : Store V M, ∃ s : Store V M, s.Alike t ∧
        SameExit offsets (alloc.Spares code') p.code flow s out flow' t := by
  refine links_of_allocateRounds (SameExit offsets (alloc.Spares code')) SameExit.trans ?_ ?_ h hfp
    hfree
  · intro slots code flow flow' bound s t hflow hflow' hslots hjump hin htouch hst
    exact sameExit_spillWindows (fun r hr => hr.isRegister) hflow hflow' hslots hjump hin htouch hst
  · exact fun hflow hcolors hpalette => sameExit_of_apply hflow hcolors happly hpalette

/-- A function that gives what is in a word of memory, and then counts the word up. -/
def postIncrement : List Instr :=
  [.op "lw 'd0, 0('s0)" [.virtual 1] [Mips.sp], .move "move 'd0, 's0" Mips.v0 (.virtual 1),
    .op "addi 'd0, 's0, 1" [.virtual 1] [.virtual 1], .op "sw 's1, 0('s0)" [] [Mips.sp, .virtual 1]]

/-- A workspace with all registers for it. -/
def postIncrementSpace : Workspace where
  supply := ⟨1, 0⟩
  frame := { name := .named "next" }

/-- The same function if it does all its work in the register for the result. -/
def postIncrementInResult : List Instr :=
  [.op "lw 'd0, 0('s0)" [Mips.v0] [Mips.sp], .op "addi 'd0, 's0, 1" [Mips.v0] [Mips.v0],
    .op "sw 's1, 0('s0)" [] [Mips.sp, Mips.v0]]

theorem exists_run_postIncrement : ∃ code' alloc w' w₂,
    (allocate (Mips.withSink postIncrement)).run postIncrementSpace = (.ok (code', alloc), w') ∧
      (alloc.apply code').run w' = (.ok (Mips.withSink postIncrementInResult), w₂) ∧
      w'.frame.locals = 0 := by
  have h : (match (allocate (Mips.withSink postIncrement)).run postIncrementSpace with
      | (.ok (code', alloc), w') =>
        ((alloc.apply code').run w').1.toOption = some (Mips.withSink postIncrementInResult) &&
          w'.frame.locals = 0
      | _ => false) = true := by decide +kernel
  split at h
  · next code' alloc w' hrun =>
    rw [Bool.and_eq_true, decide_eq_true_eq, decide_eq_true_eq] at h
    cases happly : (alloc.apply code').run w' with
    | mk result w₂ =>
      rw [happly] at h
      cases result with
      | error e => cases h.1
      | ok out =>
        obtain rfl := Option.some.inj h.1
        exact ⟨code', alloc, w', w₂, hrun, happly, h.2⟩
  · cases h

/-- **Registers at the exit.**  Let no virtual temporary be live at the start, let instructions
that jump write nothing, and let nothing touch the slots that are reserved.  If an allocation of a
function is found and applied, then whatever the operations mean, and whatever the registers, the
cells and the memory hold at first, the function comes to its end exactly if the allocated function
does, after the same events, and with the same values in the return address, in the stack pointer,
in the registers that are saved for the caller, and in every register in which no virtual
temporary is placed. -/
theorem allocate_preserves_exit {code code' out : List Instr} {alloc : Allocation}
    {w w' w₁ w₂ : Workspace} (hfp : Mips.fp ∉ w.frame.palette)
    (hnames : ∀ i ∈ code, ∀ t ∈ i.temps, t.Within w.supply.temps)
    (hentry : ∀ flow, Flow.ofCode (Mips.withSink code) = .ok flow →
      ∀ t ∈ (Liveness.ofCode (Mips.withSink code) flow).1.before 0, t.isRegister = true)
    (hjump : ∀ i ∈ code, i.targets?.isSome → i.defs = [])
    (halloc : (allocate (Mips.withSink code)).run w = (.ok (code', alloc), w'))
    (happly : (alloc.apply code').run w₁ = (.ok out, w₂))
    (htouch : ∀ i ∈ code, i.access? (slotsBetween w.frame.locals w'.frame.locals) = none) :
    (∀ r ∈ Mips.ra :: Mips.sp :: Mips.calleeSaved, alloc.Spares code' r) ∧
      ∃ flow flow', Flow.ofCode (Mips.withSink code) = .ok flow ∧ Flow.ofCode out = .ok flow' ∧
        ∀ s : Store V M, ∃ body, out = Mips.withSink body ∧
          ∀ (meaning : Meaning V M) (es : List (Executed V M)) (values : Temp → V),
            Arrives meaning (slotsBetween w.frame.locals w'.frame.locals) (Mips.withSink code) flow
                s es code.length (alloc.Spares code') values ↔
              Arrives meaning (slotsBetween w.frame.locals w'.frame.locals) out flow' s es
                body.length (alloc.Spares code') values := by
  constructor
  · intro r hr
    refine .inl ?_
    revert r
    decide
  · have hsink : ∀ t ∈ Mips.sink.temps, t.Within w.supply.temps := fun t ht =>
      Temp.within_of_isRegister (Mips.isRegister_of_mem_sink t ht) _
    have hfree := spillable_slotsBetween (Mips.forall_mem_withSink.2 ⟨hnames, hsink⟩)
      (Mips.forall_mem_withSink.2 ⟨hjump, fun _ => rfl⟩)
      (Mips.forall_mem_withSink.2 ⟨htouch, Instr.access?_eq_none (by decide)⟩)
    obtain ⟨flow, flow', hflow, hflow', hlinks⟩ :=
      sameExit_of_allocateRounds (V := V) (M := M) halloc happly hfp hfree
    refine ⟨flow, flow', hflow, hflow', fun t => ?_⟩
    obtain ⟨s, halike, hlink⟩ := hlinks t
    have hregs := fun r hr => (halike.registers r hr).symm
    have hagree : SameExit (slotsBetween w.frame.locals w'.frame.locals) (alloc.Spares code')
        (Mips.withSink code) flow t (Mips.withSink code) flow s :=
      sameExit_of_agree hflow (fun x hx => hregs x (hentry flow hflow x hx)) halike.cells.symm
        halike.memory.symm fun r hr => hregs r hr.isRegister
    exact hagree.trans hlink code rfl

/-- At the start of this function no temporary is live. -/
theorem isRegister_of_live_postIncrement (flow : Flow) :
    ∀ t ∈ (Liveness.ofCode (Mips.withSink postIncrement) flow).1.before 0, t.isRegister = true := by
  have hsol : LiveSolution (Mips.withSink postIncrement) flow
      (fun n t => t.isRegister = true ∨ n ≠ 0 ∧ t = .virtual 1)
      (fun _ t => t.isRegister = true ∨ t = .virtual 1) := by
    have huses : ∀ i ∈ Mips.withSink postIncrement, ∀ t ∈ i.uses,
        t.isRegister = true ∨ t = .virtual 1 := by decide
    constructor
    · intro n i t hi ht
      cases n with
      | zero =>
        cases hi
        obtain rfl := List.mem_singleton.1 ht
        exact .inl rfl
      | succ n => exact (huses i (List.mem_of_getElem? hi) t ht).imp_right fun h => ⟨by simp, h⟩
    · intro n i t hi ht hdef
      cases n with
      | zero =>
        cases hi
        exact .inl (ht.resolve_right fun h => hdef (h ▸ List.mem_singleton_self _))
      | succ n => exact ht.imp_right fun h => ⟨by simp, h⟩
    · exact fun _ _ ht => ht.imp_right And.right
  intro t ht
  exact ((Liveness.inside_ofCode hsol 0 t).1 ht).resolve_right fun h => h.1 rfl

theorem postIncrement_preserves_exit : ∃ code' alloc w' w₂ flow flow',
    (allocate (Mips.withSink postIncrement)).run postIncrementSpace = (.ok (code', alloc), w') ∧
      (alloc.apply code').run w' = (.ok (Mips.withSink postIncrementInResult), w₂) ∧
      (∀ r ∈ Mips.ra :: Mips.sp :: Mips.calleeSaved, alloc.Spares code' r) ∧
      Flow.ofCode (Mips.withSink postIncrement) = .ok flow ∧
      Flow.ofCode (Mips.withSink postIncrementInResult) = .ok flow' ∧
      ∀ s : Store Nat Nat, ∃ body, Mips.withSink postIncrementInResult = Mips.withSink body ∧
        ∀ (meaning : Meaning Nat Nat) (es : List (Executed Nat Nat)) (values : Temp → Nat),
          Arrives meaning (slotsBetween 0 w'.frame.locals) (Mips.withSink postIncrement) flow s es
              postIncrement.length (alloc.Spares code') values ↔
            Arrives meaning (slotsBetween 0 w'.frame.locals) (Mips.withSink postIncrementInResult)
              flow' s es body.length (alloc.Spares code') values := by
  obtain ⟨code', alloc, w', w₂, hrun, happly, -⟩ := exists_run_postIncrement
  obtain ⟨hspares, flow, flow', hflow, hflow', hexit⟩ :=
    allocate_preserves_exit (V := Nat) (M := Nat) (by decide)
      (by
        simp [postIncrement, postIncrementSpace, Instr.op, Instr.temps, Instr.defs, Instr.uses,
          Mips.sp, Mips.v0])
      (fun flow _ => isRegister_of_live_postIncrement flow) (by decide) hrun happly
      (by
        intro i hi
        refine Instr.access?_eq_none ?_
        revert i
        decide)
  exact ⟨code', alloc, w', w₂, flow, flow', hrun, happly, hspares, hflow, hflow', hexit⟩

/-! ## The register for the result -/

/-- A function without jumps is executed up to its end. -/
theorem run_to_sink (meaning : Meaning V M) (slots : List Int) {code : List Instr} {flow : Flow}
    (hflow : Flow.ofCode (Mips.withSink code) = .ok flow) (hcode : ∀ i ∈ code, i.targets? = none)
    (s : Store V M) : ∃ k, (execution meaning slots (Mips.withSink code) flow).Run k s.enter
      (s.through meaning slots code).1 ⟨some code.length, (s.through meaning slots code).2⟩ := by
  obtain ⟨pc, hpc, hrun⟩ := run_through meaning slots hflow hcode (p := 0)
    (fun k i hi => by
      rw [Nat.zero_add, Mips.withSink, List.getElem?_append_left (List.getElem?_eq_some_iff.1 hi).1]
      exact hi) (.inl rfl) s
  rw [Nat.zero_add] at hpc
  obtain rfl := hpc.eq_some (by simp [Mips.withSink])
  exact ⟨_, hrun⟩

/-- **The register for the result is not preserved.**  Its value is copied to it, and then the
temporary that was copied, which is in the same place, is counted up. -/
theorem exists_overwritten_result : ∃ code' alloc w' w₂ flow flow',
    (allocate (Mips.withSink postIncrement)).run postIncrementSpace = (.ok (code', alloc), w') ∧
      (alloc.apply code').run w' = (.ok (Mips.withSink postIncrementInResult), w₂) ∧
      Flow.ofCode (Mips.withSink postIncrement) = .ok flow ∧
      Flow.ofCode (Mips.withSink postIncrementInResult) = .ok flow' ∧
      ∃ (meaning : Meaning Nat Nat) (s : Store Nat Nat) (es : List (Executed Nat Nat)),
        Arrives meaning (slotsBetween 0 w'.frame.locals) (Mips.withSink postIncrement) flow s es
            postIncrement.length (· = Mips.v0) (fun _ => 1) ∧
          Arrives meaning (slotsBetween 0 w'.frame.locals) (Mips.withSink postIncrementInResult)
            flow' s es postIncrementInResult.length (· = Mips.v0) (fun _ => 2) := by
  obtain ⟨code', alloc, w', w₂, hrun, happly, hlocals⟩ := exists_run_postIncrement
  let meaning : Meaning Nat Nat := fun _ values memory => ⟨fun _ => values.sum + 1, memory, 0⟩
  let s : Store Nat Nat := ⟨fun _ => 0, fun _ => 0, 0⟩
  have hflow : Flow.ofCode (Mips.withSink postIncrement) = .ok ⟨#[[1], [2], [3], [4], []]⟩ := rfl
  have hflow' : Flow.ofCode (Mips.withSink postIncrementInResult) =
    .ok ⟨#[[1], [2], [3], []]⟩ := rfl
  obtain ⟨k, harrive⟩ := run_to_sink meaning (slotsBetween 0 0) hflow (by decide) s
  obtain ⟨k', harrive'⟩ := run_to_sink meaning (slotsBetween 0 0) hflow' (by decide) s
  refine ⟨code', alloc, w', w₂, _, _, hrun, happly, hflow, hflow', meaning, s,
    (s.through meaning (slotsBetween 0 0) postIncrement).1, ?_, ?_⟩ <;> rw [hlocals]
  · refine ⟨k, _, harrive, ?_⟩
    rintro r rfl
    rfl
  · refine ⟨k', _, harrive', ?_⟩
    rintro r rfl
    rfl

end Lowering
