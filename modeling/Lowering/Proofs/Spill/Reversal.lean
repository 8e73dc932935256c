import Lowering.Proofs.Spill.Detour
import Mathlib.Data.List.DropRight
import Mathlib.Tactic.Choose

/-!
# Spilling can be undone

Spilling puts loads and stores around instructions and renames spilled temporaries, and it
does nothing else.  Around an instruction there is one load for each spilled temporary that it
reads, and one store for each that it writes, all at the slot of that temporary.  What takes
the place of a spilled temporary in one instruction occurs nowhere else, so that it can be
renamed back; and without the loads and stores this gives the list that there was before.

Slots are never handed out twice by a frame, so those of one round are different from those of
all rounds before.

## Main definitions

* `Mips.Frame.HandedOut` — the offsets that a frame has handed out.
* `Spill.Detour.Spills` — what stands around one instruction.
* `Spill.Reversible` — spilled temporaries can be put back.
* `toSlots_reversible` — the main result.
-/

namespace Lowering

/-- A renaming that keeps the temporaries of an instruction keeps the instruction. -/
theorem Instr.rename_eq_self {i : Instr} {f : Temp → Temp} (h : ∀ t ∈ i.temps, f t = t) :
    i.rename f = i := by
  rw [Instr.temps, List.forall_mem_append] at h
  cases i with
  | oper template dst src jump =>
    have hdst : dst.map f = dst := (List.map_congr_left h.1).trans (List.map_id dst)
    have hsrc : src.map f = src := (List.map_congr_left h.2).trans (List.map_id src)
    rw [Instr.rename, hdst, hsrc]
  | move template dst src =>
    rw [Instr.rename, h.1 dst List.mem_cons_self, h.2 src List.mem_cons_self]
  | label => rfl

/-! ## The offsets of a frame -/

/-- The frame has handed out an offset. -/
inductive Mips.Frame.HandedOut : Mips.Frame → Int → Prop where
  | last (frame : Mips.Frame) : HandedOut frame.reserve.2 frame.reserve.1
  | earlier {frame : Mips.Frame} {offset : Int} :
      HandedOut frame offset → HandedOut frame.reserve.2 offset

theorem Mips.Frame.handedOut_iff {frame : Mips.Frame} {offset : Int} :
    frame.HandedOut offset ↔ ∃ n, 0 < n ∧ n ≤ frame.locals ∧ offset = slotOffset n := by
  constructor
  · intro h
    induction h with
    | last frame => exact ⟨frame.locals + 1, Nat.succ_pos _, Nat.le_refl _, rfl⟩
    | earlier _ ih =>
      obtain ⟨n, hpos, hle, rfl⟩ := ih
      exact ⟨n, hpos, Nat.le_succ_of_le hle, rfl⟩
  · rintro ⟨n, hpos, hle, rfl⟩
    obtain ⟨name, palette, locals⟩ := frame
    induction locals with
    | zero => exact absurd hpos (Nat.not_lt_of_le hle)
    | succ locals ih =>
      rcases Nat.le_succ_iff.1 hle with hle | rfl
      · exact .earlier (ih hle)
      · exact .last ⟨name, palette, locals⟩

namespace Spill

/-! ## What stands around an instruction -/

/-- The list has all temporaries of some kind, each once. -/
structure Lists (ts : List Temp) (P : Temp → Prop) : Prop where
  nodup : ts.Nodup
  mem_iff : ∀ t, t ∈ ts ↔ P t

/-- Loads and stores for exactly those temporaries that are spilled and that the instruction reads
or writes, each at its slot.  What takes their places are different temporaries. -/
structure Detour.Spills (spilled : List Temp) (slot : Temp → Int) (i : Instr) (d : Detour) :
    Prop where
  keeps : ∀ t ∉ spilled, d.sub t = t
  inj : ∀ t ∈ i.temps, ∀ u ∈ i.temps, d.sub t = d.sub u → t = u
  loads : ∃ ts, Lists ts (fun t => t ∈ spilled ∧ t ∈ i.uses) ∧
    d.loads = ts.map fun t => (slot t, d.sub t)
  stores : ∃ ts, Lists ts (fun t => t ∈ spilled ∧ t ∈ i.defs) ∧
    d.stores = ts.map fun t => (slot t, d.sub t)

/-- Take the loads and stores away again. -/
def Detour.strip (d : Detour) (window : List Instr) : List Instr :=
  (window.drop d.loads.length).rdrop d.stores.length

theorem Detour.strip_code (d : Detour) (i : Instr) : d.strip (d.code i) = [i.rename d.sub] := by
  have hloads : (d.loads.map fun p => Mips.loadSlot p.1 p.2).length = d.loads.length :=
    List.length_map _
  have hstores : (d.stores.map fun p => Mips.storeSlot p.1 p.2).length = d.stores.length :=
    List.length_map _
  rw [Detour.strip, Detour.code, List.append_assoc, List.drop_left' hloads, ← hstores,
    List.rdrop_append_length]

variable {slots : Slots} {spilled : List Temp} {slot : Temp → Int} {base lo : Nat} {i : Instr}
  {reps : List Replacement} {code : List Instr}

/-- The slots are those of the spilled temporaries. -/
def SlotsOf (spilled : List Temp) (slot : Temp → Int) (slots : Slots) : Prop :=
  ∀ t, slots[t]? = if t ∈ spilled then some (slot t) else none

theorem SlotsOf.eq_some_iff (h : SlotsOf spilled slot slots) {t : Temp} {o : Int} :
    slots[t]? = some o ↔ t ∈ spilled ∧ slot t = o := by
  rw [h t]
  split <;> simp_all

theorem SlotsOf.eq_none_iff (h : SlotsOf spilled slot slots) {t : Temp} :
    slots[t]? = none ↔ t ∉ spilled := by
  rw [h t]
  split <;> simp_all

/-- The replacements of some temporaries of the instruction, with their slots. -/
theorem Replaces.exists_lists (h : Replaces slots base i reps) (hslots : SlotsOf spilled slot slots)
    {ts : List Temp} (hts : ts ⊆ i.temps) :
    ∃ us, Lists us (fun t => t ∈ spilled ∧ t ∈ ts) ∧
      (reps.filter fun r => ts.contains r.spilled).map (fun r => (r.offset, r.fresh)) =
        us.map fun t => (slot t, substitute reps t) := by
  refine ⟨(reps.filter fun r => ts.contains r.spilled).map (·.spilled), ⟨?_, fun t => ?_⟩, ?_⟩
  · exact (List.filter_sublist.map _).nodup h.nodup_spilled
  · simp only [List.mem_map, List.mem_filter, List.contains_iff_mem]
    constructor
    · rintro ⟨r, ⟨hr, hmem⟩, rfl⟩
      exact ⟨(hslots.eq_some_iff.1 (h.slot hr)).1, hmem⟩
    · rintro ⟨hspilled, hmem⟩
      obtain ⟨r, hr, rfl, -⟩ := h.covers (hts hmem) (hslots.eq_some_iff.2 ⟨hspilled, rfl⟩)
      exact ⟨r, ⟨hr, hmem⟩, rfl⟩
  · rw [List.map_map]
    refine List.map_congr_left fun r hr => ?_
    have hr := (List.mem_filter.1 hr).1
    rw [Function.comp_apply, (hslots.eq_some_iff.1 (h.slot hr)).2, h.substitute_spilled hr]

theorem code_respill (reps : List Replacement) (i : Instr) :
    (({} : Detour).respill reps i).code i = window reps i := by
  simp [Detour.code, Detour.respill, window, Function.comp_def]

theorem Replaces.spills (h : Replaces slots base i reps) (hslots : SlotsOf spilled slot slots)
    (hin : ∀ t ∈ i.temps, t.Within base) :
    (({} : Detour).respill reps i).Spills spilled slot i where
  keeps t ht := h.substitute_of_none (hslots.eq_none_iff.2 ht)
  inj t ht u hu := h.substitute_inj (hin t ht) (hin u hu)
  loads := by
    simpa [Detour.respill] using h.exists_lists hslots (List.subset_append_right i.defs i.uses)
  stores := by
    simpa [Detour.respill] using h.exists_lists hslots (List.subset_append_left i.defs i.uses)

/-! ## What stands around every instruction -/

/-- What the first round of spilling puts around the instructions of a list. -/
def firstDetours (slots : Slots) (base : Nat) (code : List Instr) : List Detour :=
  respillAll slots base code (code.map fun _ => {})

theorem firstDetours_cons (slots : Slots) (base : Nat) (i : Instr) (code : List Instr) :
    firstDetours slots base (i :: code) =
      ({} : Detour).respill (replacementsFrom base (mentioned slots i)) i ::
        firstDetours slots (base + (mentioned slots i).length) code := by
  simp [firstDetours, respillAll]

theorem surround_firstDetours (slots : Slots) (base : Nat) (code : List Instr) :
    surround code (firstDetours slots base code) = spillWindows slots base code := by
  induction code generalizing base with
  | nil => rfl
  | cons i code ih =>
    rw [firstDetours_cons, spillWindows, ← code_respill, ← ih]
    rfl

theorem forall₂_spills (hslots : SlotsOf spilled slot slots)
    (hin : ∀ i ∈ code, ∀ t ∈ i.temps, t.Within base) :
    List.Forall₂ (Detour.Spills spilled slot) code (firstDetours slots base code) := by
  induction code generalizing base with
  | nil => exact .nil
  | cons i code ih =>
    rw [List.forall_mem_cons] at hin
    rw [firstDetours_cons]
    refine .cons ((replaces_replacementsFrom slots base i).spills hslots hin.1) (ih ?_)
    exact fun j hj t ht => (hin.2 j hj t ht).mono (Nat.le_add_right _ _)

/-- A temporary was drawn to take the place of a spilled one. -/
theorem Replaces.mem_map_fresh (h : Replaces slots base i reps)
    (hslots : SlotsOf spilled slot slots) {f : Temp} :
    f ∈ reps.map (·.fresh) ↔ ∃ t ∈ i.temps, t ∈ spilled ∧ substitute reps t = f := by
  rw [List.mem_map]
  constructor
  · rintro ⟨r, hr, rfl⟩
    exact ⟨r.spilled, h.mentioned hr, (hslots.eq_some_iff.1 (h.slot hr)).1,
      h.substitute_spilled hr⟩
  · rintro ⟨t, ht, hspilled, rfl⟩
    obtain ⟨r, hr, rfl, -⟩ := h.covers ht (hslots.eq_some_iff.2 ⟨hspilled, rfl⟩)
    exact ⟨r, hr, (h.substitute_spilled hr).symm⟩

/-- In some instruction a temporary takes the place of a spilled one. -/
def TakesPlace (spilled : List Temp) (code : List Instr) (ds : List Detour) (f : Temp) (n : Nat)
    (t : Temp) : Prop :=
  ∃ i d, code[n]? = some i ∧ ds[n]? = some d ∧ t ∈ i.temps ∧ t ∈ spilled ∧ d.sub t = f

theorem exists_takesPlace_cons {d : Detour} {ds : List Detour} {f : Temp} :
    (∃ n t, TakesPlace spilled (i :: code) (d :: ds) f n t) ↔
      (∃ t ∈ i.temps, t ∈ spilled ∧ d.sub t = f) ∨ ∃ n t, TakesPlace spilled code ds f n t := by
  rw [← Nat.or_exists_add_one]
  simp [TakesPlace]

theorem mem_spillTemps_iff (hslots : SlotsOf spilled slot slots) {f : Temp} :
    f ∈ spillTemps slots base code ↔
      ∃ n t, TakesPlace spilled code (firstDetours slots base code) f n t := by
  induction code generalizing base with
  | nil => simp [spillTemps, TakesPlace]
  | cons i code ih =>
    have hhead := (replaces_replacementsFrom slots base i).mem_map_fresh hslots (f := f)
    rw [spillTemps, List.mem_append, hhead, ih, firstDetours_cons, exists_takesPlace_cons]
    rfl

/-! ## Fresh temporaries belong to one window -/

/-- Windows share temporaries only that were drawn before. -/
theorem pairwise_spillWindows (hin : ∀ i ∈ code, ∀ t ∈ i.temps, t.Within lo) (hle : lo ≤ base) :
    (spillWindows slots base code).Pairwise fun w w' =>
      ∀ t ∈ w.flatMap Instr.temps, t ∈ w'.flatMap Instr.temps → t.Within lo := by
  induction code generalizing base with
  | nil => exact .nil
  | cons i code ih =>
    rw [List.forall_mem_cons] at hin
    rw [spillWindows]
    refine .cons (fun w' hw' t ht ht' => ?_) (ih hin.2 (Nat.le_add_right_of_le hle))
    obtain ⟨j, hj, ht⟩ := List.mem_flatMap.1 ht
    obtain ⟨j', hj', ht'⟩ := List.mem_flatMap.1 ht'
    rcases of_mem_temps_window hj ht with hold | ⟨r, hr, rfl⟩ | rfl
    · exact hin.1 t hold
    · -- The counter has passed what was drawn for the first window when the others are made.
      obtain ⟨id, hid, -, hhi⟩ := fresh_replacementsFrom hr
      rcases of_mem_temps_spillWindows (List.mem_flatten.2 ⟨w', hw', hj'⟩) ht' with
        ⟨hold, -⟩ | hnew | hfp
      · obtain ⟨k, hk, hold⟩ := List.mem_flatMap.1 hold
        exact hin.2 k hk _ hold
      · rw [hid, Temp.within_virtual] at hnew
        exact absurd hhi hnew
      · exact Temp.within_of_isRegister (by rw [hfp]; rfl) lo
    · exact Temp.within_of_isRegister rfl lo

/-- The temporary occurs in the window at an index. -/
def OccursIn (windows : List (List Instr)) (f : Temp) (n : Nat) : Prop :=
  ∃ w, windows[n]? = some w ∧ f ∈ w.flatMap Instr.temps

theorem OccursIn.unique {windows : List (List Instr)} {f : Temp} {m n : Nat}
    (hpairs : windows.Pairwise fun w w' =>
      ∀ t ∈ w.flatMap Instr.temps, t ∈ w'.flatMap Instr.temps → t.Within lo)
    (hf : ¬f.Within lo) (hm : OccursIn windows f m) (hn : OccursIn windows f n) : m = n := by
  obtain ⟨w, hw, hfw⟩ := hm
  obtain ⟨w', hw', hfw'⟩ := hn
  obtain ⟨hm, rfl⟩ := List.getElem?_eq_some_iff.1 hw
  obtain ⟨hn, rfl⟩ := List.getElem?_eq_some_iff.1 hw'
  rw [List.pairwise_iff_getElem] at hpairs
  rcases Nat.lt_trichotomy m n with hlt | heq | hlt
  · exact absurd (hpairs m n hm hn hlt f hfw hfw') hf
  · exact heq
  · exact absurd (hpairs n m hn hm hlt f hfw' hfw) hf

theorem TakesPlace.occursIn {ds : List Detour} {f t : Temp} {n : Nat}
    (h : TakesPlace spilled code ds f n t) : OccursIn (surround code ds) f n := by
  obtain ⟨i, d, hi, hd, ht, -, rfl⟩ := h
  refine ⟨d.code i, by simp [surround, List.getElem?_zipWith, hi, hd], ?_⟩
  refine List.mem_flatMap.2 ⟨_, rename_mem_code d i, ?_⟩
  rw [Instr.temps_rename]
  exact List.mem_map_of_mem ht

/-! ## Renaming back -/

variable {ds : List Detour}

theorem strip_surround (h : code.length = ds.length) :
    (List.zipWith Detour.strip ds (surround code ds)).flatten =
      List.zipWith (fun i d => i.rename d.sub) code ds := by
  induction code generalizing ds with
  | nil => simp [surround]
  | cons i code ih =>
    cases ds with
    | nil => cases h
    | cons d ds =>
      have ih := ih (Nat.succ.inj h)
      rw [surround] at ih
      simp [surround, Detour.strip_code, ih]

/-- What takes the places of spilled temporaries was not drawn before, and is in one window only.
It can be renamed back; if the loads and stores are taken away, this restores the list. -/
structure Reversible (spilled : List Temp) (base : Nat) (code : List Instr) (ds : List Detour)
    (created : List Temp) : Prop where
  mem_created : ∀ f, f ∈ created ↔ ∃ n t, TakesPlace spilled code ds f n t
  fresh : ∀ f ∈ created, ¬f.Within base
  once : ∀ f ∈ created, ∃! n, OccursIn (surround code ds) f n
  restores : ∃ back : Temp → Temp, (∀ t ∉ created, back t = t) ∧
    (∀ f n t, TakesPlace spilled code ds f n t → back f = t) ∧
    (List.zipWith Detour.strip ds (surround code ds)).flatten.map (Instr.rename back) = code

theorem TakesPlace.unique (hspills : List.Forall₂ (Detour.Spills spilled slot) code ds)
    {f t u : Temp} {n : Nat} (ht : TakesPlace spilled code ds f n t)
    (hu : TakesPlace spilled code ds f n u) : t = u := by
  obtain ⟨i, d, hi, hd, hti, -, rfl⟩ := ht
  obtain ⟨i', d', hi', hd', hui, -, heq⟩ := hu
  obtain rfl := Option.some.inj (hi.symm.trans hi')
  obtain rfl := Option.some.inj (hd.symm.trans hd')
  obtain ⟨d', hd', hspill⟩ := forall₂_getElem? hspills hi
  obtain rfl := Option.some.inj (hd.symm.trans hd')
  exact hspill.inj t hti u hui heq.symm

/-- Renaming back undoes the renaming in every instruction. -/
theorem map_rename_back (hspills : List.Forall₂ (Detour.Spills spilled slot) code ds)
    {back : Temp → Temp} (hkept : ∀ i ∈ code, ∀ t ∈ i.temps, back t = t)
    (hback : ∀ f n t, TakesPlace spilled code ds f n t → back f = t) :
    (List.zipWith (fun i d => i.rename d.sub) code ds).map (Instr.rename back) = code := by
  refine List.ext_getElem? fun n => ?_
  rw [List.getElem?_map, List.getElem?_zipWith]
  cases hi : code[n]? with
  | none => rfl
  | some i =>
    obtain ⟨d, hd, hspill⟩ := forall₂_getElem? hspills hi
    rw [hd]
    refine congrArg some ((Instr.rename_rename ..).trans (Instr.rename_eq_self fun t ht => ?_))
    by_cases hspilled : t ∈ spilled
    · exact hback _ n t ⟨i, d, hi, hd, ht, hspilled, rfl⟩
    · rw [Function.comp_apply, hspill.keeps t hspilled, hkept i (List.mem_of_getElem? hi) t ht]

theorem reversible_firstDetours (hslots : SlotsOf spilled slot slots)
    (hin : ∀ i ∈ code, ∀ t ∈ i.temps, t.Within base) :
    Reversible spilled base code (firstDetours slots base code) (spillTemps slots base code) := by
  have hspills := forall₂_spills hslots hin
  have hfresh : ∀ f ∈ spillTemps slots base code, ¬f.Within base := fun f hf =>
    not_within_of_mem_spillTemps hf
  have honce : ∀ f ∈ spillTemps slots base code, ∃! n,
      OccursIn (surround code (firstDetours slots base code)) f n := by
    intro f hf
    obtain ⟨n, t, h⟩ := (mem_spillTemps_iff hslots).1 hf
    refine ⟨n, h.occursIn, fun m hm => ?_⟩
    have hpairs : (spillWindows slots base code).Pairwise fun w w' =>
        ∀ t ∈ w.flatMap Instr.temps, t ∈ w'.flatMap Instr.temps → t.Within base :=
      pairwise_spillWindows hin (Nat.le_refl base)
    rw [← surround_firstDetours] at hpairs
    exact hm.unique hpairs (hfresh f hf) h.occursIn
  have hex : ∀ f, ∃ u, (f ∉ spillTemps slots base code → u = f) ∧
      ∀ n t, TakesPlace spilled code (firstDetours slots base code) f n t → u = t := by
    intro f
    by_cases hf : f ∈ spillTemps slots base code
    · obtain ⟨n, t, h⟩ := (mem_spillTemps_iff hslots).1 hf
      refine ⟨t, fun hnot => absurd hf hnot, fun m u hu => ?_⟩
      obtain rfl := (honce f hf).unique h.occursIn hu.occursIn
      exact h.unique hspills hu
    · exact ⟨f, fun _ => rfl, fun n t h =>
        absurd ((mem_spillTemps_iff hslots).2 ⟨n, t, h⟩) hf⟩
  choose back hkept hback using hex
  refine ⟨fun f => mem_spillTemps_iff hslots, hfresh, honce, back, hkept, hback, ?_⟩
  rw [strip_surround hspills.length_eq]
  refine map_rename_back hspills (fun i hi t ht => hkept t fun hmem => ?_) hback
  exact hfresh t hmem (hin i hi t ht)

/-- **A spilled temporary is gone** if it was drawn before. -/
theorem notMem_surround_firstDetours (hslots : SlotsOf spilled slot slots)
    (hvirtual : ∀ t ∈ spilled, t.isRegister = false) {t : Temp} (ht : t ∈ spilled)
    (hwithin : t.Within base) :
    t ∉ (surround code (firstDetours slots base code)).flatten.flatMap Instr.temps := by
  rw [surround_firstDetours]
  exact notMem_spillWindows (hvirtual t ht) hwithin (.inr fun h => hslots.eq_none_iff.1 h ht)

/-! ## The main result -/

/-- Slots of their own for some temporaries, which are new to the frame. -/
structure Reserves (spilled : List Temp) (slot : Temp → Int) (frame frame' : Mips.Frame) :
    Prop where
  inj : ∀ t ∈ spilled, ∀ u ∈ spilled, slot t = slot u → t = u
  fresh : ∀ t ∈ spilled, ¬frame.HandedOut (slot t)
  handedOut : ∀ offset, frame'.HandedOut offset ↔
    frame.HandedOut offset ∨ ∃ t ∈ spilled, slot t = offset

/-- The slots of temporaries, if they are reserved in the order of a list. -/
def slotFrom (locals : Nat) (ts : List Temp) (t : Temp) : Int :=
  Mips.Frame.slotOffset (locals + 1 + ts.idxOf t)

theorem slotsOf_slotsFrom (hnodup : spilled.Nodup) (locals : Nat) :
    SlotsOf spilled (slotFrom locals spilled) (slotsFrom ∅ locals spilled) := by
  intro t
  rw [getElem?_slotsFrom hnodup]
  rfl

theorem reserves_slotFrom (hnodup : spilled.Nodup) (frame : Mips.Frame) :
    Reserves spilled (slotFrom frame.locals spilled) frame
      { frame with locals := frame.locals + spilled.length } where
  inj t ht u hu heq := by
    rw [slotFrom, slotFrom, slotOffset_inj] at heq
    exact (List.idxOf_inj ht).1 (by omega)
  fresh t _ h := by
    obtain ⟨n, -, hle, heq⟩ := Mips.Frame.handedOut_iff.1 h
    rw [slotFrom, slotOffset_inj] at heq
    omega
  handedOut offset := by
    rw [Mips.Frame.handedOut_iff, Mips.Frame.handedOut_iff]
    constructor
    · rintro ⟨n, hpos, hle, rfl⟩
      by_cases hold : n ≤ frame.locals
      · exact .inl ⟨n, hpos, hold, rfl⟩
      · have hlt : n - frame.locals - 1 < spilled.length := by
          dsimp only at hle
          omega
        refine .inr ⟨spilled[n - frame.locals - 1], List.getElem_mem hlt, ?_⟩
        rw [slotFrom, hnodup.idxOf_getElem, slotOffset_inj]
        omega
    · rintro (⟨n, hpos, hle, rfl⟩ | ⟨t, ht, rfl⟩)
      · exact ⟨n, hpos, Nat.le_add_right_of_le hle, rfl⟩
      · have hlt := List.idxOf_lt_length_iff.2 ht
        refine ⟨frame.locals + 1 + spilled.idxOf t, by omega, ?_, rfl⟩
        dsimp only
        omega

end Spill

open Spill

/-- **Spilling is a reversible expansion.**  Let some different virtual temporaries be spilled, let
the temporaries of a list be drawn before, and let nobody listen or let there be words for every
instruction.  Then spilling gives a list in which every instruction, with its spilled temporaries
replaced, stands behind one load for each of them that it reads and before one store for each of
them that it writes, at the slot of that temporary.  What takes their places is what spilling
returns; each of it is new and in the window of one instruction only, so that it can be renamed
back, and this restores the list as soon as the loads and stores are taken away.  A spilled
temporary that was drawn before does not occur any more.  Different temporaries have different
slots, which are none that the frame has handed out before. -/
theorem toSlots_reversible {spilled : List Temp} {code : List Instr} {w : Workspace}
    (hnodup : spilled.Nodup) (hvirtual : ∀ t ∈ spilled, t.isRegister = false)
    (hnames : ∀ i ∈ code, ∀ t ∈ i.temps, t.Within w.supply.temps)
    (hwords : w.journal.records? = none ∨ ∀ i ∈ code, ∃ text, i.text = .ok text) :
    ∃ slot ds created w',
      (toSlots spilled code).run w = (.ok ((surround code ds).flatten, created), w') ∧
        List.Forall₂ (Detour.Spills spilled slot) code ds ∧
        Reversible spilled w.supply.temps code ds created ∧
        (∀ t ∈ spilled, t.Within w.supply.temps →
          t ∉ (surround code ds).flatten.flatMap Instr.temps) ∧
        Reserves spilled slot w.frame w'.frame := by
  have hslots := slotsOf_slotsFrom hnodup w.frame.locals
  rcases settles_toSlots spilled code w with ⟨out, w', hrun, -⟩ | ⟨i, _, _, ⟨hi, -⟩, hnot, -⟩
  · obtain ⟨rfl, -, hframe⟩ := run_toSlots_eq_ok hrun
    rw [← surround_firstDetours] at hrun
    refine ⟨_, _, _, w', hrun, forall₂_spills hslots hnames,
      reversible_firstDetours hslots hnames,
      fun t ht => notMem_surround_firstDetours hslots hvirtual ht, ?_⟩
    rw [hframe]
    exact reserves_slotFrom hnodup w.frame
  · exact absurd (hwords.imp_right (· i hi)) hnot

/-- A temporary is read twice and written by one instruction, next to another one. -/
def accumulate : List Instr :=
  [.op "add 'd0, 's0, 's1" [.virtual 1] [.virtual 1, .virtual 1],
    .op "sw 's1, 0('s0)" [] [.virtual 2, .virtual 1]]

/-- The frame has handed out a slot before. -/
def accumulateSpace : Workspace :=
  { supply := ⟨2, 0⟩, frame := { name := .named "f", locals := 1 } }

theorem accumulate_reversible :
    ([.virtual 1, .virtual 2] : List Temp).Nodup ∧
    (∀ i ∈ accumulate, ∀ t ∈ i.temps, t.Within 2) ∧ accumulateSpace.frame.HandedOut (-4) ∧
    ∃ slot ds created w', (toSlots [.virtual 1, .virtual 2] accumulate).run accumulateSpace =
        (.ok ((surround accumulate ds).flatten, created), w') ∧
      List.Forall₂ (Detour.Spills [.virtual 1, .virtual 2] slot) accumulate ds ∧
      Reversible [.virtual 1, .virtual 2] 2 accumulate ds created ∧
      (∀ t ∈ ([.virtual 1, .virtual 2] : List Temp),
        t ∉ (surround accumulate ds).flatten.flatMap Instr.temps) ∧
      Reserves [.virtual 1, .virtual 2] slot accumulateSpace.frame w'.frame := by
  have hnames : ∀ i ∈ accumulate, ∀ t ∈ i.temps, t.Within 2 := by
    simp [accumulate, Instr.op, Instr.temps, Instr.defs, Instr.uses]
  have hnodup : ([.virtual 1, .virtual 2] : List Temp).Nodup := by decide
  have hspilled : ∀ t ∈ ([.virtual 1, .virtual 2] : List Temp), t.Within 2 := by simp
  obtain ⟨slot, ds, created, w', hrun, hspills, hreversible, hgone, hreserves⟩ :=
    toSlots_reversible (w := accumulateSpace) hnodup (by decide) hnames (.inl rfl)
  exact ⟨hnodup, hnames, .last { name := .named "f" }, slot, ds, created, w', hrun, hspills,
    hreversible, fun t ht => hgone t ht (hspilled t ht), hreserves⟩

end Lowering
