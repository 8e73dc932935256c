import Lowering.Proofs.Expansion
import Lowering.Proofs.Spill.Window

/-!
# Spilling preserves meaning

A list and its spill windows are the same to a watcher, if at the start every spilled
temporary has the value of its slot's cell.  From then on it does: the loads of a
window bring the cells to the fresh temporaries, the instruction works on these, and
the stores bring what was written back to the cells.

## Main definitions

* `SpillAgrees` — the store with spilled temporaries in cells.
* `same_spillWindows` — a list and its spill windows are the same.
-/

namespace Lowering

variable {V M : Type} {meaning : Meaning V M} {offsets : List Int}

/-! ## Loads and stores -/

theorem Store.act_loadSlot {o : Int} (h : o ∈ offsets) (s : Store V M) (t : Temp) :
    s.act meaning offsets (Mips.loadSlot o t) = ⟨[s.cells o], s.cells, s.memory, [], 0⟩ := by
  simp only [Store.act, Instr.act, Instr.access?_loadSlot h]

theorem Store.act_storeSlot {o : Int} (h : o ∈ offsets) (s : Store V M) (t : Temp) :
    s.act meaning offsets (Mips.storeSlot o t) =
      ⟨[], Function.update s.cells o (s.regs t), s.memory, [], 0⟩ := by
  simp only [Store.act, Instr.act, Instr.access?_storeSlot h]
  rfl

/-- Loads change nothing but the temporaries that they load. -/
theorem Store.through_loads (meaning : Meaning V M) (reps : List Spill.Replacement)
    (hslots : ∀ r ∈ reps, r.offset ∈ offsets)
    (hfresh : (reps.map (·.fresh)).Nodup) (s : Store V M) :
    ∃ regs, s.through meaning offsets (reps.map fun r => Mips.loadSlot r.offset r.fresh) =
        ([], ⟨regs, s.cells, s.memory⟩) ∧
      (∀ r ∈ reps, regs r.fresh = s.cells r.offset) ∧
      ∀ t, t ∉ reps.map (·.fresh) → regs t = s.regs t := by
  induction reps generalizing s with
  | nil => exact ⟨s.regs, rfl, by simp, fun _ _ => rfl⟩
  | cons r reps ih =>
    rw [List.map_cons, List.nodup_cons] at hfresh
    obtain ⟨regs, hthrough, hin, hout⟩ := ih (fun r' hr' => hslots r' (List.mem_cons_of_mem _ hr'))
      hfresh.2 (s.after (Mips.loadSlot r.offset r.fresh)
        (s.act meaning offsets (Mips.loadSlot r.offset r.fresh)))
    rw [Store.act_loadSlot (hslots r List.mem_cons_self)] at hthrough hin hout
    refine ⟨regs, ?_, ?_, ?_⟩
    · rw [List.map_cons, Store.through_cons, Store.act_loadSlot (hslots r List.mem_cons_self),
        hthrough]
      rfl
    · intro r' hr'
      rcases List.mem_cons.1 hr' with rfl | hr'
      · rw [hout _ hfresh.1]
        simp [Store.after, Mips.loadSlot, Instr.op, Instr.defs, writeAll]
      · exact hin r' hr'
    · intro t ht
      rw [List.map_cons, List.mem_cons, not_or] at ht
      rw [hout t ht.2]
      simp [Store.after, Mips.loadSlot, Instr.op, Instr.defs, writeAll, ht.1]

/-- Stores change nothing but the cells that they store to. -/
theorem Store.through_stores (meaning : Meaning V M) (reps : List Spill.Replacement)
    (hslots : ∀ r ∈ reps, r.offset ∈ offsets)
    (hoffset : (reps.map (·.offset)).Nodup) (s : Store V M) :
    ∃ cells, s.through meaning offsets (reps.map fun r => Mips.storeSlot r.offset r.fresh) =
        ([], ⟨s.regs, cells, s.memory⟩) ∧
      (∀ r ∈ reps, cells r.offset = s.regs r.fresh) ∧
      ∀ o, o ∉ reps.map (·.offset) → cells o = s.cells o := by
  induction reps generalizing s with
  | nil => exact ⟨s.cells, rfl, by simp, fun _ _ => rfl⟩
  | cons r reps ih =>
    rw [List.map_cons, List.nodup_cons] at hoffset
    obtain ⟨cells, hthrough, hin, hout⟩ := ih (fun r' hr' => hslots r' (List.mem_cons_of_mem _ hr'))
      hoffset.2 (s.after (Mips.storeSlot r.offset r.fresh)
        (s.act meaning offsets (Mips.storeSlot r.offset r.fresh)))
    rw [Store.act_storeSlot (hslots r List.mem_cons_self)] at hthrough hin hout
    refine ⟨cells, ?_, ?_, ?_⟩
    · rw [List.map_cons, Store.through_cons, Store.act_storeSlot (hslots r List.mem_cons_self),
        hthrough]
      rfl
    · intro r' hr'
      rcases List.mem_cons.1 hr' with rfl | hr'
      · rw [hout _ hoffset.1]
        simp [Store.after]
      · exact hin r' hr'
    · intro o ho
      rw [List.map_cons, List.mem_cons, not_or] at ho
      rw [hout o ho.2]
      simp [Store.after, ho.1]

/-! ## Cells that an instruction does not see -/

/-- An instruction does the same with other cells, as long as it does not access one
that differs. -/
theorem Instr.act_congr {i : Instr} (values : List V) {cells cells' : Int → V} (memory : M)
    {P : Int → Prop} (hP : ∀ o t, i = Mips.loadSlot o t ∨ i = Mips.storeSlot o t → P o)
    (hcells : ∀ o, P o → cells o = cells' o) :
    ∃ cells'', i.act meaning offsets values cells' memory =
        { i.act meaning offsets values cells memory with cells := cells'' } ∧
      (∀ o, P o → cells'' o = (i.act meaning offsets values cells memory).cells o) ∧
      ∀ o, ¬ P o → cells'' o = cells' o := by
  unfold act
  cases ha : i.access? offsets with
  | none =>
    cases i with
    | oper => exact ⟨cells', rfl, fun o ho => (hcells o ho).symm, fun _ _ => rfl⟩
    | move => exact ⟨cells', rfl, fun o ho => (hcells o ho).symm, fun _ _ => rfl⟩
    | label => exact ⟨cells', rfl, fun o ho => (hcells o ho).symm, fun _ _ => rfl⟩
  | some a =>
    obtain ⟨o, -, t, ⟨rfl, heq⟩ | ⟨rfl, heq⟩⟩ := eq_of_access? ha
    · have ho := hP o t (.inl heq)
      exact ⟨cells', by simp [hcells o ho], fun o' ho' => (hcells o' ho').symm, fun _ _ => rfl⟩
    · have ho := hP o t (.inr heq)
      cases values with
      | nil => exact ⟨cells', rfl, fun o' ho' => (hcells o' ho').symm, fun _ _ => rfl⟩
      | cons v values =>
        refine ⟨Function.update cells' o v, rfl, ?_, ?_⟩
        · intro o' ho'
          simp only [Function.update_apply]
          split
          · rfl
          · exact (hcells o' ho').symm
        · intro o' ho'
          have hne : o' ≠ o := by
            rintro rfl
            exact ho' ho
          exact Function.update_of_ne hne v cells'

/-! ## Windows -/

/-- The second store is the first one with the spilled temporaries in the cells of
their slots. -/
structure SpillAgrees (slots : Spill.Slots) (bound : Nat) (s t : Store V M) : Prop where
  kept : ∀ {x : Temp}, x.Within bound → slots[x]? = none → t.regs x = s.regs x
  spilled : ∀ {x : Temp} {o : Int}, slots[x]? = some o → t.cells o = s.regs x
  cells : ∀ {o : Int}, (∀ x : Temp, slots[x]? ≠ some o) → s.cells o = t.cells o
  memory : t.memory = s.memory

/-- What is known of the slots of a round: they belong to the machine's slots, no two
temporaries share one, and registers are not spilled. -/
structure SpillSlots (offsets : List Int) (slots : Spill.Slots) : Prop where
  mem : ∀ {x : Temp} {o : Int}, slots[x]? = some o → o ∈ offsets
  unique : ∀ {x y : Temp} {o : Int}, slots[x]? = some o → slots[y]? = some o → x = y
  register : ∀ {x : Temp}, x.isRegister → slots[x]? = none

section

variable {slots : Spill.Slots} {bound base : Nat} {i : Instr} {reps : List Spill.Replacement}
  {s t : Store V M}

theorem SpillSlots.substitute_eq_fp_iff (hslots : SpillSlots offsets slots)
    (hreps : Spill.Replaces slots base i reps) {x : Temp} (hx : x.Within base) :
    Spill.substitute reps x = Mips.fp ↔ x = Mips.fp := by
  have hfp : Spill.substitute reps Mips.fp = Mips.fp :=
    hreps.substitute_of_none (hslots.register rfl)
  constructor
  · intro h
    exact hreps.substitute_inj hx (Temp.within_of_isRegister rfl base) (h.trans hfp.symm)
  · rintro rfl
    exact hfp

/-- The accesses in the windows are to slots of spilled temporaries, or were there
before. -/
theorem SpillSlots.access_spillWindows (hslots : SpillSlots offsets slots) {code : List Instr}
    (hin : ∀ i ∈ code, ∀ x ∈ i.temps, x.Within base) {j : Instr} {o : Int} {u : Temp}
    (hj : j ∈ (Spill.spillWindows slots base code).flatten)
    (heq : j = Mips.loadSlot o u ∨ j = Mips.storeSlot o u) :
    (∃ x : Temp, slots[x]? = some o) ∨
      ∃ i ∈ code, ∃ u, i = Mips.loadSlot o u ∨ i = Mips.storeSlot o u := by
  obtain ⟨i, hi, reps, base', hle, hreps, hj⟩ := Spill.of_mem_spillWindows hj
  rcases Spill.mem_window.1 hj with ⟨r, hr, -, rfl⟩ | rfl | ⟨r, hr, -, rfl⟩
  · refine .inl ⟨r.spilled, (hreps.slot hr).trans (congrArg some ?_)⟩
    rcases heq with heq | heq
    · exact (loadSlot_inj.1 heq).1
    · exact absurd heq loadSlot_ne_storeSlot
  · -- An access is still one if its temporaries are replaced.
    obtain ⟨a, ha⟩ : ∃ a, (i.rename (Spill.substitute reps)).access? [o] = some a := by
      rcases heq with heq | heq <;> rw [heq]
      · exact ⟨_, Instr.access?_loadSlot List.mem_cons_self u⟩
      · exact ⟨_, Instr.access?_storeSlot List.mem_cons_self u⟩
    rw [Instr.access?_rename fun x hx =>
      hslots.substitute_eq_fp_iff hreps ((hin i hi x hx).mono hle)] at ha
    obtain ⟨o', ho', v, h⟩ := Instr.eq_of_access? ha
    obtain rfl := List.mem_singleton.1 ho'
    exact .inr ⟨i, hi, v, h.imp And.right And.right⟩
  · refine .inl ⟨r.spilled, (hreps.slot hr).trans (congrArg some ?_)⟩
    rcases heq with heq | heq
    · exact absurd heq.symm loadSlot_ne_storeSlot
    · exact (storeSlot_inj.1 heq).1

/-- After the loads of a window, what takes the place of a temporary that the
instruction reads has its value, and nothing else has changed. -/
theorem SpillAgrees.through_loads (meaning : Meaning V M) (h : SpillAgrees slots bound s t)
    (hslots : SpillSlots offsets slots) (hreps : Spill.Replaces slots base i reps)
    (hbase : bound ≤ base) (hin : ∀ x ∈ i.temps, x.Within bound) :
    ∃ regs, t.through meaning offsets ((reps.filter fun r => i.uses.contains r.spilled).map
        fun r => Mips.loadSlot r.offset r.fresh) = ([], ⟨regs, t.cells, t.memory⟩) ∧
      (∀ x ∈ i.uses, regs (Spill.substitute reps x) = s.regs x) ∧
      ∀ x : Temp, x.Within bound → slots[x]? = none → regs x = s.regs x := by
  obtain ⟨regs, hthrough, hloaded, hother⟩ :=
    Store.through_loads meaning (reps.filter fun r => i.uses.contains r.spilled)
      (fun r hr => hslots.mem (hreps.slot (List.mem_filter.1 hr).1))
      ((List.filter_sublist.map _).nodup hreps.nodup_fresh) t
  have hkept : ∀ x : Temp, x.Within bound → slots[x]? = none → regs x = s.regs x := by
    intro x hx hnone
    rw [hother x, h.kept hx hnone]
    intro hmem
    obtain ⟨r, hr, rfl⟩ := List.mem_map.1 hmem
    obtain ⟨id, hid, hlo⟩ := hreps.fresh (List.mem_filter.1 hr).1
    exact (hx.mono hbase).ne_virtual hlo hid
  refine ⟨regs, hthrough, ?_, hkept⟩
  intro x hx
  have hxt : x ∈ i.temps := List.mem_append_right _ hx
  cases ho : slots[x]? with
  | none =>
    rw [hreps.substitute_of_none ho]
    exact hkept x (hin x hxt) ho
  | some o =>
    obtain ⟨r, hr, rfl, rfl⟩ := hreps.covers hxt ho
    rw [hreps.substitute_spilled hr, hloaded r (List.mem_filter.2 ⟨hr, by simpa using hx⟩),
      h.spilled ho]

/-- Between its loads and its stores, a window does what its instruction does, except to
cells that the instruction does not see. -/
theorem SpillAgrees.act_rename (meaning : Meaning V M) (h : SpillAgrees slots bound s t)
    (hslots : SpillSlots offsets slots) (hreps : Spill.Replaces slots base i reps)
    (hbase : bound ≤ base) (hin : ∀ x ∈ i.temps, x.Within bound)
    (htouch : ∀ o u, i = Mips.loadSlot o u ∨ i = Mips.storeSlot o u →
      ∀ x : Temp, slots[x]? ≠ some o)
    {regs : Temp → V} (hregs : ∀ x ∈ i.uses, regs (Spill.substitute reps x) = s.regs x) :
    ∃ cells, (Store.mk regs t.cells t.memory).act meaning offsets
        (i.rename (Spill.substitute reps)) = { s.act meaning offsets i with cells := cells } ∧
      (∀ o, (∀ x : Temp, slots[x]? ≠ some o) → cells o = (s.act meaning offsets i).cells o) ∧
      ∀ o, (¬ ∀ x : Temp, slots[x]? ≠ some o) → cells o = t.cells o := by
  have hvalues : (i.rename (Spill.substitute reps)).uses.map regs = i.uses.map s.regs := by
    rw [Instr.uses_rename, List.map_map]
    exact List.map_congr_left hregs
  rw [Store.act, hvalues, h.memory, Instr.act_rename fun x hx =>
    hslots.substitute_eq_fp_iff hreps ((hin x hx).mono hbase)]
  exact Instr.act_congr _ _ htouch fun o ho => h.cells ho

/-- What a window stores goes to the slots of temporaries that its instruction writes. -/
theorem exists_of_mem_stored (hreps : Spill.Replaces slots base i reps) {o : Int}
    (h : o ∈ (reps.filter fun r => i.defs.contains r.spilled).map (·.offset)) :
    ∃ x ∈ i.defs, slots[x]? = some o := by
  obtain ⟨r, hr, rfl⟩ := List.mem_map.1 h
  obtain ⟨hr, hdef⟩ := List.mem_filter.1 hr
  exact ⟨r.spilled, by simpa using hdef, hreps.slot hr⟩

theorem SpillSlots.nodup_stored (hslots : SpillSlots offsets slots)
    (hreps : Spill.Replaces slots base i reps) :
    ((reps.filter fun r => i.defs.contains r.spilled).map (·.offset)).Nodup := by
  refine List.Nodup.map_on ?_ (hreps.nodup_spilled.of_map _ |>.filter _)
  intro r hr r' hr' heq
  have hs := hreps.slot (List.mem_filter.1 hr).1
  have hs' := hreps.slot (List.mem_filter.1 hr').1
  rw [← heq] at hs'
  exact hreps.eq_of_spilled_eq (List.mem_filter.1 hr).1 (List.mem_filter.1 hr').1
    (hslots.unique hs hs')

/-- The temporary that takes the place of another one gets the value that it gets. -/
theorem writeAll_substitute (hreps : Spill.Replaces slots base i reps) (hbase : bound ≤ base)
    (hin : ∀ x ∈ i.temps, x.Within bound) {regs regs' : Temp → V}
    (hkept : ∀ x : Temp, x.Within bound → slots[x]? = none → regs' x = regs x) {vs : List V}
    (hlen : vs.length = i.defs.length) {x : Temp} (hx : x.Within bound)
    (hnone : x ∉ i.defs → slots[x]? = none) :
    writeAll regs' (i.defs.map (Spill.substitute reps)) vs (Spill.substitute reps x) =
      writeAll regs i.defs vs x := by
  refine writeAll_map ?_ hlen ?_
  · intro d hd heq
    exact hreps.substitute_inj ((hin d (List.mem_append_left _ hd)).mono hbase) (hx.mono hbase)
      heq
  · intro hxd
    rw [hreps.substitute_of_none (hnone hxd)]
    exact hkept x hx (hnone hxd)

/-- The stores agree after an instruction and its window. -/
theorem SpillAgrees.through_window (meaning : Meaning V M) (h : SpillAgrees slots bound s t)
    (hslots : SpillSlots offsets slots) (hreps : Spill.Replaces slots base i reps)
    (hbase : bound ≤ base) (hin : ∀ x ∈ i.temps, x.Within bound)
    (htouch : ∀ o u, i = Mips.loadSlot o u ∨ i = Mips.storeSlot o u →
      ∀ x : Temp, slots[x]? ≠ some o) :
    (t.through meaning offsets (Spill.window reps i)).1 = (s.act meaning offsets i).events ∧
      SpillAgrees slots bound (s.after i (s.act meaning offsets i))
        (t.through meaning offsets (Spill.window reps i)).2 := by
  obtain ⟨regs, hloads, huses, hkept⟩ := h.through_loads meaning hslots hreps hbase hin
  obtain ⟨cells, hact, hseen, hunseen⟩ :=
    h.act_rename meaning hslots hreps hbase hin htouch huses
  have hlen : (s.act meaning offsets i).values.length = i.defs.length :=
    Instr.length_values_act (by simp) _ _
  have hwrite := fun {x} => writeAll_substitute hreps hbase hin hkept hlen (x := x)
  obtain ⟨cells', hstores, hstored, hnot⟩ :=
    Store.through_stores meaning (reps.filter fun r => i.defs.contains r.spilled)
      (fun r hr => hslots.mem (hreps.slot (List.mem_filter.1 hr).1)) (hslots.nodup_stored hreps)
      ((Store.mk regs t.cells t.memory).after (i.rename (Spill.substitute reps))
        { s.act meaning offsets i with cells := cells })
  have hwindow : t.through meaning offsets (Spill.window reps i) =
      ((s.act meaning offsets i).events,
        ⟨writeAll regs (i.defs.map (Spill.substitute reps)) (s.act meaning offsets i).values,
          cells', (s.act meaning offsets i).memory⟩) := by
    rw [Spill.window, Store.through_append, Store.through_append, hloads, Store.through_cons, hact,
      Store.through_nil, hstores]
    simp [Store.after]
  rw [hwindow]
  refine ⟨rfl, ?_, ?_, ?_, rfl⟩
  · intro x hx hnone
    have hxw := hwrite hx fun _ => hnone
    rw [hreps.substitute_of_none hnone] at hxw
    exact hxw
  · intro x o ho
    by_cases hxd : x ∈ i.defs
    · have hxt : x ∈ i.temps := List.mem_append_left _ hxd
      obtain ⟨r, hr, rfl, rfl⟩ := hreps.covers hxt ho
      have hr' : r ∈ reps.filter fun r => i.defs.contains r.spilled :=
        List.mem_filter.2 ⟨hr, by simpa using hxd⟩
      have hxw := hwrite (hin _ hxt) (fun hn => absurd hxd hn)
      rw [hreps.substitute_spilled hr] at hxw
      show cells' r.offset = _
      rw [hstored r hr']
      simpa [Store.after] using hxw
    · show cells' o = writeAll s.regs i.defs _ x
      rw [writeAll_of_notMem hxd, ← h.spilled ho, hnot o, ← hunseen o fun hall => hall x ho]
      · rfl
      · intro hmem
        obtain ⟨y, hy, hyo⟩ := exists_of_mem_stored hreps hmem
        exact hxd (hslots.unique ho hyo ▸ hy)
  · intro o ho
    show (s.act meaning offsets i).cells o = cells' o
    rw [hnot o, ← hseen o ho]
    · rfl
    · intro hmem
      obtain ⟨y, -, hyo⟩ := exists_of_mem_stored hreps hmem
      exact ho y hyo

end

/-- Spill windows do what their instructions do. -/
theorem windowStep_spillWindows {slots : Spill.Slots} {code : List Instr} {bound : Nat}
    (meaning : Meaning V M) (flow : Flow) (hslots : SpillSlots offsets slots)
    (hjump : ∀ i ∈ code, i.targets?.isSome → i.defs = [])
    (hin : ∀ i ∈ code, ∀ x ∈ i.temps, x.Within bound)
    (htouch : ∀ i ∈ code, ∀ o u, i = Mips.loadSlot o u ∨ i = Mips.storeSlot o u →
      ∀ x : Temp, slots[x]? ≠ some o)
    {n : Nat} {i : Instr} {w : List Instr} (hi : code[n]? = some i)
    (hw : (Spill.spillWindows slots bound code)[n]? = some w) :
    WindowStep meaning offsets flow (fun _ => SpillAgrees slots bound) n i w := by
  obtain ⟨i', reps, base, hbase, hi', hreps, rfl⟩ := Spill.getElem?_spillWindows hw
  rw [hi] at hi'
  cases hi'
  have hmem := List.mem_of_getElem? hi
  have hwindow : ∀ {s t : Store V M}, SpillAgrees slots bound s t → _ := fun {s t} h =>
    h.through_window meaning hslots hreps hbase (hin i hmem) (htouch i hmem)
  constructor
  · exact fun h => (hwindow h).1
  · exact fun h => (hwindow h).2.memory
  · intro s t first j h hsome hw
    have hdefs := hjump i hmem hsome
    have hsplit : Spill.window reps i = ((reps.filter fun r => i.uses.contains r.spilled).map
        fun r => Mips.loadSlot r.offset r.fresh) ++ [i.rename (Spill.substitute reps)] := by
      simp [Spill.window, hdefs]
    obtain ⟨rfl, hj⟩ := List.append_inj' (hw.symm.trans hsplit) rfl
    obtain rfl : j = i.rename (Spill.substitute reps) := by simpa using hj
    obtain ⟨regs, hloads, huses, -⟩ :=
      h.through_loads meaning hslots hreps hbase (hin i hmem)
    obtain ⟨cells, hact, -, -⟩ :=
      h.act_rename meaning hslots hreps hbase (hin i hmem) (htouch i hmem) huses
    rw [hloads, hact]
  · exact fun h _ => (hwindow h).2

/-- **A list and its spill windows are the same to a watcher**, if the spilled
temporaries start with the values of their cells. -/
theorem same_spillWindows {slots : Spill.Slots} {code : List Instr} {flow flow' : Flow}
    {bound : Nat} (hflow : Flow.ofCode code = .ok flow)
    (hflow' : Flow.ofCode (Spill.spillWindows slots bound code).flatten = .ok flow')
    (hslots : SpillSlots offsets slots) (hjump : ∀ i ∈ code, i.targets?.isSome → i.defs = [])
    (hin : ∀ i ∈ code, ∀ x ∈ i.temps, x.Within bound)
    (htouch : ∀ i ∈ code, ∀ o u, i = Mips.loadSlot o u ∨ i = Mips.storeSlot o u →
      ∀ x : Temp, slots[x]? ≠ some o)
    {s t : Store V M} (hst : SpillAgrees slots bound s t) :
    (execution meaning offsets code flow).Same s.enter
      (execution meaning offsets (Spill.spillWindows slots bound code).flatten flow') t.enter :=
  same_of_windowStep (Spill.forall₂_opens_spillWindows bound hjump) hflow hflow'
    (fun _ _ _ hi hw => windowStep_spillWindows meaning flow hslots hjump hin htouch hi hw) hst
    hst.memory.symm

end Lowering
