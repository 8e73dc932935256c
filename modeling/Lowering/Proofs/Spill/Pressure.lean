import Lowering.Proofs.Allocation.Round
import Lowering.Proofs.Coloring.Stuck
import Lowering.Proofs.Spill.Detour

/-!
# Register pressure around a spilled instruction

What spilling makes up is live between a load and its instruction, or between an
instruction and a store, and registers are live there only if they were live around the
instruction at first.  So what is made up interferes with few other temporaries, and if
every instruction fits into the registers by itself, then no set of made up temporaries
can get stuck in colouring.

## Main definitions

* `Detour.LiveBefore`, `Detour.LiveAfter` — bounds for what is live inside a detour.
* `Detours.meets_of_adjacent` — what a made up temporary interferes with.
* `Detours.not_stuck` — nothing that was made up gets stuck.
-/

namespace Lowering.Spill

variable {made : Temp → Prop} {i x : Instr} {d : Detour} {code : List Instr} {ds : List Detour}
  {palette : List Temp} {live : Liveness} {n m j q : Nat} {t : Temp}

/-! ## Places in a surrounded list -/

namespace Detour

/-- The instructions of a detour: a load, the instruction itself, or a store. -/
theorem code_cases (h : (d.code i)[q]? = some x) :
    (∃ p, d.loads[q]? = some p ∧ x = Mips.loadSlot p.1 p.2) ∨
      (q = d.loads.length ∧ x = i.rename d.sub) ∨
      ∃ k p, q = d.loads.length + 1 + k ∧ d.stores[k]? = some p ∧ x = Mips.storeSlot p.1 p.2 := by
  rw [code, List.append_assoc, List.getElem?_append] at h
  split at h
  · rw [List.getElem?_map, Option.map_eq_some_iff] at h
    obtain ⟨p, hp, rfl⟩ := h
    exact .inl ⟨p, hp, rfl⟩
  · next hq =>
    rw [List.length_map] at h hq
    obtain ⟨k, rfl⟩ := Nat.exists_eq_add_of_le (Nat.le_of_not_lt hq)
    rw [Nat.add_sub_cancel_left] at h
    cases k with
    | zero =>
      simp only [List.singleton_append, List.getElem?_cons_zero, Option.some.injEq] at h
      exact .inr (.inl ⟨rfl, h.symm⟩)
    | succ k =>
      rw [List.singleton_append, List.getElem?_cons_succ, List.getElem?_map,
        Option.map_eq_some_iff] at h
      obtain ⟨p, hp, rfl⟩ := h
      exact .inr (.inr ⟨k, p, by omega, hp, rfl⟩)

theorem length_code (d : Detour) (i : Instr) :
    (d.code i).length = d.loads.length + 1 + d.stores.length := by
  simp only [code, List.length_append, List.length_map, List.length_singleton]

/-- A detour keeps what its instruction defines and where it jumps. -/
theorem Valid.keeps (hd : d.Valid made i) : Keeps i (d.code i) := by
  cases hlabel : i.isLabel with
  | false =>
    refine keeps_of_plain hlabel (Instr.targets?_rename _ _) ?_ ?_ ?_
    · cases i <;> simp_all [Instr.isLabel, Instr.rename]
    · intro k hk
      obtain ⟨p, -, rfl⟩ := List.mem_map.1 hk
      exact isPlain_loadSlot _ _
    · intro k hk
      obtain ⟨p, -, rfl⟩ := List.mem_map.1 hk
      exact isPlain_storeSlot _ _
  | true =>
    cases i with
    | label template l =>
      have hloads : d.loads = [] := by
        refine List.eq_nil_iff_forall_not_mem.2 fun p hp => ?_
        have := (hd.read.1 (List.mem_map_of_mem hp)).2
        simp [Instr.uses] at this
      have hstores : d.stores = [] := by
        refine List.eq_nil_iff_forall_not_mem.2 fun p hp => ?_
        have := (hd.written.1 (List.mem_map_of_mem hp)).2
        simp [Instr.defs] at this
      rw [code, hloads, hstores]
      exact keeps_label template l
    | _ => simp [Instr.isLabel] at hlabel

end Detour

theorem Detours.keeps (h : Detours made code ds) : List.Forall₂ Keeps code (surround code ds) := by
  have := h.valid
  clear h
  induction this with
  | nil => exact .nil
  | cons hid _ ih => exact .cons hid.keeps ih

theorem Detours.valid_of_getElem? (h : Detours made code ds) (hi : code[j]? = some i)
    (hd : ds[j]? = some d) : d.Valid made i := by
  obtain ⟨d', hd', hvalid⟩ := forall₂_getElem? h.valid hi
  rw [hd, Option.some.injEq] at hd'
  rwa [hd']

theorem getElem?_surround (hi : code[j]? = some i) (hd : ds[j]? = some d) :
    (surround code ds)[j]? = some (d.code i) := by
  simp [surround, List.getElem?_zipWith, hi, hd]

/-- A place in a surrounded list, as a place in a detour. -/
structure Place (code : List Instr) (ds : List Detour) (n j : Nat) (i : Instr) (d : Detour)
    (q : Nat) : Prop where
  instr : code[j]? = some i
  detour : ds[j]? = some d
  index : n = windowStart (surround code ds) j + q
  lt : q < (d.code i).length

theorem exists_place (hx : (surround code ds).flatten[n]? = some x) :
    ∃ j i d q, Place code ds n j i d q := by
  induction code generalizing ds n with
  | nil => simp [surround] at hx
  | cons i code ih =>
    cases ds with
    | nil => simp [surround] at hx
    | cons d ds =>
      rw [surround, List.zipWith_cons_cons, List.flatten_cons, List.getElem?_append] at hx
      split at hx
      · next hn => exact ⟨0, i, d, n, rfl, rfl, by simp, hn⟩
      · obtain ⟨j, i', d', q, hp⟩ := ih hx
        refine ⟨j + 1, i', d', q, hp.instr, hp.detour, ?_, hp.lt⟩
        have hn := hp.index
        rw [surround, List.zipWith_cons_cons, windowStart_cons_succ]
        simp only [surround] at hn
        omega

namespace Place

variable (hp : Place code ds n j i d q)

include hp

/-- The instruction at a place is the one in the detour. -/
theorem getElem?_code (hx : (surround code ds).flatten[n]? = some x) : (d.code i)[q]? = some x := by
  obtain ⟨y, hy⟩ : ∃ y, (d.code i)[q]? = some y := ⟨_, List.getElem?_eq_getElem hp.lt⟩
  rw [hp.index, getElem?_flatten (getElem?_surround hp.instr hp.detour) hy] at hx
  rw [hy, hx]

theorem windowStart_succ : windowStart (surround code ds) (j + 1) =
    windowStart (surround code ds) j + (d.code i).length :=
  Lowering.windowStart_succ (getElem?_surround hp.instr hp.detour)

theorem valid (h : Detours made code ds) : d.Valid made i :=
  h.valid_of_getElem? hp.instr hp.detour

end Place

/-- The start of a detour is a place. -/
theorem Detours.place (h : Detours made code ds) (hi : code[j]? = some i) :
    ∃ d, Place code ds (windowStart (surround code ds) j) j i d 0 := by
  obtain ⟨d, hd, -⟩ := forall₂_getElem? h.valid hi
  exact ⟨d, hi, hd, rfl, by rw [Detour.length_code]; omega⟩

/-- A surrounded list has the temporaries of the list and those that were made up. -/
theorem Detours.of_mem_temps (h : Detours made code ds) (hx : x ∈ (surround code ds).flatten)
    (ht : t ∈ x.temps) : t ∈ code.flatMap Instr.temps ∨ made t ∨ t = Mips.fp := by
  obtain ⟨n, hn⟩ := List.getElem?_of_mem hx
  obtain ⟨j, i, d, q, hp⟩ := exists_place hn
  have hd := hp.valid h
  rcases Detour.code_cases (hp.getElem?_code hn) with
    ⟨p, hload, rfl⟩ | ⟨rfl, rfl⟩ | ⟨k, p, -, hstore, rfl⟩
  · refine .inr ((List.mem_pair.1 ht).imp_left ?_)
    rintro rfl
    exact (hd.read.1 (List.mem_map_of_mem (List.mem_of_getElem? hload))).1
  · rw [Instr.temps_rename, List.mem_map] at ht
    obtain ⟨u, hu, rfl⟩ := ht
    rcases hd.sub hu with heq | ⟨hm, -⟩
    · rw [heq]
      exact .inl (List.mem_flatMap.2 ⟨i, List.mem_of_getElem? hp.instr, hu⟩)
    · exact .inr (.inl hm)
  · refine .inr ((List.mem_pair.1 ht).imp_left ?_)
    rintro rfl
    exact (hd.written.1 (List.mem_map_of_mem (List.mem_of_getElem? hstore))).1

/-- Where control goes from a place: to the next place of the detour, or from its end to
the next detour, or to a detour to which the instruction jumps. -/
theorem Detours.of_mem_next {flow flow' : Flow} (h : Detours made code ds)
    (hflow : Flow.ofCode code = .ok flow)
    (hflow' : Flow.ofCode (surround code ds).flatten = .ok flow') (hp : Place code ds n j i d q)
    (hm : m ∈ flow'.next n) :
    (Place code ds m j i d (q + 1) ∧ (q = d.loads.length → i.targets? = none)) ∨
      ∃ j' i' d', Place code ds m j' i' d' 0 ∧ d.loads.length ≤ q ∧
        (q = d.loads.length ∨ i.targets? = none → j' ∈ flow.next j) := by
  obtain ⟨x, hx⟩ : ∃ x, (d.code i)[q]? = some x := ⟨_, List.getElem?_eq_getElem hp.lt⟩
  have hxn : (surround code ds).flatten[n]? = some x := by
    rw [hp.index]
    exact getElem?_flatten (getElem?_surround hp.instr hp.detour) hx
  have hlt := hp.lt
  rw [Detour.length_code] at hlt
  cases ht : x.targets? with
  | none =>
    rw [Flow.next_eq_fallThrough hflow' hxn ht] at hm
    obtain ⟨rfl, hlen⟩ := Flow.lt_length_of_mem_fallThrough hm
    have hmain : q = d.loads.length → i.targets? = none := by
      intro hq
      rcases Detour.code_cases hx with ⟨p, hload, -⟩ | ⟨-, rfl⟩ | ⟨k, p, hk, -⟩
      · have := (List.getElem?_eq_some_iff.1 hload).1
        omega
      · rwa [Instr.targets?_rename] at ht
      · omega
    by_cases hq : q + 1 < (d.code i).length
    · exact .inl ⟨⟨hp.instr, hp.detour, by rw [hp.index, Nat.add_assoc], hq⟩, hmain⟩
    · right
      have hend : n + 1 = windowStart (surround code ds) (j + 1) := by
        have := hp.lt
        rw [hp.windowStart_succ, hp.index]
        omega
      -- There is another detour, for else this were the end of the list.
      have hj : j + 1 < code.length := by
        by_contra hj
        have hlength := h.keeps.length_eq
        rw [hend, windowStart_of_length_le (by omega)] at hlen
        exact lt_irrefl _ hlen
      obtain ⟨d', hd'⟩ := h.place (List.getElem?_eq_getElem hj)
      refine ⟨j + 1, _, d', hend ▸ hd', by rw [Detour.length_code] at hq; omega, ?_⟩
      intro hor
      rw [Flow.next_eq_fallThrough hflow hp.instr (hor.elim hmain id), Flow.fallThrough, if_pos hj]
      exact List.mem_singleton_self _
  | some labels =>
    right
    rcases Detour.code_cases hx with ⟨p, -, rfl⟩ | ⟨rfl, rfl⟩ | ⟨k, p, -, -, rfl⟩
    · cases ht
    · obtain ⟨c, hc⟩ := List.getElem?_of_mem hm
      rw [Flow.getElem?_next_of_targets? hflow' hxn ht] at hc
      rw [Instr.targets?_rename] at ht
      obtain ⟨l, hl, hdef⟩ := Option.bind_eq_some_iff.1 hc
      rw [Flow.definition_flatten h.keeps, Option.map_eq_some_iff] at hdef
      obtain ⟨j', hdef, rfl⟩ := hdef
      obtain ⟨d', hd'⟩ := h.place (List.getElem?_eq_getElem (Flow.definition_lt hdef))
      refine ⟨j', _, d', hd', le_rfl, fun _ => ?_⟩
      refine List.mem_of_getElem? (i := c) ?_
      rw [Flow.getElem?_next_of_targets? hflow hp.instr ht, hl, Option.bind_some, hdef]
    · cases ht

/-! ## What is live in a detour -/

/-- Bounds for what is live before a place of a detour.  Of the palette, it is what was live
around the instruction at first, unless the place is behind a jump; of what was made up, it
is what was loaded already or will yet be stored. -/
structure Detour.LiveBefore (palette : List Temp) (made : Temp → Prop) (live : Liveness) (j : Nat)
    (i : Instr) (d : Detour) (q : Nat) (t : Temp) : Prop where
  loaded : q ≤ d.loads.length →
    (t ∈ palette → t ∈ live.before j) ∧ (made t → t ∈ d.read.take q)
  stored : d.loads.length < q → (t ∈ palette → i.targets? = none → t ∈ live.after j) ∧
    (made t → t ∈ d.written.drop (q - d.loads.length - 1))

@[inherit_doc Detour.LiveBefore]
structure Detour.LiveAfter (palette : List Temp) (made : Temp → Prop) (live : Liveness) (j : Nat)
    (i : Instr) (d : Detour) (q : Nat) (t : Temp) : Prop where
  loaded : q < d.loads.length →
    (t ∈ palette → t ∈ live.before j) ∧ (made t → t ∈ d.read.take (q + 1))
  stored : d.loads.length ≤ q →
    (t ∈ palette → q = d.loads.length ∨ i.targets? = none → t ∈ live.after j) ∧
    (made t → t ∈ d.written.drop (q - d.loads.length))

/-- Before the next place of a detour nothing more is live than after this one. -/
theorem Detour.LiveBefore.after (hb : d.LiveBefore palette made live j i (q + 1) t)
    (hq : q = d.loads.length → i.targets? = none) : d.LiveAfter palette made live j i q t := by
  refine ⟨fun h => hb.loaded (by omega), fun h => ?_⟩
  have := hb.stored (by omega)
  refine ⟨fun hp hor => this.1 hp (hor.elim hq id), fun hm => ?_⟩
  rw [show q - d.loads.length = q + 1 - d.loads.length - 1 by omega]
  exact this.2 hm

/-- At the start of a detour nothing is live that was made up. -/
theorem Detour.LiveBefore.after_of_next {d' : Detour} {i' : Instr} {j' : Nat} {flow : Flow}
    (hlive : live.Solves code flow) (hi : code[j]? = some i)
    (hb : d'.LiveBefore palette made live j' i' 0 t) (hq : d.loads.length ≤ q)
    (hnext : q = d.loads.length ∨ i.targets? = none → j' ∈ flow.next j) :
    d.LiveAfter palette made live j i q t := by
  have := hb.loaded (Nat.zero_le _)
  refine ⟨fun h => by omega, fun _ => ⟨fun hp hor => ?_, fun hm => ?_⟩⟩
  · exact hlive.next hi (hnext hor) (this.1 hp)
  · have := this.2 hm
    simp at this

/-- A temporary that was made up meets what is loaded with it, and what was live before the
instruction; or what is stored with it, and what was live behind the instruction or is
written by it. -/
def Meets (palette : List Temp) (made : Temp → Prop) (live : Liveness) (code : List Instr)
    (ds : List Detour) (f y : Temp) : Prop :=
  ∃ j i d, code[j]? = some i ∧ ds[j]? = some d ∧
    ((f ∈ d.read ∧ (made y → y ∈ d.read) ∧ (y ∈ palette → y ∈ live.before j)) ∨
      (f ∈ d.written ∧ (made y → y ∈ d.written) ∧
        (y ∈ palette → y ∈ live.after j ∨ y ∈ i.defs)))

section

variable (hfp : Mips.fp ∉ palette) (hregs : ∀ r ∈ palette, r.isRegister = true)
  (hmade : ∀ t, made t → t.isRegister = false)

include hregs hmade

theorem not_mem_palette (ht : made t) : t ∉ palette := by
  intro hp
  have := hregs t hp
  rw [hmade t ht] at this
  cases this

/-- A register of the palette takes its own place. -/
theorem Detour.Valid.eq_of_sub_mem_palette (hd : d.Valid made i) (ht : t ∈ i.temps)
    (hp : d.sub t ∈ palette) : d.sub t = t :=
  (hd.sub ht).resolve_right fun h => not_mem_palette hregs hmade h.1 hp

include hfp

theorem Detour.Valid.liveBefore_of_uses (hd : d.Valid made i) {flow : Flow}
    (hlive : live.Solves code flow) (hi : code[j]? = some i) (hx : (d.code i)[q]? = some x)
    (ht : t ∈ x.uses) : d.LiveBefore palette made live j i q t := by
  have hfp' : ¬made Mips.fp := fun h => by
    have := hmade _ h
    cases this
  rcases code_cases hx with ⟨p, hload, rfl⟩ | ⟨rfl, rfl⟩ | ⟨k, p, rfl, hstore, rfl⟩
  · obtain rfl : t = Mips.fp := List.mem_singleton.1 ht
    have := (List.getElem?_eq_some_iff.1 hload).1
    exact ⟨fun _ => ⟨fun h => absurd h hfp, fun h => absurd h hfp'⟩, fun _ => by omega⟩
  · rw [Instr.uses_rename] at ht
    refine ⟨fun _ => ⟨fun h => ?_, fun h => ?_⟩, fun _ => by omega⟩
    · obtain ⟨u, hu, rfl⟩ := List.mem_map.1 ht
      have hsub := hd.eq_of_sub_mem_palette hregs hmade (List.mem_append_right _ hu) h
      rw [hsub]
      exact hlive.uses hi hu
    · rw [List.take_of_length_le (by simp [Detour.read])]
      exact hd.read.2 ⟨h, ht⟩
  · refine ⟨fun _ => by omega, fun _ => ?_⟩
    rcases List.mem_pair.1 ht with rfl | rfl
    · have hw : d.written[k]? = some p.2 := by simp [Detour.written, hstore]
      have hm := (hd.written.1 (List.mem_of_getElem? hw)).1
      refine ⟨fun h => absurd h (not_mem_palette hregs hmade hm), fun _ => ?_⟩
      refine List.mem_of_getElem? (i := 0) ?_
      rw [List.getElem?_drop, ← hw]
      congr 1
      omega
    · exact ⟨fun h => absurd h hfp, fun h => absurd h hfp'⟩

omit hfp hmade in
theorem Detour.Valid.liveBefore_of_liveAfter (hd : d.Valid made i) {flow : Flow}
    (hlive : live.Solves code flow) (hi : code[j]? = some i) (hx : (d.code i)[q]? = some x)
    (ha : d.LiveAfter palette made live j i q t) (ht : t ∉ x.defs) :
    d.LiveBefore palette made live j i q t := by
  rcases code_cases hx with ⟨p, hload, rfl⟩ | ⟨rfl, rfl⟩ | ⟨k, p, rfl, hstore, rfl⟩
  · have hq := (List.getElem?_eq_some_iff.1 hload).1
    refine ⟨fun _ => ⟨(ha.loaded hq).1, fun hm => ?_⟩, fun _ => by omega⟩
    -- All that was loaded before, for this load writes something else.
    have hmem := (ha.loaded hq).2 hm
    have hr : d.read[q]? = some p.2 := by simp [Detour.read, hload]
    rw [List.take_add_one, hr, Option.toList_some, List.mem_append, List.mem_singleton] at hmem
    exact hmem.resolve_right fun h => ht (by rw [h]; exact List.mem_singleton_self _)
  · rw [Instr.defs_rename] at ht
    refine ⟨fun _ => ⟨fun hp => ?_, fun hm => ?_⟩, fun _ => by omega⟩
    · refine hlive.through hi ((ha.stored le_rfl).1 hp (.inl rfl)) fun hdef => ht ?_
      refine List.mem_map.2 ⟨t, hdef, ?_⟩
      refine (hd.sub (List.mem_append_left _ hdef)).resolve_right fun h => ?_
      rw [hregs t hp] at h
      exact Bool.noConfusion h.2
    · have hmem := List.mem_of_mem_drop ((ha.stored le_rfl).2 hm)
      exact absurd (hd.written.1 hmem).2 ht
  · have := ha.stored (by omega)
    refine ⟨fun _ => by omega, fun _ => ⟨fun hp hn => this.1 hp (.inr hn), fun hm => ?_⟩⟩
    have hmem := this.2 hm
    rw [show d.loads.length + 1 + k - d.loads.length - 1 = k by omega]
    rw [show d.loads.length + 1 + k - d.loads.length = k + 1 by omega] at hmem
    exact List.drop_subset_drop_left _ (by omega) hmem

/-- **What is live in a surrounded list.** -/
theorem Detours.liveAfter (h : Detours made code ds) {flow flow' : Flow}
    (hflow : Flow.ofCode code = .ok flow)
    (hflow' : Flow.ofCode (surround code ds).flatten = .ok flow')
    (hlive : live.Solves code flow) (hp : Place code ds n j i d q)
    (ht : t ∈ (Liveness.ofCode (surround code ds).flatten flow').1.after n) :
    d.LiveAfter palette made live j i q t := by
  have hsol : LiveSolution (surround code ds).flatten flow'
      (fun n t => ∀ j i d q, Place code ds n j i d q → d.LiveBefore palette made live j i q t)
      (fun n t => ∀ j i d q, Place code ds n j i d q → d.LiveAfter palette made live j i q t) := by
    constructor
    · intro n x t hx ht j i d q hp
      exact (hp.valid h).liveBefore_of_uses hfp hregs hmade hlive hp.instr (hp.getElem?_code hx) ht
    · intro n x t hx ha ht j i d q hp
      exact (hp.valid h).liveBefore_of_liveAfter hregs hlive hp.instr (hp.getElem?_code hx)
        (ha j i d q hp) ht
    · intro n x m t hx hm hb j i d q hp
      rcases h.of_mem_next hflow hflow' hp hm with ⟨hp', hq⟩ | ⟨j', i', d', hp', hq, hnext⟩
      · exact (hb j i d (q + 1) hp').after hq
      · exact (hb j' i' d' 0 hp').after_of_next hlive hp.instr hq hnext
  exact (Liveness.inside_ofCode hsol n t).2 ht j i d q hp

/-! ## What interferes in a detour -/

/-- **What a made up temporary interferes with.** -/
theorem Detours.meets_of_adjacent (h : Detours made code ds) {flow flow' : Flow}
    (hflow : Flow.ofCode code = .ok flow)
    (hflow' : Flow.ofCode (surround code ds).flatten = .ok flow')
    (hlive : live.Solves code flow) {f y : Temp} (hf : made f)
    (hadj : (roundGraph palette (surround code ds).flatten flow').adjacent f y = true) :
    y.isAllocatable palette = true ∧ Meets palette made live code ds f y := by
  obtain ⟨-, ⟨hreg, -⟩ | ⟨n, x, hx, hpair⟩⟩ :=
    (Interference.adjacent_ofCode mem_after_ofCode).1 hadj
  · rw [hmade f hf] at hreg
    cases hreg
  obtain ⟨hdefs, hboth, hy⟩ : (x.defs ≠ []) ∧ (∀ z, z = f ∨ z = y →
      z ∈ (Liveness.ofCode (surround code ds).flatten flow').1.after n ∨ z ∈ x.defs) ∧
      y.isAllocatable palette = true := by
    rcases hpair with hpair | hpair
    · obtain ⟨hd, hl, -, hy⟩ := Interference.of_mem_conflicts hpair
      exact ⟨List.ne_nil_of_mem hd, by rintro z (rfl | rfl); exacts [.inr hd, hl], hy⟩
    · obtain ⟨hd, hl, hy, -⟩ := Interference.of_mem_conflicts hpair
      exact ⟨List.ne_nil_of_mem hd, by rintro z (rfl | rfl); exacts [hl, .inr hd], hy⟩
  refine ⟨hy, ?_⟩
  obtain ⟨j, i, d, q, hp⟩ := exists_place hx
  have hd := hp.valid h
  refine ⟨j, i, d, hp.instr, hp.detour, ?_⟩
  rcases Detour.code_cases (hp.getElem?_code hx) with
    ⟨p, hload, rfl⟩ | ⟨rfl, rfl⟩ | ⟨k, p, -, -, rfl⟩
  · have hq := (List.getElem?_eq_some_iff.1 hload).1
    have hread : p.2 ∈ d.read := List.mem_map_of_mem (List.mem_of_getElem? hload)
    have hz : ∀ z, z = f ∨ z = y → (made z → z ∈ d.read) ∧ (z ∈ palette → z ∈ live.before j) := by
      intro z hz
      rcases hboth z hz with hl | hl
      · have := (h.liveAfter hfp hregs hmade hflow hflow' hlive hp hl).loaded hq
        exact ⟨fun hm => List.mem_of_mem_take (this.2 hm), this.1⟩
      · obtain rfl : z = p.2 := List.mem_singleton.1 hl
        exact ⟨fun _ => hread,
          fun hm => absurd hm (not_mem_palette hregs hmade (hd.read.1 hread).1)⟩
    exact .inl ⟨(hz f (.inl rfl)).1 hf, hz y (.inr rfl)⟩
  · have hz : ∀ z, z = f ∨ z = y →
        (made z → z ∈ d.written) ∧ (z ∈ palette → z ∈ live.after j ∨ z ∈ i.defs) := by
      intro z hz
      rcases hboth z hz with hl | hl
      · have := (h.liveAfter hfp hregs hmade hflow hflow' hlive hp hl).stored le_rfl
        exact ⟨fun hm => List.mem_of_mem_drop (this.2 hm), fun hm => .inl (this.1 hm (.inl rfl))⟩
      · rw [Instr.defs_rename] at hl
        refine ⟨fun hm => hd.written.2 ⟨hm, hl⟩, fun hm => .inr ?_⟩
        obtain ⟨u, hu, rfl⟩ := List.mem_map.1 hl
        rwa [hd.eq_of_sub_mem_palette hregs hmade (List.mem_append_left _ hu) hm]
    exact .inr ⟨(hz f (.inl rfl)).1 hf, hz y (.inr rfl)⟩
  · exact absurd rfl hdefs

end

end Lowering.Spill

namespace Lowering

/-- The number of different virtual temporaries in a list. -/
def distinctVirtual (ts : List Temp) : Nat := (ts.filter fun t => !t.isRegister).toFinset.card

/-- An instruction fits into the registers by itself: what it reads fits next to the
registers that are live before it, and what it writes fits next to those that are live
around it or are written by it. -/
structure Instr.FitsAt (palette : List Temp) (live : Liveness) (n : Nat) (i : Instr) : Prop where
  reads : (∃ t ∈ i.uses, t.isRegister = false) →
    distinctVirtual i.uses + (palette.filter fun r => r ∈ live.before n).length ≤ palette.length
  writes : (∃ t ∈ i.defs, t.isRegister = false) →
    distinctVirtual i.defs +
      (palette.filter fun r => r ∈ live.before n ∨ r ∈ live.after n ∨ r ∈ i.defs).length ≤
        palette.length

instance (palette : List Temp) (live : Liveness) (n : Nat) (i : Instr) :
    Decidable (i.FitsAt palette live n) :=
  decidable_of_iff (_ ∧ _) ⟨fun h => ⟨h.1, h.2⟩, fun h => ⟨h.reads, h.writes⟩⟩

end Lowering

namespace Lowering.Spill

variable {made : Temp → Prop} {i : Instr} {d : Detour} {code : List Instr} {ds : List Detour}
  {palette : List Temp} {live : Liveness} {j : Nat} {f : Temp}

/-! ## Nothing that was made up gets stuck -/

theorem Detours.unique (h : Detours made code ds) {j' : Nat} {d' : Detour} (hd : ds[j]? = some d)
    (hd' : ds[j']? = some d') (hf : f ∈ d.read ++ d.written) (hf' : f ∈ d'.read ++ d'.written) :
    j = j' ∧ d = d' := by
  obtain ⟨hj, rfl⟩ := List.getElem?_eq_some_iff.1 hd
  obtain ⟨hj', rfl⟩ := List.getElem?_eq_some_iff.1 hd'
  have hapart := List.pairwise_iff_getElem.1 h.apart
  rcases lt_trichotomy j j' with hlt | rfl | hlt
  · exact absurd hf' (hapart j j' hj hj' hlt f hf)
  · exact ⟨rfl, rfl⟩
  · exact absurd hf (hapart j' j hj' hj hlt f hf')

section

variable (hd : d.Valid made i) (hold : ∀ t ∈ i.temps, ¬made t) {ts : List Temp} (hts : ts ⊆ i.temps)

include hd hold hts

/-- What was made up stands for a virtual temporary. -/
theorem Detour.Valid.exists_virtual (hm : made f) (hf : f ∈ ts.map d.sub) :
    ∃ t ∈ ts, t.isRegister = false ∧ d.sub t = f := by
  obtain ⟨t, ht, rfl⟩ := List.mem_map.1 hf
  rcases hd.sub (hts ht) with heq | ⟨-, hv⟩
  · rw [heq] at hm
    exact absurd hm (hold t (hts ht))
  · exact ⟨t, ht, hv, rfl⟩

theorem Detour.Valid.card_le {fs : List Temp} (hfs : ∀ f ∈ fs, made f ∧ f ∈ ts.map d.sub) :
    fs.toFinset.card ≤ distinctVirtual ts := by
  have hsub : fs.toFinset ⊆ (ts.filter fun t => !t.isRegister).toFinset.image d.sub := by
    intro f hf
    obtain ⟨hm, hmem⟩ := hfs f (List.mem_toFinset.1 hf)
    obtain ⟨t, ht, hv, rfl⟩ := hd.exists_virtual hold hts hm hmem
    exact Finset.mem_image_of_mem _ (List.mem_toFinset.2 (List.mem_filter.2 ⟨ht, by simp [hv]⟩))
  exact (Finset.card_le_card hsub).trans Finset.card_image_le

end

/-- A set of others that share a limited room is smaller than the room. -/
theorem card_lt_of_room {N : Finset Temp} {S P : List Temp} {k : Nat} (hf : f ∈ S)
    (hN : ∀ y ∈ N, y ≠ f ∧ (y ∈ S ∨ y ∈ P)) (hk : S.toFinset.card + P.length ≤ k) : N.card < k := by
  have hf' : f ∈ S.toFinset := List.mem_toFinset.2 hf
  have hsub : N ⊆ S.toFinset.erase f ∪ P.toFinset := by
    intro y hy
    obtain ⟨hne, hS | hP⟩ := hN y hy
    · exact Finset.mem_union_left _ (Finset.mem_erase.2 ⟨hne, List.mem_toFinset.2 hS⟩)
    · exact Finset.mem_union_right _ (List.mem_toFinset.2 hP)
  have hpos := Finset.card_pos.2 ⟨f, hf'⟩
  calc N.card ≤ (S.toFinset.erase f).card + P.toFinset.card :=
        (Finset.card_le_card hsub).trans (Finset.card_union_le _ _)
    _ ≤ (S.toFinset.card - 1) + P.length := by
        rw [Finset.card_erase_of_mem hf']
        exact Nat.add_le_add_left (List.toFinset_card_le P) _
    _ < k := by omega

section

variable (h : Detours made code ds) (hi : code[j]? = some i) (hd : ds[j]? = some d)
  (hfits : i.FitsAt palette live j)

include h hi hd hfits

/-- What is loaded for an instruction fits into the registers. -/
theorem Detours.room_read (hf : f ∈ d.read) :
    d.read.toFinset.card + (palette.filter fun r => r ∈ live.before j).length ≤
      palette.length := by
  have hvalid := h.valid_of_getElem? hi hd
  have hold : ∀ t ∈ i.temps, ¬made t := fun t => h.old (List.mem_of_getElem? hi)
  have huses : i.uses ⊆ i.temps := List.subset_append_right ..
  obtain ⟨hm, hmap⟩ := hvalid.read.1 hf
  obtain ⟨t, ht, hv, -⟩ := hvalid.exists_virtual hold huses hm hmap
  have hcard := hvalid.card_le hold huses fun f hf => hvalid.read.1 hf
  have := hfits.reads ⟨t, ht, hv⟩
  omega

/-- So does what is stored. -/
theorem Detours.room_written (hf : f ∈ d.written) :
    d.written.toFinset.card + (palette.filter fun r =>
      r ∈ live.before j ∨ r ∈ live.after j ∨ r ∈ i.defs).length ≤ palette.length := by
  have hvalid := h.valid_of_getElem? hi hd
  have hold : ∀ t ∈ i.temps, ¬made t := fun t => h.old (List.mem_of_getElem? hi)
  have hdefs : i.defs ⊆ i.temps := List.subset_append_left ..
  obtain ⟨hm, hmap⟩ := hvalid.written.1 hf
  obtain ⟨t, ht, hv, -⟩ := hvalid.exists_virtual hold hdefs hm hmap
  have hcard := hvalid.card_le hold hdefs fun f hf => hvalid.written.1 hf
  have := hfits.writes ⟨t, ht, hv⟩
  omega

end

section

variable {flow flow' : Flow} (h : Detours made code ds) (hflow : Flow.ofCode code = .ok flow)
  (hflow' : Flow.ofCode (surround code ds).flatten = .ok flow') (hfp : Mips.fp ∉ palette)
  (hregs : ∀ r ∈ palette, r.isRegister = true) (hmade : ∀ t, made t → t.isRegister = false)
  {T : Finset Temp} (hT : ∀ t ∈ T, made t)
  (hstuck : (roundGraph palette (surround code ds).flatten flow').Stuck palette.length T)

include h hflow hflow' hfp hregs hmade hT hstuck

/-- What gets stuck meets something outside of any room that it fits into. -/
theorem Detours.exists_meets (hf : f ∈ T) {S P : List Temp} (hS : f ∈ S)
    (hroom : S.toFinset.card + P.length ≤ palette.length) :
    ∃ y, (y ∈ T ∨ y ∈ palette) ∧ y ∉ S ∧ y ∉ P ∧
      Meets palette made (Liveness.ofCode code flow).1 code ds f y := by
  by_contra hnone
  have hg := wellFormed_roundGraph palette (surround code ds).flatten flow'
  refine absurd (hstuck f hf).2 (Nat.not_le_of_lt (card_lt_of_room hS (fun y hy => ?_) hroom))
  rw [Finset.mem_filter, TempSet.mem_toFinset, ← hg.adjacent_iff (hstuck f hf).1] at hy
  obtain ⟨hadj, hy⟩ := hy
  obtain ⟨halloc, hmeets⟩ := h.meets_of_adjacent hfp hregs hmade hflow hflow'
    (Liveness.solves_ofCode code flow) (hT f hf) hadj
  refine ⟨(hg.ne_of_adjacent hadj).symm, ?_⟩
  by_contra hout
  rw [not_or] at hout
  refine hnone ⟨y, ?_, hout.1, hout.2, hmeets⟩
  refine hy.imp_right fun hreg => ?_
  simpa [Temp.isAllocatable, hreg] using halloc

variable (hfits : ∀ (j : Nat) (i : Instr), code[j]? = some i →
  i.FitsAt palette (Liveness.ofCode code flow).1 j)

include hfits

/-- What gets stuck is both read and written by its instruction. -/
theorem Detours.both_of_stuck (hf : f ∈ T) :
    ∃ (j : Nat) (d : Detour), ds[j]? = some d ∧ f ∈ d.read ∧ f ∈ d.written := by
  obtain ⟨d, hd, hmem⟩ := h.home (hT f hf)
  obtain ⟨j, hj⟩ := List.getElem?_of_mem hd
  obtain ⟨i, hi, -⟩ := forall₂_getElem? h.valid.flip hj
  refine ⟨j, d, hj, ?_⟩
  by_contra hboth
  rcases List.mem_append.1 hmem with hr | hw
  · have hw : f ∉ d.written := fun hw => hboth ⟨hr, hw⟩
    obtain ⟨y, hy, hS, hP, j', i', d', hi', hd', hcases⟩ :=
      h.exists_meets hflow hflow' hfp hregs hmade hT hstuck hf hr
        (h.room_read hi hj (hfits j i hi) hr)
    rcases hcases with ⟨hf', hym, hyp⟩ | ⟨hf', -⟩
    · obtain ⟨rfl, rfl⟩ := h.unique hj hd' hmem (List.mem_append_left _ hf')
      rcases hy with hy | hy
      · exact hS (hym (hT y hy))
      · exact hP (List.mem_filter.2 ⟨hy, by simpa using hyp hy⟩)
    · obtain ⟨-, rfl⟩ := h.unique hj hd' hmem (List.mem_append_right _ hf')
      exact hw hf'
  · have hr : f ∉ d.read := fun hr => hboth ⟨hr, hw⟩
    obtain ⟨y, hy, hS, hP, j', i', d', hi', hd', hcases⟩ :=
      h.exists_meets hflow hflow' hfp hregs hmade hT hstuck hf hw
        (h.room_written hi hj (hfits j i hi) hw)
    rcases hcases with ⟨hf', -⟩ | ⟨hf', hym, hyp⟩
    · obtain ⟨-, rfl⟩ := h.unique hj hd' hmem (List.mem_append_left _ hf')
      exact hr hf'
    · obtain ⟨rfl, rfl⟩ := h.unique hj hd' hmem (List.mem_append_right _ hf')
      obtain rfl : i' = i := Option.some.inj (hi'.symm.trans hi)
      rcases hy with hy | hy
      · exact hS (hym (hT y hy))
      · exact hP (List.mem_filter.2 ⟨hy, by simpa using .inr (hyp hy)⟩)

/-- **Nothing that was made up gets stuck**, if every instruction fits into the registers. -/
theorem Detours.not_stuck : T = ∅ := by
  refine Finset.eq_empty_of_forall_notMem fun f hf => ?_
  have hboth := fun {f} => h.both_of_stuck hflow hflow' hfp hregs hmade hT hstuck hfits (f := f)
  obtain ⟨j, d, hj, hr, hw⟩ := hboth hf
  obtain ⟨i, hi, -⟩ := forall₂_getElem? h.valid.flip hj
  obtain ⟨y, hy, hS, hP, j', i', d', hi', hd', hcases⟩ :=
    h.exists_meets hflow hflow' hfp hregs hmade hT hstuck hf hw
      (h.room_written hi hj (hfits j i hi) hw)
  have hmem : f ∈ d.read ++ d.written := List.mem_append_left _ hr
  rcases hcases with ⟨hf', hym, hyp⟩ | ⟨hf', hym, hyp⟩
  · obtain ⟨rfl, rfl⟩ := h.unique hj hd' hmem (List.mem_append_left _ hf')
    rcases hy with hy | hy
    · -- What is loaded and gets stuck is stored as well, by the same instruction.
      obtain ⟨j₁, d₁, hj₁, hr₁, hw₁⟩ := hboth hy
      obtain ⟨-, rfl⟩ := h.unique hj hj₁ (List.mem_append_left _ (hym (hT y hy)))
        (List.mem_append_left _ hr₁)
      exact hS hw₁
    · exact hP (List.mem_filter.2 ⟨hy, by simpa using .inl (hyp hy)⟩)
  · obtain ⟨rfl, rfl⟩ := h.unique hj hd' hmem (List.mem_append_right _ hf')
    obtain rfl : i' = i := Option.some.inj (hi'.symm.trans hi)
    rcases hy with hy | hy
    · exact hS (hym (hT y hy))
    · exact hP (List.mem_filter.2 ⟨hy, by simpa using .inr (hyp hy)⟩)

end

end Lowering.Spill
