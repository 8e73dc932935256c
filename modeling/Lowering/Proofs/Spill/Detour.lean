import Lowering.Proofs.Spill.Window

/-!
# Spilling round after round

After some rounds of spilling, every instruction of the first list stands between loads
and stores of temporaries that spilling made up, with some of its temporaries replaced by
these.  A temporary that was made up belongs to one instruction only.  Another round that
spills nothing that was made up puts more loads and stores next to the instructions.

## Main definitions

* `Detour` — what rounds of spilling have put around an instruction.
* `Detours` — a list of them fits a list of instructions.
* `Detours.respill` — it does so after one more round.
-/

namespace Lowering.Spill

/-- What rounds of spilling have put around an instruction. -/
structure Detour where
  /-- The slots that are loaded before it, and the temporaries that hold their words. -/
  loads : List (Int × Temp) := []
  /-- What takes the place of its temporaries. -/
  sub : Temp → Temp := id
  /-- The slots that are stored after it. -/
  stores : List (Int × Temp) := []

namespace Detour

/-- The instruction with all that was put around it. -/
def code (d : Detour) (i : Instr) : List Instr :=
  d.loads.map (fun p => Mips.loadSlot p.1 p.2) ++ [i.rename d.sub] ++
    d.stores.map fun p => Mips.storeSlot p.1 p.2

/-- The temporaries that are loaded and those that are stored. -/
def read (d : Detour) : List Temp := d.loads.map Prod.snd

@[inherit_doc read]
def written (d : Detour) : List Temp := d.stores.map Prod.snd

/-- A round that replaces temporaries of the instruction as it is now. -/
def respill (d : Detour) (reps : List Replacement) (i : Instr) : Detour where
  loads := d.loads ++ (reps.filter fun r => (i.rename d.sub).uses.contains r.spilled).map
    fun r => (r.offset, r.fresh)
  sub := substitute reps ∘ d.sub
  stores := (reps.filter fun r => (i.rename d.sub).defs.contains r.spilled).map
    (fun r => (r.offset, r.fresh)) ++ d.stores

/-- The temporaries that were made up are loaded and stored as the instruction reads and
writes them. -/
structure Valid (made : Temp → Prop) (i : Instr) (d : Detour) : Prop where
  sub : ∀ {t}, t ∈ i.temps → d.sub t = t ∨ made (d.sub t) ∧ t.isRegister = false
  read : ∀ {f}, f ∈ d.read ↔ made f ∧ f ∈ i.uses.map d.sub
  written : ∀ {f}, f ∈ d.written ↔ made f ∧ f ∈ i.defs.map d.sub

end Detour

/-- A detour for every instruction; what was made up belongs to one of them. -/
structure Detours (made : Temp → Prop) (code : List Instr) (ds : List Detour) : Prop where
  valid : List.Forall₂ (Detour.Valid made) code ds
  apart : ds.Pairwise fun d d' => ∀ t ∈ d.read ++ d.written, t ∉ d'.read ++ d'.written
  home : ∀ {t}, made t → ∃ d ∈ ds, t ∈ d.read ++ d.written
  old : ∀ {i t}, i ∈ code → t ∈ i.temps → ¬made t

/-- All instructions with what was put around them. -/
def surround (code : List Instr) (ds : List Detour) : List (List Instr) :=
  List.zipWith (fun i d => d.code i) code ds

/-- One more round of spilling. -/
def respillAll (slots : Slots) : (base : Nat) → List Instr → List Detour → List Detour
  | base, i :: code, d :: ds =>
    d.respill (replacementsFrom base (mentioned slots (i.rename d.sub))) i ::
      respillAll slots (base + (mentioned slots (i.rename d.sub)).length) code ds
  | _, _, _ => []

variable {slots : Slots} {made : Temp → Prop} {i : Instr} {d : Detour} {code : List Instr}
  {ds : List Detour}

theorem detours_nil (code : List Instr) :
    Detours (fun _ => False) code (code.map fun _ => {}) where
  valid := by
    rw [List.forall₂_map_right_iff]
    refine List.forall₂_same.2 fun i _ => ⟨fun _ => .inl rfl, ?_, ?_⟩
    · simp [Detour.read]
    · simp [Detour.written]
  apart := by
    rw [List.pairwise_map]
    exact List.pairwise_of_forall fun _ _ => by simp [Detour.read, Detour.written]
  home := fun h => h.elim
  old := fun _ _ h => h

theorem flatten_surround_nil (code : List Instr) :
    (surround code (code.map fun _ => {})).flatten = code := by
  rw [surround, List.zipWith_map_right, List.zipWith_self]
  simp [Detour.code, ← List.flatMap_def]

/-! ## The code of a round -/

theorem spillCount_append (c c' : List Instr) :
    spillCount slots (c ++ c') = spillCount slots c + spillCount slots c' := by
  induction c with
  | nil => simp [spillCount]
  | cons i c ih => simp [spillCount, ih, Nat.add_assoc]

theorem spillWindows_append (base : Nat) (c c' : List Instr) :
    spillWindows slots base (c ++ c') =
      spillWindows slots base c ++ spillWindows slots (base + spillCount slots c) c' := by
  induction c generalizing base with
  | nil => simp [spillWindows, spillCount]
  | cons i c ih => simp [spillWindows, spillCount, ih, Nat.add_assoc]

theorem spillTemps_append (base : Nat) (c c' : List Instr) :
    spillTemps slots base (c ++ c') =
      spillTemps slots base c ++ spillTemps slots (base + spillCount slots c) c' := by
  induction c generalizing base with
  | nil => simp [spillTemps, spillCount]
  | cons i c ih => simp [spillTemps, spillCount, ih, Nat.add_assoc]

/-- Instructions without spilled temporaries stay. -/
theorem spill_of_mentioned_nil {c : List Instr} (h : ∀ i ∈ c, mentioned slots i = []) (base : Nat) :
    (spillWindows slots base c).flatten = c ∧ spillCount slots c = 0 ∧
      spillTemps slots base c = [] := by
  induction c generalizing base with
  | nil => exact ⟨rfl, rfl, rfl⟩
  | cons i c ih =>
    have hi := h i List.mem_cons_self
    obtain ⟨hw, hc, ht⟩ := ih (fun j hj => h j (List.mem_cons_of_mem i hj)) base
    have hid : i.rename (substitute []) = i := Instr.rename_id i
    simp [spillWindows, spillCount, spillTemps, hi, replacementsFrom, window, hid, hw, ht]
    simpa [spillCount] using hc

theorem mentioned_eq_nil (h : ∀ t ∈ i.temps, slots[t]? = none) : mentioned slots i = [] := by
  refine List.eq_nil_iff_forall_not_mem.2 ?_
  rintro ⟨t, o⟩ hm
  obtain ⟨ht, ho⟩ := mem_mentioned.1 hm
  rw [h t ht] at ho
  cases ho

/-- What is never spilled: what was made up, and the registers. -/
structure Spares (slots : Slots) (made : Temp → Prop) : Prop where
  made : ∀ {t}, made t → slots[t]? = none
  register : ∀ {t : Temp}, t.isRegister = true → slots[t]? = none

/-- Nothing is spilled from a load or a store. -/
theorem Spares.mentioned_eq_nil (hs : Spares slots made) {t : Temp} (ht : made t) (o : Int) :
    mentioned slots (Mips.loadSlot o t) = [] ∧ mentioned slots (Mips.storeSlot o t) = [] := by
  have hfree : ∀ u ∈ [t, Mips.fp], slots[u]? = none := by
    intro u hu
    rcases List.mem_pair.1 hu with rfl | rfl
    · exact hs.made ht
    · exact hs.register rfl
  exact ⟨Spill.mentioned_eq_nil hfree, Spill.mentioned_eq_nil hfree⟩

section

variable (hd : d.Valid made i) (hs : Spares slots made)

include hd hs

theorem Detour.Valid.mentioned_loads :
    ∀ j ∈ d.loads.map (fun p => Mips.loadSlot p.1 p.2), mentioned slots j = [] := by
  intro j hj
  obtain ⟨p, hp, rfl⟩ := List.mem_map.1 hj
  exact (hs.mentioned_eq_nil (hd.read.1 (List.mem_map_of_mem hp)).1 _).1

theorem Detour.Valid.mentioned_stores :
    ∀ j ∈ d.stores.map (fun p => Mips.storeSlot p.1 p.2), mentioned slots j = [] := by
  intro j hj
  obtain ⟨p, hp, rfl⟩ := List.mem_map.1 hj
  exact (hs.mentioned_eq_nil (hd.written.1 (List.mem_map_of_mem hp)).1 _).2

/-- A round rewrites nothing but the instruction itself. -/
theorem Detour.Valid.eq_of_mentioned {j : Instr} (hj : j ∈ d.code i)
    (hm : mentioned slots j ≠ []) : j = i.rename d.sub := by
  rw [Detour.code, List.mem_append, List.mem_append, List.mem_singleton] at hj
  rcases hj with (hj | hj) | hj
  · exact absurd (hd.mentioned_loads hs j hj) hm
  · exact hj
  · exact absurd (hd.mentioned_stores hs j hj) hm

/-- A round puts its loads and stores next to the instruction. -/
theorem Detour.Valid.spill_code (base : Nat) :
    (spillWindows slots base (d.code i)).flatten =
        (d.respill (replacementsFrom base (mentioned slots (i.rename d.sub))) i).code i ∧
      spillCount slots (d.code i) = (mentioned slots (i.rename d.sub)).length ∧
      spillTemps slots base (d.code i) =
        (replacementsFrom base (mentioned slots (i.rename d.sub))).map (·.fresh) := by
  obtain ⟨hw₁, hc₁, ht₁⟩ := spill_of_mentioned_nil (hd.mentioned_loads hs) base
  obtain ⟨hw₂, hc₂, ht₂⟩ := spill_of_mentioned_nil (hd.mentioned_stores hs)
    (base + (mentioned slots (i.rename d.sub)).length)
  have hcount : spillCount slots [i.rename d.sub] = (mentioned slots (i.rename d.sub)).length := by
    simp [spillCount]
  refine ⟨?_, ?_, ?_⟩
  · rw [Detour.code, spillWindows_append, spillWindows_append, List.flatten_append,
      List.flatten_append, spillCount_append, hw₁, hc₁, hcount, Nat.zero_add, Nat.add_zero, hw₂]
    simp [spillWindows, window, Detour.code, Detour.respill, Function.comp_def]
  · rw [Detour.code, spillCount_append, spillCount_append, hc₁, hcount, hc₂, Nat.zero_add,
      Nat.add_zero]
  · rw [Detour.code, spillTemps_append, spillTemps_append, spillCount_append, ht₁, hc₁, hcount,
      Nat.zero_add, ht₂]
    simp [spillTemps]

end

/-- The code of a round is surrounded by the new detours. -/
theorem flatten_respillAll (hd : List.Forall₂ (Detour.Valid made) code ds) (hs : Spares slots made)
    (base : Nat) : (spillWindows slots base (surround code ds).flatten).flatten =
      (surround code (respillAll slots base code ds)).flatten := by
  induction hd generalizing base with
  | nil => rfl
  | @cons i d code ds hid _ ih =>
    obtain ⟨hw, hc, -⟩ := hid.spill_code hs base
    simp only [surround, List.zipWith_cons_cons, List.flatten_cons, respillAll]
    rw [spillWindows_append, List.flatten_append, hw, hc]
    congr 1
    exact ih _

/-! ## What belongs to an instruction -/

section

variable {reps : List Replacement}

theorem mem_read_respill {f : Temp} : f ∈ (d.respill reps i).read ↔
    f ∈ d.read ∨ ∃ r ∈ reps, r.spilled ∈ i.uses.map d.sub ∧ r.fresh = f := by
  simp [Detour.read, Detour.respill, and_assoc]

theorem mem_written_respill {f : Temp} : f ∈ (d.respill reps i).written ↔
    f ∈ d.written ∨ ∃ r ∈ reps, r.spilled ∈ i.defs.map d.sub ∧ r.fresh = f := by
  simp [Detour.written, Detour.respill, and_assoc, or_comm]

/-- A round adds to an instruction what takes the place of its temporaries. -/
theorem mem_respill (h : ∀ r ∈ reps, r.spilled ∈ (i.rename d.sub).temps) {f : Temp} :
    f ∈ (d.respill reps i).read ++ (d.respill reps i).written ↔
      f ∈ d.read ++ d.written ∨ ∃ r ∈ reps, r.fresh = f := by
  simp only [List.mem_append, mem_read_respill, mem_written_respill]
  constructor
  · rintro ((hf | ⟨r, hr, -, rfl⟩) | hf | ⟨r, hr, -, rfl⟩)
    · exact .inl (.inl hf)
    · exact .inr ⟨r, hr, rfl⟩
    · exact .inl (.inr hf)
    · exact .inr ⟨r, hr, rfl⟩
  · rintro ((hf | hf) | ⟨r, hr, rfl⟩)
    · exact .inl (.inl hf)
    · exact .inr (.inl hf)
    · have hmem := h r hr
      rw [Instr.temps_rename, Instr.temps, List.map_append, List.mem_append] at hmem
      rcases hmem with hmem | hmem
      · exact .inr (.inr ⟨r, hr, hmem, rfl⟩)
      · exact .inl (.inr ⟨r, hr, hmem, rfl⟩)

variable {base lo : Nat} {fresh : Temp → Prop}

/-- What was made up, before or now, takes the place of a temporary exactly if it did so
before, or if it replaces what did so. -/
theorem Replaces.mem_map_comp (hr : Replaces slots base (i.rename d.sub) reps)
    (hs : Spares slots made) (hfresh : ∀ r ∈ reps, fresh r.fresh)
    (hold : ∀ t ∈ i.temps, ¬fresh (d.sub t)) {ts : List Temp} (hts : ts ⊆ i.temps) {f : Temp} :
    (made f ∧ f ∈ ts.map d.sub ∨ ∃ r ∈ reps, r.spilled ∈ ts.map d.sub ∧ r.fresh = f) ↔
      (made f ∨ fresh f) ∧ f ∈ ts.map (substitute reps ∘ d.sub) := by
  constructor
  · rintro (⟨hf, hmem⟩ | ⟨r, hr', hmem, rfl⟩)
    · obtain ⟨t, ht, rfl⟩ := List.mem_map.1 hmem
      exact ⟨.inl hf, List.mem_map.2 ⟨t, ht, hr.substitute_of_none (hs.made hf)⟩⟩
    · obtain ⟨t, ht, heq⟩ := List.mem_map.1 hmem
      refine ⟨.inr (hfresh r hr'), List.mem_map.2 ⟨t, ht, ?_⟩⟩
      rw [Function.comp_apply, heq, hr.substitute_spilled hr']
  · rintro ⟨hf, hmem⟩
    obtain ⟨t, ht, rfl⟩ := List.mem_map.1 hmem
    cases hslot : slots[d.sub t]? with
    | none =>
      rw [Function.comp_apply, hr.substitute_of_none hslot] at hf ⊢
      exact .inl ⟨hf.resolve_right (hold t (hts ht)), List.mem_map_of_mem ht⟩
    | some o =>
      obtain ⟨r, hr', heq, -⟩ := hr.covers
        (by rw [Instr.temps_rename]; exact List.mem_map_of_mem (hts ht)) hslot
      refine .inr ⟨r, hr', heq ▸ List.mem_map_of_mem ht, ?_⟩
      rw [Function.comp_apply, ← heq, hr.substitute_spilled hr']

/-- A round keeps a detour in order. -/
theorem Detour.Valid.respill (hd : d.Valid made i) (hs : Spares slots made)
    (hr : Replaces slots base (i.rename d.sub) reps) (hfresh : ∀ r ∈ reps, fresh r.fresh)
    (hold : ∀ t ∈ i.temps, ¬fresh (d.sub t)) :
    (d.respill reps i).Valid (fun t => made t ∨ fresh t) i where
  sub := by
    intro t ht
    show substitute reps (d.sub t) = t ∨
      (made (substitute reps (d.sub t)) ∨ fresh (substitute reps (d.sub t))) ∧ _
    cases hslot : slots[d.sub t]? with
    | none =>
      rw [hr.substitute_of_none hslot]
      exact (hd.sub ht).imp_right fun h => ⟨.inl h.1, h.2⟩
    | some o =>
      obtain ⟨r, hr', heq, -⟩ := hr.covers
        (by rw [Instr.temps_rename]; exact List.mem_map_of_mem ht) hslot
      rw [← heq, hr.substitute_spilled hr']
      refine .inr ⟨.inr (hfresh r hr'), ?_⟩
      rcases hd.sub ht with h | h
      · cases hreg : t.isRegister with
        | false => rfl
        | true =>
          rw [h, hs.register hreg] at hslot
          cases hslot
      · exact h.2
  read := by
    intro f
    rw [mem_read_respill, hd.read]
    exact hr.mem_map_comp hs hfresh hold (List.subset_append_right ..)
  written := by
    intro f
    rw [mem_written_respill, hd.written]
    exact hr.mem_map_comp hs hfresh hold (List.subset_append_left ..)

end

/-! ## One more round -/

theorem mem_flatten_surround_cons {j : Instr} :
    j ∈ (surround (i :: code) (d :: ds)).flatten ↔
      j ∈ d.code i ∨ j ∈ (surround code ds).flatten := by
  simp [surround]

theorem rename_mem_code (d : Detour) (i : Instr) : i.rename d.sub ∈ d.code i := by
  simp [Detour.code]

/-- The temporaries of a surrounded list were drawn before. -/
def SurroundWithin (bound : Nat) (code : List Instr) (ds : List Detour) : Prop :=
  ∀ j ∈ (surround code ds).flatten, ∀ t ∈ j.temps, t.Within bound

theorem SurroundWithin.tail {bound bound' : Nat} (h : SurroundWithin bound (i :: code) (d :: ds))
    (hle : bound ≤ bound') : SurroundWithin bound' code ds :=
  fun j hj t ht => (h j (mem_flatten_surround_cons.2 (.inr hj)) t ht).mono hle

theorem SurroundWithin.sub {bound : Nat} (h : SurroundWithin bound (i :: code) (d :: ds)) {t : Temp}
    (ht : t ∈ i.temps) : (d.sub t).Within bound := by
  refine h _ (mem_flatten_surround_cons.2 (.inl (rename_mem_code d i))) _ ?_
  rw [Instr.temps_rename]
  exact List.mem_map_of_mem ht

theorem spillTemps_surround_cons (hd : d.Valid made i) (hs : Spares slots made) (base : Nat) :
    spillTemps slots base (surround (i :: code) (d :: ds)).flatten =
      (replacementsFrom base (mentioned slots (i.rename d.sub))).map (·.fresh) ++
        spillTemps slots (base + (mentioned slots (i.rename d.sub)).length)
          (surround code ds).flatten := by
  obtain ⟨-, hc, ht⟩ := hd.spill_code hs base
  simp only [surround, List.zipWith_cons_cons, List.flatten_cons]
  rw [spillTemps_append, ht, hc]

theorem valid_respillAll {base lo : Nat} {fresh : Temp → Prop}
    (hd : List.Forall₂ (Detour.Valid made) code ds) (hs : Spares slots made)
    (hin : SurroundWithin lo code ds)
    (hfresh : ∀ t ∈ spillTemps slots base (surround code ds).flatten, fresh t)
    (hold : ∀ t, fresh t → ¬t.Within lo) :
    List.Forall₂ (Detour.Valid fun t => made t ∨ fresh t) code (respillAll slots base code ds) := by
  induction hd generalizing base with
  | nil => exact .nil
  | @cons i d code ds hid _ ih =>
    rw [spillTemps_surround_cons hid hs] at hfresh
    refine .cons (hid.respill hs (replaces_replacementsFrom slots base _) ?_ ?_) (ih ?_ ?_)
    · exact fun r hr => hfresh _ (List.mem_append_left _ (List.mem_map_of_mem hr))
    · exact fun t ht hf => hold _ hf (hin.sub ht)
    · exact hin.tail (Nat.le_refl lo)
    · exact fun t ht => hfresh t (List.mem_append_right _ ht)

theorem replaced_mem_temps {base : Nat} :
    ∀ r ∈ replacementsFrom base (mentioned slots (i.rename d.sub)),
      r.spilled ∈ (i.rename d.sub).temps :=
  fun _ hr => (replaces_replacementsFrom slots base _).mentioned hr

theorem Detour.Valid.made_of_mem (hd : d.Valid made i) {t : Temp} (ht : t ∈ d.read ++ d.written) :
    made t := by
  rcases List.mem_append.1 ht with ht | ht
  · exact (hd.read.1 ht).1
  · exact (hd.written.1 ht).1

/-- After a round, what belongs to an instruction did so before or was drawn now. -/
theorem of_mem_respillAll {base : Nat} (hd : List.Forall₂ (Detour.Valid made) code ds) {d' : Detour}
    (hd' : d' ∈ respillAll slots base code ds) {t : Temp} (ht : t ∈ d'.read ++ d'.written) :
    (made t ∧ ∃ d ∈ ds, t ∈ d.read ++ d.written) ∨ ¬t.Within base := by
  induction hd generalizing base with
  | nil => cases hd'
  | @cons i d code ds hid _ ih =>
    rw [respillAll, List.mem_cons] at hd'
    rcases hd' with rfl | hd'
    · rcases (mem_respill replaced_mem_temps).1 ht with ht | ⟨r, hr, rfl⟩
      · exact .inl ⟨hid.made_of_mem ht, d, List.mem_cons_self, ht⟩
      · obtain ⟨id, hid, hlo, -⟩ := fresh_replacementsFrom hr
        rw [hid, Temp.within_virtual]
        exact .inr (by omega)
    · rcases ih hd' with ⟨hm, d₀, hd₀, ht⟩ | ht
      · exact .inl ⟨hm, d₀, List.mem_cons_of_mem d hd₀, ht⟩
      · exact .inr fun h => ht (h.mono (by omega))

/-- After a round, what was made up still belongs to one instruction. -/
theorem apart_respillAll {base : Nat} (hd : List.Forall₂ (Detour.Valid made) code ds)
    (hmade : ∀ t, made t → t.Within base)
    (h : ds.Pairwise fun d d' => ∀ t ∈ d.read ++ d.written, t ∉ d'.read ++ d'.written) :
    (respillAll slots base code ds).Pairwise fun d d' =>
      ∀ t ∈ d.read ++ d.written, t ∉ d'.read ++ d'.written := by
  induction hd generalizing base with
  | nil => exact .nil
  | @cons i d code ds hid hd ih =>
    rw [List.pairwise_cons] at h
    refine .cons ?_ (ih (fun t ht => (hmade t ht).mono (by omega)) h.2)
    intro d' hd' t ht ht'
    -- Old ones are not above the counter, those of this window are not above the counter
    -- behind it, and new ones of other windows are.
    rcases (mem_respill replaced_mem_temps).1 ht with ht | ⟨r, hr, rfl⟩
    · rcases of_mem_respillAll hd hd' ht' with ⟨-, d₀, hd₀, ht₀⟩ | hnew
      · exact h.1 d₀ hd₀ t ht ht₀
      · exact hnew ((hmade t (hid.made_of_mem ht)).mono (by omega))
    · obtain ⟨id, hid, hlo, hhi⟩ := fresh_replacementsFrom hr
      rcases of_mem_respillAll hd hd' ht' with ⟨hm, -⟩ | hnew
      · exact (hmade _ hm).ne_virtual hlo hid
      · exact hnew (by rw [hid, Temp.within_virtual]; exact hhi)

/-- After a round, what was made up still belongs to some instruction. -/
theorem home_respillAll {base : Nat} (hd : List.Forall₂ (Detour.Valid made) code ds)
    (hs : Spares slots made) {t : Temp}
    (ht : (∃ d ∈ ds, t ∈ d.read ++ d.written) ∨
      t ∈ spillTemps slots base (surround code ds).flatten) :
    ∃ d ∈ respillAll slots base code ds, t ∈ d.read ++ d.written := by
  induction hd generalizing base with
  | nil =>
    rcases ht with ⟨d, hd, -⟩ | ht
    · cases hd
    · cases ht
  | @cons i d code ds hid _ ih =>
    rw [spillTemps_surround_cons hid hs, List.mem_append, List.mem_map] at ht
    rw [respillAll]
    rcases ht with ⟨d₀, hd₀, ht⟩ | hnew | ht
    · rcases List.mem_cons.1 hd₀ with rfl | hd₀
      · exact ⟨_, List.mem_cons_self, (mem_respill replaced_mem_temps).2 (.inl ht)⟩
      · exact List.exists_mem_cons_of_exists (ih (.inl ⟨d₀, hd₀, ht⟩))
    · exact ⟨_, List.mem_cons_self, (mem_respill replaced_mem_temps).2 (.inr hnew)⟩
    · exact List.exists_mem_cons_of_exists (ih (.inr ht))

/-- **One more round of spilling** makes new detours out of old ones. -/
theorem Detours.respill {base : Nat} (h : Detours made code ds) (hs : Spares slots made)
    (hin : SurroundWithin base code ds) (hcode : ∀ i ∈ code, ∀ t ∈ i.temps, t.Within base)
    (hmade : ∀ t, made t → t.Within base) :
    Detours (fun t => made t ∨ t ∈ spillTemps slots base (surround code ds).flatten) code
      (respillAll slots base code ds) where
  valid := valid_respillAll h.valid hs hin (fun _ ht => ht) fun _ => not_within_of_mem_spillTemps
  apart := apart_respillAll h.valid hmade h.apart
  home := fun ht => home_respillAll h.valid hs (ht.imp_left h.home)
  old := by
    rintro i t hi ht (hm | hm)
    · exact h.old hi ht hm
    · exact not_within_of_mem_spillTemps hm (hcode i hi t ht)

end Lowering.Spill
