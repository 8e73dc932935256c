import Lowering.Spill
import Lowering.Proofs.Flow
import Lowering.Proofs.Names
import Lowering.Proofs.Words
import Mathlib.Data.List.Nodup

/-!
# Spilling as windows

Spilling replaces every instruction by its window.  Which fresh temporaries it uses
depends on the counter alone, so the windows can be given without running anything:
`spillWindows`.  `run_toSlots` says that this is what spilling does.

## Main definitions

* `replacementsFrom` — the replacements in one instruction, numbered from a counter.
* `spillWindows`, `spillTemps` — the windows of a list, and all the fresh temporaries.
* `slotsFrom` — the slots of some temporaries, numbered from the size of the frame.
-/

namespace Lowering.Spill

variable {slots : Slots} {i : Instr}

/-- Replacements for spilled temporaries if `base` temporaries were drawn before. -/
def replacementsFrom : (base : Nat) → List (Temp × Int) → List Replacement
  | _, [] => []
  | base, (t, offset) :: rest =>
    ⟨t, offset, .virtual (base + 1)⟩ :: replacementsFrom (base + 1) rest

/-- The windows of an instruction list if `base` temporaries were drawn before. -/
def spillWindows (slots : Slots) : (base : Nat) → List Instr → List (List Instr)
  | _, [] => []
  | base, i :: rest =>
    window (replacementsFrom base (mentioned slots i)) i ::
      spillWindows slots (base + (mentioned slots i).length) rest

/-- The fresh temporaries of these windows. -/
def spillTemps (slots : Slots) : (base : Nat) → List Instr → List Temp
  | _, [] => []
  | base, i :: rest =>
    (replacementsFrom base (mentioned slots i)).map (·.fresh) ++
      spillTemps slots (base + (mentioned slots i).length) rest

/-- How many temporaries they are. -/
def spillCount (slots : Slots) : List Instr → Nat
  | [] => 0
  | i :: rest => (mentioned slots i).length + spillCount slots rest

/-- Slots for some temporaries, in addition to those there are, if `locals` slots were
reserved before. -/
def slotsFrom (slots : Slots) : (locals : Nat) → List Temp → Slots
  | _, [] => slots
  | locals, t :: rest =>
    slotsFrom (slots.insert t (Mips.Frame.slotOffset (locals + 1))) (locals + 1) rest

/-! ## What spilling does -/

theorem run_replaceAll (ms : List (Temp × Int)) (s : Supply) :
    (replaceAll ms).run s =
      (.ok (replacementsFrom s.temps ms), { s with temps := s.temps + ms.length }) := by
  induction ms generalizing s with
  | nil => rfl
  | cons m ms ih =>
    obtain ⟨t, o⟩ := m
    rw [replaceAll, Attempt.run_bind_ok _ (Fresh.run_temp s), Attempt.run_bind_ok _ (ih _)]
    simp [replacementsFrom, Nat.add_assoc, Nat.add_comm 1]

theorem run_reserveAll (slots : Slots) (ts : List Temp) (w : Workspace) :
    (reserveAll slots ts).run w =
      (.ok (slotsFrom slots w.frame.locals ts),
        { w with frame := { w.frame with locals := w.frame.locals + ts.length } }) := by
  induction ts generalizing slots w with
  | nil => rfl
  | cons t ts ih =>
    rw [reserveAll, Attempt.run_bind_ok _ (Pass.run_reserve w), ih]
    simp [slotsFrom, Mips.Frame.reserve, Nat.add_assoc, Nat.add_comm 1]

/-- The result of spilling around one instruction, if it does not fault. -/
theorem run_expand_eq_ok {w w' : Workspace} {out : List Instr × List Temp}
    (h : (expand slots i).run w = (.ok out, w')) :
    out = (window (replacementsFrom w.supply.temps (mentioned slots i)) i,
        (replacementsFrom w.supply.temps (mentioned slots i)).map (·.fresh)) ∧
      w'.supply = { w.supply with temps := w.supply.temps + (mentioned slots i).length } ∧
      w'.frame = w.frame := by
  rw [expand, Attempt.run_bind_eq_ok_iff] at h
  obtain ⟨reps, w₁, hreps, h⟩ := h
  rw [Pass.run_fresh, run_replaceAll] at hreps
  cases hreps
  dsimp only at h
  split at h
  · cases h
    exact ⟨rfl, rfl, rfl⟩
  · rw [Attempt.run_bind_eq_ok_iff] at h
    obtain ⟨u, w₂, hnote, h⟩ := h
    rw [Attempt.run_pure, Prod.mk.injEq, Except.ok.injEq] at h
    obtain ⟨rfl, rfl⟩ := h
    obtain ⟨hs, hf⟩ := Pass.run_noteText_eq_ok hnote
    exact ⟨rfl, hs, hf⟩

/-- The result of spilling around every instruction, if it does not fault. -/
theorem run_expandAll_eq_ok {code : List Instr} {w w' : Workspace} {out : List Instr × List Temp}
    (h : (expandAll slots code).run w = (.ok out, w')) :
    out = ((spillWindows slots w.supply.temps code).flatten, spillTemps slots w.supply.temps code) ∧
      w'.supply = { w.supply with temps := w.supply.temps + spillCount slots code } ∧
      w'.frame = w.frame := by
  induction code generalizing w out with
  | nil =>
    cases h
    exact ⟨rfl, rfl, rfl⟩
  | cons i rest ih =>
    rw [expandAll, Attempt.run_bind_eq_ok_iff] at h
    obtain ⟨first, w₁, hfirst, h⟩ := h
    rw [Attempt.run_bind_eq_ok_iff] at h
    obtain ⟨more, w₂, hmore, h⟩ := h
    cases h
    obtain ⟨rfl, hs₁, hf₁⟩ := run_expand_eq_ok hfirst
    obtain ⟨rfl, hs₂, hf₂⟩ := ih hmore
    rw [hs₁] at hs₂ ⊢
    refine ⟨rfl, ?_, hf₂.trans hf₁⟩
    rw [hs₂]
    simp [spillCount, Nat.add_assoc]

/-- **What spilling does**, if it does not fault. -/
theorem run_toSlots_eq_ok {spilled : List Temp} {code : List Instr} {w w' : Workspace}
    {out : List Instr × List Temp} (h : (toSlots spilled code).run w = (.ok out, w')) :
    out = ((spillWindows (slotsFrom ∅ w.frame.locals spilled) w.supply.temps code).flatten,
        spillTemps (slotsFrom ∅ w.frame.locals spilled) w.supply.temps code) ∧
      w'.supply = { w.supply with
        temps := w.supply.temps + spillCount (slotsFrom ∅ w.frame.locals spilled) code } ∧
      w'.frame = { w.frame with locals := w.frame.locals + spilled.length } := by
  rw [toSlots, Attempt.run_bind_ok _ (run_reserveAll ∅ spilled w)] at h
  exact run_expandAll_eq_ok h

/-- The record about an instruction can be written. -/
def Wordable (journal : Journal) (i : Instr) : Prop :=
  journal.records? = none ∨ ∃ text, i.text = .ok text

/-- The pass gives a value and does not wake up a silent journal, or else it overflows over the
words for one of some instructions. -/
def Settles {α : Type} (x : Pass α) (w : Workspace) (about : Instr → Prop) : Prop :=
  (∃ a w', x.run w = (.ok a, w') ∧ (w.journal.records? = none → w'.journal.records? = none)) ∨
    ∃ i step w', about i ∧ ¬Wordable w.journal i ∧ x.run w = (.error (.overflow step), w')

theorem Settles.bind {α β : Type} {x : Pass α} {f : α → Pass β} {w : Workspace}
    {about : Instr → Prop} (hx : Settles x w about)
    (hf : ∀ a w', x.run w = (.ok a, w') → Settles (f a) w' about) :
    Settles (x >>= f) w about := by
  rcases hx with ⟨a, w', hrun, hsilent⟩ | ⟨i, step, w', hi, hwords, hrun⟩
  · rcases hf a w' hrun with ⟨b, w'', hrun', hsilent'⟩ | ⟨i, step, w'', hi, hwords, hrun'⟩
    · exact .inl ⟨b, w'', by rw [Attempt.run_bind_ok f hrun, hrun'], hsilent' ∘ hsilent⟩
    · refine .inr ⟨i, step, w'', hi, fun h => hwords (h.imp_left hsilent), ?_⟩
      rw [Attempt.run_bind_ok f hrun, hrun']
  · exact .inr ⟨i, step, w', hi, hwords, Attempt.run_bind_error f hrun⟩

theorem settles_pure {α : Type} (a : α) (w : Workspace) (about : Instr → Prop) :
    Settles (pure a) w about := .inl ⟨a, w, rfl, id⟩

theorem settles_noteInstr (level : Level) (before after : String) (w : Workspace)
    {about : Instr → Prop} (hi : about i) :
    Settles (Pass.noteInstr level before i after) w about := by
  cases hr : w.journal.records? with
  | none => exact .inl ⟨(), w, Pass.run_noteText_of_silent hr .., id⟩
  | some records =>
    cases ht : i.text with
    | ok text =>
      refine .inl ⟨(), { w with
        journal := ⟨some (records.push ⟨level, before ++ text ++ after⟩)⟩ }, ?_, by simp [hr]⟩
      simp [Pass.noteInstr, Pass.noteText, Journal.add, hr, ht, Except.map]
    | error e =>
      obtain ⟨step, rfl⟩ := Instr.overflow_of_text ht
      refine .inr ⟨i, step, w, hi, by simp [Wordable, hr, ht], ?_⟩
      simp [Pass.noteInstr, Pass.noteText, Journal.add, hr, ht, Except.map]

theorem settles_expand (w : Workspace) {about : Instr → Prop}
    (hi : mentioned slots i ≠ [] → about i) : Settles (expand slots i) w about := by
  have hfresh : (Pass.fresh (replaceAll (mentioned slots i))).run w =
      (.ok (replacementsFrom w.supply.temps (mentioned slots i)), { w with supply :=
        { w.supply with temps := w.supply.temps + (mentioned slots i).length } }) := by
    rw [Pass.run_fresh, run_replaceAll]
  refine .bind (.inl ⟨_, _, hfresh, id⟩) fun reps w' hreps => ?_
  split
  · exact settles_pure _ w' about
  · next hne =>
    have hm : mentioned slots i ≠ [] := by
      rintro hm
      rw [hfresh, hm, Prod.mk.injEq, Except.ok.injEq] at hreps
      simp [← hreps.1, replacementsFrom] at hne
    exact (settles_noteInstr _ _ _ w' (hi hm)).bind fun _ w'' _ => settles_pure _ w'' about

theorem settles_expandAll {code : List Instr} (w : Workspace) {about : Instr → Prop}
    (h : ∀ i ∈ code, mentioned slots i ≠ [] → about i) :
    Settles (expandAll slots code) w about := by
  induction code generalizing w with
  | nil => exact settles_pure _ w about
  | cons i code ih =>
    refine (settles_expand w (h i List.mem_cons_self)).bind fun _ w' _ => ?_
    refine (ih w' fun j hj => h j (List.mem_cons_of_mem i hj)).bind fun _ w'' _ => ?_
    exact settles_pure _ w'' about

/-- Spilling succeeds unless there are no words for something that is rewritten. -/
theorem settles_toSlots (spilled : List Temp) (code : List Instr) (w : Workspace) :
    Settles (toSlots spilled code) w fun i =>
      i ∈ code ∧ mentioned (slotsFrom ∅ w.frame.locals spilled) i ≠ [] := by
  refine .bind (.inl ⟨_, _, run_reserveAll ∅ spilled w, id⟩) fun slots w' hslots => ?_
  rw [run_reserveAll, Prod.mk.injEq, Except.ok.injEq] at hslots
  obtain ⟨rfl, rfl⟩ := hslots
  exact settles_expandAll _ fun i hi hm => ⟨hi, hm⟩

/-! ## Slots -/

theorem getElem?_slotsFrom {ts : List Temp} (h : ts.Nodup) (slots : Slots) (locals : Nat)
    (t : Temp) :
    (slotsFrom slots locals ts)[t]? =
      if t ∈ ts then some (Mips.Frame.slotOffset (locals + 1 + ts.idxOf t)) else slots[t]? := by
  induction ts generalizing slots locals with
  | nil => simp [slotsFrom]
  | cons u ts ih =>
    rw [List.nodup_cons] at h
    rw [slotsFrom, ih h.2]
    by_cases htu : t = u
    · subst htu
      simp [h.1]
    · rw [List.idxOf_cons_ne ts (Ne.symm htu)]
      simp only [List.mem_cons, htu, false_or, Std.TreeMap.getElem?_insert]
      split
      · congr 2
        omega
      · simp [Ne.symm htu]

theorem getElem?_slotsFrom_eq_none {ts : List Temp} (h : ts.Nodup) {locals : Nat} {t : Temp} :
    (slotsFrom ∅ locals ts)[t]? = none ↔ t ∉ ts := by
  rw [getElem?_slotsFrom h]
  split <;> simp_all

theorem slotOffset_inj {m n : Nat} :
    Mips.Frame.slotOffset m = Mips.Frame.slotOffset n ↔ m = n := by
  unfold Mips.Frame.slotOffset Mips.wordSize
  omega

/-- The slots of some temporaries are new ones, and no two of them are the same. -/
structure NewSlots (slots : Slots) (locals count : Nat) : Prop where
  bounds : ∀ {t : Temp} {o : Int}, slots[t]? = some o →
    ∃ n, o = Mips.Frame.slotOffset n ∧ locals < n ∧ n ≤ locals + count
  unique : ∀ {t u : Temp} {o : Int}, slots[t]? = some o → slots[u]? = some o → t = u

theorem newSlots_slotsFrom {ts : List Temp} (h : ts.Nodup) (locals : Nat) :
    NewSlots (slotsFrom ∅ locals ts) locals ts.length where
  bounds := by
    intro t o ht
    rw [getElem?_slotsFrom h] at ht
    split at ht
    · next hmem =>
      have hlt := List.idxOf_lt_length_iff.2 hmem
      exact ⟨_, (Option.some.inj ht).symm, by omega, by omega⟩
    · simp at ht
  unique := by
    intro t u o ht hu
    rw [getElem?_slotsFrom h] at ht hu
    split at ht
    · next hmemt =>
      split at hu
      · next hmemu =>
        rw [← hu, Option.some.injEq, slotOffset_inj] at ht
        exact (List.idxOf_inj hmemt).1 (by omega)
      · simp at hu
    · simp at ht

/-! ## Replacements -/

theorem nodup_eraseDups {α : Type} [BEq α] [LawfulBEq α] (l : List α) : l.eraseDups.Nodup := by
  generalize hn : l.length = n
  induction n using Nat.strongRecOn generalizing l with
  | ind n ih =>
    cases l with
    | nil => simp
    | cons a l =>
      rw [List.eraseDups_cons, List.nodup_cons]
      refine ⟨by simp [List.mem_eraseDups], ih _ ?_ _ rfl⟩
      have := List.length_filter_le (fun b => !b == a) l
      simp only [List.length_cons] at hn
      omega

theorem mem_mentioned {t : Temp} {o : Int} :
    (t, o) ∈ mentioned slots i ↔ t ∈ i.temps ∧ slots[t]? = some o := by
  simp only [mentioned, List.mem_filterMap, List.mem_eraseDups, Option.map_eq_some_iff, Instr.temps,
    List.mem_append, Prod.mk.injEq]
  constructor
  · rintro ⟨u, hu, o', ho', rfl, rfl⟩
    exact ⟨hu.symm, ho'⟩
  · rintro ⟨ht, ho⟩
    exact ⟨t, ht.symm, o, ho, rfl, rfl⟩

theorem nodup_mentioned (slots : Slots) (i : Instr) : ((mentioned slots i).map Prod.fst).Nodup := by
  have hsub : ((mentioned slots i).map Prod.fst).Sublist (i.uses ++ i.defs).eraseDups := by
    unfold mentioned
    generalize (i.uses ++ i.defs).eraseDups = ts
    induction ts with
    | nil => simp
    | cons t ts ih =>
      cases h : slots[t]? with
      | none => simpa [h] using ih.trans (List.sublist_cons_self t ts)
      | some o => simpa [h] using ih.cons_cons t
  exact hsub.nodup (nodup_eraseDups _)

theorem map_replacementsFrom (base : Nat) (ms : List (Temp × Int)) :
    (replacementsFrom base ms).map (fun r => (r.spilled, r.offset)) = ms := by
  induction ms generalizing base with
  | nil => rfl
  | cons m ms ih => simp [replacementsFrom, ih]

theorem fresh_replacementsFrom {base : Nat} {ms : List (Temp × Int)} {r : Replacement}
    (h : r ∈ replacementsFrom base ms) :
    ∃ id, r.fresh = .virtual id ∧ base < id ∧ id ≤ base + ms.length := by
  induction ms generalizing base with
  | nil => cases h
  | cons m ms ih =>
    rcases List.mem_cons.1 h with rfl | h
    · exact ⟨base + 1, rfl, by omega, by simp only [List.length_cons]; omega⟩
    · obtain ⟨id, hid, hlo, hhi⟩ := ih h
      exact ⟨id, hid, by omega, by simp only [List.length_cons]; omega⟩

theorem nodup_fresh_replacementsFrom (base : Nat) (ms : List (Temp × Int)) :
    ((replacementsFrom base ms).map (·.fresh)).Nodup := by
  induction ms generalizing base with
  | nil => simp [replacementsFrom]
  | cons m ms ih =>
    simp only [replacementsFrom, List.map_cons, List.nodup_cons]
    refine ⟨?_, ih (base + 1)⟩
    intro hmem
    obtain ⟨r, hr, heq⟩ := List.mem_map.1 hmem
    obtain ⟨id, hid, hlo, -⟩ := fresh_replacementsFrom hr
    rw [hid, Temp.virtual.injEq] at heq
    omega

/-- Replacements for exactly the spilled temporaries of an instruction, each by another
temporary whose number is above the counter. -/
structure Replaces (slots : Slots) (base : Nat) (i : Instr) (reps : List Replacement) : Prop where
  slot : ∀ {r : Replacement}, r ∈ reps → slots[r.spilled]? = some r.offset
  mentioned : ∀ {r : Replacement}, r ∈ reps → r.spilled ∈ i.temps
  covers : ∀ {t : Temp} {o : Int}, t ∈ i.temps → slots[t]? = some o →
    ∃ r ∈ reps, r.spilled = t ∧ r.offset = o
  fresh : ∀ {r : Replacement}, r ∈ reps → ∃ id, r.fresh = .virtual id ∧ base < id
  nodup_spilled : (reps.map (·.spilled)).Nodup
  nodup_fresh : (reps.map (·.fresh)).Nodup

theorem replaces_replacementsFrom (slots : Slots) (base : Nat) (i : Instr) :
    Replaces slots base i (replacementsFrom base (mentioned slots i)) := by
  have hmem : ∀ {r : Replacement}, r ∈ replacementsFrom base (Spill.mentioned slots i) →
      r.spilled ∈ i.temps ∧ slots[r.spilled]? = some r.offset := by
    intro r hr
    have hr' := List.mem_map_of_mem (f := fun r => (r.spilled, r.offset)) hr
    rw [map_replacementsFrom] at hr'
    exact mem_mentioned.1 hr'
  constructor
  · exact fun hr => (hmem hr).2
  · exact fun hr => (hmem hr).1
  · intro t o ht ho
    have hm : (t, o) ∈ Spill.mentioned slots i := mem_mentioned.2 ⟨ht, ho⟩
    rw [← map_replacementsFrom base (Spill.mentioned slots i), List.mem_map] at hm
    obtain ⟨r, hr, heq⟩ := hm
    exact ⟨r, hr, congrArg Prod.fst heq, congrArg Prod.snd heq⟩
  · intro r hr
    obtain ⟨id, hid, hlo, -⟩ := fresh_replacementsFrom hr
    exact ⟨id, hid, hlo⟩
  · have hnd := nodup_mentioned slots i
    rw [← map_replacementsFrom base (Spill.mentioned slots i), List.map_map] at hnd
    exact hnd
  · exact nodup_fresh_replacementsFrom _ _

section

variable {base : Nat} {reps : List Replacement}

theorem Replaces.eq_of_spilled_eq (h : Replaces slots base i reps) {r r' : Replacement}
    (hr : r ∈ reps) (hr' : r' ∈ reps) (heq : r.spilled = r'.spilled) : r = r' :=
  List.inj_on_of_nodup_map h.nodup_spilled hr hr' heq

theorem Replaces.eq_of_fresh_eq (h : Replaces slots base i reps) {r r' : Replacement}
    (hr : r ∈ reps) (hr' : r' ∈ reps) (heq : r.fresh = r'.fresh) : r = r' :=
  List.inj_on_of_nodup_map h.nodup_fresh hr hr' heq

/-- A spilled temporary is replaced by its fresh one. -/
theorem Replaces.substitute_spilled (h : Replaces slots base i reps) {r : Replacement}
    (hr : r ∈ reps) : substitute reps r.spilled = r.fresh := by
  unfold substitute
  cases hfind : reps.find? (·.spilled = r.spilled) with
  | none =>
    have := List.find?_eq_none.1 hfind r hr
    simp at this
  | some r' =>
    have hspilled : r'.spilled = r.spilled := by simpa using List.find?_some hfind
    rw [h.eq_of_spilled_eq (List.mem_of_find?_eq_some hfind) hr hspilled]

/-- All other temporaries stay. -/
theorem Replaces.substitute_of_none (h : Replaces slots base i reps) {t : Temp}
    (ht : slots[t]? = none) : substitute reps t = t := by
  unfold substitute
  cases hfind : reps.find? (·.spilled = t) with
  | none => rfl
  | some r =>
    have hspilled : r.spilled = t := by simpa using List.find?_some hfind
    have := h.slot (List.mem_of_find?_eq_some hfind)
    rw [hspilled, ht] at this
    cases this

/-- Temporaries that were there before stay apart. -/
theorem Replaces.substitute_inj (h : Replaces slots base i reps) {t u : Temp}
    (ht : t.Within base) (hu : u.Within base) (heq : substitute reps t = substitute reps u) :
    t = u := by
  unfold substitute at heq
  split at heq
  · next r hr =>
    have hrt : r.spilled = t := by simpa using List.find?_some hr
    split at heq
    · next r' hr' =>
      have hru : r'.spilled = u := by simpa using List.find?_some hr'
      rw [← hrt, ← hru, h.eq_of_fresh_eq (List.mem_of_find?_eq_some hr)
        (List.mem_of_find?_eq_some hr') heq]
    · obtain ⟨id, hid, hlo⟩ := h.fresh (List.mem_of_find?_eq_some hr)
      rw [hid] at heq
      exact absurd heq.symm (hu.ne_virtual hlo)
  · split at heq
    · next r' hr' =>
      obtain ⟨id, hid, hlo⟩ := h.fresh (List.mem_of_find?_eq_some hr')
      rw [hid] at heq
      exact absurd heq (ht.ne_virtual hlo)
    · exact heq

end

/-! ## Windows -/

theorem isPlain_loadSlot (o : Int) (t : Temp) : (Mips.loadSlot o t).isPlain := rfl

theorem isPlain_storeSlot (o : Int) (t : Temp) : (Mips.storeSlot o t).isPlain := rfl

/-- A window opens its instruction, unless it jumps and writes at once. -/
theorem opens_window {base : Nat} {reps : List Replacement} (h : Replaces slots base i reps)
    (hjump : i.targets?.isSome → i.defs = []) : Opens i (window reps i) := by
  have hloads : ∀ k ∈ (reps.filter fun r => i.uses.contains r.spilled).map
      (fun r => Mips.loadSlot r.offset r.fresh), k.isPlain := by
    intro k hk
    obtain ⟨r, -, rfl⟩ := List.mem_map.1 hk
    exact isPlain_loadSlot _ _
  have hstores : ∀ k ∈ (reps.filter fun r => i.defs.contains r.spilled).map
      (fun r => Mips.storeSlot r.offset r.fresh), k.isPlain := by
    intro k hk
    obtain ⟨r, -, rfl⟩ := List.mem_map.1 hk
    exact isPlain_storeSlot _ _
  cases i with
  | label template l =>
    have hnil : reps = [] := by
      refine List.eq_nil_iff_forall_not_mem.2 fun r hr => ?_
      have := h.mentioned hr
      simp [Instr.temps, Instr.defs, Instr.uses] at this
    rw [hnil]
    exact .label template l
  | move template dst src =>
    refine .plain rfl fun k hk => ?_
    simp only [window, List.mem_append, List.mem_singleton] at hk
    rcases hk with (hk | rfl) | hk
    · exact hloads k hk
    · rfl
    · exact hstores k hk
  | oper template dst src jump =>
    cases jump with
    | none =>
      refine .plain rfl fun k hk => ?_
      simp only [window, List.mem_append, List.mem_singleton] at hk
      rcases hk with (hk | rfl) | hk
      · exact hloads k hk
      · rfl
      · exact hstores k hk
    | some labels =>
      have hdefs : dst = [] := hjump rfl
      subst hdefs
      have hw : window reps (.oper template [] src (some labels)) =
          (reps.filter fun r => src.contains r.spilled).map
            (fun r => Mips.loadSlot r.offset r.fresh) ++
          [(Instr.oper template [] src (some labels)).rename (substitute reps)] := by
        simp [window, Instr.defs, Instr.uses]
      rw [hw]
      exact .jump rfl rfl hloads

/-- The window at an index. -/
theorem getElem?_spillWindows {code : List Instr} {n base : Nat} {w : List Instr}
    (hw : (spillWindows slots base code)[n]? = some w) :
    ∃ i reps base', base ≤ base' ∧ code[n]? = some i ∧ Replaces slots base' i reps ∧
      w = window reps i := by
  induction code generalizing n base with
  | nil => simp [spillWindows] at hw
  | cons i code ih =>
    cases n with
    | zero =>
      simp only [spillWindows, List.getElem?_cons_zero, Option.some.injEq] at hw
      exact ⟨i, _, base, Nat.le_refl _, rfl, replaces_replacementsFrom slots base i, hw.symm⟩
    | succ n =>
      rw [spillWindows, List.getElem?_cons_succ] at hw
      obtain ⟨i', reps, base', hle, hi, hreps, hwin⟩ := ih hw
      exact ⟨i', reps, base', by omega, by simpa using hi, hreps, hwin⟩

theorem forall₂_opens_spillWindows {code : List Instr} (base : Nat)
    (hjump : ∀ i ∈ code, i.targets?.isSome → i.defs = []) :
    List.Forall₂ Opens code (spillWindows slots base code) := by
  induction code generalizing base with
  | nil => exact .nil
  | cons i code ih =>
    refine .cons (opens_window (replaces_replacementsFrom slots base i)
      (hjump i List.mem_cons_self)) (ih _ fun j hj => hjump j (List.mem_cons_of_mem _ hj))

/-! ## What is in a window -/

theorem mem_window {reps : List Replacement} {j : Instr} : j ∈ window reps i ↔
    (∃ r ∈ reps, r.spilled ∈ i.uses ∧ j = Mips.loadSlot r.offset r.fresh) ∨
      j = i.rename (substitute reps) ∨
      ∃ r ∈ reps, r.spilled ∈ i.defs ∧ j = Mips.storeSlot r.offset r.fresh := by
  simp only [window, List.mem_append, List.mem_map, List.mem_filter, List.contains_iff_mem,
    List.mem_singleton, or_assoc, and_assoc, eq_comm (a := j)]

/-- An instruction of the windows is in the window of an instruction. -/
theorem of_mem_spillWindows {code : List Instr} {base : Nat} {j : Instr}
    (hj : j ∈ (spillWindows slots base code).flatten) :
    ∃ i ∈ code, ∃ reps base', base ≤ base' ∧ Replaces slots base' i reps ∧ j ∈ window reps i := by
  obtain ⟨w, hw, hj⟩ := List.mem_flatten.1 hj
  obtain ⟨n, hn⟩ := List.getElem?_of_mem hw
  obtain ⟨i, reps, base', hle, hi, hreps, rfl⟩ := getElem?_spillWindows hn
  exact ⟨i, List.mem_of_getElem? hi, reps, base', hle, hreps, hj⟩

theorem mem_substitute (reps : List Replacement) (t : Temp) :
    substitute reps t = t ∨ ∃ r ∈ reps, r.spilled = t ∧ substitute reps t = r.fresh := by
  unfold substitute
  cases h : reps.find? (·.spilled = t) with
  | none => exact .inl rfl
  | some r => exact .inr ⟨r, List.mem_of_find?_eq_some h, by simpa using List.find?_some h, rfl⟩

/-- The temporaries of a window are those of its instruction and the fresh ones. -/
theorem of_mem_temps_window {reps : List Replacement} {j : Instr} (hj : j ∈ window reps i)
    {t : Temp}
    (ht : t ∈ j.temps) : t ∈ i.temps ∨ (∃ r ∈ reps, t = r.fresh) ∨ t = Mips.fp := by
  rcases mem_window.1 hj with ⟨r, hr, -, rfl⟩ | rfl | ⟨r, hr, -, rfl⟩
  · simp only [Mips.loadSlot, Instr.op, Instr.temps, Instr.defs, Instr.uses, List.mem_append,
      List.mem_singleton] at ht
    exact ht.elim (fun h => .inr (.inl ⟨r, hr, h⟩)) fun h => .inr (.inr h)
  · rw [Instr.temps_rename, List.mem_map] at ht
    obtain ⟨u, hu, rfl⟩ := ht
    rcases mem_substitute reps u with h | ⟨r, hr, -, h⟩
    · exact .inl (by rwa [h])
    · exact .inr (.inl ⟨r, hr, h⟩)
  · simp only [Mips.storeSlot, Instr.op, Instr.temps, Instr.defs, Instr.uses, List.nil_append,
      List.mem_cons, List.not_mem_nil, or_false] at ht
    exact ht.elim (fun h => .inr (.inl ⟨r, hr, h⟩)) fun h => .inr (.inr h)

/-- Spilling removes the spilled temporaries. -/
theorem of_mem_temps_spillWindows {code : List Instr} {base : Nat} {j : Instr}
    (hj : j ∈ (spillWindows slots base code).flatten) {t : Temp} (ht : t ∈ j.temps) :
    (t ∈ code.flatMap Instr.temps ∧ slots[t]? = none) ∨ ¬t.Within base ∨ t = Mips.fp := by
  obtain ⟨i, hi, reps, base', hle, hreps, hj⟩ := of_mem_spillWindows hj
  have hfresh : ∀ {r}, r ∈ reps → ¬r.fresh.Within base := by
    intro r hr
    obtain ⟨id, hid, hlo⟩ := hreps.fresh hr
    rw [hid, Temp.within_virtual]
    omega
  cases hslot : slots[t]? with
  | none =>
    rcases of_mem_temps_window hj ht with hi' | ⟨r, hr, rfl⟩ | hfp
    · exact .inl ⟨List.mem_flatMap.2 ⟨i, hi, hi'⟩, rfl⟩
    · exact .inr (.inl (hfresh hr))
    · exact .inr (.inr hfp)
  | some o =>
    -- Nothing but a fresh temporary can be in the place of a spilled one.
    rcases mem_window.1 hj with ⟨r, hr, -, rfl⟩ | rfl | ⟨r, hr, -, rfl⟩
    · rcases List.mem_pair.1 ht with rfl | rfl
      · exact .inr (.inl (hfresh hr))
      · exact .inr (.inr rfl)
    · rw [Instr.temps_rename, List.mem_map] at ht
      obtain ⟨u, hu, rfl⟩ := ht
      rcases mem_substitute reps u with h | ⟨r, hr, -, h⟩
      · rw [h] at hslot
        obtain ⟨r, hr, rfl, -⟩ := hreps.covers hu hslot
        rw [hreps.substitute_spilled hr]
        exact .inr (.inl (hfresh hr))
      · rw [h]
        exact .inr (.inl (hfresh hr))
    · rcases List.mem_pair.1 ht with rfl | rfl
      · exact .inr (.inl (hfresh hr))
      · exact .inr (.inr rfl)

/-- What spilling removes does not come back, and what was not there does not appear. -/
theorem notMem_spillWindows {code : List Instr} {base : Nat} {t : Temp}
    (hv : t.isRegister = false) (hin : t.Within base)
    (hgone : t ∉ code.flatMap Instr.temps ∨ slots[t]? ≠ none) :
    t ∉ (spillWindows slots base code).flatten.flatMap Instr.temps := by
  intro hmem
  obtain ⟨j, hj, hjt⟩ := List.mem_flatMap.1 hmem
  rcases of_mem_temps_spillWindows hj hjt with ⟨hold, hnone⟩ | hfresh | rfl
  · exact hgone.elim (fun h => h hold) fun h => h hnone
  · exact hfresh hin
  · cases hv

/-- The temporaries that spilling draws. -/
theorem of_mem_spillTemps {base : Nat} {code : List Instr} {t : Temp}
    (h : t ∈ spillTemps slots base code) :
    ∃ id, t = .virtual id ∧ base < id ∧ id ≤ base + spillCount slots code := by
  induction code generalizing base with
  | nil => cases h
  | cons i code ih =>
    rw [spillTemps, List.mem_append, List.mem_map] at h
    rw [spillCount]
    rcases h with ⟨r, hr, rfl⟩ | h
    · obtain ⟨id, hid, hlo, hhi⟩ := fresh_replacementsFrom hr
      exact ⟨id, hid, hlo, by omega⟩
    · obtain ⟨id, hid, hlo, hhi⟩ := ih h
      exact ⟨id, hid, by omega, by omega⟩

theorem not_within_of_mem_spillTemps {base : Nat} {code : List Instr} {t : Temp}
    (h : t ∈ spillTemps slots base code) : ¬t.Within base := by
  obtain ⟨id, rfl, hlo, -⟩ := of_mem_spillTemps h
  exact Nat.not_le_of_lt hlo

/-- Spilling draws as many temporaries as it counts. -/
theorem within_spillWindows {code : List Instr} {base : Nat}
    (h : ∀ i ∈ code, ∀ t ∈ i.temps, t.Within base) :
    ∀ j ∈ (spillWindows slots base code).flatten, ∀ t ∈ j.temps,
      t.Within (base + spillCount slots code) := by
  induction code generalizing base with
  | nil => simp [spillWindows]
  | cons i code ih =>
    intro j hj t ht
    rw [spillWindows, List.flatten_cons, List.mem_append] at hj
    rw [spillCount, ← Nat.add_assoc]
    rcases hj with hj | hj
    · rcases of_mem_temps_window hj ht with hi | ⟨r, hr, rfl⟩ | rfl
      · exact (h i List.mem_cons_self t hi).mono (by omega)
      · obtain ⟨id, hid, -, hle⟩ := fresh_replacementsFrom hr
        rw [hid, Temp.within_virtual]
        omega
      · exact Temp.within_of_isRegister rfl _
    · refine ih (fun k hk u hu => ?_) j hj t ht
      exact (h k (List.mem_cons_of_mem i hk) u hu).mono (by omega)

/-- Spilling makes no instruction that jumps and writes at once. -/
theorem defs_spillWindows {code : List Instr} {base : Nat}
    (h : ∀ i ∈ code, i.targets?.isSome → i.defs = []) :
    ∀ j ∈ (spillWindows slots base code).flatten, j.targets?.isSome → j.defs = [] := by
  intro j hj hsome
  obtain ⟨i, hi, reps, -, -, -, hj⟩ := of_mem_spillWindows hj
  rcases mem_window.1 hj with ⟨r, -, -, rfl⟩ | rfl | ⟨r, -, -, rfl⟩
  · cases hsome
  · rw [Instr.targets?_rename] at hsome
    rw [Instr.defs_rename, h i hi hsome]
    rfl
  · cases hsome

end Lowering.Spill
