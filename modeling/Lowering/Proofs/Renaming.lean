import Lowering.Allocation
import Lowering.Proofs.Expansion
import Lowering.Proofs.Liveness

/-!
# Renaming temporaries

If the live sets of an instruction list solve their equations, and a renaming keeps
apart whatever an instruction writes and whatever is live behind it, then the renamed
list does what the list does.  The one exception is a copy: its two ends may become
the same place, and then it may go away.

The stores of the two lists need to agree only on what is live.

## Main definitions

* `Separates` — a renaming under which nothing live is overwritten.
* `same_of_separates` — a list and its renamed list are the same.
-/

namespace Lowering

/-- No instruction writes to the place of anything else that it writes or that is live
behind it, except that a copy may write to the place of its source, and one of a
temporary to itself anywhere. -/
def Separates (live : Liveness) (code : List Instr) (f : Temp → Temp) : Prop :=
  ∀ n i, code[n]? = some i → ∀ d ∈ i.defs, ∀ x, x ∈ live.after n ∨ x ∈ i.defs → x ≠ d → f d = f x →
    i.copy? = some (d, x) ∨ i.copy? = some (d, d)

/-- The window of an instruction whose temporaries are renamed.  A copy that has
become one of a place to itself may be dropped. -/
def Renamed (f : Temp → Temp) (i : Instr) (w : List Instr) : Prop :=
  w = [i.rename f] ∨ w = [] ∧ Allocation.isSelfMove (i.rename f)

theorem Renamed.opens {f : Temp → Temp} {i : Instr} {w : List Instr} (h : Renamed f i w) :
    Opens i w := by
  rcases h with rfl | ⟨rfl, hself⟩
  · cases i with
    | oper template dst src jump =>
      cases jump with
      | none => exact .plain rfl (by simp [Instr.rename, Instr.isPlain])
      | some labels =>
        show Opens _ ([] ++ [Instr.oper template (dst.map f) (src.map f) (some labels)])
        exact .jump rfl rfl (by simp)
    | move => exact .plain rfl (by simp [Instr.rename, Instr.isPlain])
    | label template l => exact .label template l
  · cases i with
    | oper => simp [Instr.rename, Allocation.isSelfMove, Instr.copy?] at hself
    | move => exact .plain rfl (by simp)
    | label => simp [Instr.rename, Allocation.isSelfMove, Instr.copy?] at hself

section

variable {V M : Type} {meaning : Meaning V M} {slots : List Int} {code : List Instr} {flow : Flow}
  {live : Liveness} {f : Temp → Temp}

/-- The stores agree on what is live, and on all else. -/
def AgreesLive (live : Liveness) (f : Temp → Temp) (n : Nat) (s t : Store V M) : Prop :=
  (∀ x ∈ live.before n, s.regs x = t.regs (f x)) ∧ s.cells = t.cells ∧ s.memory = t.memory

theorem AgreesLive.act_rename (hlive : live.Solves code flow) {n : Nat} {i : Instr}
    (hi : code[n]? = some i) (hfp : ∀ t ∈ i.temps, f t = Mips.fp ↔ t = Mips.fp) {s t : Store V M}
    (h : AgreesLive live f n s t) :
    t.act meaning slots (i.rename f) = s.act meaning slots i := by
  have hvalues : (i.rename f).uses.map t.regs = i.uses.map s.regs := by
    rw [Instr.uses_rename, List.map_map]
    refine List.map_congr_left fun x hx => ?_
    exact (h.1 x (hlive.uses hi hx)).symm
  rw [Store.act, Store.act, hvalues, Instr.act_rename hfp, h.2.1, h.2.2]

/-- Copies are no slot accesses. -/
theorem Store.act_move (s : Store V M) (template : String) (dst src : Temp) :
    s.act meaning slots (.move template dst src) = ⟨[s.regs src], s.cells, s.memory, [], 0⟩ := by
  have ha : (Instr.move template dst src).access? slots = none := by
    cases h : (Instr.move template dst src).access? slots with
    | none => rfl
    | some a =>
      obtain ⟨o, -, t, ⟨-, heq⟩ | ⟨-, heq⟩⟩ := Instr.eq_of_access? h <;> cases heq
  simp [Store.act, Instr.act, ha, Instr.uses]

/-- The stores agree after an instruction and its renamed form. -/
theorem AgreesLive.after (hlive : live.Solves code flow) (hsep : Separates live code f) {n : Nat}
    {i : Instr} (hi : code[n]? = some i) (hfp : ∀ t ∈ i.temps, f t = Mips.fp ↔ t = Mips.fp)
    {s t : Store V M} (h : AgreesLive live f n s t) {m : Nat} (hm : m ∈ flow.next n) :
    AgreesLive live f m (s.after i (s.act meaning slots i))
      (t.after (i.rename f) (t.act meaning slots (i.rename f))) := by
  rw [h.act_rename hlive hi hfp]
  refine ⟨?_, rfl, rfl⟩
  intro x hx
  have hafter := hlive.next hi hm hx
  have hold : x ∉ i.defs → t.regs (f x) = s.regs x :=
    fun hnd => (h.1 x (hlive.through hi hafter hnd)).symm
  simp only [Store.after, Instr.defs_rename]
  by_cases hcopy : i.copy? = none
  · symm
    refine writeAll_map ?_ (Instr.length_values_act (by simp) _ _) hold
    intro d hd hfd
    by_contra hne
    have hsame := hsep n i hi d hd x (.inl hafter) (Ne.symm hne) hfd
    simp [hcopy] at hsame
  · cases i with
    | oper => exact absurd rfl hcopy
    | label => exact absurd rfl hcopy
    | move template dst src =>
      rw [Store.act_move]
      simp only [Instr.defs, List.map_cons, List.map_nil, writeAll, Function.update_apply]
      by_cases hxd : x = dst
      · simp [hxd]
      · have hx := hold (by simpa [Instr.defs] using hxd)
        rw [if_neg hxd]
        split
        · next hfx =>
          -- Only the source, or the destination itself, can be in the place written to.
          have hdst : dst ∈ (Instr.move template dst src).defs := by simp [Instr.defs]
          rcases hsep n _ hi dst hdst x (.inl hafter) hxd hfx.symm with heq | heq
          · cases heq
            rfl
          · cases heq
            rw [← hx, hfx]
            exact (h.1 dst (hlive.uses hi (by simp [Instr.uses]))).symm
        · exact hx.symm

/-- Dropping a copy of a place to itself leaves the stores in agreement. -/
theorem AgreesLive.after_drop (hlive : live.Solves code flow) {n : Nat} {template : String}
    {dst src : Temp} (hi : code[n]? = some (.move template dst src)) (hself : f dst = f src)
    {s t : Store V M} (h : AgreesLive live f n s t) {m : Nat} (hm : m ∈ flow.next n) :
    AgreesLive live f m
      (s.after (.move template dst src) (s.act meaning slots (.move template dst src))) t := by
  rw [Store.act_move]
  refine ⟨?_, h.2.1, h.2.2⟩
  intro x hx
  have hafter := hlive.next hi hm hx
  simp only [Store.after, Instr.defs, writeAll]
  by_cases hxd : x = dst
  · subst hxd
    rw [Function.update_self, hself]
    exact h.1 src (hlive.uses hi (by simp [Instr.uses]))
  · rw [Function.update_of_ne hxd]
    exact h.1 x (hlive.through hi hafter (by simpa [Instr.defs] using hxd))

theorem windowStep_of_renamed (hlive : live.Solves code flow) (hsep : Separates live code f)
    {n : Nat} {i : Instr} {w : List Instr} (hi : code[n]? = some i)
    (hfp : ∀ t ∈ i.temps, f t = Mips.fp ↔ t = Mips.fp) (hw : Renamed f i w) :
    WindowStep meaning slots flow (AgreesLive live f) n i w := by
  rcases hw with rfl | ⟨rfl, hself⟩
  · constructor
    · intro s t h
      rw [Store.through_cons, h.act_rename hlive hi hfp]
      simp
    · intro s t h
      rw [Store.through_cons, h.act_rename hlive hi hfp]
      rfl
    · intro s t first j h _ hfirst
      obtain ⟨rfl, rfl⟩ : first = [] ∧ j = i.rename f := by
        have := List.append_inj' (hfirst.symm.trans (List.nil_append _).symm) rfl
        exact ⟨this.1, by simpa using this.2⟩
      rw [Store.through_nil, h.act_rename hlive hi hfp]
    · intro s t m h hm
      exact h.after hlive hsep hi hfp hm
  · cases i with
    | oper => simp [Instr.rename, Allocation.isSelfMove, Instr.copy?] at hself
    | label => simp [Instr.rename, Allocation.isSelfMove, Instr.copy?] at hself
    | move template dst src =>
      have hself : f dst = f src := by
        simpa [Instr.rename, Allocation.isSelfMove, Instr.copy?] using hself
      constructor
      · intro s t _
        rw [Store.act_move]
        rfl
      · intro s t h
        rw [Store.act_move]
        exact h.2.2.symm
      · intro s t first j _ _ hfirst
        simp at hfirst
      · intro s t m h hm
        exact h.after_drop hlive hi hself hm

/-- **A renaming that separates what is live changes nothing that can be seen.** -/
theorem same_of_separates {windows : List (List Instr)} {flow' : Flow}
    (hflow : Flow.ofCode code = .ok flow) (hflow' : Flow.ofCode windows.flatten = .ok flow')
    (hlive : live.Solves code flow) (hsep : Separates live code f)
    (hfp : ∀ i ∈ code, ∀ t ∈ i.temps, f t = Mips.fp ↔ t = Mips.fp)
    (hwindows : List.Forall₂ (Renamed f) code windows) {s t : Store V M}
    (hst : AgreesLive live f 0 s t) :
    (execution meaning slots code flow).Same s.enter
      (execution meaning slots windows.flatten flow') t.enter := by
  refine same_of_windowStep (hwindows.imp fun _ _ => Renamed.opens) hflow hflow' ?_ hst hst.2.2
  intro n i w hi hw
  obtain ⟨w', hw', hren⟩ := forall₂_getElem? hwindows hi
  rw [hw] at hw'
  cases hw'
  exact windowStep_of_renamed hlive hsep hi (hfp i (List.mem_of_getElem? hi)) hren

end

end Lowering
