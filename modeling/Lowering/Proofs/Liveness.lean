import Lowering.Liveness
import Lowering.Proofs.Flow
import Lowering.Proofs.TempSet
import Mathlib.Algebra.Order.BigOperators.Group.Finset
import Mathlib.Algebra.Module.NatInt

/-!
# The live sets are a solution

Sweeping goes on until a sweep changes nothing.  Sweeps only add to the live sets, and
only temporaries of the code, so this happens within the bound; and a sweep that
changes nothing has found a solution of the equations.  It is the least one: every
sweep stays below any solution.

## Main definitions

* `LiveSolution` — sets that hold at least what they have to.
* `Liveness.Ends` — sweeping until nothing changes.
* `Liveness.solves_ofCode` — the live sets of a list are a solution.
* `Liveness.inside_ofCode` — they are inside every other solution.
-/

namespace Lowering

/-- Sets of temporaries before and after every instruction that hold all that is read,
and all that is live further on unless it is written. -/
structure LiveSolution (code : List Instr) (flow : Flow) (before after : Nat → Temp → Prop) :
    Prop where
  uses : ∀ {n i t}, code[n]? = some i → t ∈ i.uses → before n t
  through : ∀ {n i t}, code[n]? = some i → after n t → t ∉ i.defs → before n t
  next : ∀ {n i m t}, code[n]? = some i → m ∈ flow.next n → before m t → after n t

namespace Liveness

/-- The live sets are a solution. -/
abbrev Solves (live : Liveness) (code : List Instr) (flow : Flow) : Prop :=
  LiveSolution code flow (fun n t => t ∈ live.before n) (fun n t => t ∈ live.after n)

variable {code : List Instr} {flow : Flow} {live live' : Liveness}

/-! ## One visit -/

@[simp] theorem size_visit (flow : Flow) (i : Instr) (n : Nat) (live : Liveness) :
    (live.visit flow i n).points.size = live.points.size := by
  simp [visit]

theorem points_visit (flow : Flow) (i : Instr) (n m : Nat) (live : Liveness) :
    (live.visit flow i n).points.getD m ⟨∅, ∅⟩ =
      if m = n ∧ n < live.points.size then
        ⟨i.liveBefore (live.joined (flow.next n)), live.joined (flow.next n)⟩
      else live.points.getD m ⟨∅, ∅⟩ := by
  simp only [visit, Array.getD_eq_getD_getElem?, Array.getElem?_setIfInBounds]
  by_cases hmn : n = m
  · subst hmn
    by_cases hn : n < live.points.size <;> simp [hn]
  · simp [hmn, Ne.symm hmn]

theorem before_visit (flow : Flow) (i : Instr) (n m : Nat) (live : Liveness) :
    (live.visit flow i n).before m =
      if m = n ∧ n < live.points.size then i.liveBefore (live.joined (flow.next n))
      else live.before m := by
  simp only [before, points_visit]
  split <;> rfl

theorem after_visit (flow : Flow) (i : Instr) (n m : Nat) (live : Liveness) :
    (live.visit flow i n).after m =
      if m = n ∧ n < live.points.size then live.joined (flow.next n) else live.after m := by
  simp only [after, points_visit]
  split <;> rfl

/-! ## Sweeps -/

/-- Visit some instructions, the last one first. -/
private def visitAll (flow : Flow) (ps : List (Instr × Nat)) (live : Liveness) : Liveness :=
  ps.foldr (fun p live => live.visit flow p.1 p.2) live

private theorem sweep_eq_visitAll (live : Liveness) :
    live.sweep code flow = visitAll flow code.zipIdx live := rfl

private theorem visitAll_cons (p : Instr × Nat) (ps : List (Instr × Nat)) :
    visitAll flow (p :: ps) live = (visitAll flow ps live).visit flow p.1 p.2 := rfl

private theorem size_visitAll (ps : List (Instr × Nat)) :
    (visitAll flow ps live).points.size = live.points.size := by
  induction ps with
  | nil => rfl
  | cons p ps ih => rw [visitAll_cons, size_visit, ih]

@[simp] theorem size_sweep : (live.sweep code flow).points.size = live.points.size :=
  size_visitAll _

/-- What is visited holds in the end for as long as it is not visited again. -/
private theorem points_visitAll_of_notMem {ps : List (Instr × Nat)} {n : Nat}
    (h : n ∉ ps.map Prod.snd) :
    (visitAll flow ps live).points.getD n ⟨∅, ∅⟩ = live.points.getD n ⟨∅, ∅⟩ := by
  induction ps with
  | nil => rfl
  | cons p ps ih =>
    simp only [List.map_cons, List.mem_cons, not_or] at h
    rw [visitAll_cons, points_visit, if_neg (fun hn => h.1 hn.1), ih h.2]

theorem ext_points (hsize : live.points.size = live'.points.size)
    (h : ∀ n, live.points.getD n ⟨∅, ∅⟩ = live'.points.getD n ⟨∅, ∅⟩) : live = live' := by
  rcases live with ⟨points⟩
  rcases live' with ⟨points'⟩
  congr 1
  refine Array.ext hsize fun n hn hn' => ?_
  have := h n
  simp only [Array.getD_eq_getD_getElem?, Array.getElem?_eq_getElem hn,
    Array.getElem?_eq_getElem hn', Option.getD_some] at this
  exact this

/-- If visiting some instructions changes nothing, then visiting any one of them
changes nothing: the first one that did would be seen in the end. -/
private theorem visit_eq_of_visitAll_eq {ps : List (Instr × Nat)} (hnd : (ps.map Prod.snd).Nodup)
    (h : visitAll flow ps live = live) : ∀ p ∈ ps, live.visit flow p.1 p.2 = live := by
  induction ps with
  | nil => simp
  | cons p ps ih =>
    rw [List.map_cons, List.nodup_cons] at hnd
    have hrest : visitAll flow ps live = live := by
      refine ext_points (size_visitAll ps) fun n => ?_
      by_cases hn : n = p.2
      · subst hn
        exact points_visitAll_of_notMem hnd.1
      · rw [visitAll_cons] at h
        rw [← congrArg (fun l => l.points.getD n ⟨∅, ∅⟩) h]
        simp only [points_visit]
        rw [if_neg fun hn' => hn hn'.1]
    intro q hq
    rcases List.mem_cons.1 hq with rfl | hq
    · rw [visitAll_cons, hrest] at h
      exact h
    · exact ih hnd.2 hrest q hq

/-- Live sets that a sweep does not change solve the equations. -/
theorem equations_of_sweep_eq (hsize : live.points.size = code.length)
    (h : live.sweep code flow = live) {n : Nat} {i : Instr} (hi : code[n]? = some i) :
    live.after n = live.joined (flow.next n) ∧ live.before n = i.liveBefore (live.after n) := by
  have hnd : (code.zipIdx.map Prod.snd).Nodup := by
    rw [List.zipIdx_map_snd]
    exact List.nodup_range'
  have hp : (i, n) ∈ code.zipIdx := List.mem_zipIdx_iff_getElem?.2 hi
  have hvisit : live.visit flow i n = live := visit_eq_of_visitAll_eq hnd h _ hp
  have hn : n < live.points.size := by
    rw [hsize]
    exact (List.getElem?_eq_some_iff.1 hi).1
  have hafter : live.after n = live.joined (flow.next n) := by
    rw [← congrArg (fun l => l.after n) hvisit]
    simp [after_visit, hn]
  refine ⟨hafter, ?_⟩
  rw [hafter, ← congrArg (fun l => l.before n) hvisit]
  simp [before_visit, hn]

/-! ## Sweeps grow -/

/-- The live sets are inside given sets. -/
def Inside (live : Liveness) (before after : Nat → Temp → Prop) : Prop :=
  ∀ n t, (t ∈ live.before n → before n t) ∧ (t ∈ live.after n → after n t)

/-- All live sets are inside those of `live'`. -/
abbrev Below (live live' : Liveness) : Prop :=
  live.Inside (fun n t => t ∈ live'.before n) (fun n t => t ∈ live'.after n)

theorem inside_empty (size : Nat) (before after : Nat → Temp → Prop) :
    (empty size).Inside before after := by
  intro n t
  by_cases hn : n < size <;>
    simp [empty, Liveness.before, Liveness.after, Array.getD_eq_getD_getElem?, hn]

theorem below_antisymm (hsize : live.points.size = live'.points.size) (h : live.Below live')
    (h' : live'.Below live) : live = live' := by
  refine ext_points hsize fun n => ?_
  have hbefore : live.before n = live'.before n :=
    Std.ExtTreeSet.ext_mem fun t => ⟨(h n t).1, (h' n t).1⟩
  have hafter : live.after n = live'.after n :=
    Std.ExtTreeSet.ext_mem fun t => ⟨(h n t).2, (h' n t).2⟩
  rw [Liveness.before, Liveness.before] at hbefore
  rw [Liveness.after, Liveness.after] at hafter
  generalize live.points.getD n ⟨∅, ∅⟩ = p at *
  generalize live'.points.getD n ⟨∅, ∅⟩ = p' at *
  cases p
  cases p'
  simp_all

theorem Below.joined (h : live.Below live') {ns : List Nat} {t : Temp} (ht : t ∈ live.joined ns) :
    t ∈ live'.joined ns := by
  obtain ⟨n, hn, ht⟩ := mem_joined.1 ht
  exact mem_joined.2 ⟨n, hn, (h n t).1 ht⟩

theorem Below.visit (h : live.Below live') (hsize : live.points.size = live'.points.size)
    (i : Instr) (n : Nat) : (live.visit flow i n).Below (live'.visit flow i n) := by
  intro m t
  simp only [before_visit, after_visit, hsize]
  split
  · refine ⟨fun ht => ?_, h.joined⟩
    rw [Instr.mem_liveBefore] at ht ⊢
    exact ht.imp_right fun ht => ⟨h.joined ht.1, ht.2⟩
  · exact h m t

theorem Below.sweep (h : live.Below live') (hsize : live.points.size = live'.points.size) :
    (live.sweep code flow).Below (live'.sweep code flow) := by
  simp only [sweep_eq_visitAll]
  induction code.zipIdx with
  | nil => exact h
  | cons p ps ih => exact ih.visit (by rw [size_visitAll, size_visitAll, hsize]) p.1 p.2

/-- Sweeps stay inside every solution. -/
theorem Inside.sweep {before after : Nat → Temp → Prop} (hsol : LiveSolution code flow before after)
    (h : live.Inside before after) : (live.sweep code flow).Inside before after := by
  have hall : ∀ ps : List (Instr × Nat), (∀ p ∈ ps, code[p.2]? = some p.1) →
      (visitAll flow ps live).Inside before after := by
    intro ps hps
    induction ps with
    | nil => exact h
    | cons p ps ih =>
      have hi := hps p List.mem_cons_self
      have hrest := ih fun q hq => hps q (List.mem_cons_of_mem p hq)
      have hjoined : ∀ t, t ∈ (visitAll flow ps live).joined (flow.next p.2) → after p.2 t := by
        intro t ht
        obtain ⟨m, hm, ht⟩ := mem_joined.1 ht
        exact hsol.next hi hm ((hrest m t).1 ht)
      intro m t
      rw [visitAll_cons, before_visit, after_visit]
      split
      · next hm =>
        obtain ⟨rfl, -⟩ := hm
        refine ⟨fun ht => ?_, hjoined t⟩
        rcases Instr.mem_liveBefore.1 ht with ht | ⟨ht, hdef⟩
        · exact hsol.uses hi ht
        · exact hsol.through hi (hjoined t ht) hdef
      · exact hrest m t
  exact hall _ fun p hp => List.mem_zipIdx_iff_getElem?.1 hp

/-! ## Sweeps come to an end -/

/-- The number of temporaries in all live sets. -/
private def weight (live : Liveness) : Nat :=
  ∑ n ∈ Finset.range live.points.size, ((live.before n).size + (live.after n).size)

private theorem weight_lt (hsize : live.points.size = live'.points.size) (h : live.Below live')
    (hne : live ≠ live') : live.weight < live'.weight := by
  have hbefore : ∀ n, (live.before n).size ≤ (live'.before n).size := fun n =>
    TempSet.size_le_of_subset fun t => (h n t).1
  have hafter : ∀ n, (live.after n).size ≤ (live'.after n).size := fun n =>
    TempSet.size_le_of_subset fun t => (h n t).2
  have hlt : ∃ n < live.points.size, live.before n ≠ live'.before n ∨
      live.after n ≠ live'.after n := by
    by_contra hall
    push Not at hall
    refine hne (below_antisymm hsize h fun n t => ?_)
    by_cases hn : n < live.points.size
    · show (_ → t ∈ live.before n) ∧ (_ → t ∈ live.after n)
      rw [(hall n hn).1, (hall n hn).2]
      exact ⟨id, id⟩
    · have hout : live'.points.size ≤ n := by omega
      simp [Liveness.before, Liveness.after, Array.getD_eq_getD_getElem?, hout]
  obtain ⟨n, hn, hdiff⟩ := hlt
  rw [weight, weight, ← hsize]
  refine Finset.sum_lt_sum (fun m _ => Nat.add_le_add (hbefore m) (hafter m))
    ⟨n, Finset.mem_range.2 hn, ?_⟩
  rcases hdiff with hdiff | hdiff
  · exact Nat.add_lt_add_of_lt_of_le
      (TempSet.size_lt_of_subset (fun t => (h n t).1) hdiff) (hafter n)
  · exact Nat.add_lt_add_of_le_of_lt (hbefore n)
      (TempSet.size_lt_of_subset (fun t => (h n t).2) hdiff)

/-- Only temporaries of the code are ever live. -/
theorem solution_temps (code : List Instr) (flow : Flow) :
    LiveSolution code flow (fun _ t => t ∈ code.flatMap Instr.temps)
      (fun _ t => t ∈ code.flatMap Instr.temps) where
  uses hi ht := List.mem_flatMap.2 ⟨_, List.mem_of_getElem? hi, List.mem_append_right _ ht⟩
  through _ ht _ := ht
  next _ _ ht := ht

/-- Only what is read somewhere is ever live. -/
theorem solution_uses (code : List Instr) (flow : Flow) :
    LiveSolution code flow (fun _ t => t ∈ code.flatMap Instr.uses)
      (fun _ t => t ∈ code.flatMap Instr.uses) where
  uses hi ht := List.mem_flatMap.2 ⟨_, List.mem_of_getElem? hi, ht⟩
  through _ ht _ := ht
  next _ _ ht := ht

private theorem weight_le {ts : List Temp} (h : live.Inside (fun _ t => t ∈ ts) fun _ t => t ∈ ts) :
    live.weight ≤ 2 * live.points.size * ts.length := by
  calc live.weight
      ≤ ∑ _n ∈ Finset.range live.points.size, (ts.length + ts.length) :=
        Finset.sum_le_sum fun n _ => Nat.add_le_add
          (TempSet.size_le_length fun t => (h n t).1) (TempSet.size_le_length fun t => (h n t).2)
    _ = 2 * live.points.size * ts.length := by
        rw [Finset.sum_const, Finset.card_range, smul_eq_mul, ← Nat.two_mul, Nat.mul_left_comm,
          Nat.mul_assoc]

/-- What holds at first and after every sweep holds of the settled sets. -/
theorem settle_induction {P : Liveness → Prop} (hstep : ∀ l, P l → P (l.sweep code flow))
    (n : Nat) (h : P live) : P (settle code flow n live).1 := by
  fun_induction settle code flow n live with
  | case1 => exact h
  | case2 => exact h
  | case3 n live _ _ settled sweeps heq ih =>
    rw [heq] at ih
    exact ih (hstep live h)

/-- Sweeping until nothing changes, however often that is, comes to an end with some live
sets.  The number of sweeps includes the last one, which changes nothing. -/
inductive Ends (code : List Instr) (flow : Flow) : Liveness → Liveness → Nat → Prop where
  | still {live : Liveness} : live.sweep code flow = live → Ends code flow live live 1
  | again {live live' : Liveness} {sweeps : Nat} : live.sweep code flow ≠ live →
      Ends code flow (live.sweep code flow) live' sweeps → Ends code flow live live' (sweeps + 1)

theorem Ends.sweep_eq {sweeps : Nat} (h : Ends code flow live live' sweeps) :
    live'.sweep code flow = live' := by
  induction h with
  | still h => exact h
  | again _ _ ih => exact ih

/-- The bound is not reached: each sweep but the last makes the sets larger, and there is
only room for so many temporaries. -/
theorem ends_settle (hsize : live.points.size = code.length)
    (hinside : live.Inside (fun _ t => t ∈ code.flatMap Instr.temps)
      fun _ t => t ∈ code.flatMap Instr.temps)
    (hgrow : live.Below (live.sweep code flow)) {n : Nat}
    (hn : 2 * code.length * (code.flatMap Instr.temps).length < n + live.weight) :
    Ends code flow live (settle code flow n live).1 (settle code flow n live).2 := by
  fun_induction settle code flow n live with
  | case1 live =>
    have hle := weight_le hinside
    rw [hsize] at hle
    omega
  | case2 n live _ heq => exact .still heq
  | case3 n live next hne settled sweeps heq ih =>
    rw [heq] at ih
    have hlt : live.weight < next.weight := weight_lt size_sweep.symm hgrow (Ne.symm hne)
    exact .again hne (ih (size_sweep.trans hsize) (hinside.sweep (solution_temps code flow))
      (hgrow.sweep size_sweep.symm) (by omega))

/-! ## The live sets of a list -/

theorem size_ofCode (code : List Instr) (flow : Flow) :
    (ofCode code flow).1.points.size = code.length :=
  settle_induction (P := fun l => l.points.size = code.length)
    (fun _ h => size_sweep.trans h) _ Array.size_replicate

/-- Sweeping comes to an end with the live sets of a list. -/
theorem ends_ofCode (code : List Instr) (flow : Flow) :
    Ends code flow (empty code.length) (ofCode code flow).1 (ofCode code flow).2 :=
  ends_settle Array.size_replicate (inside_empty _ _ _) (inside_empty _ _ _)
    (Nat.lt_add_right _ (Nat.lt_succ_self _))

/-- The live sets of a list are not changed by another sweep. -/
theorem sweep_ofCode (code : List Instr) (flow : Flow) :
    (ofCode code flow).1.sweep code flow = (ofCode code flow).1 :=
  (ends_ofCode code flow).sweep_eq

/-- **The live sets of a list solve the equations of liveness.** -/
theorem solves_ofCode (code : List Instr) (flow : Flow) :
    (ofCode code flow).1.Solves code flow where
  uses hi ht := by
    rw [(equations_of_sweep_eq (size_ofCode code flow) (sweep_ofCode code flow) hi).2]
    exact Instr.mem_liveBefore.2 (.inl ht)
  through hi ht hdef := by
    rw [(equations_of_sweep_eq (size_ofCode code flow) (sweep_ofCode code flow) hi).2]
    exact Instr.mem_liveBefore.2 (.inr ⟨ht, hdef⟩)
  next hi hm ht := by
    rw [(equations_of_sweep_eq (size_ofCode code flow) (sweep_ofCode code flow) hi).1]
    exact mem_joined.2 ⟨_, hm, ht⟩

/-- **The live sets of a list are inside every solution.** -/
theorem inside_ofCode {before after : Nat → Temp → Prop}
    (hsol : LiveSolution code flow before after) : (ofCode code flow).1.Inside before after :=
  settle_induction (P := fun l => l.Inside before after) (fun _ h => h.sweep hsol) _
    (inside_empty _ _ _)

end Liveness

end Lowering
