import Lowering.Proofs.Expansion

/-!
# Where runs arrive

A watcher sees what a list executes, but not where control is.  Here is more: if every
instruction is replaced by a window that does the same to a related store, then a run arrives at
an instruction exactly if the run of the windows arrives at the start of its window, after the
same events and with related stores.  Only the windows of copies can be empty, so for all other
instructions the start of the window tells which one it is.

## Main definitions

* `Arrives` — a run comes to an instruction, with given values in some registers.
* `arrives_iff_of_windowStep` — a list and the list of its windows arrive at the same places.
-/

namespace Lowering

variable {V M : Type} {meaning : Meaning V M} {slots : List Int} {code : List Instr}
  {windows : List (List Instr)} {flow flow' : Flow} {R : Nat → Store V M → Store V M → Prop}

/-- The list, started in a store, comes to an instruction after some events, and then some
registers have the given values. -/
def Arrives (meaning : Meaning V M) (slots : List Int) (code : List Instr) (flow : Flow)
    (s : Store V M) (es : List (Executed V M)) (n : Nat) (kept : Temp → Prop)
    (values : Temp → V) : Prop :=
  ∃ k t, (execution meaning slots code flow).Run k s.enter es ⟨some n, t⟩ ∧
    ∀ r, kept r → t.regs r = values r

/-! ## Places inside windows -/

theorem windowStart_mono (windows : List (List Instr)) {m n : Nat} (h : m ≤ n) :
    windowStart windows m ≤ windowStart windows n := by
  obtain ⟨k, rfl⟩ := Nat.exists_eq_add_of_le h
  simp [windowStart, List.take_add]

/-- A place inside a window is the start of no other window that has a place. -/
theorem eq_of_windowStart_eq {k m n : Nat} {v w : List Instr} (hw : windows[k]? = some w)
    (hv : windows[n]? = some v) (hm : m < w.length) (hne : v ≠ [])
    (h : windowStart windows k + m = windowStart windows n) : k = n ∧ m = 0 := by
  have hvpos := List.length_pos_iff.2 hne
  rcases Nat.lt_trichotomy k n with hlt | rfl | hlt
  · have hle := windowStart_mono windows (Nat.succ_le_of_lt hlt)
    rw [Nat.succ_eq_add_one, windowStart_succ hw] at hle
    omega
  · exact ⟨rfl, by omega⟩
  · have hle := windowStart_mono windows (Nat.succ_le_of_lt hlt)
    rw [Nat.succ_eq_add_one, windowStart_succ hv] at hle
    omega

theorem windowStart_lt {n : Nat} {v : List Instr} (hv : windows[n]? = some v) (hne : v ≠ []) :
    windowStart windows n < windows.flatten.length := by
  obtain ⟨j, rest, rfl⟩ := List.exists_cons_of_ne_nil hne
  have hj := getElem?_flatten (k := 0) hv rfl
  exact (List.getElem?_eq_some_iff.1 hj).1

/-- Only the last instruction of a window jumps. -/
theorem Opens.targets?_of_mem_take {i : Instr} {w : List Instr} (h : Opens i w) {m : Nat}
    (hm : m < w.length) : ∀ k ∈ w.take m, k.targets? = none := by
  intro k hk
  cases h with
  | label template l => simp [Nat.lt_one_iff.1 hm] at hk
  | @jump _ j _ first _ _ hfirst =>
    rw [List.length_append, List.length_singleton] at hm
    rw [List.take_append_of_le_length (by omega)] at hk
    exact Instr.targets?_of_isPlain (hfirst k (List.mem_of_mem_take hk))
  | plain _ hpw => exact Instr.targets?_of_isPlain (hpw k (List.mem_of_mem_take hk))

/-- After fewer steps than a window has, control is inside of it. -/
theorem run_inside (hflow' : Flow.ofCode windows.flatten = .ok flow') {i : Instr} {k m : Nat}
    {w : List Instr} (hopen : Opens i w) (hw : windows[k]? = some w) (hm : m < w.length)
    {c d : Config V M} {es : List (Executed V M)}
    (hpc : StandsAt windows.flatten.length c.pc (windowStart windows k))
    (hrun : (execution meaning slots windows.flatten flow').Run m c es d) :
    d.pc = some (windowStart windows k + m) := by
  have hlen : (w.take m).length = m := by rw [List.length_take]; omega
  have hat : ∀ l j, (w.take m)[l]? = some j →
      windows.flatten[windowStart windows k + l]? = some j := by
    intro l j hj
    refine getElem?_flatten hw ?_
    rw [List.getElem?_take] at hj
    split at hj
    · exact hj
    · cases hj
  obtain ⟨pc, hpc', hrun'⟩ :=
    run_through meaning slots hflow' (hopen.targets?_of_mem_take hm) hat hpc c.store
  rw [hlen] at hpc' hrun'
  obtain ⟨gs, -, hrest⟩ := hrun'.extends hrun (Nat.le_refl m)
  rw [Nat.sub_self] at hrest
  cases hrest
  have hj := getElem?_flatten hw (List.getElem?_eq_getElem hm)
  exact hpc'.eq_some (List.getElem?_eq_some_iff.1 hj).1

/-! ## Runs to the start of a window -/

theorem Corresponds.of_pc {c d : Config V M} (h : Corresponds windows R c d) {n : Nat}
    (hpc : c.pc = some n) :
    StandsAt windows.flatten.length d.pc (windowStart windows n) ∧ R n c.store d.store := by
  have hplace := h.2
  rw [hpc] at hplace
  exact hplace

section

variable (hopens : List.Forall₂ Opens code windows) (hflow : Flow.ofCode code = .ok flow)
  (hflow' : Flow.ofCode windows.flatten = .ok flow')
  (hR : ∀ n i w, code[n]? = some i → windows[n]? = some w → WindowStep meaning slots flow R n i w)

include hopens hflow hflow' hR

/-- **If the windows arrive at the start of one, then the list arrives at its instruction.** -/
theorem exists_run_of_arrival {n : Nat} {v : List Instr} (hv : windows[n]? = some v)
    (hne : v ≠ []) (m : Nat) (c : Config V M) {d : Config V M} {es : List (Executed V M)}
    {t : Store V M} (hcd : Corresponds windows R c d)
    (hrun : (execution meaning slots windows.flatten flow').Run m d es
      ⟨some (windowStart windows n), t⟩) :
    ∃ k s, (execution meaning slots code flow).Run k c es ⟨some n, s⟩ ∧ R n s t := by
  by_cases hstep : (execution meaning slots code flow).step c = none
  · -- The windows have stopped too, but not where a window starts.
    have hstop : (execution meaning slots windows.flatten flow').step d = none :=
      hcd.stopped hopens.length_eq hstep
    obtain ⟨-, -, rfl⟩ := hrun.of_stopped hstop
    have hle := step_execution_eq_none.1 hstop _ rfl
    exact absurd (windowStart_lt hv hne) (Nat.not_lt_of_le hle)
  · obtain ⟨k, hk, hlt⟩ : ∃ k, c.pc = some k ∧ k < code.length := by
      simpa [step_execution_eq_none] using hstep
    have hc : c = ⟨some k, c.store⟩ := by rw [← hk]
    have hi := List.getElem?_eq_getElem hlt
    obtain ⟨w, hw, hopen⟩ := forall₂_getElem? hopens hi
    obtain ⟨hpc, hst⟩ := hcd.of_pc hk
    by_cases hm : m < w.length
    · -- The run ends inside this window, so it has not left its start.
      have hinside := run_inside hflow' hopen hw hm hpc hrun
      obtain ⟨rfl, rfl⟩ := eq_of_windowStart_eq hw hv hm hne (Option.some.inj hinside).symm
      cases hrun
      exact ⟨0, c.store, hc ▸ .refl _, hst⟩
    · obtain ⟨d', hwindow, hcd', hrank⟩ :=
        exists_run_window hopens hflow hflow' hi hw (hR k _ w hi hw) hpc hst
      have hless := fun h => Nat.lt_of_lt_of_eq (hrank h) (congrArg _ hc.symm)
      obtain ⟨gs, rfl, hrest⟩ := hwindow.extends hrun (Nat.le_of_not_lt hm)
      obtain ⟨j, s, hrun', hst'⟩ := exists_run_of_arrival hv hne (m - w.length) _ hcd' hrest
      exact ⟨j + 1, s, hc ▸ .head (step_execution hi) hrun', hst'⟩
termination_by (m, c.remaining code.length)
decreasing_by
  by_cases hzero : w.length = 0
  · rw [hzero, Nat.sub_zero]
    exact .right _ (hless hzero)
  · exact .left _ _ (by omega)

/-- **A list and the list of its windows arrive at the same places**, after the same events and
with the same values in all registers on which related stores agree. -/
theorem arrives_iff_of_windowStep {s t : Store V M} (hst : R 0 s t) (hmem : s.memory = t.memory)
    {n : Nat} {v : List Instr} (hv : windows[n]? = some v) (hne : v ≠ []) {kept : Temp → Prop}
    (hkept : ∀ {s t}, R n s t → ∀ r, kept r → s.regs r = t.regs r) (es : List (Executed V M))
    (values : Temp → V) :
    Arrives meaning slots code flow s es n kept values ↔
      Arrives meaning slots windows.flatten flow' t es (windowStart windows n) kept values := by
  have hcd : Corresponds windows R s.enter t.enter :=
    ⟨hmem, .inl (by rw [windowStart_zero]; rfl), hst⟩
  constructor
  · rintro ⟨k, s', hrun, hvalues⟩
    obtain ⟨m, ⟨pc, t'⟩, hrun', -, hpc, hR'⟩ :=
      (simulation_of_windowStep hopens hflow hflow' hR).run hcd hrun
    obtain rfl := hpc.eq_some (windowStart_lt hv hne)
    exact ⟨m, t', hrun', fun r hr => (hkept hR' r hr).symm.trans (hvalues r hr)⟩
  · rintro ⟨m, t', hrun, hvalues⟩
    obtain ⟨k, s', hrun', hR'⟩ :=
      exists_run_of_arrival hopens hflow hflow' hR hv hne m s.enter hcd hrun
    exact ⟨k, s', hrun', fun r hr => (hkept hR' r hr).trans (hvalues r hr)⟩

end

end Lowering
