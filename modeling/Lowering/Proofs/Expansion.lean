import Lowering.Proofs.Execution
import Lowering.Proofs.Flow

/-!
# Execution of windows

If every instruction of a list is replaced by a window that does the same to a related
store, then the two lists are the same to a watcher.  What has to be shown for one
instruction is `WindowStep`; that control goes to corresponding places is shown here,
once.

## Main definitions

* `Store.through` — the store and the events after straight-line code.
* `WindowStep` — a window does what its instruction does.
* `same_of_windowStep` — a list and the list of its windows are the same.
-/

namespace Lowering

variable {V M : Type} {meaning : Meaning V M} {slots : List Int}

/-- The events and the final store of instructions that are executed one after
another. -/
def Store.through (meaning : Meaning V M) (slots : List Int) (s : Store V M) :
    List Instr → List (Executed V M) × Store V M
  | [] => ([], s)
  | i :: rest =>
    let a := s.act meaning slots i
    let (events, t) := (s.after i a).through meaning slots rest
    (a.events ++ events, t)

@[simp] theorem Store.through_nil (s : Store V M) : s.through meaning slots [] = ([], s) := rfl

theorem Store.through_cons (s : Store V M) (i : Instr) (rest : List Instr) :
    s.through meaning slots (i :: rest) =
      ((s.act meaning slots i).events ++
        ((s.after i (s.act meaning slots i)).through meaning slots rest).1,
        ((s.after i (s.act meaning slots i)).through meaning slots rest).2) := rfl

theorem Store.through_append (s : Store V M) (w w' : List Instr) :
    s.through meaning slots (w ++ w') =
      ((s.through meaning slots w).1 ++ ((s.through meaning slots w).2.through meaning slots w').1,
        ((s.through meaning slots w).2.through meaning slots w').2) := by
  induction w generalizing s with
  | nil => rfl
  | cons i w ih => rw [List.cons_append, through_cons, through_cons, ih, List.append_assoc]

/-- An instruction without targets has one way to go on. -/
theorem Instr.choice_act {i : Instr} (h : i.targets? = none) (values : List V) (cells : Int → V)
    (memory : M) : (i.act meaning slots values cells memory).choice = 0 := by
  unfold act
  split
  · rfl
  · split <;> rfl
  · cases i with
    | oper _ _ _ jump =>
      cases jump with
      | none => rfl
      | some => simp [targets?] at h
    | move => rfl
    | label => rfl

/-- Control stands at a place of a list with the given size; behind its end nothing
can be told apart. -/
def StandsAt (size : Nat) (pc : Option Nat) (p : Nat) : Prop := pc = some p ∨ pc = none ∧ size ≤ p

theorem standsAt_fallThrough (size p : Nat) :
    StandsAt size (Flow.fallThrough size p)[0]? (p + 1) := by
  unfold Flow.fallThrough
  split
  · exact .inl rfl
  · exact .inr ⟨rfl, by omega⟩

theorem StandsAt.eq_some {size p : Nat} {pc : Option Nat} (h : StandsAt size pc p)
    (hp : p < size) : pc = some p := by
  rcases h with h | ⟨-, hle⟩
  · exact h
  · omega

section

variable {code : List Instr} {flow : Flow}

/-- Instructions that fall through are executed one after another. -/
theorem run_through (meaning : Meaning V M) (slots : List Int)
    (hflow : Flow.ofCode code = .ok flow) {w : List Instr} (hw : ∀ i ∈ w, i.targets? = none)
    {p : Nat} (hat : ∀ k i, w[k]? = some i → code[p + k]? = some i)
    {pc : Option Nat} (hpc : StandsAt code.length pc p) (s : Store V M) :
    ∃ pc', StandsAt code.length pc' (p + w.length) ∧
      (execution meaning slots code flow).Run w.length ⟨pc, s⟩ (s.through meaning slots w).1
        ⟨pc', (s.through meaning slots w).2⟩ := by
  induction w generalizing p pc s with
  | nil => exact ⟨pc, hpc, .refl _⟩
  | cons i w ih =>
    have hi : code[p]? = some i := hat 0 i rfl
    have hti := hw i List.mem_cons_self
    have hlt : p < code.length := (List.getElem?_eq_some_iff.1 hi).1
    have hstep : (execution meaning slots code flow).step ⟨some p, s⟩ = _ := step_execution hi
    rw [Flow.next_eq_fallThrough hflow hi hti, Store.act, Instr.choice_act hti] at hstep
    obtain ⟨pc', hpc', hrun⟩ := ih (fun j hj => hw j (List.mem_cons_of_mem _ hj))
      (p := p + 1)
      (fun k j hj => by rw [Nat.add_right_comm]; exact hat (k + 1) j (by simpa using hj))
      (standsAt_fallThrough code.length p) (s.after i (s.act meaning slots i))
    refine ⟨pc', ?_, ?_⟩
    · rw [List.length_cons, Nat.add_comm w.length, ← Nat.add_assoc]
      exact hpc'
    · rw [hpc.eq_some hlt, Store.through_cons, List.length_cons]
      exact .head hstep hrun

end

/-- A window does to a related store what its instruction does. -/
structure WindowStep (meaning : Meaning V M) (slots : List Int) (flow : Flow)
    (R : Nat → Store V M → Store V M → Prop) (n : Nat) (i : Instr) (w : List Instr) : Prop where
  /-- The same is seen. -/
  events : ∀ {s t}, R n s t → (t.through meaning slots w).1 = (s.act meaning slots i).events
  /-- The memories agree afterwards. -/
  memory : ∀ {s t}, R n s t →
    (t.through meaning slots w).2.memory = (s.after i (s.act meaning slots i)).memory
  /-- The same target is taken. -/
  choice : ∀ {s t first j}, R n s t → i.targets?.isSome → w = first ++ [j] →
    ((t.through meaning slots first).2.act meaning slots j).choice = (s.act meaning slots i).choice
  /-- The stores are related wherever control can go on. -/
  next : ∀ {s t m}, R n s t → m ∈ flow.next n →
    R m (s.after i (s.act meaning slots i)) (t.through meaning slots w).2

section

variable {code : List Instr} {windows : List (List Instr)} {flow flow' : Flow}
  {R : Nat → Store V M → Store V M → Prop}

/-- Corresponding places of a list and the list of its windows, with related stores. -/
def Corresponds (windows : List (List Instr)) (R : Nat → Store V M → Store V M → Prop)
    (c d : Config V M) : Prop :=
  c.store.memory = d.store.memory ∧
    match c.pc with
    | some n => StandsAt windows.flatten.length d.pc (windowStart windows n) ∧ R n c.store d.store
    | none => ∀ p, d.pc = some p → windows.flatten.length ≤ p

/-- How many instructions can follow if control only falls through. -/
def Config.remaining (size : Nat) (c : Config V M) : Nat :=
  match c.pc with
  | some n => size + 1 - n
  | none => 0

theorem remaining_fallThrough_lt {size n : Nat} {s t : Store V M} (h : n < size) :
    Config.remaining size ⟨(Flow.fallThrough size n)[0]?, s⟩ <
      Config.remaining size ⟨some n, t⟩ := by
  by_cases hn : n + 1 < size
  · simp only [Flow.fallThrough, if_pos hn, Config.remaining, List.getElem?_cons_zero]
    omega
  · simp only [Flow.fallThrough, if_neg hn, Config.remaining, List.getElem?_nil]
    omega

/-- Falling through leads to corresponding places. -/
theorem corresponds_fallThrough (hlen : code.length = windows.length) {n : Nat} {w : List Instr}
    (hw : windows[n]? = some w) {s t : Store V M} (hmem : s.memory = t.memory)
    (hR : ∀ m ∈ Flow.fallThrough code.length n, R m s t) {pc : Option Nat}
    (hpc : StandsAt windows.flatten.length pc (windowStart windows n + w.length)) :
    Corresponds windows R ⟨(Flow.fallThrough code.length n)[0]?, s⟩ ⟨pc, t⟩ := by
  refine ⟨hmem, ?_⟩
  rw [← windowStart_succ hw] at hpc
  by_cases hn : n + 1 < code.length
  · have hfall : Flow.fallThrough code.length n = [n + 1] := if_pos hn
    rw [hfall] at hR ⊢
    exact ⟨hpc, hR (n + 1) List.mem_cons_self⟩
  · have hfall : Flow.fallThrough code.length n = [] := if_neg hn
    rw [hfall]
    rw [windowStart_of_length_le (by omega)] at hpc
    rintro p hp
    rcases hpc with hpc | ⟨hpc, -⟩
    · rw [hpc] at hp
      exact Nat.le_of_eq (Option.some.inj hp)
    · rw [hpc] at hp
      cases hp

/-- A window that falls through is executed up to the start of the next one. -/
theorem exists_run_of_fallThrough (hopens : List.Forall₂ Opens code windows)
    (hflow : Flow.ofCode code = .ok flow) (hflow' : Flow.ofCode windows.flatten = .ok flow')
    {n : Nat} {i : Instr} {w : List Instr} (hi : code[n]? = some i) (hw : windows[n]? = some w)
    (hwin : WindowStep meaning slots flow R n i w) (hti : i.targets? = none)
    (htw : ∀ k ∈ w, k.targets? = none) {pc : Option Nat} {s t : Store V M}
    (hpc : StandsAt windows.flatten.length pc (windowStart windows n)) (hRn : R n s t) :
    ∃ d, (execution meaning slots windows.flatten flow').Run w.length ⟨pc, t⟩
        (s.act meaning slots i).events d ∧
      Corresponds windows R
        ⟨(flow.next n)[(s.act meaning slots i).choice]?, s.after i (s.act meaning slots i)⟩ d := by
  obtain ⟨pc', hpc', hrun⟩ := run_through meaning slots hflow' htw
    (fun k j hj => getElem?_flatten hw hj) hpc t
  rw [hwin.events hRn] at hrun
  refine ⟨_, hrun, ?_⟩
  have hnext := Flow.next_eq_fallThrough hflow hi hti
  rw [hnext, Store.act, Instr.choice_act hti]
  refine corresponds_fallThrough hopens.length_eq hw (hwin.memory hRn).symm ?_ hpc'
  intro m hm
  exact hwin.next hRn (hnext ▸ hm)

/-- A window that jumps is executed up to the start of the window that is jumped to. -/
theorem exists_run_of_jump (hopens : List.Forall₂ Opens code windows)
    (hflow : Flow.ofCode code = .ok flow) (hflow' : Flow.ofCode windows.flatten = .ok flow')
    {n : Nat} {i j : Instr} {first : List Instr} {labels : List Label} (hi : code[n]? = some i)
    (hw : windows[n]? = some (first ++ [j]))
    (hwin : WindowStep meaning slots flow R n i (first ++ [j])) (hti : i.targets? = some labels)
    (htj : j.targets? = some labels) (hfirst : ∀ k ∈ first, k.isPlain) {pc : Option Nat}
    {s t : Store V M} (hpc : StandsAt windows.flatten.length pc (windowStart windows n))
    (hRn : R n s t) :
    ∃ d, (execution meaning slots windows.flatten flow').Run (first.length + 1) ⟨pc, t⟩
        (s.act meaning slots i).events d ∧
      Corresponds windows R
        ⟨(flow.next n)[(s.act meaning slots i).choice]?, s.after i (s.act meaning slots i)⟩ d := by
  obtain ⟨pc', hpc', hrun⟩ := run_through meaning slots hflow'
    (fun k hk => Instr.targets?_of_isPlain (hfirst k hk))
    (fun k k' hk => getElem?_flatten hw (by
      rw [List.getElem?_append_left (List.getElem?_eq_some_iff.1 hk).1]
      exact hk)) hpc t
  have hj : windows.flatten[windowStart windows n + first.length]? = some j :=
    getElem?_flatten hw (by simp)
  have hjlt := (List.getElem?_eq_some_iff.1 hj).1
  have hstep : (execution meaning slots windows.flatten flow').step
    ⟨some (windowStart windows n + first.length), (t.through meaning slots first).2⟩ = _ :=
    step_execution hj
  have hthrough := hwin.events hRn
  have hmem := hwin.memory hRn
  rw [Store.through_append] at hthrough hmem
  rw [hpc'.eq_some hjlt] at hrun
  have hall := hrun.append (.single hstep)
  simp only [Store.through_cons, Store.through_nil, List.append_nil] at hthrough hmem
  rw [hthrough] at hall
  refine ⟨_, hall, hmem.symm, ?_⟩
  have hchoice := hwin.choice hRn (by rw [hti]; rfl) rfl
  rw [hchoice, Flow.getElem?_next_of_targets? hflow' hj htj,
    Flow.getElem?_next_of_targets? hflow hi hti]
  have hlabel : (labels[(s.act meaning slots i).choice]?).bind (Flow.definition windows.flatten) =
      ((labels[(s.act meaning slots i).choice]?).bind (Flow.definition code)).map
        (windowStart windows) := by
    cases labels[(s.act meaning slots i).choice]? with
    | none => rfl
    | some l => exact Flow.definition_flatten (hopens.imp fun _ _ => Opens.keeps) l
  rw [hlabel, ← Flow.getElem?_next_of_targets? hflow hi hti]
  cases hm : (flow.next n)[(s.act meaning slots i).choice]? with
  | none => simp
  | some m =>
    refine ⟨.inl rfl, ?_⟩
    have hnext := hwin.next hRn (List.mem_of_getElem? hm)
    rw [Store.through_append] at hnext
    exact hnext

/-- **A window is executed up to the start of another one**, or control has come closer to the
end. -/
theorem exists_run_window (hopens : List.Forall₂ Opens code windows)
    (hflow : Flow.ofCode code = .ok flow) (hflow' : Flow.ofCode windows.flatten = .ok flow')
    {n : Nat} {i : Instr} {w : List Instr} (hi : code[n]? = some i) (hw : windows[n]? = some w)
    (hwin : WindowStep meaning slots flow R n i w) {pc : Option Nat} {s t : Store V M}
    (hpc : StandsAt windows.flatten.length pc (windowStart windows n)) (hRn : R n s t) :
    ∃ d, (execution meaning slots windows.flatten flow').Run w.length ⟨pc, t⟩
        (s.act meaning slots i).events d ∧
      Corresponds windows R
        ⟨(flow.next n)[(s.act meaning slots i).choice]?, s.after i (s.act meaning slots i)⟩ d ∧
      (w.length = 0 → Config.remaining code.length
        ⟨(flow.next n)[(s.act meaning slots i).choice]?, s.after i (s.act meaning slots i)⟩ <
          Config.remaining code.length ⟨some n, s⟩) := by
  obtain ⟨w', hw', hopen⟩ := forall₂_getElem? hopens hi
  obtain rfl : w = w' := Option.some.inj (hw.symm.trans hw')
  cases hopen with
  | label template l =>
    obtain ⟨d, hrun, hd⟩ := exists_run_of_fallThrough hopens hflow hflow' hi hw hwin rfl
      (by simp [Instr.targets?]) hpc hRn
    exact ⟨d, hrun, hd, fun h => by cases h⟩
  | jump hti htj hfirst =>
    obtain ⟨d, hrun, hd⟩ :=
      exists_run_of_jump hopens hflow hflow' hi hw hwin hti htj hfirst hpc hRn
    rw [List.length_append, List.length_singleton]
    exact ⟨d, hrun, hd, fun h => by omega⟩
  | plain hpi hpw =>
    have hti := Instr.targets?_of_isPlain hpi
    obtain ⟨d, hrun, hd⟩ := exists_run_of_fallThrough hopens hflow hflow' hi hw hwin hti
      (fun k hk => Instr.targets?_of_isPlain (hpw k hk)) hpc hRn
    refine ⟨d, hrun, hd, fun _ => ?_⟩
    rw [Flow.next_eq_fallThrough hflow hi hti, Store.act, Instr.choice_act hti]
    exact remaining_fallThrough_lt (List.getElem?_eq_some_iff.1 hi).1

/-- If the list has come to its end, so have its windows. -/
theorem Corresponds.stopped (hlen : code.length = windows.length) {c d : Config V M}
    (h : Corresponds windows R c d) (hstop : (execution meaning slots code flow).step c = none) :
    (execution meaning slots windows.flatten flow').step d = none := by
  obtain ⟨pc, s⟩ := c
  rw [step_execution_eq_none] at hstop ⊢
  intro p hp
  cases pc with
  | none => exact h.2 p hp
  | some n =>
    obtain ⟨hstands | ⟨hnone, -⟩, -⟩ := h.2
    · rw [hp, Option.some.injEq] at hstands
      have hn := hstop n rfl
      rw [hlen] at hn
      rw [hstands]
      exact Nat.le_of_eq (windowStart_of_length_le hn).symm
    · cases hp.symm.trans hnone

theorem simulation_of_windowStep (hopens : List.Forall₂ Opens code windows)
    (hflow : Flow.ofCode code = .ok flow) (hflow' : Flow.ofCode windows.flatten = .ok flow')
    (hR : ∀ n i w, code[n]? = some i → windows[n]? = some w →
      WindowStep meaning slots flow R n i w) :
    Machine.Simulation (execution meaning slots code flow)
      (execution meaning slots windows.flatten flow') (Corresponds windows R)
      (Config.remaining code.length) where
  step := by
    rintro ⟨pc, s⟩ ⟨pc', t⟩ es c ⟨hmem, hpc⟩ hstep
    cases pc with
    | none => cases hstep
    | some n =>
      cases hi : code[n]? with
      | none => simp [execution, hi] at hstep
      | some i =>
        rw [step_execution hi] at hstep
        cases hstep
        obtain ⟨w, hw, -⟩ := forall₂_getElem? hopens hi
        obtain ⟨d, hrun, hd, hrank⟩ :=
          exists_run_window hopens hflow hflow' hi hw (hR n i w hi hw) hpc.1 hpc.2
        exact ⟨_, d, hrun, hd, hrank⟩
  stop h hstop := ⟨0, _, .refl _, h.stopped hopens.length_eq hstop, h.1⟩

/-- **A list and the list of its windows are the same to a watcher.** -/
theorem same_of_windowStep (hopens : List.Forall₂ Opens code windows)
    (hflow : Flow.ofCode code = .ok flow) (hflow' : Flow.ofCode windows.flatten = .ok flow')
    (hR : ∀ n i w, code[n]? = some i → windows[n]? = some w →
      WindowStep meaning slots flow R n i w) {s t : Store V M} (hst : R 0 s t)
    (hmem : s.memory = t.memory) :
    (execution meaning slots code flow).Same s.enter
      (execution meaning slots windows.flatten flow') t.enter := by
  refine (simulation_of_windowStep hopens hflow hflow' hR).same ⟨hmem, ?_⟩
  exact ⟨.inl (by rw [windowStart_zero]; rfl), hst⟩

end

end Lowering
