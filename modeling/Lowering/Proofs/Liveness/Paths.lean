import Lowering.Proofs.Liveness

/-!
# Live temporaries and paths

A temporary is live behind an instruction exactly if control can come from there to an
instruction that reads it, along instructions that do not write it.  So nothing is live
that is not read further on, not even around loops.

Being read further on solves the equations of liveness, so that all that is live is read
further on.  The other direction goes along the path.

## Main definitions

* `Carries` — a path along which a temporary keeps its value until it is read.
* `LiveEquations` — the equations of liveness.
* `liveness_exact` — the main result.
-/

namespace Lowering

/-- Control can go from an index over some others to a last one.  The instruction at the last
index reads the temporary, and none of those on the way writes it. -/
structure Carries (code : List Instr) (flow : Flow) (t : Temp) (n : Nat) (way : List Nat)
    (last : Nat) : Prop where
  chain : (n :: (way ++ [last])).IsChain fun a b => b ∈ flow.next a
  keeps : ∀ m ∈ way, ∀ i, code[m]? = some i → t ∉ i.defs
  reads : ∃ i, code[last]? = some i ∧ t ∈ i.uses

/-- Sets of temporaries before and after every instruction that solve the equations of
liveness. -/
structure LiveEquations (code : List Instr) (flow : Flow) (before after : Nat → Temp → Prop) :
    Prop where
  before_iff : ∀ {n i t}, code[n]? = some i → (before n t ↔ t ∈ i.uses ∨ after n t ∧ t ∉ i.defs)
  after_iff : ∀ {n i t}, code[n]? = some i → (after n t ↔ ∃ m ∈ flow.next n, before m t)

variable {code : List Instr} {flow : Flow} {t : Temp} {n m last : Nat} {way : List Nat} {i : Instr}

theorem LiveEquations.solution {before after : Nat → Temp → Prop}
    (h : LiveEquations code flow before after) : LiveSolution code flow before after where
  uses hi ht := (h.before_iff hi).2 (.inl ht)
  through hi ht hdef := (h.before_iff hi).2 (.inr ⟨ht, hdef⟩)
  next hi hm ht := (h.after_iff hi).2 ⟨_, hm, ht⟩

/-! ## Paths -/

/-- The next instruction reads the temporary. -/
theorem carries_nil (hm : m ∈ flow.next n) (hi : code[m]? = some i) (ht : t ∈ i.uses) :
    Carries code flow t n [] m where
  chain := by simpa using hm
  keeps := nofun
  reads := ⟨i, hi, ht⟩

/-- The next instruction is passed. -/
theorem Carries.cons (h : Carries code flow t m way last) (hm : m ∈ flow.next n)
    (hi : code[m]? = some i) (ht : t ∉ i.defs) : Carries code flow t n (m :: way) last where
  chain := List.isChain_cons_cons.2 ⟨hm, h.chain⟩
  keeps := by
    refine List.forall_mem_cons.2 ⟨fun j hj => ?_, h.keeps⟩
    obtain rfl := Option.some.inj (hi.symm.trans hj)
    exact ht
  reads := h.reads

theorem Carries.tail (h : Carries code flow t n (m :: way) last) :
    m ∈ flow.next n ∧ Carries code flow t m way last := by
  obtain ⟨hm, hchain⟩ := List.isChain_cons_cons.1 h.chain
  exact ⟨hm, hchain, fun k hk => h.keeps k (List.mem_cons_of_mem m hk), h.reads⟩

/-- The temporary is read further on. -/
def ReadLater (code : List Instr) (flow : Flow) (n : Nat) (t : Temp) : Prop :=
  ∃ way last, Carries code flow t n way last

/-- What is read further on is a solution. -/
theorem solution_readLater (code : List Instr) (flow : Flow) :
    LiveSolution code flow
      (fun n t => ∃ i, code[n]? = some i ∧
        (t ∈ i.uses ∨ ReadLater code flow n t ∧ t ∉ i.defs))
      (ReadLater code flow) where
  uses hi ht := ⟨_, hi, .inl ht⟩
  through hi ht hdef := ⟨_, hi, .inr ⟨ht, hdef⟩⟩
  next _ hm hbefore := by
    obtain ⟨i, hi, ht | ⟨⟨way, last, h⟩, hdef⟩⟩ := hbefore
    · exact ⟨[], _, carries_nil hm hi ht⟩
    · exact ⟨_ :: way, last, h.cons hm hi hdef⟩

namespace Liveness

/-- What is read at the end of a path is live along it. -/
theorem mem_after_of_carries (hflow : Flow.ofCode code = .ok flow) (hi : code[n]? = some i)
    (h : Carries code flow t n way last) : t ∈ (ofCode code flow).1.after n := by
  have hsolves := solves_ofCode code flow
  induction way generalizing n i with
  | nil =>
    obtain ⟨j, hj, ht⟩ := h.reads
    have hlast : last ∈ flow.next n := by simpa using h.chain
    exact hsolves.next hi hlast (hsolves.uses hj ht)
  | cons m way ih =>
    obtain ⟨hm, htail⟩ := h.tail
    have hj := List.getElem?_eq_getElem (Flow.lt_length_of_mem_next hflow hi hm)
    have hdef := h.keeps m List.mem_cons_self _ hj
    exact hsolves.next hi hm (hsolves.through hj (ih hj htail) hdef)

theorem mem_after_iff_readLater (hflow : Flow.ofCode code = .ok flow) (hi : code[n]? = some i) :
    t ∈ (ofCode code flow).1.after n ↔ ReadLater code flow n t :=
  ⟨(inside_ofCode (solution_readLater code flow) n t).2,
    fun ⟨_, _, h⟩ => mem_after_of_carries hflow hi h⟩

/-- The live sets of a list solve the equations of liveness. -/
theorem equations_ofCode (code : List Instr) (flow : Flow) :
    LiveEquations code flow (fun n t => t ∈ (ofCode code flow).1.before n)
      (fun n t => t ∈ (ofCode code flow).1.after n) where
  before_iff hi := by
    rw [(equations_of_sweep_eq (size_ofCode code flow) (sweep_ofCode code flow) hi).2]
    exact Instr.mem_liveBefore
  after_iff hi := by
    rw [(equations_of_sweep_eq (size_ofCode code flow) (sweep_ofCode code flow) hi).1]
    exact mem_joined

end Liveness

/-! ## The main result -/

/-- **Liveness is exact.**  Sweeping comes to an end, whatever the flow of the list is.  A
temporary is then live behind an instruction exactly if there is a path from it to an
instruction that reads the temporary, along which nothing writes it; and it is live before an
instruction exactly if it is read there, or is live behind it and not written.  So the live
sets solve the equations of liveness, and they are inside of every other solution. -/
theorem liveness_exact (hflow : Flow.ofCode code = .ok flow) :
    let live := (Liveness.ofCode code flow).1
    Liveness.Ends code flow (.empty code.length) live (Liveness.ofCode code flow).2 ∧
      (∀ n i t, code[n]? = some i →
        (t ∈ live.after n ↔ ∃ way last, Carries code flow t n way last) ∧
        (t ∈ live.before n ↔ t ∈ i.uses ∨ t ∈ live.after n ∧ t ∉ i.defs)) ∧
      LiveEquations code flow (fun n t => t ∈ live.before n) (fun n t => t ∈ live.after n) ∧
      ∀ before after, LiveEquations code flow before after → live.Inside before after := by
  have hequations := Liveness.equations_ofCode code flow
  refine ⟨Liveness.ends_ofCode code flow, fun n i t hi => ⟨?_, hequations.before_iff hi⟩,
    hequations, fun before after h => Liveness.inside_ofCode h.solution⟩
  exact Liveness.mem_after_iff_readLater hflow hi

/-- A loop that counts up to a bound. -/
def countUp : List Instr :=
  [.op "li 'd0, 0" [.virtual 1] [], .define (.named "top"),
    .op "addi 'd0, 's0, 1" [.virtual 1] [.virtual 1],
    .jumping "blt 's0, 's1, 'j0" [.virtual 1, .virtual 2] [.named "top", .named "out"],
    .define (.named "out")]

/-- Where control goes in it. -/
def countUpFlow : Flow := ⟨#[[1], [2], [3], [1, 4], []]⟩

/-- The count is live behind the branch, since it is read around the loop, but not before the
loop, where it is written. -/
theorem countUp_liveness_exact : Flow.ofCode countUp = .ok countUpFlow ∧
    .virtual 1 ∈ (Liveness.ofCode countUp countUpFlow).1.after 3 ∧
    .virtual 1 ∉ (Liveness.ofCode countUp countUpFlow).1.before 0 := by
  have hflow : Flow.ofCode countUp = .ok countUpFlow := rfl
  obtain ⟨-, hlive, -⟩ := liveness_exact hflow
  refine ⟨hflow, (hlive 3 _ _ rfl).1.2 ⟨[1], 2, ?_, by decide, _, rfl, by decide⟩, ?_⟩
  · simp [countUpFlow, Flow.next]
  · rw [(hlive 0 _ _ rfl).2]
    simp [Instr.uses, Instr.defs, Instr.op]

end Lowering
