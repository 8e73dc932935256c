import Lowering.Flow
import Lowering.Mips.Frame
import Lowering.Proofs.Machine
import Mathlib.Logic.Function.Basic
import Std.Data.String.ToInt

/-!
# Execution of instruction lists

An abstract machine that runs an instruction list without knowing the target.  What
an operation does is an arbitrary function of its template, the values of its sources
and the memory: it gives the values of its destinations, the new memory, and which
target is taken.  A copy copies, and a label does nothing.  Control goes where the
flow of the list says.

Some offsets are *slots*.  Each has a cell of its own, which is no part of the memory,
and an instruction that loads or stores a temporary at a slot reads or writes this
cell and does nothing else.

Only operations that are no slot accesses can be seen, each with its template, the
values it read, the memory it found, and the target it took.

## Main definitions

* `Meaning` — what operations do.
* `Instr.access?` — whether an instruction reads or writes the cell of a slot.
* `Instr.act` — what an instruction does, given the values of its sources.
* `execution` — the machine.
-/

namespace Lowering

/-- What an operation gives. -/
structure Effect (V M : Type) where
  /-- The value of each destination, by its index. -/
  value : Nat → V
  memory : M
  /-- The index of the target that is taken, if there are targets. -/
  choice : Nat

/-- What every operation does, given its template, the values of its sources and the
memory. -/
abbrev Meaning (V M : Type) := String → List V → M → Effect V M

/-- An operation that was executed. -/
structure Executed (V M : Type) where
  template : String
  /-- The values of its sources. -/
  values : List V
  /-- The memory before it. -/
  memory : M
  /-- The index of the target that was taken, unless control fell through. -/
  choice? : Option Nat

/-- An access to the cell of a slot. -/
inductive Access where
  | load (offset : Int)
  | store (offset : Int)

/-- The access that an instruction makes, if it loads or stores a temporary at one of
the slots. -/
def Instr.access? (slots : List Int) (i : Instr) : Option Access :=
  slots.findSome? fun o =>
    if ∃ t ∈ i.defs, i = Mips.loadSlot o t then some (.load o)
    else if ∃ t ∈ i.uses, i = Mips.storeSlot o t then some (.store o)
    else none

/-- What an instruction does besides going on. -/
structure Act (V M : Type) where
  /-- The values of its destinations. -/
  values : List V
  cells : Int → V
  memory : M
  events : List (Executed V M)
  /-- Which of the following instructions comes next. -/
  choice : Nat

/-- What an instruction does, given the values of its sources, the cells and the
memory. -/
def Instr.act {V M : Type} (meaning : Meaning V M) (slots : List Int) (i : Instr)
    (values : List V) (cells : Int → V) (memory : M) : Act V M :=
  match i.access? slots with
  | some (.load o) => ⟨[cells o], cells, memory, [], 0⟩
  | some (.store o) =>
    match values with
    | v :: _ => ⟨[], Function.update cells o v, memory, [], 0⟩
    | [] => ⟨[], cells, memory, [], 0⟩
  | none =>
    match i with
    | .oper template dst _ jump =>
      let e := meaning template values memory
      { values := (List.range dst.length).map e.value
        cells := cells
        memory := e.memory
        events := [⟨template, values, memory, jump.map fun _ => e.choice⟩]
        choice := if jump.isSome then e.choice else 0 }
    | .move .. => ⟨values, cells, memory, [], 0⟩
    | .label .. => ⟨[], cells, memory, [], 0⟩

/-- Give temporaries new values, one after another. -/
def writeAll {V : Type} (regs : Temp → V) : List Temp → List V → Temp → V
  | t :: ts, v :: vs => writeAll (Function.update regs t v) ts vs
  | _, _ => regs

/-- The contents of all places. -/
structure Store (V M : Type) where
  regs : Temp → V
  cells : Int → V
  memory : M

/-- Where control is, unless it has left the list, and the contents of all places. -/
structure Config (V M : Type) where
  pc : Option Nat
  store : Store V M

/-- The configuration in which a list starts. -/
def Store.enter {V M : Type} (s : Store V M) : Config V M := ⟨some 0, s⟩

/-- The store after an instruction. -/
def Store.after {V M : Type} (s : Store V M) (i : Instr) (a : Act V M) : Store V M :=
  ⟨writeAll s.regs i.defs a.values, a.cells, a.memory⟩

/-- What an instruction does in a store. -/
def Store.act {V M : Type} (s : Store V M) (meaning : Meaning V M) (slots : List Int)
    (i : Instr) : Act V M :=
  i.act meaning slots (i.uses.map s.regs) s.cells s.memory

/-- The machine that executes an instruction list with its flow.  Its result is the
memory. -/
def execution {V M : Type} (meaning : Meaning V M) (slots : List Int) (code : List Instr)
    (flow : Flow) : Machine (Config V M) (Executed V M) M where
  step c := do
    let n ← c.pc
    let i ← code[n]?
    let a := c.store.act meaning slots i
    some (a.events, ⟨(flow.next n)[a.choice]?, c.store.after i a⟩)
  result c := c.store.memory

variable {V M : Type} {meaning : Meaning V M} {slots : List Int} {code : List Instr} {flow : Flow}

theorem step_execution {n : Nat} {i : Instr} {s : Store V M} (h : code[n]? = some i) :
    (execution meaning slots code flow).step ⟨some n, s⟩ =
      some ((s.act meaning slots i).events,
        ⟨(flow.next n)[(s.act meaning slots i).choice]?, s.after i (s.act meaning slots i)⟩) := by
  simp [execution, h]

theorem step_execution_eq_none {c : Config V M} :
    (execution meaning slots code flow).step c = none ↔
      ∀ n, c.pc = some n → code.length ≤ n := by
  rcases c with ⟨_ | n, s⟩
  · simp [execution]
  · rcases Nat.lt_or_ge n code.length with h | h
    · simp [execution, h]
    · simp [execution, h]

/-! ## Slot accesses -/

theorem loadSlot_inj {o o' : Int} {t t' : Temp} :
    Mips.loadSlot o t = Mips.loadSlot o' t' ↔ o = o' ∧ t = t' := by
  constructor
  · intro h
    simp only [Mips.loadSlot, Instr.op, Instr.oper.injEq, List.cons.injEq, and_true,
      String.append_right_inj, String.append_left_inj] at h
    exact ⟨Int.repr_injective h.1, h.2⟩
  · rintro ⟨rfl, rfl⟩
    rfl

theorem storeSlot_inj {o o' : Int} {t t' : Temp} :
    Mips.storeSlot o t = Mips.storeSlot o' t' ↔ o = o' ∧ t = t' := by
  constructor
  · intro h
    simp only [Mips.storeSlot, Instr.op, Instr.oper.injEq, List.cons.injEq, and_true,
      String.append_right_inj, String.append_left_inj, true_and] at h
    exact ⟨Int.repr_injective h.1, h.2⟩
  · rintro ⟨rfl, rfl⟩
    rfl

theorem loadSlot_ne_storeSlot {o o' : Int} {t t' : Temp} :
    Mips.loadSlot o t ≠ Mips.storeSlot o' t' := by
  intro h
  simp [Mips.loadSlot, Mips.storeSlot, Instr.op] at h

theorem Instr.access?_loadSlot {o : Int} (h : o ∈ slots) (t : Temp) :
    (Mips.loadSlot o t).access? slots = some (.load o) := by
  induction slots with
  | nil => simp at h
  | cons o' rest ih =>
    simp only [access?, List.findSome?_cons]
    by_cases ho : o = o'
    · subst ho
      simp [Mips.loadSlot, Instr.op, Instr.defs]
    · have hl : ¬ ∃ u ∈ (Mips.loadSlot o t).defs, Mips.loadSlot o t = Mips.loadSlot o' u := by
        rintro ⟨u, -, hu⟩
        exact ho (loadSlot_inj.1 hu).1
      have hs : ¬ ∃ u ∈ (Mips.loadSlot o t).uses, Mips.loadSlot o t = Mips.storeSlot o' u := by
        rintro ⟨u, -, hu⟩
        exact loadSlot_ne_storeSlot hu
      rw [if_neg hl, if_neg hs]
      exact ih ((List.mem_cons.1 h).resolve_left ho)

theorem Instr.access?_storeSlot {o : Int} (h : o ∈ slots) (t : Temp) :
    (Mips.storeSlot o t).access? slots = some (.store o) := by
  induction slots with
  | nil => simp at h
  | cons o' rest ih =>
    simp only [access?, List.findSome?_cons]
    have hl : ¬ ∃ u ∈ (Mips.storeSlot o t).defs, Mips.storeSlot o t = Mips.loadSlot o' u := by
      rintro ⟨u, -, hu⟩
      exact loadSlot_ne_storeSlot hu.symm
    rw [if_neg hl]
    by_cases ho : o = o'
    · subst ho
      simp [Mips.storeSlot, Instr.op, Instr.uses]
    · have hs : ¬ ∃ u ∈ (Mips.storeSlot o t).uses, Mips.storeSlot o t = Mips.storeSlot o' u := by
        rintro ⟨u, -, hu⟩
        exact ho (storeSlot_inj.1 hu).1
      rw [if_neg hs]
      exact ih ((List.mem_cons.1 h).resolve_left ho)

/-- Only loads and stores at a slot are accesses. -/
theorem Instr.eq_of_access? {i : Instr} {a : Access} (h : i.access? slots = some a) :
    ∃ o ∈ slots, ∃ t, a = .load o ∧ i = Mips.loadSlot o t ∨
      a = .store o ∧ i = Mips.storeSlot o t := by
  obtain ⟨o, ho, heq⟩ := List.exists_of_findSome?_eq_some h
  split at heq
  · next hload =>
    obtain ⟨t, -, ht⟩ := hload
    cases heq
    exact ⟨o, ho, t, .inl ⟨rfl, ht⟩⟩
  · split at heq
    · next hstore =>
      obtain ⟨t, -, ht⟩ := hstore
      cases heq
      exact ⟨o, ho, t, .inr ⟨rfl, ht⟩⟩
    · cases heq

/-! ## Renaming -/

/-- Slots are reached through the frame pointer only. -/
theorem Instr.access?_eq_none {i : Instr} (h : Mips.fp ∉ i.uses) : i.access? slots = none := by
  cases ha : i.access? slots with
  | none => rfl
  | some a =>
    obtain ⟨o, -, t, ⟨-, rfl⟩ | ⟨-, rfl⟩⟩ := eq_of_access? ha
    · exact absurd (List.mem_singleton_self _) h
    · exact absurd (List.mem_cons_of_mem t (List.mem_singleton_self _)) h

/-- A renaming that neither moves the frame pointer nor makes up a new one keeps slot
accesses apart from other instructions. -/
theorem Instr.access?_rename {i : Instr} {f : Temp → Temp}
    (h : ∀ t ∈ i.temps, f t = Mips.fp ↔ t = Mips.fp) :
    (i.rename f).access? slots = i.access? slots := by
  unfold access?
  congr 1
  funext o
  have hl : (∃ t ∈ (i.rename f).defs, i.rename f = Mips.loadSlot o t) ↔
      ∃ t ∈ i.defs, i = Mips.loadSlot o t := by
    cases i with
    | oper template dst src jump =>
      simp only [rename, defs, temps, uses, Mips.loadSlot, op, oper.injEq,
        List.map_eq_singleton_iff, List.mem_map, List.mem_append] at h ⊢
      constructor
      · rintro ⟨t, ⟨d, hd, hdt⟩, htemplate, ⟨d', hdst, hd'⟩, ⟨s, hsrc, hs⟩, hjump⟩
        exact ⟨d', by simp [hdst], htemplate, hdst,
          by rw [hsrc, (h s (by simp [hsrc])).1 hs], hjump⟩
      · rintro ⟨d, hd, htemplate, hdst, hsrc, hjump⟩
        exact ⟨f d, ⟨d, hd, rfl⟩, htemplate, ⟨d, hdst, rfl⟩,
          ⟨Mips.fp, hsrc, (h _ (by simp [hsrc])).2 rfl⟩, hjump⟩
    | move => simp [rename, Mips.loadSlot, op]
    | label => simp [rename, Mips.loadSlot, op]
  have hs : (∃ t ∈ (i.rename f).uses, i.rename f = Mips.storeSlot o t) ↔
      ∃ t ∈ i.uses, i = Mips.storeSlot o t := by
    cases i with
    | oper template dst src jump =>
      simp only [rename, defs, temps, uses, Mips.storeSlot, op, oper.injEq, List.map_eq_nil_iff,
        List.mem_map, List.mem_append] at h ⊢
      constructor
      · rintro ⟨t, ⟨u, hu, hut⟩, htemplate, hdst, hsrc, hjump⟩
        obtain ⟨s, rest, rfl, hs, hrest⟩ := List.map_eq_cons_iff.1 hsrc
        obtain ⟨b, rfl, hb⟩ := List.map_eq_singleton_iff.1 hrest
        exact ⟨s, by simp, htemplate, hdst, by rw [(h b (by simp)).1 hb], hjump⟩
      · rintro ⟨s, hs, htemplate, hdst, hsrc, hjump⟩
        exact ⟨f s, ⟨s, hs, rfl⟩, htemplate, hdst,
          by simp [hsrc, (h Mips.fp (by simp [hsrc])).2 rfl], hjump⟩
    | move => simp [rename, Mips.storeSlot, op]
    | label => simp [rename, Mips.storeSlot, op]
  simp only [hl, hs]

/-- What an instruction does depends on the values of its sources and not on where
they are. -/
theorem Instr.act_rename {i : Instr} {f : Temp → Temp}
    (h : ∀ t ∈ i.temps, f t = Mips.fp ↔ t = Mips.fp) (values : List V) (cells : Int → V)
    (memory : M) :
    (i.rename f).act meaning slots values cells memory =
      i.act meaning slots values cells memory := by
  unfold act
  rw [access?_rename h]
  cases i <;> simp [rename]

/-- There is a value for every destination. -/
theorem Instr.length_values_act {i : Instr} {values : List V} (h : values.length = i.uses.length)
    (cells : Int → V) (memory : M) :
    (i.act meaning slots values cells memory).values.length = i.defs.length := by
  cases ha : i.access? slots with
  | some a =>
    obtain ⟨o, -, t, ⟨rfl, rfl⟩ | ⟨rfl, rfl⟩⟩ := eq_of_access? ha
    · unfold act
      simp only [ha]
      rfl
    · unfold act
      simp only [ha]
      split <;> rfl
  | none =>
    unfold act
    simp only [ha]
    cases i with
    | oper => simp [defs]
    | move => simpa [defs, uses] using h
    | label => rfl

/-! ## Writing -/

theorem writeAll_of_notMem {regs : Temp → V} {ts : List Temp} {vs : List V} {x : Temp}
    (h : x ∉ ts) : writeAll regs ts vs x = regs x := by
  induction ts generalizing regs vs with
  | nil => rfl
  | cons t ts ih =>
    cases vs with
    | nil => rfl
    | cons v vs =>
      simp only [List.mem_cons, not_or] at h
      rw [writeAll, ih h.2, Function.update_of_ne h.1]

/-- Writing to renamed places is writing, as seen from a place whose name no other
written place takes. -/
theorem writeAll_map {regs regs' : Temp → V} {f : Temp → Temp} {ts : List Temp} {vs : List V}
    {x : Temp} (hf : ∀ t ∈ ts, f t = f x → t = x) (hlen : vs.length = ts.length)
    (hx : x ∉ ts → regs' (f x) = regs x) :
    writeAll regs' (ts.map f) vs (f x) = writeAll regs ts vs x := by
  induction ts generalizing regs regs' vs with
  | nil => simpa [writeAll] using hx
  | cons t ts ih =>
    cases vs with
    | nil => simp at hlen
    | cons v vs =>
      simp only [List.map_cons, writeAll]
      apply ih (fun u hu => hf u (List.mem_cons_of_mem _ hu)) (by simpa using hlen)
      intro hxts
      by_cases hxt : x = t
      · subst hxt
        simp
      · have hft : f x ≠ f t := fun h => hxt (hf t List.mem_cons_self h.symm).symm
        rw [Function.update_of_ne hft, Function.update_of_ne hxt]
        exact hx (by simp [hxt, hxts])

end Lowering
