import Lowering.Journal
import Lowering.Supply
import Lowering.Mips.Frame

/-!
# Passes

The passes over one function share a workspace: the supply of fresh names, the
frame, and the journal.  All three outlive a fault.
-/

namespace Lowering

/-- What the passes share. -/
structure Workspace where
  /-- Where fresh names come from. -/
  supply : Supply := {}
  /-- The frame of the function at hand. -/
  frame : Mips.Frame
  /-- What the passes tell. -/
  journal : Journal := .silent
  deriving Inhabited

/-- A computation over the workspace. -/
abbrev Pass := Attempt Workspace

namespace Pass

/-- Run a computation that only draws names. -/
def fresh {α : Type} (x : Fresh α) : Pass α :=
  x.zoom Workspace.supply fun supply w => { w with supply }

/-- Write a record whose wording may fault. -/
def noteText (level : Level) (message : Unit → Except Fault String) : Pass Unit :=
  ⟨fun w =>
    match w.journal.add level message with
    | .ok journal => (.ok (), { w with journal })
    | .error e => (.error e, w)⟩

/-- Write a record. -/
def note (level : Level) (message : String) : Pass Unit :=
  noteText level fun _ => .ok message

/-- Write a record about an instruction. -/
def noteInstr (level : Level) (before : String) (i : Instr) (after : String) : Pass Unit :=
  noteText level fun _ => i.text.map fun text => before ++ text ++ after

/-- The frame of the function at hand. -/
def frame : Pass Mips.Frame := ⟨fun w => (.ok w.frame, w)⟩

/-- Reserve a slot in the frame. -/
def reserve : Pass Int :=
  ⟨fun w => let (offset, frame) := w.frame.reserve; (.ok offset, { w with frame })⟩

@[simp] theorem run_fresh {α : Type} (x : Fresh α) (w : Workspace) :
    (fresh x).run w = ((x.run w.supply).1, { w with supply := (x.run w.supply).2 }) := rfl

theorem run_fresh_eq_ok_iff {α : Type} {x : Fresh α} {a : α} {w w' : Workspace} :
    (fresh x).run w = (.ok a, w') ↔
      ∃ supply, x.run w.supply = (.ok a, supply) ∧ w' = { w with supply } := by
  rw [run_fresh]
  constructor
  · intro h
    obtain ⟨hr, hw⟩ := Prod.mk.inj h
    exact ⟨(x.run w.supply).2, Prod.ext hr rfl, hw.symm⟩
  · rintro ⟨supply, h, rfl⟩
    rw [h]

/-- A fault in drawing names is the fault of all that follows. -/
theorem run_fresh_bind_error {α β : Type} {x : Fresh α} {w : Workspace} {e : Fault}
    {supply : Supply} (f : α → Pass β) (h : x.run w.supply = (.error e, supply)) :
    (fresh x >>= f).run w = (.error e, { w with supply }) := by
  refine Attempt.run_bind_error f ?_
  rw [run_fresh, h]

@[simp] theorem run_frame (w : Workspace) : frame.run w = (.ok w.frame, w) := rfl

@[simp] theorem run_reserve (w : Workspace) :
    reserve.run w = (.ok w.frame.reserve.1, { w with frame := w.frame.reserve.2 }) := rfl

/-- Unheard, a record changes nothing. -/
theorem run_noteText_of_silent {w : Workspace} (h : w.journal.records? = none) (level : Level)
    (message : Unit → Except Fault String) : (noteText level message).run w = (.ok (), w) := by
  simp [noteText, Journal.add, h]

/-- Writing a record changes the journal only. -/
theorem run_noteText_eq_ok {w w' : Workspace} {level : Level}
    {message : Unit → Except Fault String} (h : (noteText level message).run w = (.ok (), w')) :
    w'.supply = w.supply ∧ w'.frame = w.frame := by
  simp only [noteText] at h
  split at h
  · cases h
    exact ⟨rfl, rfl⟩
  · cases h

end Pass

end Lowering
