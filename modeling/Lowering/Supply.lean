import Lowering.Attempt

/-!
# Fresh names

A `Supply` counts the temporaries and labels that were handed out; the next one
carries the next number.  So a name drawn later has a larger number than every
name drawn before.

## Main definitions

* `Supply` — the two counters.
* `Fresh` — computations that draw fresh names and may fault.
* `Fresh.temp`, `Fresh.label` — draw one name.
-/

namespace Lowering

/-- How many names were handed out. -/
structure Supply where
  /-- The number of the last virtual temporary. -/
  temps : Nat := 0
  /-- The number of the last generated label. -/
  labels : Nat := 0
  deriving DecidableEq, Repr, Inhabited

/-- A computation that draws fresh names. -/
abbrev Fresh := Attempt Supply

namespace Fresh

/-- Draw a fresh temporary. -/
def temp : Fresh Temp :=
  ⟨fun s => (.ok (.virtual (s.temps + 1)), { s with temps := s.temps + 1 })⟩

/-- Draw a fresh label. -/
def label : Fresh Label :=
  ⟨fun s => (.ok (.generated (s.labels + 1)), { s with labels := s.labels + 1 })⟩

/-- Start the numbers again. -/
def reset : Fresh Unit := ⟨fun _ => (.ok (), {})⟩

@[simp] theorem run_temp (s : Supply) :
    temp.run s = (.ok (.virtual (s.temps + 1)), { s with temps := s.temps + 1 }) := rfl

@[simp] theorem run_label (s : Supply) :
    label.run s = (.ok (.generated (s.labels + 1)), { s with labels := s.labels + 1 }) := rfl

end Fresh

end Lowering
