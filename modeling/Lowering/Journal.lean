import Lowering.Fault

/-!
# The journal

Passes tell what they do in records of three levels.  Records are kept only while
someone listens, and a record is put into words when it is written.  Wording a
record can fault, since the text of an instruction can; so a pass may fault under
a listener where it would not have done so unheard.
-/

namespace Lowering

/-- How important a record is. -/
inductive Level where
  | trace | debug | info
  deriving DecidableEq, Repr, Inhabited

/-- The written form of a level. -/
def Level.text : Level → String
  | trace => "TRACE"
  | debug => "DEBUG"
  | info => "INFO"

/-- One thing that a pass did. -/
structure Record where
  level : Level
  message : String
  deriving DecidableEq, Repr, Inhabited

/-- The written form of a record. -/
def Record.text (r : Record) : String := r.level.text ++ " " ++ r.message

/-- The records so far, or `none` if nobody listens. -/
structure Journal where
  records? : Option (Array Record)
  deriving DecidableEq, Repr

namespace Journal

/-- The journal to which nobody listens. -/
def silent : Journal := ⟨none⟩

instance : Inhabited Journal := ⟨silent⟩

/-- An empty journal with a listener. -/
def listening : Journal := ⟨some #[]⟩

/-- The records in order. -/
def records (j : Journal) : List Record := (j.records?.getD #[]).toList

/-- Add a record, worded only if someone listens. -/
def add (j : Journal) (level : Level) (message : Unit → Except Fault String) :
    Except Fault Journal :=
  match j.records? with
  | none => .ok j
  | some records =>
    match message () with
    | .ok text => .ok ⟨some (records.push ⟨level, text⟩)⟩
    | .error e => .error e

@[simp] theorem add_silent (level : Level) (message : Unit → Except Fault String) :
    silent.add level message = .ok silent := rfl

end Journal

end Lowering
