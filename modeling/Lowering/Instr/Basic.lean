import Lowering.Instr.Template

/-!
# Machine instructions

An instruction is a template with the temporaries that it writes and reads.  The
register allocator looks at the lists only, and the printer fills them in.

## Main definitions

* `Instr` — an operation, a copy, or the definition of a label.
* `Instr.defs`, `Instr.uses`, `Instr.targets?`, `Instr.copy?` — its views.
* `Instr.rename` — replace every temporary.
* `Instr.format`, `Instr.text` — fill in the template.
-/

namespace Lowering

/-- A machine instruction. -/
inductive Instr where
  /-- An operation.  Without a jump list control goes on at the next instruction,
  with one it goes on at one of the labels. -/
  | oper (template : String) (dst src : List Temp) (jump : Option (List Label))
  /-- A copy from one temporary to another, which the allocator may remove. -/
  | move (template : String) (dst src : Temp)
  /-- The definition of a label. -/
  | label (template : String) (label : Label)
  deriving DecidableEq, Repr, Inhabited

namespace Instr

/-- An operation that falls through. -/
def op (template : String) (dst src : List Temp) : Instr := oper template dst src none

/-- An operation that jumps and writes nothing. -/
def jumping (template : String) (src : List Temp) (targets : List Label) : Instr :=
  oper template [] src (some targets)

/-- The definition of a label, written with a colon. -/
def define (l : Label) : Instr := label (l.text ++ ":") l

/-- The temporaries that the instruction writes. -/
def defs : Instr → List Temp
  | oper _ dst _ _ => dst
  | move _ dst _ => [dst]
  | label .. => []

/-- The temporaries that the instruction reads. -/
def uses : Instr → List Temp
  | oper _ _ src _ => src
  | move _ _ src => [src]
  | label .. => []

/-- All temporaries of the instruction, those it writes first. -/
def temps (i : Instr) : List Temp := i.defs ++ i.uses

/-- Where control can go, unless it falls through. -/
def targets? : Instr → Option (List Label)
  | oper _ _ _ jump => jump
  | _ => none

/-- The destination and source of a copy. -/
def copy? : Instr → Option (Temp × Temp)
  | move _ dst src => some (dst, src)
  | _ => none

/-- Replace every temporary. -/
def rename (f : Temp → Temp) : Instr → Instr
  | oper template dst src jump => oper template (dst.map f) (src.map f) jump
  | move template dst src => move template (f dst) (f src)
  | label template l => label template l

@[simp] theorem defs_rename (f : Temp → Temp) (i : Instr) : (i.rename f).defs = i.defs.map f := by
  cases i <;> rfl

@[simp] theorem uses_rename (f : Temp → Temp) (i : Instr) : (i.rename f).uses = i.uses.map f := by
  cases i <;> rfl

@[simp] theorem temps_rename (f : Temp → Temp) (i : Instr) :
    (i.rename f).temps = i.temps.map f := by
  simp [temps]

@[simp] theorem targets?_rename (f : Temp → Temp) (i : Instr) :
    (i.rename f).targets? = i.targets? := by
  cases i <;> rfl

theorem copy?_rename (f : Temp → Temp) (i : Instr) :
    (i.rename f).copy? = i.copy?.map fun (dst, src) => (f dst, f src) := by
  cases i <;> rfl

@[simp] theorem rename_id (i : Instr) : i.rename id = i := by
  cases i <;> simp [rename]

@[simp] theorem rename_rename (f g : Temp → Temp) (i : Instr) :
    (i.rename f).rename g = i.rename (g ∘ f) := by
  cases i <;> simp [rename]

/-- The text of the operand with a role and index. -/
def operand (i : Instr) (name : Temp → String) : Role → Nat → Option String
  | .source, index => (i.uses[index]?).map name
  | .destination, index => (i.defs[index]?).map name
  | .target, index => ((i.targets?.getD [])[index]?).map Label.text

/-- The text of the instruction, naming each temporary with `name`.  A label's text
is its template as it stands. -/
def format (i : Instr) (name : Temp → String) : Except Fault String :=
  match i with
  | oper template .. => Template.fill (i.operand name) template
  | move template .. => Template.fill (i.operand name) template
  | label template _ => .ok template

/-- The text of the instruction. -/
def text (i : Instr) : Except Fault String := i.format Temp.text

end Instr

/-- The texts of a list of instructions. -/
def Instr.texts (code : List Instr) : Except Fault (List String) := code.mapM Instr.text

end Lowering
