import Lowering.Fault

/-!
# Instruction templates

A template is the text of an instruction with holes for its operands.  A hole is
a quote, one of the letters `s`, `d` and `j`, and a decimal index: `'s0` stands
for the first source, `'d1` for the second destination, `'j0` for the first jump
target.

Filling a template copies everything that is not a hole.  A hole without an index
is copied as well, and so is one whose index has no operand, except that the
index is then written as a number, without leading zeros.  The index is a 64-bit
word; one that leaves this range is an overflow.

## Main definitions

* `Template.pieces` — a template as characters and holes.
* `Template.fill` — the text with every hole filled in.
-/

namespace Lowering

/-- The list that a hole refers to. -/
inductive Role where
  | source | destination | target
  deriving DecidableEq, Repr, Inhabited

namespace Role

/-- The letter of a hole. -/
def letter : Role → Char
  | source => 's'
  | destination => 'd'
  | target => 'j'

/-- The role that a letter stands for. -/
def ofLetter? : Char → Option Role
  | 's' => some source
  | 'd' => some destination
  | 'j' => some target
  | _ => none

@[simp] theorem ofLetter?_letter (role : Role) : ofLetter? role.letter = some role := by
  cases role <;> rfl

theorem letter_of_ofLetter? {c : Char} {role : Role} (h : ofLetter? c = some role) :
    role.letter = c := by
  unfold ofLetter? at h
  split at h <;> cases h <;> rfl

end Role

namespace Template

/-- A part of a template. -/
inductive Piece where
  /-- A character that is copied. -/
  | char (c : Char)
  /-- A hole with the digits of its index. -/
  | hole (role : Role) (digits : List Char)
  deriving DecidableEq, Repr

/-- The characters of a piece. -/
def Piece.chars : Piece → List Char
  | .char c => [c]
  | .hole role digits => '\'' :: role.letter :: digits

/-- Split a template.  A hole takes all the digits that follow its letter. -/
def pieces : List Char → List Piece
  | [] => []
  | [c] => [.char c]
  | c :: d :: rest =>
    match if c = '\'' then Role.ofLetter? d else none with
    | some role =>
      .hole role (rest.takeWhile Char.isDigit) :: pieces (rest.dropWhile Char.isDigit)
    | none => .char c :: pieces (d :: rest)
  termination_by cs => cs.length
  decreasing_by
    · have := (List.dropWhile_sublist Char.isDigit (l := rest)).length_le
      simp only [List.length_cons]
      omega
    · simp

/-- Splitting loses nothing. -/
theorem flatMap_chars_pieces (cs : List Char) : (pieces cs).flatMap Piece.chars = cs := by
  fun_induction pieces cs with
  | case1 => rfl
  | case2 c => rfl
  | case3 c d rest role h ih =>
    split at h
    · next hc => simp [Piece.chars, ih, hc, Role.letter_of_ofLetter? h]
    · cases h
  | case4 c d rest h ih => simp [Piece.chars, ih]

/-- One more than the largest index. -/
def indexLimit : Nat := UInt64.size

/-- Append a digit to an index. -/
def pushDigit (index : Nat) (digit : Char) : Except Fault Nat :=
  if indexLimit ≤ index * 10 then .error (.overflow .multiply)
  else
    let index := index * 10 + (digit.toNat - '0'.toNat)
    if indexLimit ≤ index then .error (.overflow .add) else .ok index

/-- The number that digits stand for. -/
def index (digits : List Char) : Except Fault Nat := digits.foldlM pushDigit 0

/-- The text of a hole that has no operand. -/
def unfilled (role : Role) (index : String) : String := "'" ++ role.letter.toString ++ index

/-- The text of a piece, given the operand of each role and index. -/
def Piece.fill (operand : Role → Nat → Option String) : Piece → Except Fault String
  | .char c => .ok c.toString
  | .hole role [] => .ok (unfilled role "")
  | .hole role digits => do
    let i ← index digits
    .ok ((operand role i).getD (unfilled role (toString i)))

/-- The text of a template, given the operand of each role and index. -/
def fill (operand : Role → Nat → Option String) (template : String) : Except Fault String := do
  let parts ← (pieces template.toList).mapM (Piece.fill operand)
  .ok (String.join parts)

end Template

end Lowering
