import Lowering.Mips.Select
import Lowering.Proofs.Tree.Evaluation
import Mathlib.Data.List.Basic
import Std.Data.String.ToInt

/-!
# What instructions do

The template of an instruction is read: its mnemonic says which operation it is, and a number or
a symbol in it is taken as it is written.  The operands are those to which the holes of the
template refer.  Every mnemonic is the operation on words that tree code has, and the register
that always holds zero is never written.

A call passes what the registers in its list hold, gives its result in one register, and leaves
anything in the others that it may overwrite.  A conditional branch goes to the first of its
labels or falls through, and what it falls through to is the second one.

## Main definitions

* `Operation`, `Operation.decode` — the operation that a template stands for.
* `Outside` — labels and calls.
* `Instr.perform`, `exec` — running instructions until one jumps.
* `Operation.decode_template` — templates can be read.
-/

namespace Lowering

namespace Mips

/-- The operator that an operation with a constant computes. -/
def Immediate.operator : Immediate → BinOp
  | addi => .plus
  | andi => .and
  | ori => .or
  | xori => .xor
  | sll => .shl
  | srl => .shr
  | sra => .sar

/-- An operation of the target, with the number or the symbol that is written in it. -/
inductive Operation where
  | move
  | loadConst (value : Word)
  | loadAddress (symbol : String)
  | load (offset : Word)
  | store (offset : Word)
  | immediate (op : Immediate) (value : Word)
  | binop (op : BinOp)
  | call (symbol : String)
  | callAt
  | jump
  | jumpAt
  | branch (op : RelOp)
  deriving DecidableEq, Repr

namespace Operation

/-- How an operation is written. -/
def template : Operation → String
  | move => "move 'd0, 's0"
  | loadConst value => "li 'd0, " ++ Word.text value
  | loadAddress symbol => "la 'd0, " ++ symbol
  | load offset => "lw 'd0, " ++ Word.text offset ++ "('s0)"
  | store offset => "sw 's1, " ++ Word.text offset ++ "('s0)"
  | immediate op value => op.mnemonic ++ " 'd0, 's0, " ++ Word.text value
  | binop op => binopMnemonic op ++ " 'd0, 's0, 's1"
  | call symbol => "jal " ++ symbol
  | callAt => "jalr 's0"
  | jump => "j 'j0"
  | jumpAt => "jr 's0"
  | branch op => branchMnemonic op ++ " 's0, 's1, 'j0"

/-! ## Reading templates -/

/-- The word that characters are written for. -/
def number? (cs : List Char) : Option Word := (String.ofList cs).toInt?.map Int64.ofInt

theorem number?_text (v : Word) : number? (Word.text v).toList = some v := by
  have h : (Word.text v).toInt? = some v.toInt := Int.toInt?_repr v.toInt
  rw [number?, String.ofList_toList, h, Option.map_some, Int64.ofInt_toInt]

/-- An operation whose operands are written in one way only. -/
def exactly (text : String) (op : Operation) (cs : List Char) : Option Operation :=
  if cs = text.toList then some op else none

/-- An operation with a number between two texts. -/
def between (before after : String) (op : Word → Operation) (cs : List Char) : Option Operation :=
  (before.toList.isPrefixOf? cs).bind fun cs =>
    (after.toList.isSuffixOf? cs).bind fun cs => (number? cs).map op

/-- An operation with a symbol behind a text. -/
def behind (before : String) (op : String → Operation) (cs : List Char) : Option Operation :=
  (before.toList.isPrefixOf? cs).map fun cs => op (String.ofList cs)

/-- How the operands behind each mnemonic are read. -/
def readers : List (String × (List Char → Option Operation)) :=
  [("move", exactly "'d0, 's0" move),
    ("li", between "'d0, " "" loadConst),
    ("la", behind "'d0, " loadAddress),
    ("lw", between "'d0, " "('s0)" load),
    ("sw", between "'s1, " "('s0)" store),
    ("jal", behind "" call),
    ("jalr", exactly "'s0" callAt),
    ("j", exactly "'j0" jump),
    ("jr", exactly "'s0" jumpAt)] ++
  [.addi, .andi, .ori, .xori, .sll, .srl, .sra].map (fun op =>
    (op.mnemonic, between "'d0, 's0, " "" (immediate op))) ++
  [.plus, .minus, .mul, .div, .and, .or, .xor, .shl, .shr, .sar].map (fun op =>
    (binopMnemonic op, exactly "'d0, 's0, 's1" (binop op))) ++
  [.eq, .ne, .lt, .gt, .le, .ge, .ult, .ugt, .ule, .uge].map (fun op =>
    (branchMnemonic op, exactly "'s0, 's1, 'j0" (branch op)))

/-- The operation that a template stands for.  The mnemonic ends at the first blank. -/
def decode (template : String) : Option Operation :=
  let cs := template.toList
  (readers.lookup (String.ofList (cs.takeWhile (· ≠ ' ')))).bind fun read =>
    read (cs.dropWhile (· ≠ ' ')).tail

theorem exactly_toList (text : String) (op : Operation) : exactly text op text.toList = some op :=
  if_pos rfl

theorem between_append (before after : String) (op : Word → Operation) (v : Word) :
    between before after op (before.toList ++ ((Word.text v).toList ++ after.toList)) =
      some (op v) := by
  rw [between, List.isPrefixOf?_eq_some_iff_append_eq.2 rfl, Option.bind_some,
    List.isSuffixOf?_eq_some_iff_append_eq.2 rfl, Option.bind_some, number?_text, Option.map_some]

theorem behind_append (before : String) (op : String → Operation) (symbol : String) :
    behind before op (before.toList ++ symbol.toList) = some (op symbol) := by
  rw [behind, List.isPrefixOf?_eq_some_iff_append_eq.2 rfl, Option.map_some, String.ofList_toList]

theorem lookup_immediate (op : Immediate) :
    readers.lookup op.mnemonic = some (between "'d0, 's0, " "" (immediate op)) := by
  cases op <;> rfl

theorem lookup_binop (op : BinOp) :
    readers.lookup (binopMnemonic op) = some (exactly "'d0, 's0, 's1" (binop op)) := by
  cases op <;> rfl

theorem lookup_branch (op : RelOp) :
    readers.lookup (branchMnemonic op) = some (exactly "'s0, 's1, 'j0" (branch op)) := by
  cases op <;> rfl

/-- A mnemonic without blanks is found, and what is behind the blank is read. -/
theorem decode_eq_some (mnemonic : String) {template : String} {operands : List Char}
    {read : List Char → Option Operation} {op : Operation}
    (hread : readers.lookup mnemonic = some read) (hop : read operands = some op)
    (hblank : mnemonic.toList.all (· ≠ ' ') = true)
    (h : template.toList = mnemonic.toList ++ ' ' :: operands) : decode template = some op := by
  rw [List.all_eq_true] at hblank
  rw [decode, h, List.takeWhile_append_of_pos hblank, List.dropWhile_append_of_pos hblank]
  simp [hread, hop]

/-- **Every operation is read as it is written.** -/
theorem decode_template (op : Operation) : decode op.template = some op := by
  cases op with
  | move => exact decode_eq_some "move" rfl (exactly_toList _ _) rfl rfl
  | loadConst value =>
    exact decode_eq_some "li" rfl (between_append _ _ _ value) rfl (by simp [template])
  | loadAddress symbol =>
    exact decode_eq_some "la" rfl (behind_append _ _ symbol) rfl (by simp [template])
  | load offset =>
    exact decode_eq_some "lw" rfl (between_append _ _ _ offset) rfl (by simp [template])
  | store offset =>
    exact decode_eq_some "sw" rfl (between_append _ _ _ offset) rfl (by simp [template])
  | immediate op value =>
    exact decode_eq_some op.mnemonic (lookup_immediate op) (between_append _ _ _ value)
      (by cases op <;> rfl) (by simp [template])
  | binop op =>
    exact decode_eq_some (binopMnemonic op) (lookup_binop op) (exactly_toList _ _)
      (by cases op <;> rfl) (by simp [template])
  | call symbol =>
    exact decode_eq_some "jal" rfl (behind_append _ _ symbol) rfl (by simp [template])
  | callAt => exact decode_eq_some "jalr" rfl (exactly_toList _ _) rfl rfl
  | jump => exact decode_eq_some "j" rfl (exactly_toList _ _) rfl rfl
  | jumpAt => exact decode_eq_some "jr" rfl (exactly_toList _ _) rfl rfl
  | branch op =>
    exact decode_eq_some (branchMnemonic op) (lookup_branch op) (exactly_toList _ _)
      (by cases op <;> rfl) (by simp [template])

end Operation

end Mips

open Mips

/-! ## Running instructions -/

/-- What is outside of the instructions. -/
structure Outside where
  /-- The address that a symbol stands for. -/
  symbol : String → Word
  /-- Which of some labels has an address. -/
  labelAt : Word → List Label → Option Label
  labelAt_mem : ∀ {a labels l}, labelAt a labels = some l → l ∈ labels
  /-- The result of a call and the memory that it leaves. -/
  call : Word → List Word → (Word → Word) → Word × (Word → Word)
  /-- What a call leaves in the registers that it may overwrite. -/
  leftover : Call → TreeState → Temp → Word

/-- What is outside of tree code: a call does not change temporaries, and labels that are written
in the same way have the same address. -/
def Outside.world (O : Outside) : World where
  address l := O.symbol l.text
  labelAt := O.labelAt
  labelAt_mem := O.labelAt_mem
  call function args temps memory :=
    ((O.call function args memory).1, temps, (O.call function args memory).2)

/-- Write a register, unless it is the one that always holds zero. -/
def TreeState.write (s : TreeState) (t : Temp) (v : Word) : TreeState :=
  if t = zero then s else s.setTemp t v

/-- Make a call that may overwrite some registers. -/
def Outside.invoke (O : Outside) (function : Word) (args : List Word) (dst : List Temp)
    (s : TreeState) : TreeState where
  temps x :=
    if x = v0 then (O.call function args s.memory).1
    else if x ∈ dst then O.leftover ⟨function, args⟩ s x
    else s.temps x
  memory := (O.call function args s.memory).2
  calls := s.calls ++ [⟨function, args⟩]

/-- Perform an operation on what it writes, what it reads and where it may jump.  Gives the label
to which it jumps, if it does, and the state that is left.  There is none if the operands are of
another kind, or if no label is found. -/
def Mips.Operation.perform (O : Outside) (s : TreeState) :
    Operation → List Temp → List Temp → Option (List Label) → Option (Option Label × TreeState)
  | move, [d], [a], none => some (none, s.write d (s.temps a))
  | loadConst value, [d], [], none => some (none, s.write d value)
  | loadAddress symbol, [d], [], none => some (none, s.write d (O.symbol symbol))
  | load offset, [d], [a], none => some (none, s.write d (s.memory (s.temps a + offset)))
  | store offset, [], [a, b], none => some (none, s.setMemory (s.temps a + offset) (s.temps b))
  | immediate op value, [d], [a], none =>
    some (none, s.write d (op.operator.eval (s.temps a) value))
  | binop op, [d], [a, b], none => some (none, s.write d (op.eval (s.temps a) (s.temps b)))
  | call symbol, dst, src, none =>
    some (none, O.invoke (O.symbol symbol) (src.map s.temps) dst s)
  | callAt, dst, f :: src, none => some (none, O.invoke (s.temps f) (src.map s.temps) dst s)
  | jump, [], [], some [l] => some (some l, s)
  | jumpAt, [], [a], some labels => (O.labelAt (s.temps a) labels).map fun l => (some l, s)
  | branch op, [], [a, b], some [onTrue, onFalse] =>
    some (some (if op.holds (s.temps a) (s.temps b) then onTrue else onFalse), s)
  | _, _, _, _ => none

/-- Perform an instruction. -/
def Instr.perform (O : Outside) (s : TreeState) : Instr → Option (Option Label × TreeState)
  | .oper template dst src jump => (Operation.decode template).bind (·.perform O s dst src jump)
  | .move template dst src => (Operation.decode template).bind (·.perform O s [dst] [src] none)
  | .label .. => some (none, s)

/-- Run instructions one after another until one jumps. -/
def exec (O : Outside) : List Instr → TreeState → Option (Option Label × TreeState)
  | [], s => some (none, s)
  | i :: rest, s =>
    match i.perform O s with
    | some (none, s') => exec O rest s'
    | last => last

section Exec

variable {O : Outside} {s s' : TreeState} {code rest : List Instr}

theorem Instr.perform_oper (op : Operation) (dst src : List Temp) (jump : Option (List Label)) :
    (Instr.oper op.template dst src jump).perform O s = op.perform O s dst src jump := by
  rw [Instr.perform, Operation.decode_template, Option.bind_some]

theorem Instr.perform_copy (dst src : Temp) :
    (copy dst src).perform O s = some (none, s.write dst (s.temps src)) := by
  rw [copy, Instr.perform, show "move 'd0, 's0" = Operation.move.template from rfl,
    Operation.decode_template]
  rfl

theorem exec_singleton (i : Instr) : exec O [i] s = i.perform O s := by
  rw [exec]
  split
  · next h => rw [h, exec]
  · rfl

theorem exec_append (h : exec O code s = some (none, s')) :
    exec O (code ++ rest) s = exec O rest s' := by
  induction code generalizing s with
  | nil =>
    cases h
    rfl
  | cons i code ih =>
    rw [exec] at h
    rw [List.cons_append, exec]
    split at h
    · next hi =>
      exact ih h
    · next hi => exact absurd h (hi s')

end Exec

end Lowering
