import Std.Data.ExtTreeSet

/-!
# Temporaries

A temporary holds one value.  A virtual temporary is numbered and lives wherever
the register allocator puts it; a register is a place of the target machine and
is never moved.

Temporaries are linearly ordered, virtual ones first, numbers by size and names
by code point.  Every set of temporaries in the library is listed in this order.

## Main definitions

* `Temp` — a virtual temporary or a machine register.
* `Temp.text` — the written form.
* `TempSet` — a finite set of temporaries, with extensional equality.
-/

namespace Lowering

/-- A place for one value. -/
inductive Temp where
  /-- A numbered temporary that the allocator is free to place. -/
  | virtual (id : Nat)
  /-- A machine register, named without its sigil. -/
  | register (name : String)
  deriving DecidableEq, Repr, Inhabited

namespace Temp

/-- The written form: `t7` for a virtual temporary, `$a0` for a register. -/
def text : Temp → String
  | virtual id => "t" ++ toString id
  | register name => "$" ++ name

/-- Whether the temporary is a machine register. -/
def isRegister : Temp → Bool
  | virtual _ => false
  | register _ => true

@[simp] theorem isRegister_virtual (id : Nat) : (virtual id).isRegister = false := rfl
@[simp] theorem isRegister_register (name : String) : (register name).isRegister = true := rfl

/-! ## Order -/

/-- Virtual temporaries come before registers. -/
protected def order : Temp → Temp → Ordering
  | virtual a, virtual b => compare a b
  | virtual _, register _ => .lt
  | register _, virtual _ => .gt
  | register a, register b => compare a b

instance : Ord Temp := ⟨Temp.order⟩

@[simp] theorem compare_virtual (a b : Nat) :
    compare (virtual a) (virtual b) = compare a b := rfl
@[simp] theorem compare_virtual_register (a : Nat) (b : String) :
    compare (virtual a) (register b) = .lt := rfl
@[simp] theorem compare_register_virtual (a : String) (b : Nat) :
    compare (register a) (virtual b) = .gt := rfl
@[simp] theorem compare_register (a b : String) :
    compare (register a) (register b) = compare a b := rfl

instance : Std.TransOrd Temp where
  eq_swap := by
    intro a b
    match a, b with
    | virtual a, virtual b => exact (Std.OrientedOrd.eq_swap : compare a b = (compare b a).swap)
    | virtual _, register _ => rfl
    | register _, virtual _ => rfl
    | register a, register b => exact (Std.OrientedOrd.eq_swap : compare a b = (compare b a).swap)
  isLE_trans := by
    intro a b c hab hbc
    cases a <;> cases b <;> cases c <;> simp_all
    all_goals exact Std.TransOrd.isLE_trans hab hbc

instance : Std.LawfulEqOrd Temp where
  compare_self := by intro a; cases a <;> simp
  eq_of_compare := by intro a b h; cases a <;> cases b <;> simp_all

/-- Order for sorting a list of temporaries. -/
def le (a b : Temp) : Bool := (compare a b).isLE

end Temp

/-- A finite set of temporaries. -/
abbrev TempSet := Std.ExtTreeSet Temp

namespace TempSet

/-- The set of the members of a list. -/
def ofList (ts : List Temp) : TempSet := Std.ExtTreeSet.ofList ts

@[simp] theorem mem_ofList {ts : List Temp} {t : Temp} : t ∈ ofList ts ↔ t ∈ ts := by
  simp [ofList, Std.ExtTreeSet.mem_ofList]

end TempSet

end Lowering
