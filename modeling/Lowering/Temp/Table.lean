import Lowering.Temp
import Std.Data.ExtTreeMap

/-!
# Tables over temporaries

A `Table α` gives a value to every temporary: the stored one, or one value that
all others share.  Through `get` a table is a total function, and the lemmas
below are all that a proof needs to know of it.
-/

namespace Lowering

/-- A value for every temporary. -/
structure Table (α : Type) where
  /-- The values that differ from temporary to temporary. -/
  entries : Std.ExtTreeMap Temp α
  /-- The value of every temporary that has no entry. -/
  fallback : α

namespace Table

variable {α : Type}

/-- The table that gives every temporary the same value. -/
def const (a : α) : Table α := ⟨∅, a⟩

/-- The value of a temporary. -/
def get (tab : Table α) (t : Temp) : α := tab.entries.getD t tab.fallback

/-- Give one temporary a new value. -/
def set (tab : Table α) (t : Temp) (a : α) : Table α :=
  { tab with entries := tab.entries.insert t a }

/-- Change the value of one temporary. -/
def update (tab : Table α) (t : Temp) (f : α → α) : Table α := tab.set t (f (tab.get t))

@[simp] theorem get_const (a : α) (t : Temp) : (const a).get t = a := by
  simp [const, get]

theorem get_set (tab : Table α) (t u : Temp) (a : α) :
    (tab.set t a).get u = if t = u then a else tab.get u := by
  simp [get, set, Std.ExtTreeMap.getD_insert]

@[simp] theorem get_set_self (tab : Table α) (t : Temp) (a : α) :
    (tab.set t a).get t = a := by
  simp [get_set]

theorem get_set_of_ne (tab : Table α) {t u : Temp} (h : t ≠ u) (a : α) :
    (tab.set t a).get u = tab.get u := by
  simp [get_set, h]

/-- A value that is replaced leaves no trace. -/
@[simp] theorem set_set (tab : Table α) (t : Temp) (a b : α) :
    (tab.set t a).set t b = tab.set t b := by
  have hentries : (tab.entries.insert t a).insert t b = tab.entries.insert t b := by
    refine Std.ExtTreeMap.ext_getElem? fun u => ?_
    simp only [Std.ExtTreeMap.getElem?_insert]
    split <;> rfl
  simp [set, hentries]

theorem get_update (tab : Table α) (t u : Temp) (f : α → α) :
    (tab.update t f).get u = if t = u then f (tab.get u) else tab.get u := by
  by_cases h : t = u <;> simp [update, get_set, h]

end Table

end Lowering
