import Lowering.Temp
import Mathlib.Data.Finset.Card

/-!
# Counting temporaries

A `TempSet` as a `Finset`, so that sizes can be compared by inclusion.
-/

namespace Lowering.TempSet

/-- The members of a set are listed once each. -/
theorem nodup_toList (s : TempSet) : s.toList.Nodup := by
  refine List.Pairwise.imp ?_ (Std.ExtTreeSet.distinct_toList (t := s))
  rintro a b h rfl
  exact h Std.ReflOrd.compare_self

/-- A set of temporaries as a finite set. -/
def toFinset (s : TempSet) : Finset Temp := ⟨s.toList, nodup_toList s⟩

@[simp] theorem mem_toFinset {s : TempSet} {t : Temp} : t ∈ s.toFinset ↔ t ∈ s :=
  Std.ExtTreeSet.mem_toList

@[simp] theorem card_toFinset (s : TempSet) : s.toFinset.card = s.size :=
  Std.ExtTreeSet.length_toList

theorem size_le_of_subset {s s' : TempSet} (h : ∀ t ∈ s, t ∈ s') : s.size ≤ s'.size := by
  rw [← card_toFinset, ← card_toFinset]
  exact Finset.card_le_card fun t ht => mem_toFinset.2 (h t (mem_toFinset.1 ht))

theorem size_lt_of_subset {s s' : TempSet} (h : ∀ t ∈ s, t ∈ s') (hne : s ≠ s') :
    s.size < s'.size := by
  rw [← card_toFinset, ← card_toFinset]
  refine Finset.card_lt_card ⟨fun t ht => mem_toFinset.2 (h t (mem_toFinset.1 ht)), fun hsub => ?_⟩
  refine hne (Std.ExtTreeSet.ext_mem fun t => ⟨h t, fun ht => ?_⟩)
  exact mem_toFinset.1 (hsub (mem_toFinset.2 ht))

/-- A set whose members come from a list is no larger than the list. -/
theorem size_le_length {s : TempSet} {ts : List Temp} (h : ∀ t ∈ s, t ∈ ts) :
    s.size ≤ ts.length := by
  rw [← card_toFinset]
  refine le_trans (Finset.card_le_card fun t ht => ?_) (List.toFinset_card_le ts)
  exact List.mem_toFinset.2 (h t (mem_toFinset.1 ht))

end Lowering.TempSet
