import Lowering.Coloring.Aliases
import Mathlib.Logic.Relation

/-!
# Pointers form a forest

`Aliases.Ends` says that the way from every node comes to an end within the bound that a look-up
has.  Two changes keep it.  Pointing from one end to another hands on all nodes that came to the
first.  Pointing from a node to the end of its way, as a look-up does, changes no end at all.

`Aliases.Finds` is the look-up without a bound: it goes on as long as there is a pointer.  Under
`Ends` it returns for every node, and returns what the bounded one does.

## Main definitions

* `Aliases.Ends` — every way comes to an end.
* `Aliases.Ends.redirect`, `Aliases.Ends.find` — a merge and a look-up keep this.
* `Aliases.Shortens` — what look-ups do: all ways end where they did.
* `Aliases.Finds`, `Aliases.Ends.finds_iff` — the look-up without a bound.
* `Aliases.Points`, `Aliases.Ends.acyclic` — pointers do not run in a circle.
-/

namespace Lowering.Aliases

open Relation

variable {p q : Aliases} {t u v : Temp} {n m : Nat}

/-- Every way ends within as many parts as there are pointers, and no pointer that is kept leads
from a node to itself. -/
structure Ends (p : Aliases) : Prop where
  target_root : ∀ t, p.target (p.root t) = p.root t
  proper : ∀ t ∈ p.targets, p.target t ≠ t

/-- Every way comes to an end, and to the same one as before. -/
structure Shortens (p q : Aliases) : Prop where
  ends : q.Ends
  root : ∀ t, q.root t = p.root t

theorem Ends.shortens (h : p.Ends) : p.Shortens p := ⟨h, fun _ => rfl⟩

theorem Shortens.trans {r : Aliases} (h : p.Shortens q) (h' : q.Shortens r) : p.Shortens r :=
  ⟨h'.ends, fun t => (h'.root t).trans (h.root t)⟩

/-! ## Going on -/

theorem follow_of_target_eq (h : p.target t = t) (n : Nat) : p.follow n t = (t, p) := by
  cases n with
  | zero => rfl
  | succ n => simp [follow, h]

theorem follow_succ (h : p.target t ≠ t) (n : Nat) :
    p.follow (n + 1) t = ((p.follow n (p.target t)).1,
      (p.follow n (p.target t)).2.point t (p.follow n (p.target t)).1) := by
  simp [follow, h]

theorem follow_succ_fst (h : p.target t ≠ t) (n : Nat) :
    (p.follow (n + 1) t).1 = (p.follow n (p.target t)).1 := by
  rw [follow_succ h]

/-- A way that has ended does not get longer. -/
theorem follow_fst_of_le (h : p.target (p.follow n t).1 = (p.follow n t).1) (hle : n ≤ m) :
    (p.follow m t).1 = (p.follow n t).1 := by
  induction n generalizing m t with
  | zero => exact congrArg Prod.fst (follow_of_target_eq h m)
  | succ n ih =>
    by_cases ht : p.target t = t
    · rw [follow_of_target_eq ht, follow_of_target_eq ht]
    · obtain ⟨m, rfl⟩ : ∃ k, m = k + 1 := ⟨m - 1, by omega⟩
      rw [follow_succ_fst ht] at h ⊢
      rw [follow_succ_fst ht]
      exact ih h (by omega)

theorem mem_targets (h : p.target t ≠ t) : t ∈ p.targets :=
  Classical.byContradiction fun hmem => h (Std.TreeMap.getD_eq_fallback hmem)

theorem root_of_target_eq (h : p.target t = t) : p.root t = t := by
  rw [root, find, follow_of_target_eq h]

theorem target_initial (t : Temp) : initial.target t = t := by
  simp [target, initial]

theorem ends_initial : initial.Ends where
  target_root t := target_initial _
  proper t ht := absurd ht (by simp [initial])

namespace Ends

theorem root_eq_self_iff (h : p.Ends) (t : Temp) : p.root t = t ↔ p.target t = t :=
  ⟨fun ht => ht ▸ h.target_root t, root_of_target_eq⟩

/-- Where a way has ended, there is the root. -/
theorem follow_fst_eq_root (h : p.Ends) (hn : p.target (p.follow n t).1 = (p.follow n t).1) :
    (p.follow n t).1 = p.root t := by
  rcases Nat.le_total n p.targets.size with hle | hle
  · exact (follow_fst_of_le hn hle).symm
  · exact follow_fst_of_le (h.target_root t) hle

/-! ## A merge -/

theorem proper_point (h : p.Ends) (hne : u ≠ v) :
    ∀ t ∈ (p.point v u).targets, (p.point v u).target t ≠ t := by
  intro t ht
  rw [target_point]
  split
  · next heq => exact heq ▸ hne
  · next hvt =>
    refine h.proper t ?_
    simpa [point, Std.TreeMap.mem_insert, hvt] using ht

section

variable (hv : p.target v = v) (hu : p.target u = u) (hne : u ≠ v)

include hv hu hne

/-- Pointing from one end to another makes the ways to the first longer by one. -/
theorem follow_point_root (hn : p.target (p.follow n t).1 = (p.follow n t).1) :
    ((p.point v u).follow (n + 1) t).1 =
      if (p.follow n t).1 = v then u else (p.follow n t).1 := by
  have hu' : (p.point v u).target u = u := by rw [target_point, if_neg hne.symm, hu]
  -- The way from an end: one part if it is the one that points on now, else none.
  have hend : ∀ t n, p.target t = t →
      ((p.point v u).follow (n + 1) t).1 = if t = v then u else t := by
    intro t n ht
    by_cases htv : t = v
    · have htarget : (p.point v u).target v = u := by rw [target_point, if_pos rfl]
      rw [htv, if_pos rfl, follow_succ_fst (by rwa [htarget]), htarget,
        follow_of_target_eq hu']
    · have htarget : (p.point v u).target t = t := by rw [target_point, if_neg (Ne.symm htv), ht]
      rw [if_neg htv, follow_of_target_eq htarget]
  induction n generalizing t with
  | zero => exact hend t 0 hn
  | succ n ih =>
    by_cases ht : p.target t = t
    · rw [follow_of_target_eq ht]
      exact hend t (n + 1) ht
    · have htv : v ≠ t := fun heq => ht (heq ▸ hv)
      have htarget : (p.point v u).target t = p.target t := by rw [target_point, if_neg htv]
      rw [follow_succ_fst ht] at hn ⊢
      rw [follow_succ_fst (htarget ▸ ht), htarget]
      exact ih hn

theorem root_redirect (h : p.Ends) (t : Temp) :
    (p.point v u).root t = if p.root t = v then u else p.root t := by
  have hsize : (p.point v u).targets.size = p.targets.size + 1 := by
    have hmem : v ∉ p.targets := fun hmem => h.proper v hmem hv
    simp [point, Std.TreeMap.size_insert, hmem]
  rw [root, find, hsize]
  exact follow_point_root hv hu hne (h.target_root t)

theorem redirect (h : p.Ends) : (p.point v u).Ends where
  target_root t := by
    rw [root_redirect hv hu hne h, target_point]
    split
    · rw [if_neg hne.symm, hu]
    · next hroot => rw [if_neg (Ne.symm hroot), h.target_root]
  proper := h.proper_point hne

end

/-! ## A look-up -/

section

variable (h : p.Ends) (hv : p.target v ≠ v)

include h hv

theorem follow_point_self (hn : p.target (p.follow n t).1 = (p.follow n t).1) :
    ((p.point v (p.root v)).follow n t).1 = (p.follow n t).1 := by
  have hne : p.root v ≠ v := mt (h.root_eq_self_iff v).1 hv
  have hroot : (p.point v (p.root v)).target (p.root v) = p.root v := by
    rw [target_point, if_neg hne.symm, h.target_root]
  induction n generalizing t with
  | zero => rfl
  | succ n ih =>
    by_cases ht : p.target t = t
    · have htv : v ≠ t := fun heq => hv (heq ▸ ht)
      rw [follow_of_target_eq ht, follow_of_target_eq]
      rw [target_point, if_neg htv, ht]
    · by_cases htv : v = t
      · subst htv
        have htarget : (p.point v (p.root v)).target v = p.root v := by
          rw [target_point, if_pos rfl]
        rw [follow_succ_fst (htarget.symm ▸ hne), htarget, follow_of_target_eq hroot]
        exact (h.follow_fst_eq_root hn).symm
      · have htarget : (p.point v (p.root v)).target t = p.target t := by
          rw [target_point, if_neg htv]
        rw [follow_succ_fst ht] at hn ⊢
        rw [follow_succ_fst (htarget ▸ ht), htarget]
        exact ih hn

private theorem root_point_root (t : Temp) : (p.point v (p.root v)).root t = p.root t := by
  have hsize : (p.point v (p.root v)).targets.size = p.targets.size := by
    simp [point, Std.TreeMap.size_insert, mem_targets hv]
  rw [root, find, hsize]
  exact follow_point_self h hv (h.target_root t)

/-- **Pointing from a node to the end of its way keeps all ends.** -/
theorem point_root : p.Shortens (p.point v (p.root v)) where
  ends :=
    { target_root := fun t => by
        have hne : v ≠ p.root t := fun heq => hv (heq ▸ h.target_root t)
        rw [root_point_root h hv, target_point, if_neg hne, h.target_root]
      proper := h.proper_point (mt (h.root_eq_self_iff v).1 hv) }
  root := root_point_root h hv

end

/-- Every pointer that a look-up changes is changed to the end of its way. -/
theorem follow (h : p.Ends) (hn : p.target (p.follow n t).1 = (p.follow n t).1) :
    p.Shortens (p.follow n t).2 := by
  induction n generalizing t with
  | zero => exact h.shortens
  | succ n ih =>
    by_cases ht : p.target t = t
    · rw [follow_of_target_eq ht]
      exact h.shortens
    · have hroot := h.follow_fst_eq_root hn
      rw [follow_succ_fst ht] at hn hroot
      rw [follow_succ ht]
      have hq := ih hn
      generalize (p.follow n (p.target t)).2 = q at hq
      have htq : q.target t ≠ t := by
        rw [Ne, ← hq.ends.root_eq_self_iff, hq.root, h.root_eq_self_iff]
        exact ht
      rw [hroot, ← hq.root]
      exact hq.trans (hq.ends.point_root htq)

/-- **A look-up keeps all ends.** -/
theorem find (h : p.Ends) (t : Temp) : p.Shortens (p.find t).2 := h.follow (h.target_root t)

end Ends

/-! ## Without a bound -/

/-- A look-up that goes on as long as there is a pointer: `Finds p t r q` says that the one for
`t` returns `r` and leaves `q`. -/
inductive Finds (p : Aliases) : Temp → Temp → Aliases → Prop
  | root {t : Temp} (h : p.target t = t) : Finds p t t p
  | step {t r : Temp} {q : Aliases} (h : p.target t ≠ t) (rest : Finds p (p.target t) r q) :
    Finds p t r (q.point t r)

theorem Finds.eq {r r' : Temp} {q q' : Aliases} (h : p.Finds t r q) (h' : p.Finds t r' q') :
    r = r' ∧ q = q' := by
  induction h generalizing r' q' with
  | root ht =>
    cases h' with
    | root => exact ⟨rfl, rfl⟩
    | step ht' => exact absurd ht ht'
  | step ht _ ih =>
    cases h' with
    | root ht' => exact absurd ht' ht
    | step _ rest =>
      obtain ⟨rfl, rfl⟩ := ih rest
      exact ⟨rfl, rfl⟩

theorem finds_follow (h : p.target (p.follow n t).1 = (p.follow n t).1) :
    p.Finds t (p.follow n t).1 (p.follow n t).2 := by
  induction n generalizing t with
  | zero => exact .root h
  | succ n ih =>
    by_cases ht : p.target t = t
    · rw [follow_of_target_eq ht]
      exact .root ht
    · rw [follow_succ_fst ht] at h
      rw [follow_succ ht]
      exact .step ht (ih h)

/-- **The bound of a look-up is never met**: without it, the look-up returns too, and returns the
same. -/
theorem Ends.finds_iff (h : p.Ends) {r : Temp} : p.Finds t r q ↔ p.find t = (r, q) := by
  have hfinds : p.Finds t (p.find t).1 (p.find t).2 := finds_follow (h.target_root t)
  constructor
  · intro hr
    obtain ⟨hfst, hsnd⟩ := hfinds.eq hr
    exact Prod.ext hfst hsnd
  · intro heq
    rwa [heq] at hfinds

/-! ## The forest -/

/-- A node points to another. -/
def Points (p : Aliases) (a b : Temp) : Prop := p.target a = b ∧ a ≠ b

theorem rightUnique_points (p : Aliases) : Relator.RightUnique p.Points :=
  fun _ _ _ hb hc => hb.1.symm.trans hc.1

theorem exists_points_iff : (∃ u, p.Points t u) ↔ p.target t ≠ t :=
  ⟨fun ⟨_, hu, hne⟩ => hu ▸ hne.symm, fun h => ⟨_, rfl, h.symm⟩⟩

theorem reflTransGen_follow (p : Aliases) (n : Nat) (t : Temp) :
    ReflTransGen p.Points t (p.follow n t).1 := by
  induction n generalizing t with
  | zero => exact .refl
  | succ n ih =>
    by_cases ht : p.target t = t
    · rw [follow_of_target_eq ht]
    · rw [follow_succ_fst ht]
      exact .head ⟨rfl, Ne.symm ht⟩ (ih _)

theorem reflTransGen_root (p : Aliases) (t : Temp) : ReflTransGen p.Points t (p.root t) :=
  reflTransGen_follow p _ t

/-- **Pointers do not run in a circle.**  From a circle there is no way out, since there is one way
to go from each of its nodes; but the way from every node has an end. -/
theorem Ends.acyclic (h : p.Ends) (t : Temp) : ¬TransGen p.Points t t := by
  intro ht
  have hstays : ∀ x, ReflTransGen p.Points t x → TransGen p.Points x x := by
    intro x hx
    induction hx with
    | refl => exact ht
    | tail _ hxy ih =>
      obtain ⟨c, hxc, hcx⟩ := TransGen.head'_iff.1 ih
      rw [p.rightUnique_points hxc hxy] at hcx
      exact .tail' hcx hxy
  obtain ⟨c, hc, -⟩ := TransGen.head'_iff.1 (hstays _ (p.reflTransGen_root t))
  exact exists_points_iff.1 ⟨c, hc⟩ (h.target_root t)

end Lowering.Aliases
