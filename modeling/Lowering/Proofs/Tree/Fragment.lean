import Lowering.Proofs.Tree.Evaluation
import Mathlib.Data.List.Forall2

/-!
# Fragments of programs

A list of actions is *closed* if its branches go to labels that it defines itself.  Inside
a larger program whose labels are all different, a closed list runs as it does alone, and
then what stands behind it is run.  So closed lists that stand one after another are run one
after another.

Tree code is deterministic: it ends in at most one way.

## Main definitions

* `Closed`, `marks` — closed lists, and the labels that a list defines.
* `Reaches.embed`, `Reaches.extract` — a closed list inside a program and alone.
* `runs_append` — closed lists one after another.
* `Evaluation.Functional`, `Stmt.functional_actions` — determinism.
-/

namespace Lowering

variable {program front c c₁ c₂ back rest rest' target : List Action} {l : Label} {m n : Nat}
  {s s' t u : TreeState}

/-- The label that an action defines. -/
def Action.label? : Action → Option Label
  | .mark l => some l
  | _ => none

/-- The labels that a list defines. -/
def marks (c : List Action) : List Label := c.filterMap Action.label?

@[simp] theorem marks_nil : marks [] = [] := rfl
@[simp] theorem marks_append : marks (c₁ ++ c₂) = marks c₁ ++ marks c₂ := List.filterMap_append
@[simp] theorem marks_mark : marks (.mark l :: c) = l :: marks c := rfl
@[simp] theorem marks_effect (run : Evaluation Unit) : marks (.effect run :: c) = marks c := rfl
@[simp] theorem marks_branch (choose : Evaluation Label) : marks (.branch choose :: c) = marks c :=
  rfl

/-- Every branch goes to a label that the list defines. -/
def Closed (c : List Action) : Prop :=
  ∀ choose, .branch choose ∈ c → ∀ s l t, choose s l t → l ∈ marks c

theorem closed_nil : Closed [] := fun _ h => by cases h

theorem closed_effect (run : Evaluation Unit) : Closed [.effect run] := by
  intro choose h
  simp at h

theorem Closed.append (h₁ : Closed c₁) (h₂ : Closed c₂) : Closed (c₁ ++ c₂) := by
  intro choose hmem s l t hl
  rw [marks_append, List.mem_append]
  rcases List.mem_append.1 hmem with hmem | hmem
  · exact .inl (h₁ choose hmem s l t hl)
  · exact .inr (h₂ choose hmem s l t hl)

/-! ## Where labels are -/

theorem landing_append_of_notMem (h : l ∉ marks c₁) :
    landing l (c₁ ++ c₂) = landing l c₂ := by
  induction c₁ with
  | nil => rfl
  | cons a c₁ ih =>
    cases a with
    | mark l' =>
      rw [marks_mark, List.mem_cons, not_or] at h
      rw [List.cons_append, landing, if_neg (Ne.symm h.1), ih h.2]
    | effect => exact ih h
    | branch => exact ih h

theorem landing_append (h : landing l c₁ = some target) :
    landing l (c₁ ++ c₂) = some (target ++ c₂) := by
  induction c₁ with
  | nil => cases h
  | cons a c₁ ih =>
    cases a with
    | mark l' =>
      rw [landing] at h
      rw [List.cons_append, landing]
      split
      · next hl =>
        rw [if_pos hl, Option.some.injEq] at h
        rw [h]
      · next hl =>
        rw [if_neg hl] at h
        exact ih h
    | effect => exact ih h
    | branch => exact ih h

theorem exists_landing (h : l ∈ marks c) : ∃ target, landing l c = some target := by
  induction c with
  | nil => cases h
  | cons a c ih =>
    cases a with
    | mark l' =>
      by_cases hl : l' = l
      · exact ⟨c, by rw [landing, if_pos hl]⟩
      · rw [landing, if_neg hl]
        exact ih ((List.mem_cons.1 h).resolve_left (Ne.symm hl))
    | effect => exact ih h
    | branch => exact ih h

/-- What is left behind a label is the end of the list, and the label stands in front. -/
theorem eq_append_of_landing (h : landing l c = some target) :
    ∃ front, c = front ++ .mark l :: target := by
  induction c with
  | nil => cases h
  | cons a c ih =>
    cases a with
    | mark l' =>
      rw [landing] at h
      split at h
      · next hl =>
        cases h
        exact ⟨[], by rw [hl]; rfl⟩
      · obtain ⟨front, hfront⟩ := ih h
        exact ⟨.mark l' :: front, by rw [hfront]; rfl⟩
    | effect run =>
      obtain ⟨front, hfront⟩ := ih h
      exact ⟨.effect run :: front, by rw [hfront]; rfl⟩
    | branch choose =>
      obtain ⟨front, hfront⟩ := ih h
      exact ⟨.branch choose :: front, by rw [hfront]; rfl⟩

theorem mem_marks_of_landing (h : landing l c = some target) : l ∈ marks c := by
  obtain ⟨front, rfl⟩ := eq_append_of_landing h
  simp

/-- A label of a part is found in that part, if all labels are different. -/
theorem landing_middle (hnodup : (marks (front ++ c ++ back)).Nodup)
    (h : landing l c = some target) : landing l (front ++ c ++ back) = some (target ++ back) := by
  rw [List.append_assoc, landing_append_of_notMem, landing_append h]
  intro hmem
  rw [List.append_assoc, marks_append, marks_append, List.nodup_append] at hnodup
  exact hnodup.2.2 l hmem l (List.mem_append_left _ (mem_marks_of_landing h)) rfl

/-! ## Runs -/

theorem Reaches.trans (h : Reaches program m rest s rest' t)
    (h' : Reaches program n rest' t target u) :
    Reaches program (m + n) rest s target u := by
  induction h with
  | refl => simpa using h'
  | mark _ ih =>
    rw [Nat.add_right_comm]
    exact .mark (ih h')
  | effect hrun _ ih =>
    rw [Nat.add_right_comm]
    exact .effect hrun (ih h')
  | branch hchoose hland _ ih =>
    rw [Nat.add_right_comm]
    exact .branch hchoose hland (ih h')

/-- A run of a list alone is a run inside a program. -/
theorem Reaches.embed (hnodup : (marks (front ++ c ++ back)).Nodup)
    (h : Reaches c n rest s rest' s') :
    Reaches (front ++ c ++ back) n (rest ++ back) s (rest' ++ back) s' := by
  induction h with
  | refl => exact .refl _ _
  | mark _ ih => exact .mark ih
  | effect hrun _ ih => exact .effect hrun ih
  | branch hchoose hland _ ih => exact .branch hchoose (landing_middle hnodup hland) ih

/-- A run that starts inside a closed list and ends well passes the end of the list. -/
theorem Reaches.extract (hc : Closed c) (hnodup : (marks (front ++ c ++ back)).Nodup)
    (h : Reaches (front ++ c ++ back) n (rest ++ back) s [] s') (hrest : rest <:+ c) :
    ∃ m k t, Reaches c m rest s [] t ∧ Reaches (front ++ c ++ back) k back t [] s' ∧
      m + k = n := by
  induction n using Nat.strongRecOn generalizing rest s with
  | ind n ih =>
    cases rest with
    | nil => exact ⟨0, n, s, .refl _ _, h, Nat.zero_add n⟩
    | cons a rest =>
      have hmem : a ∈ c := hrest.subset List.mem_cons_self
      have htail : rest <:+ c := (List.suffix_cons a rest).trans hrest
      cases h with
      | mark h =>
        obtain ⟨m, k, t, hm, hk, hmk⟩ := ih _ (Nat.lt_succ_self _) h htail
        exact ⟨m + 1, k, t, .mark hm, hk, by omega⟩
      | effect hrun h =>
        obtain ⟨m, k, t, hm, hk, hmk⟩ := ih _ (Nat.lt_succ_self _) h htail
        exact ⟨m + 1, k, t, .effect hrun hm, hk, by omega⟩
      | branch hchoose hland h =>
        -- The label belongs to the list itself, so the run stays inside.
        obtain ⟨target, htarget⟩ := exists_landing (hc _ hmem _ _ _ hchoose)
        rw [landing_middle hnodup htarget, Option.some.injEq] at hland
        rw [← hland] at h
        obtain ⟨front', hfront'⟩ := eq_append_of_landing htarget
        have hsuffix : target <:+ c :=
          ⟨front' ++ [.mark _], by rw [List.append_assoc]; exact hfront'.symm⟩
        obtain ⟨m, k, t, hm, hk, hmk⟩ := ih _ (Nat.lt_succ_self _) h hsuffix
        exact ⟨m + 1, k, t, .branch hchoose htarget hm, hk, by omega⟩

/-- **Closed lists are run one after another.** -/
theorem runs_append (h₁ : Closed c₁) (h₂ : Closed c₂) (hnodup : (marks (c₁ ++ c₂)).Nodup) :
    Runs (c₁ ++ c₂) s () s' ↔ ∃ t, Runs c₁ s () t ∧ Runs c₂ t () s' := by
  have hfirst : (marks ([] ++ c₁ ++ c₂)).Nodup := hnodup
  have hsecond : (marks (c₁ ++ c₂ ++ [])).Nodup := by rwa [List.append_nil]
  constructor
  · rintro ⟨n, h⟩
    obtain ⟨m, k, t, hm, hk, -⟩ := Reaches.extract h₁ hfirst h (List.suffix_refl c₁)
    have hk' : Reaches (c₁ ++ c₂ ++ []) k (c₂ ++ []) t [] s' := by simpa using hk
    obtain ⟨m', k', u, hm', hend, -⟩ := Reaches.extract h₂ hsecond hk' (List.suffix_refl c₂)
    cases hend
    exact ⟨t, ⟨m, hm⟩, ⟨m', hm'⟩⟩
  · rintro ⟨t, ⟨m, hm⟩, ⟨n, hn⟩⟩
    have hm' := hm.embed hfirst
    have hn' := hn.embed hsecond
    rw [List.append_nil, List.append_nil] at hn'
    exact ⟨m + n, hm'.trans hn'⟩

theorem runs_nil : Runs [] s () s' ↔ s' = s := by
  constructor
  · rintro ⟨n, h⟩
    cases h
    rfl
  · rintro rfl
    exact ⟨0, .refl _ _⟩

theorem runs_effect {run : Evaluation Unit} : Runs [.effect run] s () s' ↔ run s () s' := by
  constructor
  · rintro ⟨n, h⟩
    cases h with
    | effect hrun h =>
      cases h
      exact hrun
  · exact fun hrun => ⟨1, .effect hrun (.refl _ _)⟩

/-! ## Determinism -/

section Functional

variable {α β : Type} {e : Evaluation α} {r : Evaluation β} {run : Evaluation Unit}

/-- There is at most one value and one state that is left. -/
def Evaluation.Functional (e : Evaluation α) : Prop :=
  ∀ ⦃s a t b u⦄, e s a t → e s b u → a = b ∧ t = u

namespace Evaluation.Functional

theorem still (f : TreeState → α) : (Evaluation.still f).Functional := by
  rintro s a t b u ⟨rfl, rfl⟩ ⟨rfl, rfl⟩
  exact ⟨rfl, rfl⟩

theorem pair (h : e.Functional) (hr : r.Functional) : (e.pair r).Functional := by
  rintro s ⟨a, b⟩ t ⟨a', b'⟩ u ⟨v, he, hrest⟩ ⟨v', he', hrest'⟩
  obtain ⟨rfl, rfl⟩ := h he he'
  obtain ⟨rfl, rfl⟩ := hr hrest hrest'
  exact ⟨rfl, rfl⟩

theorem andThen (h : e.Functional) (f : α → TreeState → β × TreeState) :
    (e.andThen f).Functional := by
  rintro s b t b' u ⟨a, v, he, hf⟩ ⟨a', v', he', hf'⟩
  obtain ⟨rfl, rfl⟩ := h he he'
  rw [hf] at hf'
  exact Prod.mk.inj hf'

theorem select (h : e.Functional) (g : α → Option β) : (e.select g).Functional := by
  rintro s b t b' u ⟨a, he, hg⟩ ⟨a', he', hg'⟩
  obtain ⟨rfl, rfl⟩ := h he he'
  rw [hg] at hg'
  exact ⟨Option.some.inj hg', rfl⟩

theorem behind (h : run.Functional) (he : e.Functional) : (Evaluation.behind run e).Functional := by
  rintro s a t b u ⟨v, hrun, hv⟩ ⟨v', hrun', hv'⟩
  obtain ⟨-, rfl⟩ := h hrun hrun'
  exact he hv hv'

end Evaluation.Functional

/-- What the action does is determined by the state. -/
def Action.Functional : Action → Prop
  | .mark _ => True
  | .effect run => run.Functional
  | .branch choose => choose.Functional

theorem Reaches.functional (hc : ∀ a ∈ program, a.Functional) (hrest : rest ⊆ program)
    (h : Reaches program m rest s [] t) (h' : Reaches program n rest s [] u) : t = u := by
  induction m generalizing n rest s with
  | zero =>
    cases h
    cases h'
    rfl
  | succ m ih =>
    cases h with
    | mark h =>
      cases h' with
      | mark h' => exact ih (List.subset_of_cons_subset hrest) h h'
    | effect hrun h =>
      cases h' with
      | effect hrun' h' =>
        obtain ⟨-, rfl⟩ := hc _ (hrest List.mem_cons_self) hrun hrun'
        exact ih (List.subset_of_cons_subset hrest) h h'
    | branch hchoose hland h =>
      cases h' with
      | branch hchoose' hland' h' =>
        obtain ⟨rfl, rfl⟩ := hc _ (hrest List.mem_cons_self) hchoose hchoose'
        rw [hland, Option.some.injEq] at hland'
        subst hland'
        obtain ⟨front, hfront⟩ := eq_append_of_landing hland
        refine ih ?_ h h'
        rw [hfront]
        exact List.subset_append_of_subset_right _ (List.subset_cons_self _ _)

theorem functional_runs (hc : ∀ a ∈ c, a.Functional) : (Runs c).Functional := by
  rintro s a t b u ⟨m, h⟩ ⟨n, h'⟩
  exact ⟨rfl, h.functional hc (List.Subset.refl c) h'⟩

end Functional

mutual

theorem Expr.functional_means (W : World) : ∀ e : Expr, (e.means W).Functional
  | .const _ => .still _
  | .name _ => .still _
  | .temp _ => .still _
  | .binop _ lhs rhs => .andThen (.pair (lhs.functional_means W) (rhs.functional_means W)) _
  | .mem address => .andThen (address.functional_means W) _
  | .call function args =>
    .andThen (.pair (function.functional_means W) (Expr.functional_meansAll W args)) _
  | .eseq stmt value =>
    .behind (functional_runs (stmt.functional_actions W)) (value.functional_means W)
  termination_by structural e => e

theorem Expr.functional_meansAll (W : World) : ∀ es : List Expr, (Expr.meansAll W es).Functional
  | [] => .still _
  | e :: rest => .andThen (.pair (e.functional_means W) (Expr.functional_meansAll W rest)) _
  termination_by structural es => es

theorem Expr.functional_moves (W : World) : ∀ (target : Expr) {source : Evaluation Word},
    source.Functional → (Expr.moves W source target).Functional
  | .temp _, _, h => .andThen h _
  | .mem address, _, h => .andThen (.pair (address.functional_means W) h) _
  | .eseq stmt target, _, h =>
    .behind (functional_runs (stmt.functional_actions W)) (target.functional_moves W h)
  | .const _, _, _ => fun _ _ _ _ _ h => h.elim
  | .name _, _, _ => fun _ _ _ _ _ h => h.elim
  | .binop .., _, _ => fun _ _ _ _ _ h => h.elim
  | .call .., _, _ => fun _ _ _ _ _ h => h.elim
  termination_by structural target => target

theorem Branch.functional_means (W : World) : ∀ b : Branch, (b.means W).Functional
  | .jump target _ => .select (target.functional_means W) _
  | .cjump _ lhs rhs _ _ =>
    .andThen (.pair (lhs.functional_means W) (rhs.functional_means W)) _
  termination_by structural b => b

theorem Stmt.functional_actions (W : World) :
    ∀ stmt : Stmt, ∀ a ∈ stmt.actions W, a.Functional
  | .seq first second => fun a ha => by
    rw [Stmt.actions, List.mem_append] at ha
    rcases ha with ha | ha
    · exact first.functional_actions W a ha
    · exact second.functional_actions W a ha
  | .label _ => fun a ha => by
    cases List.mem_singleton.1 ha
    trivial
  | .move target source => fun a ha => by
    cases List.mem_singleton.1 ha
    exact target.functional_moves W (source.functional_means W)
  | .eval expr => fun a ha => by
    cases List.mem_singleton.1 ha
    exact .andThen (expr.functional_means W) _
  | .branch b => fun a ha => by
    cases List.mem_singleton.1 ha
    exact b.functional_means W
  termination_by structural s => s

end

end Lowering
