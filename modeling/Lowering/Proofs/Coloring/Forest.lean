import Lowering.Proofs.Coloring.Hosts

/-!
# Merged nodes form a forest

Every merge points from the node that is given up to the one that stays.  A node is merged once, as
long as it is in the graph, and into another one that is in the graph as well.  So a new pointer
never leads back: from every node there is one way to go, and it ends at the leader of the node.
Looking up a leader lets the nodes on the way point to its end, which shortens ways but makes no
new ones.

Colouring stops after a bounded number of steps, since each lowers what is left to do.

## Main definitions

* `Coloring.Forest` — there is one way to go from every node, and no circle.
* `Coloring.LooksUp` — looking up a leader returns it and keeps the forest.
* `Coloring.Sound.forest`, `Coloring.Sound.looksUp` — both hold throughout.
* `color_stops_with_forest` — the main result.
-/

namespace Lowering

namespace Coloring

open Relation

variable {s : Coloring}

/-! ## Pointers -/

/-- Pointers form a forest with leaders as its roots. -/
structure Forest (s : Coloring) : Prop where
  /-- A node points to one other only. -/
  unique : Relator.RightUnique s.aliases.Points
  acyclic : ∀ t, ¬TransGen s.aliases.Points t t
  merged : ∀ t, s.status t = .coalesced ↔ ∃ u, s.aliases.Points t u
  path : ∀ t, ReflTransGen s.aliases.Points t (s.leader t)

/-- A merged node is one that points to another. -/
theorem Sound.coalesced_iff (h : s.Sound) (t : Temp) :
    s.status t = .coalesced ↔ ∃ u, s.aliases.Points t u := by
  rw [Aliases.exists_points_iff, ne_eq, ← h.linked.ends.root_eq_self_iff]
  constructor
  · intro ht (hself : s.leader t = t)
    have hroot := h.linked.leader_status t
    rw [hself] at hroot
    exact hroot ht
  · intro hne
    by_contra ht
    exact hne (h.linked.leader_self t ht)

/-- **What holds throughout makes pointers a forest.** -/
theorem Sound.forest (h : s.Sound) : s.Forest where
  unique := s.aliases.rightUnique_points
  acyclic := h.linked.ends.acyclic
  merged := h.coalesced_iff
  path := s.aliases.reflTransGen_root

/-- The way from a node ends at its leader. -/
theorem Forest.reaches_root_iff (h : s.Sound) (hf : s.Forest) (t r : Temp) :
    ReflTransGen s.aliases.Points t r ∧ s.status r ≠ .coalesced ↔ r = s.leader t := by
  have hend : ∀ {a b : Temp}, s.status a ≠ .coalesced → ReflTransGen s.aliases.Points a b →
      a = b := by
    intro a b ha hab
    rcases hab.cases_head with heq | ⟨c, hac, -⟩
    · exact heq
    · exact absurd ((hf.merged a).2 ⟨c, hac⟩) ha
  constructor
  · rintro ⟨hr, hroot⟩
    rcases hr.total_of_right_unique hf.unique (hf.path t) with hway | hway
    · exact hend hroot hway
    · exact (hend (h.linked.leader_status t) hway).symm
  · rintro rfl
    exact ⟨hf.path t, h.linked.leader_status t⟩

/-! ## Looking up -/

/-- Looking up the leader of `t` returns it and leaves `s'`. -/
structure LooksUp (s : Coloring) (t : Temp) (s' : Coloring) : Prop where
  find : s.find t = (s.leader t, s')
  /-- The bound on the way is not met. -/
  finds : s.aliases.Finds t (s.leader t) s'.aliases
  /-- What is returned was not merged. -/
  root : s.status (s.leader t) ≠ .coalesced
  /-- Nothing but pointers is changed, which form a forest with the same leaders. -/
  same : s' = { s with aliases := s'.aliases }
  forest : s'.Forest
  leader : ∀ u, s'.leader u = s.leader u

/-- **Looking up returns a root and keeps the forest.** -/
theorem Sound.looksUp (h : s.Sound) (t : Temp) : ∃ s', s.LooksUp t s' := by
  have hshort := h.linked.ends.find t
  have hminor := minor_aliases hshort
  exact ⟨{ s with aliases := (s.aliases.find t).2 }, rfl, h.linked.ends.finds_iff.2 rfl,
    h.linked.leader_status t, rfl, (h.minor hminor rfl rfl h.fits).forest, hminor.leader⟩

/-- Looking up nodes one after another gives their leaders, and what holds throughout still does,
with the same leaders. -/
theorem Sound.findAll (h : s.Sound) (ts : List Temp) :
    (s.findAll ts).1 = ts.map s.leader ∧ (s.findAll ts).2.Sound ∧
      ∀ u, (s.findAll ts).2.leader u = s.leader u := by
  obtain ⟨p, hp, heq⟩ := findAll_eq h.linked.ends ts
  have hminor := minor_aliases hp
  rw [heq]
  exact ⟨rfl, h.minor hminor rfl rfl h.fits, hminor.leader⟩

/-! ## Runs -/

section

variable {palette : List Temp} (unspillable : TempSet) {g : Interference}
  (hg : g.WellFormed) (hends : ∀ m ∈ g.moves, ∀ t, t = m.dst ∨ t = m.src → t ∈ g.nodes)

include hg hends

theorem sound_runSteps (n : Nat) : (runSteps n (start palette unspillable g)).Sound :=
  runSteps_induction (fun _ _ h hs => h.step hs) n
    ((starts_start palette unspillable g).sound hg hends)

end

theorem nodes_runSteps (h : s.Sound) (n : Nat) : (runSteps n s).graph.nodes = s.graph.nodes := by
  refine (runSteps_induction (P := fun s' => s'.Sound ∧ s'.graph.nodes = s.graph.nodes) ?_ n
    ⟨h, rfl⟩).2
  rintro s₁ s₂ ⟨h₁, hnodes⟩ hs
  exact ⟨h₁.step hs, (h₁.follows hs).nodes.trans hnodes⟩

/-- Steps are taken as long as there is one, and then no more. -/
theorem exists_runSteps_stops {bound : Nat} (h : (runSteps bound s).step? = none) :
    ∃ n ≤ bound, (∀ m < n, (runSteps m s).step?.isSome = true) ∧
      (runSteps n s).step? = none ∧ runSteps bound s = runSteps n s := by
  induction bound generalizing s with
  | zero => exact ⟨0, Nat.le_refl 0, fun m hm => absurd hm (Nat.not_lt_zero m), h, rfl⟩
  | succ bound ih =>
    cases hs : s.step? with
    | none =>
      refine ⟨0, Nat.zero_le _, fun m hm => absurd hm (Nat.not_lt_zero m), hs, ?_⟩
      simp [runSteps, hs]
    | some s' =>
      have hnext : ∀ m, runSteps (m + 1) s = runSteps m s' := fun m => by rw [runSteps, hs]
      rw [hnext] at h ⊢
      obtain ⟨n, hle, htaken, hstop, heq⟩ := ih h
      refine ⟨n + 1, Nat.succ_le_succ hle, fun m hm => ?_, by rw [hnext, hstop], by rw [hnext, heq]⟩
      cases m with
      | zero => simp [runSteps, hs]
      | succ m =>
        rw [hnext]
        exact htaken m (Nat.lt_of_succ_lt_succ hm)

end Coloring

open Coloring

/-- **Colouring stops, and pointers form a forest throughout.**  After a bounded number of steps
none is left, and then every virtual node was taken out or merged.  After any number of steps there
is one way to go from every node, on which no node is met again, and its end is the leader of the
node: the only node on it that was not merged.  Looking it up, without a bound on the way, returns
this node, and lets nodes point to it so that all of this still holds, also behind any number of
such looks. -/
theorem color_stops_with_forest (palette within : List Temp) (unspillable : TempSet)
    (code : List Instr) (flow : Flow) (pairs : List (Temp × Temp)) :
    let g := (roundGraph within code flow).connect pairs
    let s := start palette unspillable g
    (∃ n ≤ s.bound, (∀ m < n, (runSteps m s).step?.isSome = true) ∧
      (runSteps n s).step? = none ∧ s.run = runSteps n s ∧
      ∀ t ∈ g.nodes, t.isRegister = false →
        (runSteps n s).status t = .onStack ∨ (runSteps n s).status t = .coalesced) ∧
    ∀ n, (runSteps n s).Forest ∧
      (∀ t r, Relation.ReflTransGen (runSteps n s).aliases.Points t r ∧
        (runSteps n s).status r ≠ .coalesced ↔ r = (runSteps n s).leader t) ∧
      ∀ ts, ((runSteps n s).findAll ts).1 = ts.map (runSteps n s).leader ∧
        (∀ u, ((runSteps n s).findAll ts).2.leader u = (runSteps n s).leader u) ∧
        ∀ t, ∃ s', ((runSteps n s).findAll ts).2.LooksUp t s' := by
  intro g s
  have hg : g.WellFormed := (wellFormed_roundGraph within code flow).connect pairs
  have hends : ∀ m ∈ g.moves, ∀ t, t = m.dst ∨ t = m.src → t ∈ g.nodes := fun m hm t ht =>
    ((movesWithin_roundGraph within code flow).connect pairs m hm t ht).1
  have hsound : ∀ n, (runSteps n s).Sound := sound_runSteps unspillable hg hends
  have hstart : s.Sound := hsound 0
  refine ⟨?stops, fun n => ⟨(hsound n).forest, (hsound n).forest.reaches_root_iff (hsound n),
    fun ts => ?looks⟩⟩
  case stops =>
    obtain ⟨n, hle, htaken, hstop, heq⟩ := exists_runSteps_stops hstart.step?_run
    refine ⟨n, hle, htaken, hstop, heq, fun t ht hv => ?_⟩
    have hnodes : (runSteps n s).graph.nodes = g.nodes := by
      rw [nodes_runSteps hstart, (starts_start palette unspillable g).graph]
    have hgone := (hsound n).isPresent_eq_false hstop (hnodes.symm ▸ ht) hv
    simpa [isPresent, Classical.or_iff_not_imp_left] using hgone
  case looks =>
    obtain ⟨hroots, hsound', hleader⟩ := (hsound n).findAll ts
    exact ⟨hroots, hleader, hsound'.looksUp⟩

end Lowering
