import Lowering.Proofs.Coloring.Change
import Lowering.Proofs.Interference

/-!
# Counting the neighbours that are left

The degree of a virtual node in the graph is the number of its neighbours in the graph.
While a node is taken out, the degrees of its neighbours are lowered one after another;
`Counts` says which of them are still one too high.

## Main definitions

* `Coloring.remaining` — the neighbours of a node that are still in the graph.
* `Coloring.Counts` — the degrees are right, but for some that are pending.
* `Coloring.absorb`, `Coloring.Absorbed` — handing neighbours on to another node.
-/

namespace Lowering.Coloring

variable {s s' : Coloring} {t u v : Temp} {ps : List Temp}

/-- The neighbours of a node that are left. -/
def remaining (s : Coloring) (t : Temp) : Finset Temp :=
  (s.graph.neighboursOf t).toFinset.filter fun u => s.isPresent u = true

@[simp] theorem mem_remaining : u ∈ s.remaining t ↔ u ∈ s.graph.neighboursOf t ∧
    s.isPresent u = true := by
  rw [remaining, Finset.mem_filter, TempSet.mem_toFinset]

@[simp] theorem mem_adjacent : u ∈ s.adjacent t ↔ u ∈ s.graph.neighboursOf t ∧
    s.isPresent u = true := by
  rw [adjacent, List.mem_filter, Std.ExtTreeSet.mem_toList]

theorem nodup_adjacent (s : Coloring) (t : Temp) : (s.adjacent t).Nodup :=
  (TempSet.nodup_toList _).filter _

theorem remaining_congr (hgraph : s'.graph = s.graph) (h : ∀ t, s'.isPresent t = s.isPresent t)
    (t : Temp) : s'.remaining t = s.remaining t := by
  ext u
  simp [hgraph, h]

/-- The degree of a virtual node in the graph is the number of its neighbours that are
left, and one more for each time that it is pending. -/
def Counts (s : Coloring) (ps : List Temp) : Prop :=
  ∀ t, t.isRegister = false → s.isPresent t = true →
    s.degree t = (s.remaining t).card + ps.count t

theorem Counts.congr (h : s.Counts ps) (hgraph : s'.graph = s.graph)
    (hpresent : ∀ t, s'.isPresent t = s.isPresent t) (hdegrees : s'.degrees = s.degrees) :
    s'.Counts ps := by
  intro t ht hp
  rw [remaining_congr hgraph hpresent, degree, hdegrees]
  exact h t ht (hpresent t ▸ hp)

/-- When a node leaves the graph, the degrees of its neighbours are too high. -/
theorem Counts.leave (h : s.Counts []) (hgraph : s.graph.WellFormed) (hv : v.isRegister = false)
    (hpresent : s.isPresent v = true) {status : Status}
    (hstatus : status = .onStack ∨ status = .coalesced) :
    (s.setStatus v status).Counts ((s.setStatus v status).adjacent v) := by
  have hleft : ∀ u, (s.setStatus v status).isPresent u = true ↔ s.isPresent u = true ∧ u ≠ v := by
    intro u
    simp only [isPresent, status_setStatus]
    by_cases hu : v = u
    · rcases hstatus with rfl | rfl <;> simp [hu]
    · simp [hu, Ne.symm hu]
  intro t ht hp
  obtain ⟨hp, hne⟩ := (hleft t).1 hp
  have hrest : (s.setStatus v status).remaining t = (s.remaining t).erase v := by
    ext u
    simp only [mem_remaining, Finset.mem_erase, hleft]
    exact ⟨fun hu => ⟨hu.2.2, hu.1, hu.2.1⟩, fun hu => ⟨hu.2.1, hu.2.2, hu.1⟩⟩
  have hdegree : (s.setStatus v status).degree t = (s.remaining t).card := h t ht hp
  rw [hdegree, hrest]
  by_cases hadj : v ∈ s.graph.neighboursOf t
  · have hmem : v ∈ s.remaining t := mem_remaining.2 ⟨hadj, hpresent⟩
    have hpending : t ∈ (s.setStatus v status).adjacent v :=
      mem_adjacent.2 ⟨hgraph.symm hadj hv, (hleft t).2 ⟨hp, hne⟩⟩
    rw [List.count_eq_one_of_mem (nodup_adjacent _ v) hpending, Finset.card_erase_of_mem hmem]
    have := Finset.card_pos.2 ⟨v, hmem⟩
    omega
  · have hpending : t ∉ (s.setStatus v status).adjacent v := fun hmem =>
      hadj (hgraph.symm (mem_adjacent.1 hmem).1 ht)
    rw [List.count_eq_zero_of_not_mem hpending,
      Finset.erase_eq_of_notMem fun hmem => hadj (mem_remaining.1 hmem).1, Nat.add_zero]

/-- Lowering a degree that is pending. -/
theorem Counts.decrementDegree (h : s.Counts (t :: ps)) : (s.decrementDegree t).Counts ps := by
  intro u hu hp
  have hminor := minor_decrementDegree s t
  rw [hminor.isPresent] at hp
  rw [remaining_congr (graph_decrementDegree s t) hminor.isPresent, degree_decrementDegree s t u hu,
    h u hu hp, List.count_cons]
  by_cases htu : t = u
  · simp [htu]
  · simp [htu]

/-- The degrees after lowering the pending ones are right. -/
theorem Counts.foldl_decrementDegree (h : s.Counts ps) :
    (ps.foldl Coloring.decrementDegree s).Counts [] := by
  induction ps generalizing s with
  | nil => exact h
  | cons t ps ih => exact ih h.decrementDegree

theorem Counts.pos (h : s.Counts (t :: ps)) (ht : t.isRegister = false)
    (hp : s.isPresent t = true) : 0 < s.degree t := by
  rw [h t ht hp, List.count_cons_self]
  omega

/-- Lowering the pending degrees moves nodes to where they fit. -/
theorem Counts.fits_foldl (h : s.Counts ps) (hps : ∀ t ∈ ps, s.isPresent t = true)
    (hfits : ∀ t, s.Fits t) (t : Temp) : (ps.foldl Coloring.decrementDegree s).Fits t := by
  induction ps generalizing s with
  | nil => exact hfits t
  | cons u ps ih =>
    have hp : ∀ t ∈ ps, (s.decrementDegree u).isPresent t = true := by
      intro t ht
      rw [(minor_decrementDegree s u).isPresent]
      exact hps t (List.mem_cons_of_mem u ht)
    refine ih h.decrementDegree hp fun x => ?_
    by_cases hx : u = x
    · subst hx
      cases hr : u.isRegister with
      | true =>
        rcases decrementDegree_cases s u with ⟨-, heq⟩ | ⟨hv, -⟩ | ⟨hv, -⟩
        · rw [heq]
          exact hfits u
        · simp [hr] at hv
        · simp [hr] at hv
      | false =>
        exact fits_decrementDegree hr (hfits u) (.inl rfl) (h.pos hr (hps u List.mem_cons_self))
    · exact (hfits x).decrementDegree_of_ne hx

/-! ## New edges -/

theorem graph_addEdge (s : Coloring) (a b : Temp) :
    (s.addEdge a b).graph = s.graph.addEdge a b := by
  unfold addEdge Interference.addEdge
  split <;> rfl

theorem degree_addEdge (s : Coloring) (a b x : Temp) : (s.addEdge a b).degree x =
    if (a ≠ b ∧ s.graph.adjacent a b = false) ∧ x.isRegister = false ∧ (x = a ∨ x = b) then
      s.degree x + 1 else s.degree x := by
  have hcount : ∀ (t : Temp) (tab : Table Nat),
      (if t.isRegister = true then tab else tab.update t (· + 1)).get x =
        if x.isRegister = false ∧ x = t then tab.get x + 1 else tab.get x := by
    intro t tab
    by_cases hxt : x = t
    · subst hxt
      cases hr : x.isRegister <;> simp [Table.get_update]
    · cases t.isRegister <;> simp [Table.get_update, hxt, Ne.symm hxt]
  unfold addEdge
  by_cases hnew : a ≠ b ∧ s.graph.adjacent a b = false
  · have hcond : ¬(decide (a = b) || s.graph.adjacent a b) = true := by simp [hnew]
    rw [if_neg hcond]
    simp only [degree, hcount]
    by_cases hxa : x = a
    · subst hxa
      cases hr : x.isRegister <;> simp [hnew]
    · by_cases hxb : x = b
      · subst hxb
        cases hr : x.isRegister <;> simp [hnew, hxa]
      · simp [hxa, hxb]
  · have hcond : (decide (a = b) || s.graph.adjacent a b) = true := by
      by_cases hab : a = b
      · simp [hab]
      · simpa [hab] using hnew
    rw [if_pos hcond, if_neg fun h => hnew h.1]

/-- A new edge counts on both sides. -/
theorem Counts.addEdge (h : s.Counts ps) (hgraph : s.graph.WellFormed) (ht : s.isPresent t = true)
    (hu : s.isPresent u = true) : (s.addEdge t u).Counts ps := by
  intro x hx hp
  have hpresent := (minor_addEdge s t u).isPresent
  rw [hpresent] at hp
  have hmem : ∀ y, y ∈ (s.addEdge t u).remaining x ↔ y ∈ s.remaining x ∨
      (t ≠ u ∧ (x = t ∧ y = u ∨ x = u ∧ y = t)) := by
    intro y
    simp only [mem_remaining, graph_addEdge, hgraph.mem_neighboursOf_addEdge, hpresent, hx,
      true_and]
    constructor
    · rintro ⟨hy | hy, hpy⟩
      · exact .inl ⟨hy, hpy⟩
      · exact .inr hy
    · rintro (⟨hy, hpy⟩ | ⟨hne, ⟨rfl, rfl⟩ | ⟨rfl, rfl⟩⟩)
      · exact ⟨.inl hy, hpy⟩
      · exact ⟨.inr ⟨hne, .inl ⟨rfl, rfl⟩⟩, hu⟩
      · exact ⟨.inr ⟨hne, .inr ⟨rfl, rfl⟩⟩, ht⟩
  -- With a new edge at `x`, the other end is inserted; else nothing changes.
  have hinsert : ∀ y, ¬s.graph.adjacent x y = true → s.isPresent y = true →
      (∀ z, z ∈ (s.addEdge t u).remaining x ↔ z ∈ s.remaining x ∨ z = y) →
      ((s.addEdge t u).remaining x).card = (s.remaining x).card + 1 := by
    intro y hy _ hz
    have heq : (s.addEdge t u).remaining x = insert y (s.remaining x) := by
      ext z
      rw [hz, Finset.mem_insert, or_comm]
    rw [heq, Finset.card_insert_of_notMem]
    exact fun hmem => hy ((hgraph.adjacent_iff hx).2 (mem_remaining.1 hmem).1)
  rw [degree_addEdge, h x hx hp]
  split
  · next hnew =>
    obtain ⟨⟨hne, hadj⟩, -, rfl | rfl⟩ := hnew
    · rw [hinsert u (by simp [hadj]) hu fun z => by rw [hmem]; simp [hne]]
      omega
    · rw [hinsert t (by rw [hgraph.adjacent_comm]; simp [hadj]) ht
        fun z => by rw [hmem]; simp [hne, Ne.symm hne]]
      omega
  · next hold =>
    have heq : (s.addEdge t u).remaining x = s.remaining x := by
      ext z
      rw [hmem]
      refine ⟨?_, Or.inl⟩
      rintro (hz | ⟨hne, hz⟩)
      · exact hz
      · have hadj : s.graph.adjacent t u = true := by
          by_contra hadj
          exact hold ⟨⟨hne, by simpa using hadj⟩, hx, hz.imp And.left And.left⟩
        rcases hz with ⟨rfl, rfl⟩ | ⟨rfl, rfl⟩
        · exact mem_remaining.2 ⟨(hgraph.adjacent_iff hx).1 hadj, hu⟩
        · rw [hgraph.adjacent_comm] at hadj
          exact mem_remaining.2 ⟨(hgraph.adjacent_iff hx).1 hadj, ht⟩
    rw [heq]

/-! ## Handing neighbours on -/

/-- Make `u` a neighbour of `t` in the place of another one. -/
def absorb (u : Temp) (s : Coloring) (t : Temp) : Coloring := (s.addEdge t u).decrementDegree t

theorem minor_absorb (u : Temp) (s : Coloring) (t : Temp) : s.Minor (absorb u s t) :=
  (minor_addEdge s t u).trans (minor_decrementDegree _ t)

theorem graph_absorb (u : Temp) (s : Coloring) (t : Temp) :
    (absorb u s t).graph = s.graph.addEdge t u := by
  rw [absorb, graph_decrementDegree, graph_addEdge]

/-- Handing a neighbour on leaves all other nodes where they fit. -/
theorem Fits.absorb {x : Temp} (h : s.Fits x) (hxu : x ≠ u) (hcounts : s.Counts (t :: ps))
    (hgraph : s.graph.WellFormed) (ht : s.isPresent t = true) (hu : s.isPresent u = true) :
    (absorb u s t).Fits x := by
  have hminor := minor_addEdge s t u
  have hstatus : ∀ y, (s.addEdge t u).status y = s.status y := by
    intro y
    unfold Coloring.addEdge
    split <;> rfl
  have hdegree := degree_addEdge s t u x
  by_cases htx : t = x
  · subst htx
    cases hr : t.isRegister with
    | false =>
      have hpos := (hcounts.addEdge hgraph ht hu).pos hr (hminor.isPresent t ▸ ht)
      refine fits_decrementDegree hr (d := s.degree t) ?_ ?_ hpos
      · rw [hstatus, hminor.k, hminor.decisions]
        exact h
      · rw [hdegree]
        split
        · exact .inr rfl
        · exact .inl rfl
    | true =>
      rcases decrementDegree_cases (s.addEdge t u) t with ⟨-, heq⟩ | ⟨hv, -⟩ | ⟨hv, -⟩
      · rw [Coloring.absorb, heq]
        refine (fits_congr (hstatus t) ?_ hminor.k hminor.decisions).2 h
        rw [hdegree, if_neg fun hnew => by simp [hr] at hnew]
      · simp [hr] at hv
      · simp [hr] at hv
  · refine Fits.decrementDegree_of_ne ?_ htx
    refine (fits_congr (hstatus x) ?_ hminor.k hminor.decisions).2 h
    rw [hdegree, if_neg fun hnew => hnew.2.2.elim (Ne.symm htx) hxu]

/-- Handing a neighbour on does not touch the node it is handed to, but for its degree. -/
theorem absorb_self (htu : t ≠ u) :
    (absorb u s t).status u = s.status u ∧ s.degree u ≤ (absorb u s t).degree u := by
  have hstatus : (s.addEdge t u).status u = s.status u := by
    unfold addEdge
    split <;> rfl
  have hdegree : s.degree u ≤ (s.addEdge t u).degree u := by
    rw [degree_addEdge]
    split <;> omega
  have hget : ∀ d, ((s.addEdge t u).degrees.set t d).get u = (s.addEdge t u).degrees.get u :=
    (s.addEdge t u).degrees.get_set_of_ne htu
  rw [absorb]
  rcases decrementDegree_cases (s.addEdge t u) t with
    ⟨-, heq⟩ | ⟨-, -, heq⟩ | ⟨-, -, -, s₁, hsame, -, heq⟩
  · rw [heq]
    exact ⟨hstatus, hdegree⟩
  · rw [heq]
    exact ⟨hstatus, hdegree.trans (hget _).ge⟩
  · have hs₁ : s₁.status u = s.status u ∧ s.degree u ≤ s₁.degree u := by
      obtain ⟨_, _, _, rfl⟩ := hsame
      exact ⟨hstatus, hdegree.trans (hget _).ge⟩
    rcases heq with heq | ⟨-, heq⟩ <;> rw [heq, status_setStatus, if_neg htu] <;> exact hs₁

/-- What handing on some neighbours to `u` leads to. -/
structure Absorbed (u : Temp) (ts : List Temp) (s s' : Coloring) : Prop where
  minor : s.Minor s'
  graph : s'.graph = s.graph.addEdges (ts.map fun t => (t, u))
  counts : s'.Counts []
  fits : ∀ x, x ≠ u → s'.Fits x
  status : s'.status u = s.status u
  degree : s.degree u ≤ s'.degree u

theorem absorbed_foldl {ts : List Temp} (hgraph : s.graph.WellFormed) (hu : u ∈ s.graph.nodes)
    (hup : s.isPresent u = true)
    (hts : ∀ t ∈ ts, t ∈ s.graph.nodes ∧ s.isPresent t = true ∧ t ≠ u) (hcounts : s.Counts ts)
    (hfits : ∀ x, x ≠ u → s.Fits x) : Absorbed u ts s (ts.foldl (absorb u) s) := by
  induction ts generalizing s with
  | nil => exact ⟨.refl s, rfl, hcounts, hfits, rfl, le_rfl⟩
  | cons t ts ih =>
    obtain ⟨htn, htp, htu⟩ := hts t List.mem_cons_self
    have hminor := minor_absorb u s t
    have hself := absorb_self (s := s) htu
    have hrest := ih (s := absorb u s t)
      (by rw [graph_absorb]; exact hgraph.addEdge htn hu)
      (by rw [hminor.nodes]; exact hu) (by rw [hminor.isPresent]; exact hup)
      (fun x hx => by
        rw [hminor.nodes, hminor.isPresent]
        exact hts x (List.mem_cons_of_mem t hx))
      (hcounts.addEdge hgraph htp hup).decrementDegree
      (fun x hx => (hfits x hx).absorb hx hcounts hgraph htp hup)
    exact
      { minor := hminor.trans hrest.minor
        graph := by
          rw [List.map_cons, Interference.addEdges_cons, ← graph_absorb]
          exact hrest.graph
        counts := hrest.counts
        fits := hrest.fits
        status := hrest.status.trans hself.1
        degree := hself.2.trans hrest.degree }

end Lowering.Coloring
