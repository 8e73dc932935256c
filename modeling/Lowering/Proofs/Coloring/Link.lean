import Lowering.Proofs.Coloring.Count

/-!
# What ties a node to its neighbours

Nodes are coloured in the order of the stack, and a node avoids the colours of those
that its neighbours stand for.  So if two temporaries interfere, then of the nodes that
stand for them the one that is coloured later must have a neighbour that stands for the
other one.  This is kept up by taking a node out, since its neighbours in the graph
are coloured first, and by merging, since the neighbours are handed on.

A node that is taken out with fewer than `k` neighbours finds a colour: the nodes that
its neighbours stand for only become fewer.

## Main definitions

* `Coloring.Linked` — the nodes that stand for neighbours know of each other.
* `Coloring.Linked.push`, `Coloring.Linked.merge` — taking out and merging keep it.
-/

namespace Lowering.Coloring

variable {s s' : Coloring} {t u v : Temp}

/-- The nodes that the neighbours of a node stand for, but for those in a list. -/
def rivals (s : Coloring) (t : Temp) (later : List Temp) : Finset Temp :=
  ((s.graph.neighboursOf t).toFinset.image s.leader).filter fun u => u ∉ later

theorem mem_rivals {later : List Temp} :
    u ∈ s.rivals t later ↔ (∃ c ∈ s.graph.neighboursOf t, s.leader c = u) ∧ u ∉ later := by
  simp [rivals]

/-- The nodes that stand for two neighbours know of each other. -/
structure Linked (s : Coloring) : Prop where
  graph : s.graph.WellFormed
  /-- Looking up the leader of a node comes to an end. -/
  ends : s.aliases.Ends
  stack : ∀ t, t ∈ s.stack ↔ s.status t = .onStack
  nodup : s.stack.Nodup
  leader_self : ∀ t, s.status t ≠ .coalesced → s.leader t = t
  leader_status : ∀ t, s.status (s.leader t) ≠ .coalesced
  /-- Neighbours are not merged. -/
  apart : ∀ a b, s.graph.adjacent a b = true → s.leader a ≠ s.leader b
  /-- In the graph, those that stand for neighbours are neighbours. -/
  direct : ∀ a b, s.graph.adjacent a b = true → s.leader a ∉ s.stack → s.leader b ∉ s.stack →
    s.graph.adjacent (s.leader a) (s.leader b) = true
  /-- A node that was taken out has a neighbour that stands for each that is coloured
  earlier. -/
  below : ∀ a b, s.graph.adjacent a b = true → ∀ earlier later,
    s.stack = earlier ++ s.leader a :: later → s.leader b ∉ later →
      ∃ c, s.graph.adjacent (s.leader a) c = true ∧ s.leader c = s.leader b
  /-- A node that was not taken out in hope has few rivals. -/
  scarce : ∀ t earlier later, s.stack = earlier ++ t :: later →
    .selected t ∈ s.decisions ∨ (s.rivals t later).card < s.k

theorem Linked.isPresent_leader (h : s.Linked) (ht : s.leader t ∉ s.stack) :
    s.isPresent (s.leader t) = true := by
  have hstack : s.status (s.leader t) ≠ .onStack := fun hs => ht ((h.stack _).2 hs)
  simp [isPresent, h.leader_status t, hstack]

theorem Linked.leader_of_isPresent (h : s.Linked) (ht : s.isPresent t = true) : s.leader t = t := by
  refine h.leader_self t fun hs => ?_
  simp [isPresent, hs] at ht

theorem Linked.notMem_stack (h : s.Linked) (ht : s.isPresent t = true) : t ∉ s.stack := by
  intro hs
  rw [h.stack] at hs
  simp [isPresent, hs] at ht

/-- Small changes that leave the graph alone keep the links. -/
theorem Linked.minor (h : s.Linked) (hminor : s.Minor s') (hgraph : s'.graph = s.graph) :
    s'.Linked := by
  have hleader : s'.leader = s.leader := funext hminor.leader
  have hrivals : ∀ t later, s'.rivals t later = s.rivals t later := by
    intro t later
    rw [rivals, rivals, hgraph, hleader]
  constructor
  · rw [hgraph]
    exact h.graph
  · exact hminor.ends h.ends
  · intro t
    rw [hminor.stack, hminor.status_onStack, h.stack]
  · rw [hminor.stack]
    exact h.nodup
  · intro t ht
    rw [hleader]
    exact h.leader_self t fun hs => ht ((hminor.status_coalesced t).2 hs)
  · intro t ht
    rw [hleader] at ht
    exact h.leader_status t ((hminor.status_coalesced _).1 ht)
  · rw [hgraph, hleader]
    exact h.apart
  · rw [hgraph, hleader, hminor.stack]
    exact h.direct
  · rw [hgraph, hleader, hminor.stack]
    exact h.below
  · intro t
    rw [hminor.stack, hminor.decisions, hminor.k]
    simp only [hrivals]
    exact h.scarce t

/-- A node that is not in hope has at most as many rivals as neighbours that are left. -/
theorem Linked.card_rivals_le (h : s.Linked) (ht : s.isPresent t = true)
    (hv : t.isRegister = false) : s.rivals t s.stack ⊆ s.remaining t := by
  intro u hu
  obtain ⟨⟨c, hc, rfl⟩, hstack⟩ := mem_rivals.1 hu
  have hself := h.leader_of_isPresent ht
  have hadj := h.direct t c ((h.graph.adjacent_iff hv).2 hc) (hself.symm ▸ h.notMem_stack ht) hstack
  rw [hself, h.graph.adjacent_iff hv] at hadj
  exact mem_remaining.2 ⟨hadj, h.isPresent_leader hstack⟩

/-- **Taking a node out keeps the links.** -/
theorem Linked.push (h : s.Linked) (hcounts : s.Counts []) (ht : s.status t = .simplify)
    (hv : t.isRegister = false) (hfits : s.Fits t) (d : Decision) :
    ((s.setStatus t .onStack).record d).Linked := by
  have hpresent : s.isPresent t = true := by simp [isPresent, ht]
  have hself := h.leader_of_isPresent hpresent
  have hnot := h.notMem_stack hpresent
  have hstatus : ∀ u, ((s.setStatus t .onStack).record d).status u =
      if t = u then .onStack else s.status u := fun u => status_setStatus s t u .onStack
  constructor
  · exact h.graph
  · exact h.ends
  · intro u
    rw [hstatus]
    by_cases hu : t = u
    · simp [record, Coloring.setStatus, hu]
    · simp [record, Coloring.setStatus, hu, Ne.symm hu, h.stack]
  · exact List.nodup_cons.2 ⟨hnot, h.nodup⟩
  · intro u hu
    refine h.leader_self u fun hs => hu ?_
    rw [hstatus, if_neg, hs]
    rintro rfl
    simp [ht] at hs
  · intro u hu
    rw [hstatus] at hu
    split at hu
    · cases hu
    · exact h.leader_status u hu
  · exact h.apart
  · intro a b hab ha hb
    exact h.direct a b hab (List.not_mem_of_not_mem_cons ha) (List.not_mem_of_not_mem_cons hb)
  · intro a b hab earlier later hsplit hb
    rcases List.cons_eq_append_iff.1 hsplit with ⟨rfl, heq⟩ | ⟨earlier', rfl, heq⟩
    · -- The node itself is coloured after all that are still in the graph.
      obtain ⟨ha, rfl⟩ := List.cons.inj heq
      have hadj := h.direct a b hab (ha ▸ hnot) hb
      exact ⟨s.leader b, hadj, h.leader_self _ (h.leader_status b)⟩
    · exact h.below a b hab earlier' later heq hb
  · intro u earlier later hsplit
    rcases List.cons_eq_append_iff.1 hsplit with ⟨rfl, heq⟩ | ⟨earlier', rfl, heq⟩
    · obtain ⟨rfl, rfl⟩ := List.cons.inj heq
      rw [Fits, ht] at hfits
      rcases hfits with hlow | hchosen
      · rw [hcounts u hv hpresent] at hlow
        exact .inr ((Finset.card_le_card (h.card_rivals_le hpresent hv)).trans_lt hlow)
      · exact .inl (List.mem_cons_of_mem d hchosen)
    · exact (h.scarce u earlier' later heq).imp_left (List.mem_cons_of_mem d)

/-- What merging `v` into `u` does to the links. -/
structure Merges (u v : Temp) (s s' : Coloring) : Prop where
  graph : s'.graph.WellFormed
  ends : s'.aliases.Ends
  adjacent : ∀ a b, s'.graph.adjacent a b = true ↔ s.graph.adjacent a b = true ∨
    (a = u ∧ b ∈ s.remaining v ∨ b = u ∧ a ∈ s.remaining v)
  leader : ∀ t, s'.leader t = if s.leader t = v then u else s.leader t
  stack : s'.stack = s.stack
  onStack : ∀ t, s'.status t = .onStack ↔ s.status t = .onStack
  coalesced : ∀ t, s'.status t = .coalesced ↔ s.status t = .coalesced ∨ t = v
  palette : s'.palette = s.palette
  unspillable : s'.unspillable = s.unspillable
  nodes : s'.graph.nodes = s.graph.nodes
  moves : s'.graph.moves = s.graph.moves
  decisions : s'.decisions = .coalesced v u :: s.decisions

theorem Merges.selected (m : Merges u v s s') (t : Temp) :
    .selected t ∈ s'.decisions ↔ .selected t ∈ s.decisions := by
  simp [m.decisions]

/-- The ends of a merge are in the graph and do not interfere. -/
structure Mergeable (u v : Temp) (s : Coloring) : Prop where
  into : s.isPresent u = true
  present : s.isPresent v = true
  virtual : v.isRegister = false
  ne : u ≠ v
  apart : s.graph.adjacent u v = false

/-- A node that was taken out keeps its neighbours in a merge. -/
theorem Merges.neighboursOf (m : Merges u v s s') (h : s.Linked) (hm : s.Mergeable u v)
    (ht : t ∈ s.stack) (c : Temp) :
    c ∈ s'.graph.neighboursOf t ↔ c ∈ s.graph.neighboursOf t := by
  have htu : t ≠ u := fun heq => h.notMem_stack hm.into (heq ▸ ht)
  have htv : t ∉ s.remaining v := fun hmem => h.notMem_stack (mem_remaining.1 hmem).2 ht
  have hadj : s'.graph.adjacent t c = true ↔ s.graph.adjacent t c = true := by
    rw [m.adjacent]
    simp [htu, htv]
  constructor
  · intro hc
    have hreg := m.graph.row hc
    exact (h.graph.adjacent_iff hreg).1 (hadj.1 ((m.graph.adjacent_iff hreg).2 hc))
  · intro hc
    have hreg := h.graph.row hc
    exact (m.graph.adjacent_iff hreg).1 (hadj.2 ((h.graph.adjacent_iff hreg).2 hc))

/-- In a merge, the rivals of a node that was taken out become no more. -/
theorem Merges.card_rivals_le (m : Merges u v s s') (h : s.Linked) (hm : s.Mergeable u v)
    {earlier later : List Temp} (hsplit : s.stack = earlier ++ t :: later) :
    (s'.rivals t later).card ≤ (s.rivals t later).card := by
  have ht : t ∈ s.stack := by simp [hsplit]
  have hvlater : v ∉ later := fun hv => h.notMem_stack hm.present (by simp [hsplit, hv])
  have hsub : s'.rivals t later ⊆ (s.rivals t later).image fun w => if w = v then u else w := by
    intro w hw
    obtain ⟨⟨c, hc, rfl⟩, hlater⟩ := mem_rivals.1 hw
    refine Finset.mem_image.2 ⟨s.leader c, mem_rivals.2 ⟨⟨c, ?_, rfl⟩, ?_⟩, (m.leader c).symm⟩
    · exact (m.neighboursOf h hm ht c).1 hc
    · rw [m.leader] at hlater
      split at hlater
      · next heq => exact heq ▸ hvlater
      · exact hlater
  exact (Finset.card_le_card hsub).trans Finset.card_image_le

section Merge

variable (h : s.Linked) (hm : s.Mergeable u v) (m : Merges u v s s') {a b : Temp}

theorem Merges.leader_of_ne (m : Merges u v s s') (ht : s.leader t ≠ v) :
    s'.leader t = s.leader t := by
  rw [m.leader, if_neg ht]

theorem Merges.leader_of_eq (m : Merges u v s s') (ht : s.leader t = v) : s'.leader t = u := by
  rw [m.leader, if_pos ht]

include h hm

theorem Mergeable.notMem_remaining : u ∉ s.remaining v := by
  intro hmem
  have hadj := (h.graph.adjacent_iff hm.virtual).2 (mem_remaining.1 hmem).1
  rw [h.graph.adjacent_comm, hm.apart] at hadj
  cases hadj

/-- A neighbour in the graph of what `v` stands for is handed on to `u`. -/
theorem Mergeable.mem_remaining (hab : s.graph.adjacent a b = true) (ha : s.leader a = v)
    (hb : s.leader b ∉ s.stack) : s.leader b ∈ s.remaining v := by
  have hadj := h.direct a b hab (ha ▸ h.notMem_stack hm.present) hb
  rw [ha, h.graph.adjacent_iff hm.virtual] at hadj
  exact Coloring.mem_remaining.2 ⟨hadj, h.isPresent_leader hb⟩

theorem Mergeable.leader_ne (hab : s.graph.adjacent a b = true) (ha : s.leader a = v) :
    s.leader b ≠ u := by
  intro hb
  have hstack : s.leader b ∉ s.stack := hb ▸ h.notMem_stack hm.into
  exact hm.notMem_remaining h (hb ▸ hm.mem_remaining h hab ha hstack)

include m

theorem Merges.leader_into : s'.leader u = u := by
  have hself := h.leader_of_isPresent hm.into
  rw [m.leader_of_ne (hself.symm ▸ hm.ne), hself]

/-- A neighbour of `v` in the graph stands for itself, and it is not `u`. -/
theorem Merges.leader_remaining (ht : t ∈ s.remaining v) :
    s'.leader t = t ∧ t ≠ u ∧ t ∉ s.stack := by
  have hp := (mem_remaining.1 ht).2
  have hself := h.leader_of_isPresent hp
  have htv : t ≠ v := fun heq => h.graph.irrefl v (heq ▸ (mem_remaining.1 ht).1)
  refine ⟨?_, fun heq => hm.notMem_remaining h (heq ▸ ht), h.notMem_stack hp⟩
  rw [m.leader_of_ne (hself.symm ▸ htv), hself]

theorem Merges.leader_mem_stack : s'.leader t ∈ s.stack ↔ s.leader t ∈ s.stack := by
  by_cases ht : s.leader t = v
  · simp [ht, m.leader_of_eq ht, h.notMem_stack hm.into, h.notMem_stack hm.present]
  · rw [m.leader_of_ne ht]

theorem Merges.leader_status (t : Temp) : s'.status (s'.leader t) ≠ .coalesced := by
  intro ht
  rw [m.coalesced] at ht
  by_cases htv : s.leader t = v
  · rw [m.leader_of_eq htv] at ht
    rcases ht with hs | hs
    · have hp := hm.into
      simp [isPresent, hs] at hp
    · exact hm.ne hs
  · rw [m.leader_of_ne htv] at ht
    exact ht.elim (h.leader_status t) htv

theorem Merges.apart (hab : s'.graph.adjacent a b = true) : s'.leader a ≠ s'.leader b := by
  intro heq
  rcases (m.adjacent a b).1 hab with hab | ⟨rfl, hb⟩ | ⟨rfl, ha⟩
  · by_cases ha : s.leader a = v <;> by_cases hb : s.leader b = v
    · exact h.apart a b hab (ha.trans hb.symm)
    · rw [m.leader_of_eq ha, m.leader_of_ne hb] at heq
      exact hm.leader_ne h hab ha heq.symm
    · rw [m.leader_of_ne ha, m.leader_of_eq hb] at heq
      rw [h.graph.adjacent_comm] at hab
      exact hm.leader_ne h hab hb heq
    · rw [m.leader_of_ne ha, m.leader_of_ne hb] at heq
      exact h.apart a b hab heq
  · obtain ⟨hself, hne, -⟩ := m.leader_remaining h hm hb
    rw [m.leader_into h hm, hself] at heq
    exact hne heq.symm
  · obtain ⟨hself, hne, -⟩ := m.leader_remaining h hm ha
    rw [m.leader_into h hm, hself] at heq
    exact hne heq

theorem Merges.direct (hab : s'.graph.adjacent a b = true) (ha : s'.leader a ∉ s.stack)
    (hb : s'.leader b ∉ s.stack) : s'.graph.adjacent (s'.leader a) (s'.leader b) = true := by
  rcases (m.adjacent a b).1 hab with hab' | ⟨rfl, hb'⟩ | ⟨rfl, ha'⟩
  · rw [m.leader_mem_stack h hm] at ha hb
    by_cases hav : s.leader a = v <;> by_cases hbv : s.leader b = v
    · exact absurd (hav.trans hbv.symm) (h.apart a b hab')
    · rw [m.leader_of_eq hav, m.leader_of_ne hbv, m.adjacent]
      exact .inr (.inl ⟨rfl, hm.mem_remaining h hab' hav hb⟩)
    · rw [m.leader_of_ne hav, m.leader_of_eq hbv, m.adjacent]
      rw [h.graph.adjacent_comm] at hab'
      exact .inr (.inr ⟨rfl, hm.mem_remaining h hab' hbv ha⟩)
    · rw [m.leader_of_ne hav, m.leader_of_ne hbv, m.adjacent]
      exact .inl (h.direct a b hab' ha hb)
  · rw [m.leader_into h hm, (m.leader_remaining h hm hb').1]
    exact hab
  · rw [m.leader_into h hm, (m.leader_remaining h hm ha').1]
    exact hab

theorem Merges.below (hab : s'.graph.adjacent a b = true) {earlier later : List Temp}
    (hsplit : s.stack = earlier ++ s'.leader a :: later) (hb : s'.leader b ∉ later) :
    ∃ c, s'.graph.adjacent (s'.leader a) c = true ∧ s'.leader c = s'.leader b := by
  have hmem : s'.leader a ∈ s.stack := by simp [hsplit]
  rcases (m.adjacent a b).1 hab with hab' | ⟨rfl, -⟩ | ⟨rfl, ha'⟩
  · have hav : s.leader a ≠ v := fun ha => h.notMem_stack hm.into (m.leader_of_eq ha ▸ hmem)
    rw [m.leader_of_ne hav] at hsplit ⊢
    have hblater : s.leader b ∉ later := by
      by_cases hbv : s.leader b = v
      · exact fun hl => h.notMem_stack hm.present (by simp [hsplit, ← hbv, hl])
      · exact m.leader_of_ne hbv ▸ hb
    obtain ⟨c, hc, hcb⟩ := h.below a b hab' earlier later hsplit hblater
    exact ⟨c, (m.adjacent _ c).2 (.inl hc), by rw [m.leader, m.leader, hcb]⟩
  · exact absurd (m.leader_into h hm ▸ hmem) (h.notMem_stack hm.into)
  · obtain ⟨hself, -, hstack⟩ := m.leader_remaining h hm ha'
    exact absurd (hself ▸ hmem) hstack

/-- **Merging keeps the links.** -/
theorem Linked.merge : s'.Linked where
  graph := m.graph
  ends := m.ends
  stack t := by rw [m.stack, m.onStack, h.stack]
  nodup := m.stack ▸ h.nodup
  leader_self t ht := by
    have hts : s.status t ≠ .coalesced := fun hs => ht ((m.coalesced t).2 (.inl hs))
    have htv : t ≠ v := fun heq => ht ((m.coalesced t).2 (.inr heq))
    have hself := h.leader_self t hts
    rw [m.leader_of_ne (hself.symm ▸ htv), hself]
  leader_status := m.leader_status h hm
  apart _ _ := m.apart h hm
  direct a b hab ha hb := by
    rw [m.stack] at ha hb
    exact m.direct h hm hab ha hb
  below a b hab earlier later hsplit hb := by
    rw [m.stack] at hsplit
    exact m.below h hm hab hsplit hb
  scarce t earlier later hsplit := by
    rw [m.stack] at hsplit
    rw [Coloring.k, m.palette]
    exact (h.scarce t earlier later hsplit).imp (m.selected t).2
      (m.card_rivals_le h hm hsplit).trans_lt

end Merge

end Lowering.Coloring
