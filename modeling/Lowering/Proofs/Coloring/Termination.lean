import Lowering.Proofs.Coloring.Stuck

/-!
# A colouring comes to an end

A step takes a node out of the graph, or makes a node ready to be taken out, or leaves one
copy less to be tried.  The first of these may set back the second and the third, and the
second the third, but never the other way round.  So the three counts are the digits of a
number that every step lowers, and the steps that a colouring may take are enough: in the end
every virtual node is on the stack or stands for another one.

## Main definitions

* `Coloring.weight` — what is left to do, as one number.
* `Coloring.Sound.weight_lt` — every step lowers it.
* `Coloring.Sound.step?_run` — no step is left in the end.
* `exists_color_of_mem_nodes` — if nothing is spilled, every node has a colour.
-/

namespace Lowering

namespace Coloring

variable {s s' : Coloring} {t : Temp}

/-! ## What is left to do -/

/-- The nodes that are left in the graph. -/
def present (s : Coloring) : Finset Temp :=
  s.graph.nodes.toFinset.filter fun t => s.isPresent t = true

/-- The nodes that are not ready to be taken out. -/
def waiting (s : Coloring) : Finset Temp :=
  s.graph.nodes.toFinset.filter fun t => s.status t = .spill ∨ s.status t = .freeze

/-- The copies that are to be tried. -/
def untried (s : Coloring) : Finset Nat :=
  (Finset.range s.moveStatuses.size).filter fun id => s.moveStatus id = .worklist

/-- What is left to do, as one number. -/
def weight (s : Coloring) : Nat :=
  (s.present.card * (s.graph.nodes.length + 1) + s.waiting.card) * (s.moveStatuses.size + 1) +
    s.untried.card

@[simp] theorem mem_present : t ∈ s.present ↔ t ∈ s.graph.nodes ∧ s.isPresent t = true := by
  simp [present]

@[simp] theorem mem_waiting :
    t ∈ s.waiting ↔ t ∈ s.graph.nodes ∧ (s.status t = .spill ∨ s.status t = .freeze) := by
  simp [waiting]

theorem mem_untried {id : Nat} : id ∈ s.untried ↔ s.moveStatus id = .worklist := by
  rw [untried, Finset.mem_filter, Finset.mem_range, and_iff_right_iff_imp]
  exact fun h => lt_size_of_isOpen (isOpen_of_worklist h)

theorem card_present_le (s : Coloring) : s.present.card ≤ s.graph.nodes.length :=
  (Finset.card_filter_le _ _).trans (List.toFinset_card_le _)

theorem card_waiting_le (s : Coloring) : s.waiting.card ≤ s.graph.nodes.length :=
  (Finset.card_filter_le _ _).trans (List.toFinset_card_le _)

theorem card_untried_le (s : Coloring) : s.untried.card ≤ s.moveStatuses.size :=
  (Finset.card_filter_le _ _).trans (Finset.card_range _).le

private theorem digits_lt {x x' d d' base : Nat} (hx : x' < x) (hd : d' < base) :
    x' * base + d' < x * base + d := by
  calc x' * base + d' < x' * base + base := Nat.add_lt_add_left hd _
    _ = (x' + 1) * base := (Nat.succ_mul x' base).symm
    _ ≤ x * base := Nat.mul_le_mul_right base hx
    _ ≤ x * base + d := Nat.le_add_right _ _

theorem weight_lt_bound (s : Coloring) : s.weight < s.bound := by
  have hnodes : s.present.card * (s.graph.nodes.length + 1) + s.waiting.card <
      (s.graph.nodes.length + 1) * (s.graph.nodes.length + 1) :=
    digits_lt (d := 0) (Nat.lt_succ_of_le s.card_present_le) (Nat.lt_succ_of_le s.card_waiting_le)
  exact digits_lt (d := 0) hnodes (Nat.lt_succ_of_le s.card_untried_le)

/-! ## Steps -/

theorem Minor.present (h : s.Minor s') : s'.present = s.present := by
  ext t
  rw [mem_present, mem_present, h.nodes, h.isPresent]

theorem Minor.waiting_subset (h : s.Minor s') : s'.waiting ⊆ s.waiting := by
  intro t ht
  rw [mem_waiting, h.nodes] at ht
  refine mem_waiting.2 ⟨ht.1, ?_⟩
  rcases h.status t with hsame | ⟨hwait, -⟩
  · exact hsame ▸ ht.2
  · exact hwait

/-- Taking a node out leaves one node less. -/
theorem present_takeOut_ssubset (h : s.Sound) (ht : s.status t = .simplify) :
    (s.takeOut t).present ⊂ s.present := by
  have hp : s.isPresent t = true := by simp [isPresent, ht]
  have hf := follows_takeOut hp
  have hmem := (h.work.isRegister_eq_false (t := t) (by simp [ht]) (by simp [ht])).1
  refine (Finset.ssubset_iff_of_subset fun u hu => ?_).2 ⟨t, mem_present.2 ⟨hmem, hp⟩, ?_⟩
  · rw [mem_present, hf.nodes] at hu
    rcases hf.change with ⟨-, hkeep⟩ | ⟨_, _, -, -, m⟩
    · exact mem_present.2 ⟨hu.1, hkeep u hu.2⟩
    · exact mem_present.2 ⟨hu.1, (m.isPresent hu.2).1⟩
  · have hstack : (s.takeOut t).status t = .onStack := by
      rw [takeOut, (Minor.foldl minor_decrementDegree _ _).status_onStack]
      exact (status_setStatus s t t .onStack).trans (if_pos rfl)
    simp [isPresent, hstack]

/-- A merge leaves one node less. -/
theorem Merges.present_ssubset {u v : Temp} (m : Merges u v s s') (h' : s'.Sound)
    (hv : s.isPresent v = true) : s'.present ⊂ s.present := by
  have hstatus : s'.status v = .coalesced := (m.coalesced v).2 (.inr rfl)
  have hmem : v ∈ s.graph.nodes := m.nodes ▸ (h'.work.node v).1 (by simp [hstatus])
  refine (Finset.ssubset_iff_of_subset fun t ht => ?_).2 ⟨v, mem_present.2 ⟨hmem, hv⟩, ?_⟩
  · rw [mem_present, m.nodes] at ht
    exact mem_present.2 ⟨ht.1, (m.isPresent ht.2).1⟩
  · simp [Coloring.isPresent, hstatus]

/-- A node that gives up its copies is ready. -/
theorem Sound.waiting_giveUp_ssubset (h : s.Sound)
    (ht : s.status t = .spill ∨ s.status t = .freeze) :
    (s.giveUp t).waiting ⊂ s.waiting := by
  have hmem : t ∈ s.graph.nodes := (h.work.node t).1 (by rcases ht with ht | ht <;> simp [ht])
  have hready : (s.giveUp t).status t = .simplify := by
    have hself := (status_setStatus s t t .simplify).trans (if_pos rfl)
    have hminor := minor_freezeMoves (s := s.setStatus t .simplify) h.linked.ends t
    rcases hminor.status t with hsame | ⟨hwait, -⟩
    · exact hsame.trans hself
    · simp [hself] at hwait
  refine (Finset.ssubset_iff_of_subset (h.minor_giveUp ht).waiting_subset).2
    ⟨t, mem_waiting.2 ⟨hmem, ht⟩, ?_⟩
  simp [hready]

/-- What a step lowers: the nodes in the graph, or else those that are not ready, or else the
copies to be tried. -/
theorem Sound.step_lowers (h : s.Sound) (hs : s.step? = some s') :
    s'.present ⊂ s.present ∨ s'.present = s.present ∧
      (s'.waiting ⊂ s.waiting ∨ s'.waiting ⊆ s.waiting ∧ s'.untried ⊂ s.untried) := by
  rcases step?_cases h hs with ⟨t, ht, rfl⟩ | ⟨id, m, -, hm, hid, rfl⟩ | ⟨t, ht, rfl⟩ |
    ⟨t, -, -, ht, rfl⟩
  · exact .inl (present_takeOut_ssubset h ht)
  · obtain ⟨hsound, ⟨hminor, -, htried⟩ | ⟨u, v, hmerge, -, m⟩⟩ :=
      h.attempt_cases hm (isOpen_of_worklist hid)
    · refine .inr ⟨hminor.present, .inr ⟨hminor.waiting_subset, ?_⟩⟩
      refine (Finset.ssubset_iff_of_subset fun n hn => ?_).2 ⟨id, mem_untried.2 hid, fun hn => ?_⟩
      · exact mem_untried.2 (htried n (mem_untried.1 hn)).2
      · exact (htried id (mem_untried.1 hn)).1 rfl
    · exact .inl (m.present_ssubset hsound hmerge.present)
  · exact .inr ⟨(h.minor_giveUp (.inr ht)).present, .inl (h.waiting_giveUp_ssubset (.inr ht))⟩
  · have hspill := h.work.filed.status_of_cheapest ht
    have hsound := h.record (.selected t)
    exact .inr ⟨(hsound.minor_giveUp (.inl hspill)).present,
      .inl (hsound.waiting_giveUp_ssubset (.inl hspill))⟩

/-- **Every step lowers what is left to do.** -/
theorem Sound.weight_lt (h : s.Sound) (hs : s.step? = some s') : s'.weight < s.weight := by
  have hf := h.follows hs
  have hsize : s'.moveStatuses.size = s.moveStatuses.size := by
    rw [(h.step hs).work.size, hf.moves, h.work.size]
  have hwaiting : s'.waiting.card < s.graph.nodes.length + 1 :=
    hf.nodes ▸ Nat.lt_succ_of_le s'.card_waiting_le
  have huntried : s'.untried.card < s.moveStatuses.size + 1 :=
    hsize ▸ Nat.lt_succ_of_le s'.card_untried_le
  rw [weight, weight, hf.nodes, hsize]
  rcases h.step_lowers hs with hlt | ⟨hsame, hlt | ⟨hle, hlt⟩⟩
  · exact digits_lt (digits_lt (Finset.card_lt_card hlt) hwaiting) huntried
  · rw [hsame]
    exact digits_lt (Nat.add_lt_add_left (Finset.card_lt_card hlt) _) huntried
  · rw [hsame]
    have hle := Finset.card_le_card hle
    exact Nat.add_lt_add_of_le_of_lt (Nat.mul_le_mul_right _ (Nat.add_le_add_left hle _))
      (Finset.card_lt_card hlt)

/-! ## The end -/

theorem Sound.step?_runSteps (h : s.Sound) {n : Nat} (hn : s.weight < n) :
    (runSteps n s).step? = none := by
  induction n generalizing s with
  | zero => exact absurd hn (Nat.not_lt_zero _)
  | succ n ih =>
    rw [runSteps]
    split
    · next s' hs => exact ih (h.step hs) (by have := h.weight_lt hs; omega)
    · next hs => exact hs

/-- **No step is left in the end.** -/
theorem Sound.step?_run (h : s.Sound) : s.run.step? = none :=
  h.step?_runSteps s.weight_lt_bound

theorem of_step?_eq_none (hs : s.step? = none) :
    s.queue = [] ∧ s.freezeSet.toList = [] ∧ s.spillSet.toList = [] := by
  unfold step? at hs
  split at hs
  · cases hs
  · next hq =>
    split at hs
    · cases hs
    · split at hs
      · cases hs
      · next hfreeze =>
        refine ⟨hq, List.head?_eq_none_iff.1 hfreeze, ?_⟩
        cases hspill : s.spillSet.toList with
        | nil => rfl
        | cons t rest => simp [hspill, cheapest] at hs

/-- When no step is left, every virtual node was taken out or merged. -/
theorem Sound.isPresent_eq_false (h : s.Sound) (hs : s.step? = none) (ht : t ∈ s.graph.nodes)
    (hv : t.isRegister = false) : s.isPresent t = false := by
  obtain ⟨hq, hfreeze, hspill⟩ := of_step?_eq_none hs
  by_contra hp
  have hmem : t ∈ s.virtualNodes :=
    Finset.mem_filter.2 ⟨List.mem_toFinset.2 ht, hv, by simpa using hp⟩
  have hin := Std.ExtTreeSet.mem_toList.2 ((h.stuck_virtualNodes hq hfreeze).2 t hmem)
  simp [hspill] at hin

/-- Every node on the stack is coloured or listed as one without a colour. -/
theorem exists_assign_of_mem {colors : Colors} {ts : List Temp} (ht : t ∈ ts) (hnd : ts.Nodup) :
    t ∈ (s.assigned colors ts).2 ∨ ∃ c, (s.assigned colors ts).1[t]? = some c := by
  induction ts generalizing colors with
  | nil => simp at ht
  | cons u ts ih =>
    obtain ⟨hu, hnd⟩ := List.nodup_cons.1 hnd
    rcases assigned_cons s colors u ts with ⟨c, -, heq⟩ | ⟨-, heq⟩ <;> rw [heq] <;>
      rcases List.mem_cons.1 ht with rfl | ht
    · exact .inr ⟨c, by simp [assigned_of_notMem hu]⟩
    · exact ih ht hnd
    · exact .inl List.mem_cons_self
    · exact (ih ht hnd).imp_left (List.mem_cons_of_mem u)

/-- **When no step is left, every node has a colour**, unless the one it stands for is
spilled. -/
theorem Sound.exists_color (h : s.Sound) (hs : s.step? = none) (ht : t ∈ s.graph.nodes) :
    s.leader t ∈ s.outcome.spilled ∨ ∃ c, s.outcome.colors[t]? = some c := by
  rw [getElem?_colors_outcome h, mem_spilled_outcome h]
  have hmem := h.work.leader t ht
  cases hr : (s.leader t).isRegister with
  | true =>
    have hstack : s.leader t ∉ s.stack := fun hin => by
      simp [h.isRegister_of_mem_stack hin] at hr
    refine .inr ⟨s.leader t, ?_⟩
    rw [stackColors, assigned_of_notMem hstack, getElem?_registerColors, if_pos ⟨hmem, hr⟩]
  | false =>
    have hgone := h.isPresent_eq_false hs hmem hr
    have hstack : s.status (s.leader t) = .onStack := by
      simpa [isPresent, h.linked.leader_status t] using hgone
    exact exists_assign_of_mem ((h.linked.stack _).2 hstack) h.linked.nodup

end Coloring

/-- **If nothing is spilled, every node has a colour.** -/
theorem exists_color_of_mem_nodes {palette : List Temp} {unspillable : TempSet} {g : Interference}
    {t : Temp} (hg : g.WellFormed) (hmoves : g.MovesWithin palette)
    (hspilled : (color palette unspillable g).spilled = []) (ht : t ∈ g.nodes) :
    ∃ c, (color palette unspillable g).colors[t]? = some c := by
  have hr := Coloring.reached_run unspillable hg hmoves
  have hstart : (Coloring.start palette unspillable g).Sound :=
    (Coloring.reached_start hg hmoves).sound
  have hcolor := hr.sound.exists_color hstart.step?_run (hr.nodes.symm ▸ ht)
  rw [color] at hspilled
  simpa [hspilled, color] using hcolor

end Lowering
