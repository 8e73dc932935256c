import Lowering.Proofs.Coloring.Outcome

/-!
# What merging promises

A node into which another one was merged is never taken in hope.  Right after the merge
it has fewer than `k` neighbours that could get in its way, so it is in no stuck set, and no
later step makes a set stuck.  So it is not spilled, and what stands for it has its colour:
the ends of a merged copy share a register.

## Main definitions

* `Coloring.Hosting` — what holds of nodes into which others were merged.
* `Coloring.Joined` — the ends of a merged copy stand for the same node.
* `Outcome.Covers`, `color_connect_covers` — every node is coloured or spilled, and the
  ends of merged copies have one colour.
-/

namespace Lowering

namespace Coloring

variable {s s' s'' : Coloring} {t u v : Temp}

/-! ## Steps that merge and steps that do not -/

/-- A node is ready to be taken out, or was taken out. -/
def IsLeaving (s : Coloring) (t : Temp) : Prop := s.status t = .simplify ∨ s.status t = .onStack

/-- What a change does that merges no nodes. -/
structure Quiet (s s' : Coloring) : Prop where
  leader : ∀ t, s'.leader t = s.leader t
  coalesced : ∀ v u, .coalesced v u ∈ s'.decisions ↔ .coalesced v u ∈ s.decisions
  leaving : ∀ t, s.IsLeaving t → s'.IsLeaving t
  selected : ∀ t, .selected t ∈ s'.decisions → .selected t ∈ s.decisions ∨ s'.IsLeaving t

theorem Quiet.trans (h : s.Quiet s') (h' : s'.Quiet s'') : s.Quiet s'' where
  leader t := (h'.leader t).trans (h.leader t)
  coalesced v u := (h'.coalesced v u).trans (h.coalesced v u)
  leaving t ht := h'.leaving t (h.leaving t ht)
  selected t ht := by
    rcases h'.selected t ht with ht | ht
    · exact (h.selected t ht).imp_right (h'.leaving t)
    · exact .inr ht

theorem Minor.quiet (h : s.Minor s') : s.Quiet s' where
  leader := h.leader
  coalesced v u := by rw [h.decisions]
  leaving t ht := by
    rcases h.status t with hsame | ⟨hwait, -⟩
    · rwa [IsLeaving, hsame]
    · rcases ht with ht | ht <;> simp [ht] at hwait
  selected t ht := .inl (h.decisions ▸ ht)

/-- Taking out a node, or making it ready, with a note of that. -/
theorem quiet_leave {status : Status} (hstatus : status = .simplify ∨ status = .onStack)
    (d : Decision) (hd : d = .simplified t ∨ d = .selected t) :
    s.Quiet ((s.record d).setStatus t status) := by
  have hself : ((s.record d).setStatus t status).IsLeaving t := by
    rwa [IsLeaving, status_setStatus, if_pos rfl]
  constructor
  · intro x
    rfl
  · intro v u
    rcases hd with rfl | rfl <;> simp [record, setStatus]
  · intro x hx
    by_cases htx : t = x
    · exact htx ▸ hself
    · rw [IsLeaving, status_setStatus, if_neg htx]
      exact hx
  · intro x hx
    rcases hd with rfl | rfl
    · exact .inl (by simpa [record, setStatus] using hx)
    · rcases List.mem_cons.1 hx with heq | hx
      · obtain rfl := Decision.selected.inj heq
        exact .inr hself
      · exact .inl hx

/-- A step merges two nodes for which that is safe, when no node is ready to be taken out, or
it merges none. -/
theorem Sound.merges_or_quiet (h : s.Sound) (hs : s.step? = some s') :
    (∃ u v, s.queue = [] ∧ s.Mergeable u v ∧ s.canCombine u v = true ∧ Merges u v s s') ∨
      s.Quiet s' := by
  rcases step?_cases h hs with ⟨t, ht, rfl⟩ | ⟨id, m, hq, hm, hid, rfl⟩ | ⟨t, ht, rfl⟩ |
    ⟨t, -, -, ht, rfl⟩
  · have hleave : s.Quiet ((s.record (.simplified t)).setStatus t .onStack) :=
      quiet_leave (.inr rfl) _ (.inl rfl)
    exact .inr (hleave.trans (Minor.foldl minor_decrementDegree _ _).quiet)
  · rcases (h.attempt_cases hm (isOpen_of_worklist hid)).2 with ⟨hminor, -⟩ | ⟨u, v, hm, hcan, m⟩
    · exact .inr hminor.quiet
    · exact .inl ⟨u, v, hq, hm, hcan, m⟩
  · exact .inr (h.minor_giveUp (.inr ht)).quiet
  · have hleave : s.Quiet ((s.record (.selected t)).setStatus t .simplify) :=
      quiet_leave (.inl rfl) _ (.inr rfl)
    have hends : ((s.record (.selected t)).setStatus t .simplify).aliases.Ends := h.linked.ends
    exact .inr (hleave.trans (minor_freezeMoves hends t).quiet)

/-! ## Nodes that others were merged into -/

/-- What holds of nodes into which others were merged. -/
structure Hosting (s : Coloring) : Prop where
  /-- What others stand for is such a node. -/
  leader : ∀ t, s.leader t ≠ t → ∃ v, .coalesced v (s.leader t) ∈ s.decisions
  /-- What was taken in hope is no longer merged. -/
  leaving : ∀ t, .selected t ∈ s.decisions → s.IsLeaving t
  /-- Such a node was not taken in hope, -/
  unselected : ∀ v u, .coalesced v u ∈ s.decisions → .selected u ∉ s.decisions
  /-- and is in no stuck set. -/
  loose : ∀ v u, .coalesced v u ∈ s.decisions → ∀ T : Finset Temp,
    (∀ t ∈ T, s.isPresent t = true) → s.graph.Stuck s.k T → u ∉ T

theorem Starts.hosting {palette : List Temp} {unspillable : TempSet} {g : Interference}
    (hs : Starts palette unspillable g s) : s.Hosting := by
  constructor
  · intro t ht
    exact absurd (hs.leader t) ht
  all_goals simp [hs.decisions]

section

variable (h : s.Sound) (hh : s.Hosting) (hs : s.step? = some s')

include h hh hs

theorem Hosting.quiet (hquiet : s.Quiet s') : s'.Hosting := by
  constructor
  · intro t ht
    rw [hquiet.leader] at ht ⊢
    obtain ⟨v, hv⟩ := hh.leader t ht
    exact ⟨v, (hquiet.coalesced v _).2 hv⟩
  · intro t ht
    rcases hquiet.selected t ht with ht | ht
    · exact hquiet.leaving t (hh.leaving t ht)
    · exact ht
  · intro v u hu hsel
    rw [hquiet.coalesced] at hu
    rcases (h.follows hs).selected u hsel with hsel | ⟨hq, hfreeze, hcheap⟩
    · exact hh.unselected v u hu hsel
    · -- Nodes are taken in hope from a stuck set.
      obtain ⟨hstuck, -⟩ := h.stuck_virtualNodes hq hfreeze
      refine hh.loose v u hu s.virtualNodes (fun t ht => (Finset.mem_filter.1 ht).2.2) hstuck ?_
      exact h.mem_virtualNodes (h.work.filed.status_of_cheapest hcheap)
  · intro v u hu T hT hstuck
    rw [hquiet.coalesced] at hu
    obtain ⟨hT', hstuck'⟩ := h.stuck_of_step hs hT hstuck
    exact hh.loose v u hu T hT' hstuck'

theorem Hosting.merge (hq : s.queue = []) (hm : s.Mergeable u v)
    (hcan : s.canCombine u v = true) (m : Merges u v s s') : s'.Hosting := by
  have hgone : ∀ t, s.IsLeaving t → s.status t = .onStack := by
    intro t ht
    refine ht.resolve_left fun hready => ?_
    have hmem := (h.work.filed.queue t).2 hready
    simp [hq] at hmem
  constructor
  · intro t ht
    rw [m.decisions]
    by_cases htv : s.leader t = v
    · rw [m.leader_of_eq htv]
      exact ⟨v, List.mem_cons_self⟩
    · rw [m.leader_of_ne htv] at ht ⊢
      obtain ⟨w, hw⟩ := hh.leader t ht
      exact ⟨w, List.mem_cons_of_mem _ hw⟩
  · intro t ht
    have hstack := hgone t (hh.leaving t ((m.selected t).1 ht))
    exact .inr ((m.onStack t).2 hstack)
  · intro v' u' hu hsel
    rw [m.selected] at hsel
    rw [m.decisions] at hu
    rcases List.mem_cons.1 hu with heq | hu
    · obtain ⟨rfl, rfl⟩ := Decision.coalesced.inj heq
      have hinto := hm.into
      simp [isPresent, hgone _ (hh.leaving _ hsel)] at hinto
    · exact hh.unselected v' u' hu hsel
  · intro v' u' hu T hT hstuck
    rw [m.decisions] at hu
    rcases List.mem_cons.1 hu with heq | hu
    · obtain ⟨rfl, rfl⟩ := Decision.coalesced.inj heq
      have hk : s'.k = s.k := by rw [k, k, m.palette]
      intro huT
      have hcons : s.isConservative u' v' = true := by
        simpa [canCombine, (hstuck u' huT).1] using hcan
      exact notMem_of_isConservative h hm m hT hcons (hk ▸ hstuck) huT
    · obtain ⟨hT', hstuck'⟩ := h.stuck_of_step hs hT hstuck
      exact hh.loose v' u' hu T hT' hstuck'

theorem Hosting.step : s'.Hosting := by
  rcases h.merges_or_quiet hs with ⟨u, v, hq, hm, hcan, m⟩ | hquiet
  · exact hh.merge h hs hq hm hcan m
  · exact hh.quiet h hs hquiet

end

/-! ## Merged copies -/

/-- The ends of a merged copy stand for the same node. -/
def Joined (s : Coloring) : Prop :=
  ∀ id m, s.graph.moves[id]? = some m → s.moveStatus id = .coalesced →
    s.leader m.dst = s.leader m.src

/-- A change after which no copy is merged that was not. -/
def MergesNone (s s' : Coloring) : Prop :=
  ∀ id, s'.moveStatus id = .coalesced → s.moveStatus id = .coalesced

theorem MergesNone.trans (h : s.MergesNone s') (h' : s'.MergesNone s'') : s.MergesNone s'' :=
  fun id hid => h id (h' id hid)

theorem MergesNone.foldl {α : Type} {f : Coloring → α → Coloring} (h : ∀ s a, MergesNone s (f s a))
    (as : List α) (s : Coloring) : s.MergesNone (as.foldl f s) := by
  induction as generalizing s with
  | nil => exact fun _ => id
  | cons a as ih => exact (h s a).trans (ih (f s a))

theorem moveStatus_setMoveStatus_of_ne (s : Coloring) {m n : Nat} (hne : m ≠ n)
    (status : MoveStatus) : (s.setMoveStatus m status).moveStatus n = s.moveStatus n := by
  simp [moveStatus, setMoveStatus, Array.getD_eq_getD_getElem?, hne]

theorem mergesNone_setMoveStatus (m : Nat) {status : MoveStatus} (hne : status ≠ .coalesced) :
    s.MergesNone (s.setMoveStatus m status) := by
  intro id hid
  by_cases hm : m = id
  · subst hm
    by_cases hlt : m < s.moveStatuses.size
    · rw [moveStatus_setMoveStatus s hlt, if_pos rfl] at hid
      exact absurd hid hne
    · rwa [setMoveStatus, Array.setIfInBounds_eq_of_size_le (by omega)] at hid
  · rwa [moveStatus_setMoveStatus_of_ne s hm] at hid

theorem mergesNone_enableMoves (s : Coloring) (t : Temp) : s.MergesNone (s.enableMoves t) := by
  refine MergesNone.foldl (fun s m => ?_) _ s
  split
  · exact mergesNone_setMoveStatus m (by simp)
  · exact fun _ => id

theorem mergesNone_decrementDegree (s : Coloring) (t : Temp) :
    s.MergesNone (s.decrementDegree t) := by
  unfold decrementDegree
  split
  · exact fun _ => id
  · dsimp only
    split
    · exact MergesNone.foldl mergesNone_enableMoves _ { s with degrees := _ }
    · exact fun _ => id

theorem mergesNone_release (s : Coloring) (t : Temp) : s.MergesNone (s.release t) :=
  fun m hm => moveStatus_release s t m ▸ hm

theorem mergesNone_freezeMove (u : Temp) (s : Coloring) (m : Nat) :
    s.MergesNone (freezeMove u s m) := by
  rcases freezeMove_eq u s m with ⟨-, heq⟩ | ⟨p, t, -, heq⟩ <;> rw [heq]
  · exact fun _ => id
  · have hclose : { s with aliases := p }.MergesNone
        ({ s with aliases := p }.setMoveStatus m .frozen) := mergesNone_setMoveStatus m (by simp)
    exact hclose.trans (mergesNone_release _ t)

theorem mergesNone_takeOut (s : Coloring) (t : Temp) : s.MergesNone (s.takeOut t) := by
  have hout : s.MergesNone ((s.setStatus t .onStack).record (.simplified t)) := fun _ => id
  exact hout.trans (MergesNone.foldl mergesNone_decrementDegree _ _)

theorem mergesNone_giveUp (s : Coloring) (t : Temp) : s.MergesNone (s.giveUp t) := by
  have hready : s.MergesNone (s.setStatus t .simplify) := fun _ => id
  exact hready.trans (MergesNone.foldl (mergesNone_freezeMove t) _ _)

theorem mergesNone_select (s : Coloring) (t : Temp) : s.MergesNone (s.select t) :=
  mergesNone_giveUp (s.record (.selected t)) t

theorem mergesNone_absorb (u : Temp) (s : Coloring) (t : Temp) : s.MergesNone (absorb u s t) := by
  have hedge : s.MergesNone (s.addEdge t u) := by
    unfold addEdge
    split <;> exact fun _ => id
  exact hedge.trans (mergesNone_decrementDegree _ t)

theorem mergesNone_combine (s : Coloring) (u v : Temp) : s.MergesNone (s.combine u v) := by
  have hredirect : s.MergesNone (s.redirected u v) := mergesNone_enableMoves _ v
  have habsorb := hredirect.trans
    (MergesNone.foldl (mergesNone_absorb u) ((s.redirected u v).adjacent v) _)
  rw [combine_eq]
  generalize ((s.redirected u v).adjacent v).foldl (absorb u) (s.redirected u v) = s₄ at habsorb ⊢
  dsimp only
  split <;> exact habsorb

/-- Deciding about a copy marks no other one as merged, and this one only if its ends stand for
the same node afterwards. -/
theorem Sound.joined_settle (h : s.Sound) {id n : Nat} {m : Move} (he : s.StandFor m u v)
    (hs' : s' = s.settle id u v) (hn : s'.moveStatus n = .coalesced) :
    s.moveStatus n = .coalesced ∨ n = id ∧ s'.leader m.dst = s'.leader m.src := by
  have hself : ∀ x, s.leader (s.leader x) = s.leader x := fun x =>
    h.linked.leader_self _ (h.linked.leader_status x)
  have hu : s.leader u = u := by rcases he with ⟨rfl, -⟩ | ⟨rfl, -⟩ <;> exact hself _
  have hv : s.leader v = v := by rcases he with ⟨-, rfl⟩ | ⟨-, rfl⟩ <;> exact hself _
  have hmark : (s.setMoveStatus id .coalesced).MergesNone s' →
      (∀ x, s'.leader x = if s.leader x = v then u else s.leader x) →
      s.moveStatus n = .coalesced ∨ n = id ∧ s'.leader m.dst = s'.leader m.src := by
    intro hnone hleader
    by_cases hid : n = id
    · refine .inr ⟨hid, ?_⟩
      rw [hleader, hleader]
      rcases he with ⟨rfl, rfl⟩ | ⟨rfl, rfl⟩ <;> simp
    · have hsame := moveStatus_setMoveStatus_of_ne s (Ne.symm hid) .coalesced
      exact .inl (hsame ▸ hnone n hn)
  unfold Coloring.settle at hs'
  split at hs'
  · next heq =>
    subst hs'
    refine hmark (mergesNone_release _ _) fun x => ?_
    have hx : (s.setMoveStatus id .coalesced).leader x = s.leader x := rfl
    rw [(minor_release _ _).leader, hx]
    split
    · next hxv => rw [hxv, heq]
    · rfl
  · next hne =>
    split at hs'
    · subst hs'
      exact .inl (((mergesNone_setMoveStatus id (by simp)).trans (mergesNone_release _ _)).trans
        (mergesNone_release _ _) n hn)
    · split at hs'
      · subst hs'
        refine hmark ((mergesNone_combine _ _ _).trans (mergesNone_release _ _)) fun x => ?_
        rw [(minor_release _ _).leader]
        exact leader_combine (s := s.setMoveStatus id .coalesced) h.linked.ends hv hu hne x
      · subst hs'
        exact .inl (mergesNone_setMoveStatus id (by simp) n hn)

/-- A step marks a copy as merged only if its ends stand for the same node afterwards. -/
theorem Sound.joined_of_step (h : s.Sound) (hs : s.step? = some s') {id : Nat} {m : Move}
    (hm : s.graph.moves[id]? = some m) (hid : s'.moveStatus id = .coalesced) :
    s.moveStatus id = .coalesced ∨ s'.leader m.dst = s'.leader m.src := by
  rcases step?_cases h hs with ⟨t, -, rfl⟩ | ⟨n, m', -, hm', -, hs'⟩ | ⟨t, -, rfl⟩ |
    ⟨t, -, -, -, rfl⟩
  · exact .inl (mergesNone_takeOut s t id hid)
  · obtain ⟨p, u, v, -, hsound, he, hattempt⟩ := h.attempt_eq n m'
    rcases hsound.joined_settle he (hs'.trans hattempt) hid with hid | ⟨rfl, heq⟩
    · exact .inl hid
    · obtain rfl : m = m' := Option.some.inj (hm.symm.trans hm')
      exact .inr heq
  · exact .inl (mergesNone_giveUp s t id hid)
  · exact .inl (mergesNone_select s t id hid)

/-- What stands for one node goes on to do so. -/
theorem Sound.leader_eq_of_step (h : s.Sound) (hs : s.step? = some s') {a b : Temp}
    (heq : s.leader a = s.leader b) : s'.leader a = s'.leader b := by
  rcases h.merges_or_quiet hs with ⟨u, v, -, -, -, m⟩ | hquiet
  · rw [m.leader, m.leader, heq]
  · rw [hquiet.leader, hquiet.leader, heq]

theorem Joined.step (h : s.Sound) (hj : s.Joined) (hs : s.step? = some s') : s'.Joined := by
  intro id m hm hid
  rw [(h.follows hs).moves] at hm
  rcases h.joined_of_step hs hm hid with hid | heq
  · exact h.leader_eq_of_step hs (hj id m hm hid)
  · exact heq

theorem Starts.joined {palette : List Temp} {unspillable : TempSet} {g : Interference}
    (hs : Starts palette unspillable g s) : s.Joined := by
  intro id m hm hid
  exact absurd hid (hs.moveStatus id)

/-! ## The end -/

section

variable (h : s.Sound) (hh : s.Hosting) (hnodup : s.palette.Nodup)

include h hh hnodup

/-- What others were merged into is not spilled. -/
theorem Hosting.notMem_spilled (hu : .coalesced v u ∈ s.decisions) : u ∉ s.outcome.spilled :=
  fun hmem => hh.unselected v u hu (h.selected_of_mem_spilled hnodup hmem)

variable (hs : s.step? = none)

include hs

/-- What stands for another node has a colour, and so has that node. -/
theorem Hosting.exists_color (hne : s.leader u ≠ u) (ht : t ∈ s.graph.nodes)
    (heq : s.leader t = s.leader u) : ∃ c, s.outcome.colors[t]? = some c := by
  obtain ⟨v, hv⟩ := hh.leader u hne
  exact (h.exists_color hs ht).resolve_left (heq ▸ hh.notMem_spilled h hnodup hv)

theorem Hosting.covers (ht : t ∈ s.graph.nodes) :
    t ∈ s.outcome.colors ∨ t ∈ s.outcome.spilled := by
  by_cases hself : s.leader t = t
  · rcases h.exists_color hs ht with hspilled | ⟨c, hc⟩
    · exact .inr (hself ▸ hspilled)
    · exact .inl (Std.TreeMap.isSome_getElem?_iff_mem.1 (by simp [hc]))
  · obtain ⟨c, hc⟩ := hh.exists_color h hnodup hs hself ht rfl
    exact .inl (Std.TreeMap.isSome_getElem?_iff_mem.1 (by simp [hc]))

/-- The ends of a merged copy have one colour. -/
theorem Hosting.colors_eq (hj : s.Joined) {id : Nat} {m : Move}
    (hm : s.graph.moves[id]? = some m) (hne : m.dst ≠ m.src)
    (hid : s.moveStatus id = .coalesced) :
    ∃ c, s.outcome.colors[m.dst]? = some c ∧ s.outcome.colors[m.src]? = some c := by
  have heq := hj id m hm hid
  have hmem := h.work.ends m (List.mem_of_getElem? hm) m.dst (.inl rfl)
  have hsame : s.outcome.colors[m.src]? = s.outcome.colors[m.dst]? := by
    rw [getElem?_colors_outcome h, getElem?_colors_outcome h, heq]
  rw [hsame]
  by_cases hself : s.leader m.dst = m.dst
  · have hsrc : s.leader m.src ≠ m.src := by rwa [← heq, hself]
    obtain ⟨c, hc⟩ := hh.exists_color h hnodup hs hsrc hmem heq
    exact ⟨c, hc, hc⟩
  · obtain ⟨c, hc⟩ := hh.exists_color h hnodup hs hself hmem rfl
    exact ⟨c, hc, hc⟩

end

/-- Copies in a condition are counted among those that have some property, if all in this
condition have it. -/
theorem length_movesIn_le {status : MoveStatus} {p : Move → Bool}
    (hsize : s.moveStatuses.size = s.graph.moves.length)
    (hp : ∀ id m, s.graph.moves[id]? = some m → s.moveStatus id = status → p m = true) :
    (s.movesIn status).length ≤ s.graph.moves.countP p := by
  have hids : List.range s.moveStatuses.size = s.graph.moves.zipIdx.map Prod.snd := by
    rw [List.zipIdx_map_snd, hsize, List.range_eq_range']
  have hmoves : s.graph.moves.countP p = (s.graph.moves.zipIdx.map Prod.fst).countP p := by
    rw [List.zipIdx_map_fst]
  rw [movesIn, ← List.countP_eq_length_filter, hids, hmoves, List.countP_map, List.countP_map]
  refine List.countP_mono_left fun x hx hstatus => ?_
  exact hp x.2 x.1 (List.mem_zipIdx_iff_getElem?.1 hx) (by simpa using hstatus)

end Coloring

/-! ## Outcomes -/

/-- Whether both ends of a copy have the same register. -/
def Outcome.shares (o : Outcome) (m : Move) : Bool :=
  o.colors[m.dst]?.isSome && o.colors[m.dst]? = o.colors[m.src]?

/-- What an outcome says about every node, and about nodes that were merged. -/
structure Outcome.Covers (g : Interference) (o : Outcome) : Prop where
  /-- Every node has a colour or is spilled. -/
  node : ∀ t ∈ g.nodes, t ∈ o.colors ∨ t ∈ o.spilled
  /-- What others were merged into is not spilled. -/
  host : ∀ t u, .coalesced t u ∈ o.decisions → u ∉ o.spilled
  /-- The ends of merged copies share a register. -/
  merged : o.coalescedMoves ≤ g.moves.countP o.shares

variable {palette : List Temp} {unspillable : TempSet} {g : Interference}

/-- No copy of a list is one of a temporary to itself. -/
theorem ne_of_mem_moves_roundGraph {code : List Instr} {flow : Flow} {m : Move}
    (hm : m ∈ (roundGraph palette code flow).moves) : m.dst ≠ m.src := by
  rw [roundGraph, Interference.moves_ofCode, List.mem_filterMap] at hm
  obtain ⟨i, -, hm⟩ := hm
  exact Interference.ne_of_moveOf? hm

/-- What holds of merged nodes and copies in the end. -/
theorem Coloring.hosting_run (unspillable : TempSet) (hg : g.WellFormed)
    (hmoves : g.MovesWithin palette) :
    let s := (start palette unspillable g).run
    s.graph.moves = g.moves ∧ s.Hosting ∧ s.Joined := by
  have hrun := runSteps_induction (s := start palette unspillable g)
    (P := fun s => Reached palette unspillable g s ∧ s.graph.moves = g.moves ∧ s.Hosting ∧
      s.Joined) ?_ (start palette unspillable g).bound ?_
  · exact hrun.2
  · intro s s' ⟨hr, hsame, hh, hj⟩ hs
    exact ⟨hr.step hs, (hr.sound.follows hs).moves.trans hsame, hh.step hr.sound hs,
      hj.step hr.sound hs⟩
  · have hs := starts_start palette unspillable g
    exact ⟨reached_start hg hmoves, by rw [hs.graph], hs.hosting, hs.joined⟩

/-- **Every node is coloured or spilled, and merging keeps its promise**: no node into which
others were merged is spilled, and at least as many copies as were merged have ends with one
register. -/
theorem color_connect_covers (palette : List Temp) (unspillable : TempSet) (code : List Instr)
    (flow : Flow) (pairs : List (Temp × Temp)) (hnodup : palette.Nodup) :
    (color palette unspillable ((roundGraph palette code flow).connect pairs)).Covers
      ((roundGraph palette code flow).connect pairs) := by
  have hg := (wellFormed_roundGraph palette code flow).connect pairs
  have hmoves := (movesWithin_roundGraph palette code flow).connect pairs
  have hne : ∀ m ∈ ((roundGraph palette code flow).connect pairs).moves, m.dst ≠ m.src := by
    intro m hm
    rw [Interference.connect, Interference.moves_addEdges] at hm
    exact ne_of_mem_moves_roundGraph hm
  generalize (roundGraph palette code flow).connect pairs = g at hg hmoves hne ⊢
  have hr := Coloring.reached_run unspillable hg hmoves
  obtain ⟨hsame, hh, hj⟩ := Coloring.hosting_run unspillable hg hmoves
  have hend : (Coloring.start palette unspillable g).run.step? = none :=
    (Coloring.reached_start hg hmoves).sound.step?_run
  have hpalette : (Coloring.start palette unspillable g).run.palette.Nodup :=
    hr.palette.symm ▸ hnodup
  constructor
  · intro t ht
    exact hh.covers hr.sound hpalette hend (hr.nodes.symm ▸ ht)
  · intro t u hu
    exact hh.notMem_spilled hr.sound hpalette (v := t) (by simpa [color, Coloring.outcome] using hu)
  · rw [← hsame]
    refine Coloring.length_movesIn_le hr.sound.work.size fun id m hm hid => ?_
    have hmem : m ∈ g.moves := hsame ▸ List.mem_of_getElem? hm
    obtain ⟨c, hdst, hsrc⟩ := hh.colors_eq hr.sound hpalette hend hj hm (hne m hmem) hid
    rw [Outcome.shares, color, hdst, hsrc]
    simp

/-- A copy that can be merged, and then more temporaries than one register can hold. -/
def copiedThenCrowded : List Instr :=
  [.op "li 'd0, 1" [.virtual 1] [], .move "move 'd0, 's0" (.virtual 2) (.virtual 1),
    .op "print 's0" [] [.virtual 2], .op "li 'd0, 3" [.virtual 3] [],
    .op "li 'd0, 4" [.virtual 4] [], .op "print 's0, 's1" [] [.virtual 3, .virtual 4]]

theorem copiedThenCrowded_covers :
    let palette : List Temp := [.register "t0"]
    let g := (roundGraph palette copiedThenCrowded ⟨#[[1], [2], [3], [4], [5], []]⟩).connect []
    palette.Nodup ∧ (color palette ∅ g).coalescedMoves = 1 ∧
      (color palette ∅ g).spilled = [.virtual 3] ∧ (color palette ∅ g).Covers g := by
  intro palette g
  have hnodup : palette.Nodup := by decide
  have hout : ((color palette ∅ g).coalescedMoves, (color palette ∅ g).spilled) =
      (1, [.virtual 3]) := by decide +kernel
  obtain ⟨hmoves, hspilled⟩ := Prod.mk.inj hout
  exact ⟨hnodup, hmoves, hspilled,
    color_connect_covers palette ∅ copiedThenCrowded _ [] hnodup⟩

end Lowering
