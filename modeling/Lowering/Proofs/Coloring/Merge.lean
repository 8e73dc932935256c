import Lowering.Proofs.Coloring.Invariant

/-!
# Merging keeps what holds throughout

Merging first lets `v` stand for `u`, with its copies, and then hands its neighbours on
to `u` one after another.  In between the links between neighbours are broken, so the
two parts are described on their own and put together at the end.

## Main definitions

* `Coloring.Sound.combine` — merging two nodes.
* `Coloring.attempt`, `Coloring.coalesce_eq` — trying a copy, as a change of its condition.
* `Coloring.Sound.attempt_cases` — what trying a copy can do.
-/

namespace Lowering.Coloring

variable {s s' : Coloring} {t u v : Temp}

theorem leader_redirect (h : s.aliases.Ends) (hv : s.leader v = v) (hu : s.leader u = u)
    (hne : u ≠ v) (t : Temp) :
    (s.redirect v u).leader t = if s.leader t = v then u else s.leader t :=
  Aliases.Ends.root_redirect ((h.root_eq_self_iff v).1 hv) ((h.root_eq_self_iff u).1 hu) hne h t

/-- Handing the copies of `v` on to `u` keeps them listed. -/
theorem Work.inherit (h : s.Work)
    (hredirect : ∀ x, (s.redirect v u).leader x = if s.leader x = v then u else s.leader x)
    (hu : u ∈ s.graph.nodes) (hhost : s.CopiesWithin → u.isAllocatable s.palette = true)
    (hready : s.status u ≠ .simplify) (hstack : s.status u ≠ .onStack) :
    ((s.redirect v u).inheritMoves u v).Work := by
  have hlists : ∀ x, ((s.redirect v u).inheritMoves u v).moveLists.get x =
      if u = x then s.moveLists.get x ++
        (s.moveLists.get v).filter fun m => !(s.moveLists.get u).contains m
      else s.moveLists.get x := fun x => Table.get_update ..
  have hleader : ∀ x, ((s.redirect v u).inheritMoves u v).leader x =
      if s.leader x = v then u else s.leader x := hredirect
  constructor
  · exact h.node
  · exact h.fixed
  · exact h.filed.update ..
  · exact h.size
  · exact h.ends
  · intro t ht
    rw [hleader]
    split
    · exact hu
    · exact h.leader t ht
  · intro hwithin t ht
    rw [hleader]
    split
    · exact hhost hwithin
    · exact h.host hwithin t ht
  · intro id m hm hopen t ht
    have hlisted := h.listed id m hm hopen t ht
    rw [hleader, hlists]
    by_cases htv : s.leader t = v
    · rw [htv] at hlisted
      by_cases hid : id ∈ s.moveLists.get u
      · simp [htv, hid]
      · simp [htv, hid, hlisted]
    · rw [if_neg htv]
      split
      · exact List.mem_append_left _ hlisted
      · exact hlisted
  · intro t ht
    have htu : ¬u = t := by
      rintro rfl
      exact ht.elim hready hstack
    have hnil : s.openMoves t = [] := h.idle t ht
    have heq : ((s.redirect v u).inheritMoves u v).openMoves t =
        (((s.redirect v u).inheritMoves u v).moveLists.get t).filter
          fun m => (s.moveStatus m).isOpen := rfl
    rw [heq, hlists, if_neg htu]
    exact hnil

/-- The state in the middle of a merge: `v` stands for `u` and its copies are those of
`u`, but its neighbours have not been handed on. -/
def redirected (s : Coloring) (u v : Temp) : Coloring :=
  let merged := ((s.record (.coalesced v u)).setStatus v .coalesced).redirect v u
  (merged.inheritMoves u v).enableMoves v

theorem combine_eq (s : Coloring) (u v : Temp) : s.combine u v =
    let s₄ := ((s.redirected u v).adjacent v).foldl (absorb u) (s.redirected u v)
    if s₄.isSignificant u && s₄.status u = .freeze then s₄.setStatus u .spill else s₄ := rfl

private theorem sameButMoves_redirected (s : Coloring) (u v : Temp) :
    ((((s.record (.coalesced v u)).setStatus v .coalesced).redirect v u).inheritMoves u
      v).SameButMoves (s.redirected u v) := sameButMoves_enableMoves _ v

theorem graph_redirected (s : Coloring) (u v : Temp) :
    (s.redirected u v).graph = s.graph ∧ (s.redirected u v).degrees = s.degrees ∧
      (s.redirected u v).stack = s.stack ∧ (s.redirected u v).palette = s.palette ∧
      (s.redirected u v).unspillable = s.unspillable ∧
      (s.redirected u v).decisions = .coalesced v u :: s.decisions := by
  obtain ⟨_, _, _, h⟩ := sameButMoves_redirected s u v
  rw [h]
  exact ⟨rfl, rfl, rfl, rfl, rfl, rfl⟩

theorem status_redirected (s : Coloring) (u v x : Temp) :
    (s.redirected u v).status x = if v = x then .coalesced else s.status x := by
  obtain ⟨_, _, _, h⟩ := sameButMoves_redirected s u v
  rw [h]
  exact status_setStatus (s.record (.coalesced v u)) v x .coalesced

private theorem aliases_redirected (s : Coloring) (u v : Temp) :
    (s.redirected u v).aliases = s.aliases.point v u := by
  obtain ⟨_, _, _, h⟩ := sameButMoves_redirected s u v
  rw [h]
  rfl

section

variable (h : s.aliases.Ends) (hv : s.leader v = v) (hu : s.leader u = u) (hne : u ≠ v)

include h hv hu hne

private theorem leader_redirected (x : Temp) :
    (s.redirected u v).leader x = if s.leader x = v then u else s.leader x := by
  rw [leader, aliases_redirected]
  exact leader_redirect h hv hu hne x

/-- After a merge, what stood for `v` stands for `u`. -/
theorem leader_combine (x : Temp) :
    (s.combine u v).leader x = if s.leader x = v then u else s.leader x := by
  have hminor := Minor.foldl (minor_absorb u) ((s.redirected u v).adjacent v) (s.redirected u v)
  rw [combine_eq, ← leader_redirected h hv hu hne, ← hminor.leader]
  generalize ((s.redirected u v).adjacent v).foldl (absorb u) (s.redirected u v) = s₄
  dsimp only
  split <;> rfl

end

section

variable (h : s.Sound) (hm : s.Mergeable u v)

include h hm in
private theorem Sound.leader_redirected (x : Temp) :
    (s.redirected u v).leader x = if s.leader x = v then u else s.leader x :=
  Coloring.leader_redirected h.linked.ends (h.linked.leader_of_isPresent hm.present)
    (h.linked.leader_of_isPresent hm.into) hm.ne x

include h hm in
private theorem ends_redirected : (s.redirected u v).aliases.Ends := by
  have hself : ∀ t, s.isPresent t = true → s.aliases.target t = t := fun t ht =>
    (h.linked.ends.root_eq_self_iff t).1 (h.linked.leader_of_isPresent ht)
  rw [aliases_redirected]
  exact .redirect (hself v hm.present) (hself u hm.into) hm.ne h.linked.ends

include h hm in
private theorem work_redirected (hu : u ∈ s.graph.nodes) (hv : v ∈ s.graph.nodes)
    (hhost : s.CopiesWithin → u.isAllocatable s.palette = true) (hready : s.status u ≠ .simplify) :
    (s.redirected u v).Work := by
  have hi := (h.work.node v).2 hv
  have hf : s.status v ≠ .fixed := by
    rw [ne_eq, h.work.fixed v hv, hm.virtual]
    simp
  have hwork : ((s.record (.coalesced v u)).setStatus v .coalesced).Work :=
    (h.work.record _).setStatus hi hf (by simp) (by simp) (by simp)
  have hstatus : ((s.record (.coalesced v u)).setStatus v .coalesced).status u = s.status u := by
    rw [status_setStatus, if_neg (Ne.symm hm.ne)]
    rfl
  have hstack : s.status u ≠ .onStack := by
    intro hs
    have hp := hm.into
    simp [isPresent, hs] at hp
  have hredirect := leader_redirect h.linked.ends (h.linked.leader_of_isPresent hm.present)
    (h.linked.leader_of_isPresent hm.into) hm.ne
  refine (hwork.inherit hredirect hu hhost ?_ ?_).minor (minor_enableMoves _ v)
  · rw [hstatus]
    exact hready
  · rw [hstatus]
    exact hstack

include h hm in
theorem counts_redirected :
    (s.redirected u v).Counts ((s.redirected u v).adjacent v) := by
  obtain ⟨_, _, _, heq⟩ := sameButMoves_redirected s u v
  have hcounts := (h.record (.coalesced v u)).counts.leave h.linked.graph hm.virtual hm.present
    (.inr rfl)
  rw [heq]
  exact hcounts.congr rfl (fun _ => rfl) rfl

include h in
private theorem fits_redirected (x : Temp) : (s.redirected u v).Fits x := by
  have hfits : ((s.record (.coalesced v u)).setStatus v .coalesced).Fits x := by
    by_cases hx : v = x
    · subst hx
      exact (fits_setStatus_self .coalesced).2 trivial
    · exact ((h.fits x).record _).setStatus_of_ne hx .coalesced
  exact (sameButMoves_redirected s u v).fits_iff.2 hfits

include h in
private theorem mem_adjacent_redirected (t : Temp) :
    t ∈ (s.redirected u v).adjacent v ↔ t ∈ s.remaining v := by
  rw [mem_adjacent, mem_remaining, (graph_redirected s u v).1]
  refine and_congr_right fun ht => ?_
  have htv : v ≠ t := fun heq => h.linked.graph.irrefl v (heq ▸ ht)
  rw [isPresent, isPresent, status_redirected, if_neg htv]

include hm in
theorem isPresent_redirected : (s.redirected u v).isPresent u = true := by
  have hp := hm.into
  rwa [isPresent, status_redirected, if_neg (Ne.symm hm.ne), ← isPresent]

include h hm in
/-- The neighbours that are handed on are in the graph, and the node to which they are handed on
is none of them. -/
theorem of_mem_adjacent_redirected (ht : t ∈ (s.redirected u v).adjacent v) :
    t ∈ (s.redirected u v).graph.nodes ∧ (s.redirected u v).isPresent t = true ∧ t ≠ u := by
  have hgraph := (graph_redirected s u v).1
  refine ⟨?_, (mem_adjacent.1 ht).2, ?_⟩
  · rw [hgraph]
    exact (h.linked.graph.mem (hgraph ▸ (mem_adjacent.1 ht).1)).2
  · rintro rfl
    have hadj := (h.linked.graph.adjacent_iff hm.virtual).2 (hgraph ▸ (mem_adjacent.1 ht).1)
    rw [h.linked.graph.adjacent_comm, hm.apart] at hadj
    cases hadj

include h hm in
private theorem absorbed_redirected (hu : u ∈ s.graph.nodes) :
    Absorbed u ((s.redirected u v).adjacent v) (s.redirected u v)
      (((s.redirected u v).adjacent v).foldl (absorb u) (s.redirected u v)) := by
  have hgraph := (graph_redirected s u v).1
  exact absorbed_foldl (hgraph ▸ h.linked.graph) (hgraph ▸ hu) (isPresent_redirected hm)
    (fun t => of_mem_adjacent_redirected h hm) (counts_redirected h hm)
    fun x _ => fits_redirected h x

include h hm in
private theorem merges_absorbed (hu : u ∈ s.graph.nodes) {s' : Coloring}
    (ha : Absorbed u ((s.redirected u v).adjacent v) (s.redirected u v) s') : Merges u v s s' := by
  obtain ⟨hgraph, -, hstack, hpalette, hunspillable, hdecisions⟩ := graph_redirected s u v
  have hmem : ∀ t, t ∈ (s.redirected u v).adjacent v ↔ t ∈ s.remaining v :=
    mem_adjacent_redirected h
  have hpairs : ∀ p ∈ ((s.redirected u v).adjacent v).map fun t => (t, u),
      p.1 ∈ s.graph.nodes ∧ p.2 ∈ s.graph.nodes := by
    intro p hp
    obtain ⟨t, ht, rfl⟩ := List.mem_map.1 hp
    exact ⟨(h.linked.graph.mem (mem_remaining.1 ((hmem t).1 ht)).1).2, hu⟩
  have hne : ∀ t ∈ s.remaining v, t ≠ u := fun t ht =>
    (of_mem_adjacent_redirected h hm ((hmem t).2 ht)).2.2
  constructor
  · rw [ha.graph, hgraph]
    exact h.linked.graph.addEdges hpairs
  · exact ha.minor.ends (ends_redirected h hm)
  · intro a b
    rw [ha.graph, hgraph, h.linked.graph.adjacent_addEdges hpairs]
    refine or_congr_right ?_
    simp only [List.mem_map, Prod.mk.injEq, hmem]
    constructor
    · rintro ⟨-, ⟨t, ht, rfl, rfl⟩ | ⟨t, ht, rfl, rfl⟩⟩
      · exact .inr ⟨rfl, ht⟩
      · exact .inl ⟨rfl, ht⟩
    · rintro (⟨rfl, hb⟩ | ⟨rfl, hb⟩)
      · exact ⟨(hne b hb).symm, .inr ⟨b, hb, rfl, rfl⟩⟩
      · exact ⟨hne a hb, .inl ⟨a, hb, rfl, rfl⟩⟩
  · intro t
    rw [ha.minor.leader, h.leader_redirected hm]
  · rw [ha.minor.stack, hstack]
  · intro t
    rw [ha.minor.status_onStack, status_redirected]
    split
    · next heq =>
      subst heq
      refine iff_of_false (by simp) fun hs => ?_
      have hp := hm.present
      simp [isPresent, hs] at hp
    · rfl
  · intro t
    rw [ha.minor.status_coalesced, status_redirected]
    split
    · next heq => simp [heq]
    · next heq => simp [Ne.symm heq]
  · rw [ha.minor.palette, hpalette]
  · rw [ha.minor.unspillable, hunspillable]
  · rw [ha.minor.nodes, hgraph]
  · rw [ha.minor.moves, hgraph]
  · rw [ha.minor.decisions, hdecisions]

/-- Small changes after a merge. -/
theorem Merges.minor {s₁ s₂ : Coloring} (m : Merges u v s s₁) (hminor : s₁.Minor s₂)
    (hgraph : s₂.graph = s₁.graph) : Merges u v s s₂ where
  graph := hgraph ▸ m.graph
  ends := hminor.ends m.ends
  adjacent := hgraph ▸ m.adjacent
  leader t := (hminor.leader t).trans (m.leader t)
  stack := hminor.stack.trans m.stack
  onStack t := (hminor.status_onStack t).trans (m.onStack t)
  coalesced t := (hminor.status_coalesced t).trans (m.coalesced t)
  palette := hminor.palette.trans m.palette
  unspillable := hminor.unspillable.trans m.unspillable
  nodes := hminor.nodes.trans m.nodes
  moves := hminor.moves.trans m.moves
  decisions := hminor.decisions.trans m.decisions

theorem Merges.isPresent (m : Merges u v s s') (ht : s'.isPresent t = true) :
    s.isPresent t = true ∧ t ≠ v := by
  rw [isPresent_iff, ne_eq, m.onStack, ne_eq, m.coalesced, not_or] at ht
  exact ⟨isPresent_iff.2 ⟨ht.1, ht.2.1⟩, ht.2.2⟩

include h hm in
/-- **Merging keeps all that holds throughout.** -/
theorem Sound.combine (hu : u ∈ s.graph.nodes) (hv : v ∈ s.graph.nodes)
    (hhost : s.CopiesWithin → u.isAllocatable s.palette = true) (hready : s.status u ≠ .simplify) :
    (s.combine u v).Sound ∧ Merges u v s (s.combine u v) := by
  have ha := absorbed_redirected h hm hu
  rw [combine_eq]
  generalize ((s.redirected u v).adjacent v).foldl (absorb u) (s.redirected u v) = s₄ at ha ⊢
  have hm₄ := merges_absorbed h hm hu ha
  have hlinked := h.linked.merge hm hm₄
  have hwork := (work_redirected h hm hu hv hhost hready).minor ha.minor
  have hdegrees := (graph_redirected s u v).2.1
  have hk₄ : s₄.k = s.k := by rw [k, k, hm₄.palette]
  have hstatus : s₄.status u = s.status u := by
    rw [ha.status, status_redirected, if_neg (Ne.symm hm.ne)]
  have hdegree : s.degree u ≤ s₄.degree u := by
    have hle := ha.degree
    rwa [degree, hdegrees] at hle
  dsimp only
  split
  · next hsig =>
    simp only [Bool.and_eq_true, decide_eq_true_eq] at hsig
    have hminor : s₄.Minor (s₄.setStatus u .spill) :=
      minor_setStatus (.inr hsig.2) (.inl (.inl rfl))
    refine ⟨⟨hlinked.minor hminor rfl, hwork.minor hminor,
      ha.counts.congr rfl hminor.isPresent rfl, fun x => ?_⟩, hm₄.minor hminor rfl⟩
    by_cases hx : u = x
    · subst hx
      rw [fits_setStatus_self]
      -- A node in a copy is virtual, so it is significant only by its degree.
      have hreg := (hwork.isRegister_eq_false (t := u) (by simp [hsig.2]) (by simp [hsig.2])).2
      have hhigh : s₄.k ≤ s₄.degree u := by simpa [isSignificant, hreg] using hsig.1
      exact hhigh
    · exact (ha.fits x (Ne.symm hx)).setStatus_of_ne hx .spill
  · next hsig =>
    refine ⟨⟨hlinked, hwork, ha.counts, fun x => ?_⟩, hm₄⟩
    by_cases hx : x = u
    · subst hx
      have hfits := h.fits x
      rw [Fits] at hfits ⊢
      rw [hstatus, hk₄]
      cases hs : s.status x with
      | freeze =>
        rw [hstatus, hs] at hsig
        have hlow : s₄.degree x < s₄.k := by simp [isSignificant] at hsig; exact hsig.2
        rwa [hk₄] at hlow
      | spill =>
        rw [hs] at hfits
        exact hfits.trans hdegree
      | simplify => exact absurd hs hready
      | _ => trivial
    · exact ha.fits x hx

end

/-! ## Trying a copy -/

/-- The ends of a copy that may still be merged are in the graph, and are not ready to be
taken out. -/
theorem Sound.ends (h : s.Sound) {id : Nat} {m : Move} (hm : s.graph.moves[id]? = some m)
    (hopen : (s.moveStatus id).isOpen = true) (ht : t = m.dst ∨ t = m.src) :
    s.isPresent (s.leader t) = true ∧ s.leader t ∈ s.graph.nodes ∧
      (s.CopiesWithin → (s.leader t).isAllocatable s.palette = true) ∧
      s.status (s.leader t) ≠ .simplify := by
  have hlisted : id ∈ s.openMoves (s.leader t) :=
    mem_openMoves.2 ⟨h.work.listed id m hm hopen t ht, hopen⟩
  have hbusy : ¬(s.status (s.leader t) = .simplify ∨ s.status (s.leader t) = .onStack) := by
    intro hs
    simp [h.work.idle _ hs] at hlisted
  have hmem := h.work.ends m (List.mem_of_getElem? hm) t ht
  have hhost : s.CopiesWithin → (s.leader t).isAllocatable s.palette = true := by
    intro hwithin
    cases hr : t.isRegister with
    | false => exact h.work.host hwithin t hr
    | true =>
      have hfixed := (h.work.fixed t hmem).2 hr
      rw [h.linked.leader_self t (by simp [hfixed])]
      exact hwithin m (List.mem_of_getElem? hm) t ht
  rw [not_or] at hbusy
  refine ⟨?_, h.work.leader t hmem, hhost, hbusy.1⟩
  simp [isPresent, hbusy.2, h.linked.leader_status t]

/-- Two nodes are what the ends of a copy stand for. -/
def StandFor (s : Coloring) (m : Move) (u v : Temp) : Prop :=
  u = s.leader m.dst ∧ v = s.leader m.src ∨ u = s.leader m.src ∧ v = s.leader m.dst

theorem StandFor.minor {m : Move} (h : s.StandFor m u v) (hminor : s.Minor s') :
    s'.StandFor m u v := by
  rwa [StandFor, hminor.leader, hminor.leader]

/-- Looking up what the ends of a copy stand for shortens ways. -/
theorem endsOf_eq (h : s.aliases.Ends) (m : Move) : ∃ p u v, s.aliases.Shortens p ∧
    s.StandFor m u v ∧ s.endsOf m = ((u, v), { s with aliases := p }) := by
  have h₁ := h.find m.dst
  have hsrc : ((s.aliases.find m.dst).2.find m.src).1 = s.leader m.src := h₁.root m.src
  have heq : s.endsOf m = (if (s.leader m.src).isRegister then (s.leader m.src, s.leader m.dst)
      else (s.leader m.dst, s.leader m.src),
      { s with aliases := ((s.aliases.find m.dst).2.find m.src).2 }) := by
    rw [← hsrc]
    rfl
  have hshort := h₁.trans (h₁.ends.find m.src)
  rw [heq]
  split
  · exact ⟨_, _, _, hshort, .inr ⟨rfl, rfl⟩, rfl⟩
  · exact ⟨_, _, _, hshort, .inl ⟨rfl, rfl⟩, rfl⟩

/-- Change the condition of a copy that is tried. -/
def attempt (s : Coloring) (id : Nat) (m : Move) : Coloring :=
  let ((u, v), s) := s.endsOf m
  s.settle id u v

/-- To take a copy from its list and then mark it is to change its condition. -/
theorem setMoveStatus_popped {id : Nat} (h : s.moveStatus id = .worklist) {status : MoveStatus}
    (hstatus : status ≠ .worklist) :
    ({ s with trySet := s.trySet.erase id }.writeMoveStatus id .constrained).setMoveStatus id
      status = s.setMoveStatus id status := by
  have hid : id < s.moveStatuses.size := lt_size_of_isOpen (h ▸ rfl)
  have hwritten : ({ s with trySet := s.trySet.erase id }.writeMoveStatus id
      .constrained).moveStatus id = .constrained :=
    (moveStatus_setMoveStatus s hid id .constrained).trans (if_pos rfl)
  rw [setMoveStatus, setMoveStatus, hwritten, h]
  simp [writeMoveStatus, refile, hstatus]

theorem coalesce_eq {id : Nat} (h : s.moveStatus id = .worklist) (m : Move) :
    { s with trySet := s.trySet.erase id }.coalesce id m = s.attempt id m := by
  have hset : ∀ status : MoveStatus, status ≠ .worklist →
      ({ (s.endsOf m).2 with trySet := s.trySet.erase id }.writeMoveStatus id
        .constrained).setMoveStatus id status = (s.endsOf m).2.setMoveStatus id status :=
    fun status => setMoveStatus_popped (s := (s.endsOf m).2) h
  have hsettle : ∀ u v, ({ (s.endsOf m).2 with trySet := s.trySet.erase id }.writeMoveStatus id
      .constrained).settle id u v = (s.endsOf m).2.settle id u v := by
    intro u v
    rw [settle, settle, hset _ (by simp), hset _ (by simp), hset _ (by simp)]
    rfl
  exact hsettle (s.endsOf m).1.1 (s.endsOf m).1.2

/-- A copy that is closed. -/
theorem Sound.close (h : s.Sound) (id : Nat) (status : MoveStatus) (hs : status.isOpen = false) :
    (s.setMoveStatus id status).Sound ∧ s.Minor (s.setMoveStatus id status) := by
  have hkeep : status.isOpen = true → (s.moveStatus id).isOpen = true := by simp [hs]
  exact ⟨h.setMoveStatus hkeep, minor_setMoveStatus hkeep⟩

section

variable (h : s.Sound) {id : Nat} {m : Move} (hm : s.graph.moves[id]? = some m)
  (hopen : (s.moveStatus id).isOpen = true) (he : s.StandFor m u v)

include h hm hopen he

/-- What the ends of a copy that may still be merged stand for is in the graph. -/
theorem Sound.present_of_standFor :
    (s.isPresent u = true ∧ u ∈ s.graph.nodes) ∧ (s.isPresent v = true ∧ v ∈ s.graph.nodes) ∧
      (s.CopiesWithin → u.isAllocatable s.palette = true) ∧ s.status u ≠ .simplify := by
  obtain ⟨hdp, hdmem, hdhost, hdready⟩ := h.ends hm hopen (.inl rfl)
  obtain ⟨hsp, hsmem, hshost, hsready⟩ := h.ends hm hopen (.inr rfl)
  rcases he with ⟨rfl, rfl⟩ | ⟨rfl, rfl⟩
  · exact ⟨⟨hdp, hdmem⟩, ⟨hsp, hsmem⟩, hdhost, hdready⟩
  · exact ⟨⟨hsp, hsmem⟩, ⟨hdp, hdmem⟩, hshost, hsready⟩

/-- What trying a copy does to the nodes that stand for its ends. -/
theorem Sound.settle_cases :
    u = v ∧ s.settle id u v = (s.setMoveStatus id .coalesced).release u ∨
    s.settle id u v = ((s.setMoveStatus id .constrained).release u).release v ∨
    (s.settle id u v = ((s.setMoveStatus id .coalesced).combine u v).release u ∧
      v ∈ s.graph.nodes ∧ s.Mergeable u v ∧ s.canCombine u v = true ∧
      ((s.setMoveStatus id .coalesced).combine u v).Sound ∧
      Merges u v (s.setMoveStatus id .coalesced) ((s.setMoveStatus id .coalesced).combine u v)) ∨
    s.settle id u v = s.setMoveStatus id .active := by
  obtain ⟨⟨hup, humem⟩, ⟨hvp, hvmem⟩, hhost, huready⟩ := h.present_of_standFor hm hopen he
  unfold settle
  split
  · next heq => exact .inl ⟨heq, rfl⟩
  · next hne =>
    split
    · exact .inr (.inl rfl)
    · next hcon =>
      simp only [Bool.or_eq_true, not_or, Bool.not_eq_true] at hcon
      split
      · next hcan =>
        obtain ⟨hsound, -⟩ := h.close id .coalesced rfl
        have hmerge : (s.setMoveStatus id .coalesced).Mergeable u v :=
          ⟨hup, hvp, hcon.1, hne, hcon.2⟩
        exact .inr (.inr (.inl ⟨rfl, hvmem, ⟨hup, hvp, hcon.1, hne, hcon.2⟩, hcan,
          hsound.combine hmerge humem hvmem hhost huready⟩))
      · exact .inr (.inr (.inr rfl))

/-- Seen as a whole: a small change after which one copy less is to be tried, or a merge of two
nodes for which that is safe. -/
theorem Sound.settle :
    (s.settle id u v).Sound ∧
      ((s.Minor (s.settle id u v) ∧ (s.settle id u v).graph = s.graph ∧
          ∀ n, (s.settle id u v).moveStatus n = .worklist → n ≠ id ∧ s.moveStatus n = .worklist) ∨
        s.Mergeable u v ∧ s.canCombine u v = true ∧ Merges u v s (s.settle id u v)) := by
  have htried : ∀ status : MoveStatus, status ≠ .worklist → ∀ n,
      (s.setMoveStatus id status).moveStatus n = .worklist →
        n ≠ id ∧ s.moveStatus n = .worklist := by
    intro status hne n hn
    rw [moveStatus_setMoveStatus s (lt_size_of_isOpen hopen)] at hn
    split at hn
    · exact absurd hn hne
    · next hid => exact ⟨Ne.symm hid, hn⟩
  obtain ⟨-, heq⟩ | heq | ⟨heq, -, hmerge, hcan, hsound, m'⟩ | heq := h.settle_cases hm hopen he
  · obtain ⟨hsound, hminor⟩ := h.close id .coalesced rfl
    rw [heq]
    refine ⟨hsound.release u, .inl ⟨hminor.trans (minor_release _ u), graph_release _ u, ?_⟩⟩
    simpa only [moveStatus_release] using htried .coalesced (by simp)
  · obtain ⟨hsound, hminor⟩ := h.close id .constrained rfl
    rw [heq]
    refine ⟨(hsound.release u).release v, .inl ⟨?_, ?_, ?_⟩⟩
    · exact (hminor.trans (minor_release _ u)).trans (minor_release _ v)
    · rw [graph_release, graph_release]
      rfl
    · simpa only [moveStatus_release] using htried .constrained (by simp)
  · have m'' : Merges u v s ((s.setMoveStatus id .coalesced).combine u v) :=
      ⟨m'.graph, m'.ends, m'.adjacent, m'.leader, m'.stack, m'.onStack, m'.coalesced, m'.palette,
        m'.unspillable, m'.nodes, m'.moves, m'.decisions⟩
    rw [heq]
    refine ⟨hsound.release u, .inr ⟨hmerge, hcan, ?_⟩⟩
    exact m''.minor (minor_release _ u) (graph_release _ u)
  · have hopen' : MoveStatus.active.isOpen = true → (s.moveStatus id).isOpen = true :=
      fun _ => hopen
    rw [heq]
    exact ⟨h.setMoveStatus hopen',
      .inl ⟨minor_setMoveStatus hopen', rfl, htried .active (by simp)⟩⟩

end

/-- Trying a copy is deciding about it in a state with shorter ways, where all holds too. -/
theorem Sound.attempt_eq (h : s.Sound) (id : Nat) (m : Move) :
    ∃ p u v, s.Minor { s with aliases := p } ∧ { s with aliases := p }.Sound ∧
      { s with aliases := p }.StandFor m u v ∧
      s.attempt id m = { s with aliases := p }.settle id u v := by
  obtain ⟨p, u, v, hp, he, heq⟩ := endsOf_eq h.linked.ends m
  have hminor := minor_aliases hp
  exact ⟨p, u, v, hminor, h.minor hminor rfl rfl h.fits, he.minor hminor, by rw [attempt, heq]⟩

/-- What trying a copy can do: a small change after which one copy less is to be tried, or a
merge of two nodes for which that is safe. -/
theorem Sound.attempt_cases (h : s.Sound) {id : Nat} {m : Move}
    (hm : s.graph.moves[id]? = some m) (hopen : (s.moveStatus id).isOpen = true) :
    (s.attempt id m).Sound ∧
      ((s.Minor (s.attempt id m) ∧ (s.attempt id m).graph = s.graph ∧
          ∀ n, (s.attempt id m).moveStatus n = .worklist → n ≠ id ∧ s.moveStatus n = .worklist) ∨
        ∃ u v, s.Mergeable u v ∧ s.canCombine u v = true ∧ Merges u v s (s.attempt id m)) := by
  obtain ⟨p, u, v, hminor, hsound, he, heq⟩ := h.attempt_eq id m
  rw [heq]
  obtain ⟨hsettled, ⟨hsmall, hrest⟩ | ⟨hmerge, hcan, m'⟩⟩ := hsound.settle hm hopen he
  · exact ⟨hsettled, .inl ⟨hminor.trans hsmall, hrest⟩⟩
  · refine ⟨hsettled, .inr ⟨u, v, ⟨hmerge.into, hmerge.present, hmerge.virtual, hmerge.ne,
      hmerge.apart⟩, hcan, ?_⟩⟩
    exact
      { m' with
        adjacent := m'.adjacent
        leader := fun t => by rw [m'.leader, hminor.leader]
        onStack := m'.onStack
        coalesced := m'.coalesced }

end Lowering.Coloring
