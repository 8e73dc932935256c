import Lowering.Proofs.Coloring.Link

/-!
# What holds throughout a colouring

Besides the links between neighbours and the count of neighbours, the lists of work are
in order: the condition of a node tells whether it is a register, a node that is ready
to be taken out has no copy left, and every open copy is listed with the nodes that
stand for its ends.  So the ends of a copy that is tried are in the graph.

## Main definitions

* `Coloring.Work` — the lists of work are in order.
* `Coloring.Sound` — all that holds throughout.
* `Coloring.takeOut`, `Coloring.giveUp` — what steps do to a node, as changes of its condition.
* `Coloring.Sound.takeOut`, `Coloring.Sound.giveUp` — these keep what holds throughout.
-/

namespace Lowering.Coloring

variable {s s' : Coloring} {t u v : Temp}

/-- All copies are between nodes that may take a colour of the palette. -/
def CopiesWithin (s : Coloring) : Prop :=
  ∀ m ∈ s.graph.moves, ∀ t, t = m.dst ∨ t = m.src → t.isAllocatable s.palette = true

/-- The lists of work are in order. -/
structure Work (s : Coloring) : Prop where
  node : ∀ t, s.status t ≠ .initial ↔ t ∈ s.graph.nodes
  fixed : ∀ t, t ∈ s.graph.nodes → (s.status t = .fixed ↔ t.isRegister = true)
  filed : s.Filed
  size : s.moveStatuses.size = s.graph.moves.length
  ends : ∀ m ∈ s.graph.moves, ∀ t, t = m.dst ∨ t = m.src → t ∈ s.graph.nodes
  leader : ∀ t ∈ s.graph.nodes, s.leader t ∈ s.graph.nodes
  /-- Only registers of the palette stand for virtual nodes, if copies are within it. -/
  host : s.CopiesWithin → ∀ t, t.isRegister = false → (s.leader t).isAllocatable s.palette = true
  /-- Open copies are listed with the nodes that stand for their ends. -/
  listed : ∀ id m, s.graph.moves[id]? = some m → (s.moveStatus id).isOpen = true →
    ∀ t, t = m.dst ∨ t = m.src → id ∈ s.moveLists.get (s.leader t)
  /-- A node that is ready or was taken out has no open copy. -/
  idle : ∀ t, s.status t = .simplify ∨ s.status t = .onStack → s.openMoves t = []

theorem Work.isRegister_eq_false (h : s.Work) (hi : s.status t ≠ .initial)
    (hf : s.status t ≠ .fixed) : t ∈ s.graph.nodes ∧ t.isRegister = false := by
  have hmem := (h.node t).1 hi
  exact ⟨hmem, by simpa [h.fixed t hmem] using hf⟩

theorem Work.minor (h : s.Work) (hminor : s.Minor s') : s'.Work := by
  have hinitial : ∀ t, s'.status t = .initial ↔ s.status t = .initial := by
    intro t
    rcases hminor.status t with h₁ | ⟨h₁ | h₁, (h₂ | h₂) | ⟨h₂, -⟩⟩ <;> simp [*]
  have hfixed : ∀ t, s'.status t = .fixed ↔ s.status t = .fixed := by
    intro t
    rcases hminor.status t with h₁ | ⟨h₁ | h₁, (h₂ | h₂) | ⟨h₂, -⟩⟩ <;> simp [*]
  constructor
  · intro t
    rw [hminor.nodes, ← h.node, ne_eq, ne_eq, hinitial]
  · intro t ht
    rw [hminor.nodes] at ht
    rw [hfixed, h.fixed t ht]
  · exact hminor.filed h.filed
  · rw [hminor.size, hminor.moves, h.size]
  · rw [hminor.moves, hminor.nodes]
    exact h.ends
  · intro t ht
    rw [hminor.nodes] at ht ⊢
    rw [hminor.leader]
    exact h.leader t ht
  · intro hwithin t ht
    rw [CopiesWithin, hminor.moves, hminor.palette] at hwithin
    rw [hminor.leader, hminor.palette]
    exact h.host hwithin t ht
  · intro id m hm hopen t ht
    rw [hminor.moves] at hm
    rw [hminor.leader, hminor.moveLists]
    exact h.listed id m hm (hminor.isOpen id hopen) t ht
  · intro t ht
    rcases hminor.status t with h₁ | ⟨-, h₂ | ⟨-, hnil⟩⟩
    · rw [h₁] at ht
      exact hminor.openMoves_eq_nil (h.idle t ht)
    · rcases h₂ with h₂ | h₂ <;> simp [h₂] at ht
    · exact hnil

/-- All that holds throughout a colouring. -/
structure Sound (s : Coloring) : Prop where
  linked : s.Linked
  work : s.Work
  counts : s.Counts []
  fits : ∀ t, s.Fits t

/-- Small changes that leave the graph and the degrees alone. -/
theorem Sound.minor (h : s.Sound) (hminor : s.Minor s') (hgraph : s'.graph = s.graph)
    (hdegrees : s'.degrees = s.degrees) (hfits : ∀ t, s'.Fits t) : s'.Sound where
  linked := h.linked.minor hminor hgraph
  work := h.work.minor hminor
  counts := h.counts.congr hgraph hminor.isPresent hdegrees
  fits := hfits

theorem Sound.setMoveStatus (h : s.Sound) {id : Nat} {status : MoveStatus}
    (hopen : status.isOpen = true → (s.moveStatus id).isOpen = true) :
    (s.setMoveStatus id status).Sound :=
  h.minor (minor_setMoveStatus hopen) rfl rfl h.fits

theorem Sound.release (h : s.Sound) (t : Temp) : (s.release t).Sound :=
  h.minor (minor_release s t) (graph_release s t) (degrees_release s t)
    fun u => (h.fits u).release t

theorem Work.record (h : s.Work) (d : Decision) : (s.record d).Work :=
  ⟨h.node, h.fixed, h.filed.update .., h.size, h.ends, h.leader, h.host, h.listed, h.idle⟩

/-- Changing the condition of a virtual node.  What matters is that nodes without work
have no open copies. -/
theorem Work.setStatus (h : s.Work) {status : Status} (hi : s.status t ≠ .initial)
    (hf : s.status t ≠ .fixed) (hi' : status ≠ .initial) (hf' : status ≠ .fixed)
    (hidle : status = .simplify ∨ status = .onStack → s.openMoves t = []) :
    (s.setStatus t status).Work := by
  have hstatus : ∀ u, (s.setStatus t status).status u = if t = u then status else s.status u :=
    fun u => status_setStatus s t u status
  constructor
  · intro u
    rw [hstatus]
    by_cases hu : t = u
    · subst hu
      rw [if_pos rfl]
      exact iff_of_true hi' ((h.node t).1 hi)
    · rw [if_neg hu]
      exact h.node u
  · intro u hmem
    rw [hstatus]
    by_cases hu : t = u
    · subst hu
      rw [if_pos rfl, ← h.fixed t hmem]
      exact iff_of_false hf' hf
    · rw [if_neg hu]
      exact h.fixed u hmem
  · exact h.filed.setStatus t status
  · exact h.size
  · exact h.ends
  · exact h.leader
  · exact h.host
  · exact h.listed
  · intro u hu
    rw [hstatus] at hu
    split at hu
    · next heq => exact heq ▸ hidle hu
    · exact h.idle u hu

/-! ## Taking a node out -/

/-- Change the condition of a node to that of one taken out, and count it no longer. -/
def takeOut (s : Coloring) (t : Temp) : Coloring :=
  let s := (s.setStatus t .onStack).record (.simplified t)
  (s.adjacent t).foldl decrementDegree s

/-- To take a node from the queue and then mark it is to change its condition. -/
theorem Filed.push_eq (h : s.Filed) {rest : List Temp} (hq : s.queue = t :: rest) :
    { s with queue := rest }.push t = (s.setStatus t .onStack).record (.simplified t) := by
  have ht : s.status t = .simplify := (h.queue t).1 (by simp [hq])
  have hrest : s.queue.filter (· ≠ t) = rest := by
    have hnot : t ∉ rest := (List.nodup_cons.1 (hq ▸ h.nodup)).1
    rw [hq, List.filter_cons_of_neg (by simp)]
    exact List.filter_eq_self.2 fun u hu => decide_eq_true fun heq => hnot (heq ▸ hu)
  have hwritten : ({ s with queue := rest }.writeStatus t .initial).status t = .initial :=
    s.statuses.get_set_self t .initial
  rw [push, Coloring.setStatus, Coloring.setStatus, hwritten, ht, ← hrest]
  simp [writeStatus, refile]

theorem Filed.simplify_eq (h : s.Filed) {rest : List Temp} (hq : s.queue = t :: rest) :
    { s with queue := rest }.simplify t = s.takeOut t := by
  rw [simplify, h.push_eq hq]
  rfl

theorem Sound.takeOut (h : s.Sound) (ht : s.status t = .simplify) : (s.takeOut t).Sound := by
  obtain ⟨-, hv⟩ := h.work.isRegister_eq_false (t := t) (by simp [ht]) (by simp [ht])
  have hpresent : s.isPresent t = true := by simp [isPresent, ht]
  have hlinked := h.linked.push h.counts ht hv (h.fits t) (.simplified t)
  have hwork : ((s.setStatus t .onStack).record (.simplified t)).Work :=
    (h.work.setStatus (by simp [ht]) (by simp [ht]) (by simp) (by simp)
      fun _ => h.work.idle t (.inl ht)).record _
  have hcounts : ((s.setStatus t .onStack).record (.simplified t)).Counts
      (((s.setStatus t .onStack).record (.simplified t)).adjacent t) :=
    (h.counts.leave h.linked.graph hv hpresent (.inl rfl)).congr rfl (fun _ => rfl) rfl
  have hfits : ∀ u, ((s.setStatus t .onStack).record (.simplified t)).Fits u := by
    intro u
    by_cases hu : t = u
    · subst hu
      exact ((fits_setStatus_self (s := s) .onStack).2 trivial).record _
    · exact ((h.fits u).setStatus_of_ne hu .onStack).record _
  rw [Coloring.takeOut]
  generalize (s.setStatus t .onStack).record (.simplified t) = s₁ at hlinked hwork hcounts hfits ⊢
  have hminor : s₁.Minor ((s₁.adjacent t).foldl decrementDegree s₁) :=
    Minor.foldl minor_decrementDegree _ s₁
  have hgraph : ((s₁.adjacent t).foldl decrementDegree s₁).graph = s₁.graph :=
    foldl_keeps (P := fun s => s.graph = s₁.graph)
      (fun s u hs => (graph_decrementDegree s u).trans hs) _ rfl
  exact
    { linked := hlinked.minor hminor hgraph
      work := hwork.minor hminor
      counts := hcounts.foldl_decrementDegree
      fits := hcounts.fits_foldl (fun u hu => (mem_adjacent.1 hu).2) hfits }

/-! ## Giving up copies -/

/-- Change the condition of a node to that of one that is ready, and close its copies. -/
def giveUp (s : Coloring) (t : Temp) : Coloring := (s.setStatus t .simplify).freezeMoves t

/-- To take a node from its list and then mark it is to change its condition. -/
theorem freeze_eq (ht : s.status t = .freeze) :
    { s with freezeSet := s.freezeSet.erase t }.freeze t = s.giveUp t := by
  have hwritten : ({ s with freezeSet := s.freezeSet.erase t }.writeStatus t .initial).status t =
      .initial := s.statuses.get_set_self t .initial
  have hstatus : ({ s with freezeSet := s.freezeSet.erase t }.writeStatus t .initial).setStatus t
      .simplify = s.setStatus t .simplify := by
    rw [setStatus, setStatus, hwritten, ht]
    simp [writeStatus, refile]
  rw [freeze, hstatus]
  rfl

theorem isOpen_freezeMove {id : Nat} (hid : id < s.moveStatuses.size)
    (hsize : s.moveStatuses.size = s.graph.moves.length) :
    ((freezeMove u s id).moveStatus id).isOpen = false := by
  rcases freezeMove_eq u s id with ⟨hnone, -⟩ | ⟨p, t, -, heq⟩
  · rw [List.getElem?_eq_none_iff] at hnone
    omega
  · rw [heq, moveStatus_release, moveStatus_setMoveStatus { s with aliases := p } hid, if_pos rfl]
    rfl

/-- Giving up the copies of a node closes all of them. -/
theorem openMoves_freezeMoves (hends : s.aliases.Ends)
    (hsize : s.moveStatuses.size = s.graph.moves.length) (t : Temp) :
    (s.freezeMoves t).openMoves t = [] := by
  have hclosed : ∀ (ids : List Nat) (s : Coloring), s.aliases.Ends →
      s.moveStatuses.size = s.graph.moves.length → ∀ id ∈ ids,
        ((ids.foldl (freezeMove t) s).moveStatus id).isOpen = false := by
    intro ids
    induction ids with
    | nil => simp
    | cons id ids ih =>
      intro s hends hsize id' hid
      have hminor := minor_freezeMove t hends id
      have hrest := Minor.foldl_of_ends (fun _ id h => minor_freezeMove t h id) ids
        (hminor.ends hends)
      rcases List.mem_cons.1 hid with rfl | hid
      · by_contra hopen
        have hopen' := hrest.isOpen id' (by simpa using hopen)
        have hlt := lt_size_of_isOpen (hminor.isOpen id' hopen')
        simp [isOpen_freezeMove hlt hsize] at hopen'
      · exact ih _ (hminor.ends hends) (by rw [hminor.size, hminor.moves, hsize]) id' hid
  refine List.eq_nil_iff_forall_not_mem.2 fun id hid => ?_
  obtain ⟨hmem, hopen⟩ := mem_openMoves.1 hid
  have hminor := minor_freezeMoves hends t
  have hid' : id ∈ s.openMoves t :=
    mem_openMoves.2 ⟨hminor.moveLists ▸ hmem, hminor.isOpen id hopen⟩
  have := hclosed _ s hends hsize id hid'
  rw [freezeMoves] at hopen
  simp [this] at hopen

/-- Seen as a whole, giving up the copies of a node is a small change: they are closed in
the end. -/
theorem Sound.minor_giveUp (h : s.Sound) (ht : s.status t = .spill ∨ s.status t = .freeze) :
    s.Minor (s.giveUp t) := by
  have hminor := minor_freezeMoves (s := s.setStatus t .simplify) h.linked.ends t
  have hnil := openMoves_freezeMoves (s := s.setStatus t .simplify) h.linked.ends h.work.size t
  exact
    { palette := hminor.palette
      unspillable := hminor.unspillable
      nodes := hminor.nodes
      moves := hminor.moves
      leader := hminor.leader
      ends := hminor.ends
      stack := hminor.stack
      moveLists := hminor.moveLists
      decisions := hminor.decisions
      size := hminor.size
      isOpen := hminor.isOpen
      status := by
        intro u
        by_cases hu : t = u
        · subst hu
          have hready := hminor.status t
          simp only [status_setStatus, if_true] at hready
          rcases hready with hready | ⟨hready | hready, -⟩
          · exact .inr ⟨ht, .inr ⟨hready, hnil⟩⟩
          · cases hready
          · cases hready
        · have hrest := hminor.status u
          rwa [status_setStatus, if_neg hu] at hrest
      filed := fun hf => hminor.filed (hf.setStatus t .simplify) }

/-- A node that gives up its copies becomes ready. -/
theorem Sound.giveUp (h : s.Sound) (ht : s.status t = .spill ∨ s.status t = .freeze)
    (hfits : s.degree t < s.k ∨ .selected t ∈ s.decisions) : (s.giveUp t).Sound := by
  obtain ⟨hgraph, hdegrees⟩ := graph_freezeMoves (s.setStatus t .simplify) t
  have hfits' : ∀ u, (s.setStatus t .simplify).Fits u := by
    intro u
    by_cases hu : t = u
    · subst hu
      exact (fits_setStatus_self .simplify).2 hfits
    · exact (h.fits u).setStatus_of_ne hu .simplify
  exact h.minor (h.minor_giveUp ht) hgraph hdegrees fun u => (hfits' u).freezeMoves t

theorem Linked.record (h : s.Linked) (d : Decision) : (s.record d).Linked :=
  { h with scarce := fun t earlier later hsplit =>
      (h.scarce t earlier later hsplit).imp_left (List.mem_cons_of_mem d) }

theorem Sound.record (h : s.Sound) (d : Decision) : (s.record d).Sound :=
  ⟨h.linked.record d, h.work.record d, h.counts, fun t => (h.fits t).record d⟩

theorem Sound.giveUp_freeze (h : s.Sound) (ht : s.status t = .freeze) : (s.giveUp t).Sound := by
  refine h.giveUp (.inr ht) (.inl ?_)
  have hfits := h.fits t
  rwa [Fits, ht] at hfits

theorem Sound.select (h : s.Sound) (ht : s.status t = .spill) : (s.select t).Sound :=
  (h.record (.selected t)).giveUp (.inl ht) (.inr List.mem_cons_self)

end Lowering.Coloring
