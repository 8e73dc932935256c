import Lowering.Proofs.Coloring.Merge

/-!
# From the start of a colouring to its end

## Main definitions

* `Coloring.step?_cases` — what a step can do.
* `Coloring.Sound.step`, `Coloring.runSteps_induction` — what every step keeps.
* `Coloring.Starts` — the state before the first step.
-/

namespace Lowering.Coloring

variable {s s' : Coloring} {t u v : Temp}

/-! ## Steps and runs -/

/-- The next copy to be tried is one of those to be tried. -/
theorem Filed.of_nextMove? (h : s.Filed) {id : Nat} {m : Move}
    (hnext : s.nextMove? = some (id, m)) :
    s.moveStatus id = .worklist ∧ s.graph.moves[id]? = some m := by
  simp only [nextMove?, Option.bind_eq_bind, Option.bind_eq_some_iff] at hnext
  obtain ⟨id', hid, m', hm, heq⟩ := hnext
  obtain ⟨rfl, rfl⟩ := Prod.mk.inj (Option.some.inj heq)
  exact ⟨(h.trySet id').1 (Std.ExtTreeSet.mem_toList.1 (List.mem_of_mem_head? hid)), hm⟩

/-- What a step does: a node that is ready is taken out; or a copy is tried; or a node gives
up its copies; or, when all nodes left are of high degree, one of them is taken in hope. -/
theorem step?_cases (h : s.Sound) (hs : s.step? = some s') :
    (∃ t, s.status t = .simplify ∧ s' = s.takeOut t) ∨
    (∃ id m, s.queue = [] ∧ s.graph.moves[id]? = some m ∧ s.moveStatus id = .worklist ∧
      s' = s.attempt id m) ∨
    (∃ t, s.status t = .freeze ∧ s' = s.giveUp t) ∨
    ∃ t, s.queue = [] ∧ s.freezeSet.toList = [] ∧ s.cheapest s.spillSet.toList = some t ∧
      s' = s.select t := by
  have hfiled := h.work.filed
  unfold step? at hs
  split at hs
  · next t rest hq =>
    obtain rfl := Option.some.inj hs
    exact .inl ⟨t, (hfiled.queue t).1 (by simp [hq]), hfiled.simplify_eq hq⟩
  · next hq =>
    split at hs
    · next id m hnext =>
      obtain rfl := Option.some.inj hs
      obtain ⟨hid, hm⟩ := hfiled.of_nextMove? hnext
      exact .inr (.inl ⟨id, m, hq, hm, hid, coalesce_eq hid m⟩)
    · split at hs
      · next t hfreeze =>
        obtain rfl := Option.some.inj hs
        have ht := (hfiled.freezeSet t).1
          (Std.ExtTreeSet.mem_toList.1 (List.mem_of_mem_head? hfreeze))
        exact .inr (.inr (.inl ⟨t, ht, freeze_eq ht⟩))
      · next hfreeze =>
        obtain ⟨t, ht, rfl⟩ := Option.map_eq_some_iff.1 hs
        exact .inr (.inr (.inr ⟨t, hq, List.head?_eq_none_iff.1 hfreeze, ht, rfl⟩))

/-- The most promising of some nodes is one of them, and one that should not be spilled is
taken only if that holds of all. -/
theorem of_cheapest {ts : List Temp} (h : s.cheapest ts = some t) :
    t ∈ ts ∧ (t ∈ s.unspillable → ∀ u ∈ ts, u ∈ s.unspillable) := by
  have hfold : ∀ (rest : List Temp) (best : Temp),
      let t := rest.foldl (fun best t => if s.isCheaper t best then t else best) best
      t ∈ best :: rest ∧ (t ∈ s.unspillable → ∀ u ∈ best :: rest, u ∈ s.unspillable) := by
    intro rest
    induction rest with
    | nil => simp
    | cons x rest ih =>
      intro best
      dsimp only
      rw [List.foldl_cons]
      obtain ⟨hmem, hall⟩ := ih (if s.isCheaper x best then x else best)
      generalize rest.foldl _ _ = t at hmem hall
      refine ⟨?_, fun ht => ?_⟩
      · rcases List.mem_cons.1 hmem with heq | hmem
        · rw [heq]
          split <;> simp
        · exact List.mem_cons_of_mem _ (List.mem_cons_of_mem _ hmem)
      · have hpick := hall ht _ List.mem_cons_self
        have hrest : ∀ u ∈ rest, u ∈ s.unspillable :=
          fun u hu => hall ht u (List.mem_cons_of_mem _ hu)
        -- One that should not be spilled is never cheaper, and always dearer than others.
        have hboth : best ∈ s.unspillable ∧ x ∈ s.unspillable := by
          by_cases hx : x ∈ s.unspillable
          · simpa [isCheaper, hx] using hpick
          · by_cases hbest : best ∈ s.unspillable
            · simp [isCheaper, hx, hbest] at hpick
            · split at hpick
              · exact absurd hpick hx
              · exact absurd hpick hbest
        simpa [hboth] using hrest
  cases ts with
  | nil => cases h
  | cons best rest =>
    obtain rfl := Option.some.inj h
    exact hfold rest best

theorem Filed.status_of_cheapest (h : s.Filed) (ht : s.cheapest s.spillSet.toList = some t) :
    s.status t = .spill :=
  (h.spillSet t).1 (Std.ExtTreeSet.mem_toList.1 (of_cheapest ht).1)

theorem isOpen_of_worklist {id : Nat} (h : s.moveStatus id = .worklist) :
    (s.moveStatus id).isOpen = true := by
  rw [h]
  rfl

/-- **Every step keeps all that holds throughout.** -/
theorem Sound.step (h : s.Sound) (hs : s.step? = some s') : s'.Sound := by
  rcases step?_cases h hs with ⟨t, ht, rfl⟩ | ⟨id, m, -, hm, hid, rfl⟩ | ⟨t, ht, rfl⟩ |
    ⟨t, -, -, ht, rfl⟩
  · exact h.takeOut ht
  · exact (h.attempt_cases hm (isOpen_of_worklist hid)).1
  · exact h.giveUp_freeze ht
  · exact h.select (h.work.filed.status_of_cheapest ht)

/-- What a step does to the graph, and which nodes it takes in hope. -/
structure Follows (s s' : Coloring) : Prop where
  palette : s'.palette = s.palette
  unspillable : s'.unspillable = s.unspillable
  nodes : s'.graph.nodes = s.graph.nodes
  moves : s'.graph.moves = s.graph.moves
  change : (s'.graph = s.graph ∧ ∀ t, s'.isPresent t = true → s.isPresent t = true) ∨
    ∃ u v, s.Mergeable u v ∧ s.canCombine u v = true ∧ Merges u v s s'
  selected : ∀ t, .selected t ∈ s'.decisions → .selected t ∈ s.decisions ∨
    s.queue = [] ∧ s.freezeSet.toList = [] ∧ s.cheapest s.spillSet.toList = some t

theorem follows_of_minor (hminor : s.Minor s') (hgraph : s'.graph = s.graph) : s.Follows s' where
  palette := hminor.palette
  unspillable := hminor.unspillable
  nodes := hminor.nodes
  moves := hminor.moves
  change := .inl ⟨hgraph, fun t ht => hminor.isPresent t ▸ ht⟩
  selected _ ht := .inl (hminor.decisions ▸ ht)

theorem follows_takeOut (ht : s.isPresent t = true) : s.Follows (s.takeOut t) := by
  rw [takeOut]
  generalize hs₁ : (s.setStatus t .onStack).record (.simplified t) = s₁
  have hminor : s₁.Minor ((s₁.adjacent t).foldl decrementDegree s₁) :=
    Minor.foldl minor_decrementDegree _ s₁
  have hgraph : ((s₁.adjacent t).foldl decrementDegree s₁).graph = s₁.graph :=
    foldl_keeps (P := fun s => s.graph = s₁.graph)
      (fun s u hs => (graph_decrementDegree s u).trans hs) _ rfl
  constructor
  · rw [hminor.palette, ← hs₁]
    rfl
  · rw [hminor.unspillable, ← hs₁]
    rfl
  · rw [hminor.nodes, ← hs₁]
    rfl
  · rw [hminor.moves, ← hs₁]
    rfl
  · refine .inl ⟨by rw [hgraph, ← hs₁]; rfl, fun u hu => ?_⟩
    by_cases htu : t = u
    · exact htu ▸ ht
    · have hstatus : s₁.status u = s.status u := by
        rw [← hs₁]
        exact (status_setStatus s t u .onStack).trans (if_neg htu)
      rw [hminor.isPresent] at hu
      rwa [isPresent, hstatus] at hu
  · intro u hu
    rw [hminor.decisions, ← hs₁] at hu
    exact .inl (by simpa [record, setStatus] using hu)

theorem Sound.follows (h : s.Sound) (hs : s.step? = some s') : s.Follows s' := by
  rcases step?_cases h hs with ⟨t, ht, rfl⟩ | ⟨id, m, -, hm, hid, rfl⟩ | ⟨t, ht, rfl⟩ |
    ⟨t, hq, hfreeze, ht, rfl⟩
  · exact follows_takeOut (by simp [isPresent, ht])
  · rcases (h.attempt_cases hm (isOpen_of_worklist hid)).2 with ⟨hminor, hgraph, -⟩ |
      ⟨u, v, hm, hcan, m⟩
    · exact follows_of_minor hminor hgraph
    · exact ⟨m.palette, m.unspillable, m.nodes, m.moves, .inr ⟨u, v, hm, hcan, m⟩,
        fun t ht => .inl ((m.selected t).1 ht)⟩
  · exact follows_of_minor (h.minor_giveUp (.inr ht)) (graph_freezeMoves _ t).1
  · have hspill := h.work.filed.status_of_cheapest ht
    have hminor := (h.record (.selected t)).minor_giveUp (.inl hspill)
    refine ⟨hminor.palette, hminor.unspillable, hminor.nodes, hminor.moves,
      .inl ⟨(graph_freezeMoves _ t).1, fun u hu => ?_⟩, fun u hu => ?_⟩
    · exact hminor.isPresent u ▸ hu
    · have hdecisions : (s.select t).decisions = .selected t :: s.decisions := hminor.decisions
      rw [hdecisions] at hu
      rcases List.mem_cons.1 hu with heq | hu
      · obtain rfl := Decision.selected.inj heq
        exact .inr ⟨hq, hfreeze, ht⟩
      · exact .inl hu

/-- What every step keeps holds after all steps. -/
theorem runSteps_induction {P : Coloring → Prop}
    (hstep : ∀ s s', P s → s.step? = some s' → P s') (n : Nat) (h : P s) : P (runSteps n s) := by
  induction n generalizing s with
  | zero => exact h
  | succ n ih =>
    rw [runSteps]
    split
    · next s' hs => exact ih (hstep s s' h hs)
    · exact h

/-! ## The start -/

theorem get_foldl_set {α : Type} (f : Temp → α) (ts : List Temp) (tab : Table α) (x : Temp) :
    (ts.foldl (fun tab t => tab.set t (f t)) tab).get x = if x ∈ ts then f x else tab.get x := by
  induction ts generalizing tab with
  | nil => simp
  | cons t ts ih =>
    rw [List.foldl_cons, ih, Table.get_set]
    by_cases hx : x ∈ ts
    · simp [hx]
    · by_cases ht : t = x
      · simp [ht]
      · simp [hx, ht, Ne.symm ht]

/-- What a state before the first step consists of. -/
structure Starts (palette : List Temp) (unspillable : TempSet) (g : Interference) (s : Coloring) :
    Prop where
  palette : s.palette = palette
  unspillable : s.unspillable = unspillable
  graph : s.graph = g
  degree : ∀ t, s.degree t = if t ∈ g.nodes then g.degree t else 0
  status : ∀ t, s.status t = if t ∈ g.nodes then
    if t.isRegister then .fixed else s.firstStatus t else .initial
  size : s.moveStatuses.size = g.moves.length
  moveStatus : ∀ m, s.moveStatus m ≠ .coalesced
  moveLists : ∀ t ∈ g.nodes, s.moveLists.get t = g.movesOf t
  aliases : s.aliases = .initial
  filed : s.Filed
  stack : s.stack = []
  decisions : s.decisions = []

variable {palette : List Temp} {unspillable : TempSet} {g : Interference}

theorem firstStatus_cases (s : Coloring) (t : Temp) :
    s.k ≤ s.degree t ∧ s.firstStatus t = .spill ∨
    s.degree t < s.k ∧ s.firstStatus t = .freeze ∨
    s.degree t < s.k ∧ s.openMoves t = [] ∧ s.firstStatus t = .simplify := by
  unfold firstStatus
  split
  · next h => exact .inl ⟨h, rfl⟩
  · next h =>
    split
    · exact .inr (.inl ⟨by omega, rfl⟩)
    · next hm => exact .inr (.inr ⟨by omega, isMoveRelated_eq_false.1 (by simpa using hm), rfl⟩)

private theorem start_induction (ts : List Temp) (s₀ s : Coloring)
    (hs : s = ts.foldl (fun s t => s.setStatus t (s.firstStatus t)) s₀)
    (hfiled : s₀.Filed) :
    ∃ statuses queue freezeSet spillSet,
      s = { s₀ with statuses, queue, freezeSet, spillSet } ∧ s.Filed ∧
      ∀ t, s.status t = if t ∈ ts then s₀.firstStatus t else s₀.status t := by
  induction ts generalizing s₀ with
  | nil => exact ⟨_, _, _, _, hs, hs ▸ hfiled, fun t => by simp [hs]⟩
  | cons u ts ih =>
    have hstack : (s₀.setStatus u (s₀.firstStatus u)).stack = s₀.stack := by
      rcases firstStatus_cases s₀ u with ⟨-, h⟩ | ⟨-, h⟩ | ⟨-, -, h⟩ <;> rw [h] <;> rfl
    obtain ⟨statuses, queue, freezeSet, spillSet, heq, hfiled', hstatus⟩ :=
      ih _ hs (hfiled.setStatus u (s₀.firstStatus u))
    refine ⟨statuses, queue, freezeSet, spillSet, ?_, hfiled', fun t => ?_⟩
    · rw [heq]
      simp [Coloring.setStatus] at hstack ⊢
      exact hstack
    · rw [hstatus, status_setStatus]
      have hfirst : (s₀.setStatus u (s₀.firstStatus u)).firstStatus t = s₀.firstStatus t := rfl
      rw [hfirst]
      by_cases htu : u = t
      · simp [htu]
      · simp [htu, Ne.symm htu]

section

variable (palette : List Temp) (unspillable : TempSet) (g : Interference)

private theorem status_initial (t : Temp) : (initial palette unspillable g).status t =
    if t ∈ g.nodes then if t.isRegister then .fixed else .initial else .initial := by
  refine (get_foldl_set _ g.nodes _ t).trans ?_
  rw [Table.get_const]

private theorem moveStatus_initial (m : Nat) : (initial palette unspillable g).moveStatus m =
    if m < g.moves.length then .worklist else .frozen := by
  rw [moveStatus, initial, Array.getD_eq_getD_getElem?, Array.getElem?_replicate]
  split <;> rfl

/-- Before any node is looked at, only copies are in a list of work. -/
private theorem filed_initial : (initial palette unspillable g).Filed := by
  have hnode : ∀ t, (initial palette unspillable g).status t = .fixed ∨
      (initial palette unspillable g).status t = .initial := by
    intro t
    rw [status_initial]
    split
    · split <;> simp
    · exact .inr rfl
  have hnone : ∀ t, Status.simplify ≠ (initial palette unspillable g).status t ∧
      Status.freeze ≠ (initial palette unspillable g).status t ∧
      Status.spill ≠ (initial palette unspillable g).status t := by
    intro t
    rcases hnode t with h | h <;> simp [h]
  refine ⟨fun t => ?_, List.nodup_nil, fun t => ?_, fun t => ?_, fun m => ?_, fun m => ?_⟩
  · exact iff_of_false List.not_mem_nil (hnone t).1.symm
  · exact iff_of_false Std.ExtTreeSet.not_mem_empty (hnone t).2.1.symm
  · exact iff_of_false Std.ExtTreeSet.not_mem_empty (hnone t).2.2.symm
  · rw [moveStatus_initial]
    simp [initial]
  · rw [moveStatus_initial]
    refine iff_of_false Std.ExtTreeSet.not_mem_empty ?_
    split <;> simp

theorem starts_start : Starts palette unspillable g (start palette unspillable g) := by
  obtain ⟨statuses, queue, freezeSet, spillSet, heq, hfiled', hstatus⟩ := start_induction
    (g.nodes.filter fun t => !t.isRegister) _ (start palette unspillable g) rfl
    (filed_initial palette unspillable g)
  have hfirst : ∀ t, (start palette unspillable g).firstStatus t =
      (initial palette unspillable g).firstStatus t := fun t => by rw [heq]; rfl
  constructor
  · rw [heq]
    rfl
  · rw [heq]
    rfl
  · rw [heq]
    rfl
  · intro t
    rw [heq]
    refine (get_foldl_set _ g.nodes _ t).trans ?_
    rw [Table.get_const]
  · intro t
    rw [hstatus, hfirst, status_initial]
    by_cases ht : t ∈ g.nodes <;> by_cases hr : t.isRegister = true <;> simp [ht, hr]
  · rw [heq]
    exact Array.size_replicate
  · intro m
    have hget : (start palette unspillable g).moveStatus m =
        (initial palette unspillable g).moveStatus m := by rw [heq]; rfl
    rw [hget, moveStatus_initial]
    split <;> simp
  · intro t ht
    rw [heq]
    exact (get_foldl_set _ g.nodes _ t).trans (if_pos ht)
  · rw [heq]
    rfl
  · exact hfiled'
  · rw [heq]
    rfl
  · rw [heq]
    rfl

end

theorem Starts.leader (hs : Starts palette unspillable g s) (t : Temp) : s.leader t = t := by
  rw [Coloring.leader, hs.aliases]
  exact Aliases.root_of_target_eq (Aliases.target_initial t)

/-- At the start, every node is in the graph. -/
theorem Starts.isPresent (hs : Starts palette unspillable g s) (t : Temp) :
    s.isPresent t = true := by
  have hstatus := hs.status t
  split at hstatus
  · split at hstatus
    · simp [Coloring.isPresent, hstatus]
    · rcases firstStatus_cases s t with ⟨-, h⟩ | ⟨-, h⟩ | ⟨-, -, h⟩ <;>
        simp [Coloring.isPresent, hstatus, h]
  · simp [Coloring.isPresent, hstatus]

theorem firstStatus_ne (s : Coloring) (t : Temp) :
    s.firstStatus t ≠ .initial ∧ s.firstStatus t ≠ .fixed ∧ s.firstStatus t ≠ .onStack := by
  rcases firstStatus_cases s t with ⟨-, h⟩ | ⟨-, h⟩ | ⟨-, -, h⟩ <;> simp [h]

theorem Starts.linked (hs : Starts palette unspillable g s) (hg : g.WellFormed) : s.Linked := by
  have hstatus : ∀ t, s.status t ≠ .onStack ∧ s.status t ≠ .coalesced := by
    intro t
    have hp := hs.isPresent t
    simpa only [Coloring.isPresent, Bool.and_eq_true, decide_eq_true_eq] using hp
  constructor
  · rw [hs.graph]
    exact hg
  · rw [hs.aliases]
    exact Aliases.ends_initial
  · intro t
    rw [hs.stack]
    exact iff_of_false List.not_mem_nil (hstatus t).1
  · rw [hs.stack]
    exact List.nodup_nil
  · exact fun t _ => hs.leader t
  · exact fun t => (hstatus _).2
  · intro a b hab
    rw [hs.leader, hs.leader]
    rw [hs.graph] at hab
    exact hg.ne_of_adjacent hab
  · intro a b hab _ _
    rw [hs.leader, hs.leader]
    exact hab
  · intro a b _ earlier later hsplit
    simp [hs.stack] at hsplit
  · intro t earlier later hsplit
    simp [hs.stack] at hsplit

theorem Starts.work (hs : Starts palette unspillable g s) (hg : g.WellFormed)
    (hends : ∀ m ∈ g.moves, ∀ t, t = m.dst ∨ t = m.src → t ∈ g.nodes) : s.Work := by
  constructor
  · intro t
    rw [hs.status, hs.graph]
    by_cases ht : t ∈ g.nodes <;> by_cases hr : t.isRegister = true <;>
      simp [ht, hr, firstStatus_ne s t]
  · intro t ht
    rw [hs.graph] at ht
    rw [hs.status, if_pos ht]
    by_cases hr : t.isRegister = true <;> simp [hr, firstStatus_ne s t]
  · exact hs.filed
  · rw [hs.size, hs.graph]
  · rw [hs.graph]
    exact hends
  · intro t ht
    rw [hs.leader]
    exact ht
  · intro _ t ht
    simp [hs.leader, Temp.isAllocatable, ht]
  · intro id m hm _ t ht
    rw [hs.graph] at hm
    have hmem := hends m (List.mem_of_getElem? hm) t ht
    rw [hs.leader, hs.moveLists t hmem, hg.mem_movesOf]
    exact ⟨m, hm, ht.imp Eq.symm Eq.symm⟩
  · intro t ht
    rw [hs.status] at ht
    by_cases hmem : t ∈ g.nodes <;> by_cases hr : t.isRegister = true <;>
      simp [hmem, hr, firstStatus_ne s t] at ht
    rcases firstStatus_cases s t with ⟨-, h⟩ | ⟨-, h⟩ | ⟨-, hnil, -⟩
    · simp [h] at ht
    · simp [h] at ht
    · exact hnil

theorem Starts.counts (hs : Starts palette unspillable g s) (hg : g.WellFormed) :
    s.Counts [] := by
  intro t ht _
  have hrest : s.remaining t = (g.neighboursOf t).toFinset := by
    ext u
    simp [hs.graph, hs.isPresent]
  rw [hrest, List.count_nil, Nat.add_zero, hs.degree]
  split
  · rw [hg.counted, TempSet.card_toFinset]
  · next hmem =>
    symm
    rw [Finset.card_eq_zero, Finset.eq_empty_iff_forall_notMem]
    exact fun u hu => hmem (hg.mem (TempSet.mem_toFinset.1 hu)).1

theorem Starts.fits (hs : Starts palette unspillable g s) (t : Temp) : s.Fits t := by
  rw [Fits, hs.status]
  split
  · split
    · trivial
    · rcases firstStatus_cases s t with ⟨h, heq⟩ | ⟨h, heq⟩ | ⟨h, -, heq⟩ <;> rw [heq]
      exacts [h, h, .inl h]
  · trivial

/-- **All that holds throughout a colouring holds at the start.** -/
theorem Starts.sound (hs : Starts palette unspillable g s) (hg : g.WellFormed)
    (hends : ∀ m ∈ g.moves, ∀ t, t = m.dst ∨ t = m.src → t ∈ g.nodes) : s.Sound where
  linked := hs.linked hg
  work := hs.work hg hends
  counts := hs.counts hg
  fits := hs.fits

end Lowering.Coloring
