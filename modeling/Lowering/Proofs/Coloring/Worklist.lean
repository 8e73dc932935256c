import Lowering.Proofs.Coloring.Forest

/-!
# The lists of work

Every node and every copy is in the list of work of its condition, and in no other.  A node that
waits for its copies has one that may still be merged: when a copy is closed, the nodes that stand
for its ends are looked at again, and these are the only nodes in the graph that list it.

## Main definitions

* `Coloring.Stranded` — a node waits for its copies, but none is open.
* `Coloring.Owned` — copies are listed with the nodes that stand for their ends only.
* `Coloring.Tended` — copies are owned and no node is stranded; every step keeps this.
* `Coloring.CountsDown` — no degree is zero before it is lowered.
* `Coloring.Worklists` — all that holds of the lists of work.
* `color_keeps_worklists` — the main result.
-/

namespace Lowering

namespace Coloring

variable {s s' : Coloring} {t u v x : Temp} {id : Nat}

/-! ## Stranded nodes -/

/-- A node waits for its copies, but none is open. -/
def Stranded (s : Coloring) (t : Temp) : Prop := s.status t = .freeze ∧ s.openMoves t = []

theorem openMoves_eq_nil_iff :
    s.openMoves t = [] ↔ ∀ id ∈ s.moveLists.get t, (s.moveStatus id).isOpen = false := by
  simp [openMoves, List.filter_eq_nil_iff]

/-- A node is stranded already, if it is not so for a copy that it has no longer. -/
theorem Stranded.of_lists (h : s'.Stranded t)
    (hstatus : s'.status t = .freeze → s.status t = .freeze)
    (hlists : ∀ id ∈ s.moveLists.get t, id ∈ s'.moveLists.get t)
    (hopen : ∀ id ∈ s.moveLists.get t, (s.moveStatus id).isOpen = true →
      (s'.moveStatus id).isOpen = true) : s.Stranded t := by
  refine ⟨hstatus h.1, openMoves_eq_nil_iff.2 fun id hid => ?_⟩
  have hclosed := openMoves_eq_nil_iff.1 h.2 id (hlists id hid)
  by_contra hid'
  simp [hopen id hid (by simpa using hid')] at hclosed

/-- Changing the condition of a copy strands only nodes that list it. -/
theorem Stranded.setMoveStatus {status : MoveStatus} (h : (s.setMoveStatus id status).Stranded t) :
    s.Stranded t ∨ id ∈ s.moveLists.get t := by
  by_cases hid : id ∈ s.moveLists.get t
  · exact .inr hid
  · refine .inl (h.of_lists (fun h => h) (fun _ h => h) fun n hn hopen => ?_)
    have hne : id ≠ n := fun heq => hid (heq ▸ hn)
    rwa [moveStatus_setMoveStatus_of_ne s hne]

/-- A node that is looked at again is not stranded, if it is of low degree as it should be. -/
theorem Stranded.release (h : (s.release u).Stranded t)
    (hlow : s.status u = .freeze → s.degree u < s.k) : s.Stranded t ∧ t ≠ u := by
  by_cases hcond : (decide (s.status u = .freeze) && !s.isMoveRelated u &&
      decide (s.degree u < s.k)) = true
  · rw [Coloring.release, if_pos hcond, Stranded, status_setStatus] at h
    have hne : u ≠ t := by
      rintro rfl
      simp at h
    rw [if_neg hne] at h
    exact ⟨h, Ne.symm hne⟩
  · rw [Coloring.release, if_neg hcond] at h
    refine ⟨h, ?_⟩
    rintro rfl
    exact hcond (by simp [h.1, isMoveRelated_eq_false.2 h.2, hlow h.1])

/-- Copies that are tried again were open. -/
theorem isOpen_enableMoves (s : Coloring) (t : Temp) (n : Nat) :
    ((s.enableMoves t).moveStatus n).isOpen = (s.moveStatus n).isOpen := by
  refine foldl_keeps (P := fun s' => (s'.moveStatus n).isOpen = (s.moveStatus n).isOpen) ?_ _ rfl
  intro s' m hs'
  split
  · next hactive =>
    rw [← hs']
    by_cases hm : m = n
    · subst hm
      have hopen : (s'.moveStatus m).isOpen = true := by
        rw [hactive]
        rfl
      rw [moveStatus_setMoveStatus s' (lt_size_of_isOpen hopen), if_pos rfl, hopen]
      rfl
    · rw [moveStatus_setMoveStatus_of_ne s' hm]
  · exact hs'

theorem isOpen_enableMovesOf (s : Coloring) (ts : List Temp) (n : Nat) :
    ((s.enableMovesOf ts).moveStatus n).isOpen = (s.moveStatus n).isOpen :=
  foldl_keeps (P := fun s' => (s'.moveStatus n).isOpen = (s.moveStatus n).isOpen)
    (fun s' t hs' => (isOpen_enableMoves s' t n).trans hs') ts rfl

/-- A node whose degree becomes low waits for its copies only if it has one. -/
theorem Stranded.decrementDegree (h : (s.decrementDegree u).Stranded t) : s.Stranded t := by
  unfold Coloring.decrementDegree at h
  split at h
  · exact h
  · dsimp only at h
    split at h
    · generalize hs₁ : Coloring.enableMovesOf _ _ = s₁ at h
      have hopen : ∀ n, (s₁.moveStatus n).isOpen = (s.moveStatus n).isOpen := fun n => by
        rw [← hs₁, isOpen_enableMovesOf]
        rfl
      obtain ⟨_, _, _, heq⟩ := sameButMoves_enableMovesOf { s with degrees := _ } _
      rw [heq] at hs₁
      by_cases htu : u = t
      · subst htu
        have hstatus := h.1
        rw [status_setStatus, if_pos rfl] at hstatus
        split at hstatus
        · next hrelated =>
          have hnil : s₁.openMoves u = [] := h.2
          simp [isMoveRelated, hnil] at hrelated
        · cases hstatus
      · refine h.of_lists ?_ ?_ ?_
        · rw [status_setStatus, if_neg htu, ← hs₁]
          exact id
        · intro n hn
          rw [← hs₁]
          exact hn
        · intro n _ hn
          exact (hopen n).trans hn
    · exact h

theorem Stranded.absorb (h : (absorb u s v).Stranded t) : s.Stranded t := by
  have hedge := Stranded.decrementDegree h
  unfold addEdge at hedge
  split at hedge
  · exact hedge
  · exact hedge

theorem Stranded.foldl {α : Type} {f : Coloring → α → Coloring}
    (hf : ∀ {s a t}, (f s a).Stranded t → s.Stranded t) {as : List α}
    (h : (as.foldl f s).Stranded t) : s.Stranded t :=
  foldl_keeps (P := fun s' => s'.Stranded t → s.Stranded t) (fun _ _ hs' h => hs' (hf h)) as id h

/-- The node into which another one is merged gets its copies. -/
theorem mem_moveLists_inheritMoves :
    id ∈ (s.inheritMoves u v).moveLists.get x ↔
      id ∈ s.moveLists.get x ∨ x = u ∧ id ∈ s.moveLists.get v := by
  have hlists : (s.inheritMoves u v).moveLists.get x =
      if u = x then s.moveLists.get x ++
        (s.moveLists.get v).filter fun m => !(s.moveLists.get u).contains m
      else s.moveLists.get x := Table.get_update ..
  rw [hlists]
  by_cases hux : u = x
  · subst hux
    by_cases hid : id ∈ s.moveLists.get u <;> simp [hid]
  · simp [hux, Ne.symm hux]

theorem moveLists_redirected (s : Coloring) (u v : Temp) :
    (s.redirected u v).moveLists = (s.inheritMoves u v).moveLists :=
  (minor_enableMoves _ v).moveLists

theorem moveLists_combine (s : Coloring) (u v : Temp) :
    (s.combine u v).moveLists = (s.inheritMoves u v).moveLists := by
  have hminor := Minor.foldl (minor_absorb u) ((s.redirected u v).adjacent v) (s.redirected u v)
  rw [combine_eq, ← moveLists_redirected, ← hminor.moveLists]
  generalize ((s.redirected u v).adjacent v).foldl (absorb u) (s.redirected u v) = s₄
  dsimp only
  split <;> rfl

theorem Stranded.combine (h : (s.combine u v).Stranded t) : s.Stranded t := by
  have hmiddle : (s.redirected u v).Stranded t → s.Stranded t := by
    intro h
    refine h.of_lists ?_ ?_ ?_
    · rw [status_redirected]
      split
      · exact fun hstatus => by cases hstatus
      · exact id
    · intro id hid
      rw [moveLists_redirected]
      exact mem_moveLists_inheritMoves.2 (.inl hid)
    · intro id _ hopen
      rw [redirected, isOpen_enableMoves]
      exact hopen
  rw [combine_eq] at h
  generalize hs₄ : ((s.redirected u v).adjacent v).foldl (Coloring.absorb u) _ = s₄ at h
  have habsorbed : s₄.Stranded t → s.Stranded t := by
    rw [← hs₄]
    exact fun h => hmiddle (Stranded.foldl Stranded.absorb h)
  dsimp only at h
  split at h
  · refine habsorbed (h.of_lists ?_ (fun _ h => h) fun _ _ h => h)
    rw [status_setStatus]
    split
    · exact fun hstatus => by cases hstatus
    · exact id
  · exact habsorbed h

/-! ## Owned copies -/

/-- Among the nodes in the graph, a copy is listed only with those that stand for its ends. -/
def Owned (s : Coloring) : Prop :=
  ∀ t ∈ s.graph.nodes, s.isPresent t = true → ∀ id ∈ s.moveLists.get t, ∀ m,
    s.graph.moves[id]? = some m → s.leader m.dst = t ∨ s.leader m.src = t

theorem Owned.minor (h : s.Owned) (hminor : s.Minor s') : s'.Owned := by
  intro t ht hp id hid m hm
  rw [hminor.nodes] at ht
  rw [hminor.isPresent] at hp
  rw [hminor.moveLists] at hid
  rw [hminor.moves] at hm
  rw [hminor.leader, hminor.leader]
  exact h t ht hp id hid m hm

/-- Copies change owners with their ends. -/
theorem Owned.merge (h : s.Owned) (m : Merges u v s s') (hv : v ∈ s.graph.nodes)
    (hp : s.isPresent v = true) (hlists : s'.moveLists = (s.inheritMoves u v).moveLists) :
    s'.Owned := by
  intro t ht hpt id hid move hmove
  obtain ⟨hpt, hne⟩ := m.isPresent hpt
  rw [m.nodes] at ht
  rw [m.moves] at hmove
  rw [hlists] at hid
  rcases mem_moveLists_inheritMoves.1 hid with hown | ⟨rfl, hinherited⟩
  · have hsame : ∀ x, s.leader x = t → s'.leader x = t := by
      rintro x rfl
      exact m.leader_of_ne hne
    exact (h t ht hpt id hown move hmove).imp (hsame _) (hsame _)
  · exact (h v hv hp id hinherited move hmove).imp m.leader_of_eq m.leader_of_eq

/-- Nodes that wait for their copies have one, and this can be told from the ends of copies. -/
structure Tended (s : Coloring) : Prop where
  node : ∀ t, s.status t ≠ .initial → t ∈ s.graph.nodes
  owned : s.Owned
  related : ∀ t, ¬s.Stranded t

namespace Tended

theorem minor (h : s.Tended) (hminor : s.Minor s') (hrelated : ∀ t, ¬s'.Stranded t) :
    s'.Tended where
  node t ht := by
    rw [hminor.nodes]
    refine h.node t fun hinitial => ?_
    rcases hminor.status t with hsame | ⟨hwait, -⟩
    · exact ht (hsame.trans hinitial)
    · simp [hinitial] at hwait
  owned := h.owned.minor hminor
  related := hrelated

theorem record (h : s.Tended) (d : Decision) : (s.record d).Tended :=
  ⟨h.node, h.owned, h.related⟩

theorem setStatus (h : s.Tended) {status : Status} (ht : s.isPresent t = true)
    (hmem : t ∈ s.graph.nodes) (hstatus : status ≠ .freeze) : (s.setStatus t status).Tended where
  node x hx := by
    by_cases htx : t = x
    · exact htx ▸ hmem
    · rw [status_setStatus, if_neg htx] at hx
      exact h.node x hx
  owned x hx hp := by
    refine h.owned x hx ?_
    by_cases htx : t = x
    · exact htx ▸ ht
    · rwa [isPresent, status_setStatus, if_neg htx] at hp
  related x hx := by
    have hfreeze := hx.1
    rw [status_setStatus] at hfreeze
    split at hfreeze
    · exact hstatus hfreeze
    · exact h.related x ⟨hfreeze, hx.2⟩

/-- Shortening ways strands no node. -/
theorem shorten (h : s.Tended) {p : Aliases} (hp : s.aliases.Shortens p) :
    { s with aliases := p }.Tended :=
  h.minor (minor_aliases hp) h.related

/-- Closing a copy strands only what stands for its ends. -/
theorem ends_of_stranded (h : s.Tended) {m : Move} {status : MoveStatus}
    (hm : s.graph.moves[id]? = some m) (ht : (s.setMoveStatus id status).Stranded t) :
    s.leader m.dst = t ∨ s.leader m.src = t := by
  rcases ht.setMoveStatus with hold | hid
  · exact absurd hold (h.related t)
  · have hstatus : s.status t = .freeze := ht.1
    exact h.owned t (h.node t (by simp [hstatus])) (by simp [isPresent, hstatus]) id hid m hm

/-! ## Taking a node out -/

theorem takeOut (h : s.Tended) (ht : s.status t = .simplify) : (s.takeOut t).Tended := by
  have hout : ((s.setStatus t .onStack).record (.simplified t)).Tended :=
    (h.setStatus (by simp [isPresent, ht]) (h.node t (by simp [ht])) (by simp)).record _
  exact hout.minor (Minor.foldl minor_decrementDegree _ _)
    fun x hx => hout.related x (Stranded.foldl Stranded.decrementDegree hx)

/-! ## Giving up copies -/

theorem freezeMove (h : s.Tended) (hends : s.aliases.Ends) (hfits : ∀ x, x ≠ u → s.Fits x)
    (hu : s.status u = .simplify) (hself : s.leader u = u) (hid : id ∈ s.moveLists.get u) :
    (freezeMove u s id).Tended := by
  refine h.minor (minor_freezeMove u hends id) fun x hx => ?_
  unfold Coloring.freezeMove at hx
  split at hx
  · next m hm =>
    have howner := h.owned u (h.node u (by simp [hu])) (by simp [isPresent, hu]) id hid m hm
    obtain ⟨p, hp, hfind⟩ := otherEnd_eq hends u m
    rw [hfind] at hx
    dsimp only at hx
    generalize hother : (if s.leader m.dst = s.leader u then _ else _) = other at hx
    have hlow : s.status other = .freeze → s.degree other < s.k := by
      intro hfreeze
      have hfit := hfits other fun heq => by simp [heq, hu] at hfreeze
      rwa [Fits, hfreeze] at hfit
    obtain ⟨hclosed, hne⟩ := hx.release hlow
    have hfreeze : s.status x = .freeze := hclosed.1
    have hxu : x ≠ u := by
      rintro rfl
      simp [hu] at hfreeze
    -- The copy belongs to the node that gives it up and to the one that is looked at again.
    rw [hself] at hother
    have howned : s.leader m.dst = x ∨ s.leader m.src = x :=
      ((h.shorten hp).ends_of_stranded hm hclosed).imp (hp.root m.dst).symm.trans
        (hp.root m.src).symm.trans
    rcases howned with hdst | hsrc
    · rw [hdst, if_neg hxu] at hother
      exact hne hother
    · rcases howner with hdst | hsrc'
      · rw [if_pos hdst, hsrc] at hother
        exact hne hother
      · exact hxu (hsrc.symm.trans hsrc')
  · exact h.related x hx

theorem foldl_freezeMove {ids : List Nat} (h : s.Tended) (hends : s.aliases.Ends)
    (hfits : ∀ x, x ≠ u → s.Fits x) (hu : s.status u = .simplify) (hself : s.leader u = u)
    (hids : ∀ id ∈ ids, id ∈ s.moveLists.get u) :
    (ids.foldl (Coloring.freezeMove u) s).Tended := by
  induction ids generalizing s with
  | nil => exact h
  | cons id ids ih =>
    rw [List.forall_mem_cons] at hids
    have hminor := minor_freezeMove u hends id
    refine ih (h.freezeMove hends hfits hu hself hids.1) (hminor.ends hends)
      (fun x hx => (hfits x hx).freezeMove u id) ?_ ?_ fun id' hid' => ?_
    · rcases hminor.status u with hsame | ⟨hwait, -⟩
      · exact hsame.trans hu
      · simp [hu] at hwait
    · rw [hminor.leader, hself]
    · rw [hminor.moveLists]
      exact hids.2 id' hid'

theorem giveUp (ht : s.Tended) (h : s.Sound) (hwait : s.status t = .spill ∨ s.status t = .freeze) :
    (s.giveUp t).Tended := by
  have hp : s.isPresent t = true := by rcases hwait with hs | hs <;> simp [isPresent, hs]
  have hmem : t ∈ s.graph.nodes := ht.node t (by rcases hwait with hs | hs <;> simp [hs])
  refine (ht.setStatus hp hmem (by simp)).foldl_freezeMove h.linked.ends (fun x hx => ?_) ?_ ?_ ?_
  · exact (h.fits x).setStatus_of_ne (Ne.symm hx) .simplify
  · exact (status_setStatus s t t .simplify).trans (if_pos rfl)
  · exact h.linked.leader_of_isPresent hp
  · exact fun id hid => (mem_openMoves.1 hid).1

end Tended

/-! ## Trying a copy -/

theorem Sound.degree_lt (h : s.Sound) (ht : s.status t = .freeze) : s.degree t < s.k := by
  have hfits := h.fits t
  rwa [Fits, ht] at hfits

theorem Tended.settle (ht : s.Tended) (h : s.Sound) {m : Move}
    (hm : s.graph.moves[id]? = some m) (hopen : (s.moveStatus id).isOpen = true)
    (he : s.StandFor m u v) : (s.settle id u v).Tended := by
  have hnode : ∀ t, (s.settle id u v).status t ≠ .initial → t ∈ (s.settle id u v).graph.nodes :=
    fun t => ((h.settle hm hopen he).1.work.node t).1
  have hends : ∀ t, s.leader m.dst = t ∨ s.leader m.src = t → t = u ∨ t = v := by
    rintro t (rfl | rfl) <;> rcases he with ⟨rfl, rfl⟩ | ⟨rfl, rfl⟩ <;> simp
  obtain ⟨rfl, heq⟩ | heq | ⟨heq, hv, hm', -, hcombine, hmerges⟩ | heq := h.settle_cases hm hopen he
  · obtain ⟨hclosed, hminor⟩ := h.close id .coalesced rfl
    rw [heq]
    refine ht.minor (hminor.trans (minor_release _ u)) fun x hx => ?_
    obtain ⟨hx, hne⟩ := hx.release hclosed.degree_lt
    exact (hends x (ht.ends_of_stranded hm hx)).elim hne hne
  · obtain ⟨hclosed, hminor⟩ := h.close id .constrained rfl
    rw [heq]
    refine ht.minor ((hminor.trans (minor_release _ u)).trans (minor_release _ v)) fun x hx => ?_
    obtain ⟨hx, hnv⟩ := hx.release (hclosed.release u).degree_lt
    obtain ⟨hx, hnu⟩ := hx.release hclosed.degree_lt
    exact (hends x (ht.ends_of_stranded hm hx)).elim hnu hnv
  · obtain ⟨-, hminor⟩ := h.close id .coalesced rfl
    refine ⟨hnode, ?_, fun x hx => ?_⟩
    · rw [heq]
      exact ((ht.owned.minor hminor).merge hmerges hv hm'.present (moveLists_combine _ u v)).minor
        (minor_release _ u)
    · rw [heq] at hx
      obtain ⟨hx, hnu⟩ := hx.release hcombine.degree_lt
      have hmerged := (hmerges.coalesced v).2 (.inr rfl)
      rcases hends x (ht.ends_of_stranded hm hx.combine) with hxu | rfl
      · exact hnu hxu
      · cases hmerged.symm.trans hx.1
  · rw [heq]
    have hkeep : MoveStatus.active.isOpen = true → (s.moveStatus id).isOpen = true := fun _ => hopen
    refine ht.minor (minor_setMoveStatus hkeep) fun x hx => ht.related x ?_
    refine hx.of_lists (fun h => h) (fun _ h => h) fun n _ hn => ?_
    rw [moveStatus_setMoveStatus s (lt_size_of_isOpen hopen)]
    split
    · rfl
    · exact hn

theorem Tended.attempt (ht : s.Tended) (h : s.Sound) {m : Move}
    (hm : s.graph.moves[id]? = some m) (hopen : (s.moveStatus id).isOpen = true) :
    (s.attempt id m).Tended := by
  obtain ⟨p, u, v, hminor, hsound, he, heq⟩ := h.attempt_eq id m
  rw [heq]
  exact (ht.minor hminor ht.related).settle hsound hm hopen he

/-- **Every step keeps nodes tended.** -/
theorem Tended.step (ht : s.Tended) (h : s.Sound) (hs : s.step? = some s') : s'.Tended := by
  rcases step?_cases h hs with ⟨t, hready, rfl⟩ | ⟨id, m, -, hm, hid, rfl⟩ | ⟨t, hfreeze, rfl⟩ |
    ⟨t, -, -, hcheap, rfl⟩
  · exact ht.takeOut hready
  · exact ht.attempt h hm (isOpen_of_worklist hid)
  · exact ht.giveUp h (.inr hfreeze)
  · have hspill := h.work.filed.status_of_cheapest hcheap
    exact (ht.record (.selected t)).giveUp (h.record (.selected t)) (.inl hspill)

theorem Starts.tended {palette : List Temp} {unspillable : TempSet} {g : Interference}
    (hs : Starts palette unspillable g s) (hg : g.WellFormed) : s.Tended := by
  constructor
  · intro t ht
    rw [hs.graph]
    by_contra hmem
    rw [hs.status, if_neg hmem] at ht
    exact ht rfl
  · intro t ht _ id hid m hm
    rw [hs.graph] at ht hm
    rw [hs.moveLists t ht, hg.mem_movesOf] at hid
    obtain ⟨m', hm', hend⟩ := hid
    obtain rfl : m' = m := Option.some.inj (hm'.symm.trans hm)
    rw [hs.leader, hs.leader]
    exact hend
  · rintro t ⟨hfreeze, hnil⟩
    rw [hs.status] at hfreeze
    split at hfreeze
    · split at hfreeze
      · cases hfreeze
      · rw [firstStatus, isMoveRelated_eq_false.2 hnil] at hfreeze
        split at hfreeze
        · cases hfreeze
        · cases hfreeze
    · cases hfreeze

/-! ## Degrees that are lowered -/

/-- The degrees of some nodes are lowered one after another, each after a change, and no degree is
zero before it is lowered.  Those of registers are not counted. -/
def CountsDown (change : Coloring → Temp → Coloring) : List Temp → Coloring → Prop
  | [], _ => True
  | t :: ts, s =>
    (t.isRegister = false → 0 < (change s t).degree t) ∧
      CountsDown change ts ((change s t).decrementDegree t)

theorem Counts.countsDown {ts : List Temp} (h : s.Counts ts)
    (hts : ∀ t ∈ ts, s.isPresent t = true) : CountsDown (fun s _ => s) ts s := by
  induction ts generalizing s with
  | nil => trivial
  | cons t ts ih =>
    rw [List.forall_mem_cons] at hts
    refine ⟨fun ht => h.pos ht hts.1, ih h.decrementDegree fun x hx => ?_⟩
    rw [(minor_decrementDegree s t).isPresent]
    exact hts.2 x hx

theorem Counts.countsDown_addEdge {ts : List Temp} (h : s.Counts ts)
    (hgraph : s.graph.WellFormed) (hu : u ∈ s.graph.nodes) (hup : s.isPresent u = true)
    (hts : ∀ t ∈ ts, t ∈ s.graph.nodes ∧ s.isPresent t = true) :
    CountsDown (fun s t => s.addEdge t u) ts s := by
  induction ts generalizing s with
  | nil => trivial
  | cons t ts ih =>
    rw [List.forall_mem_cons] at hts
    obtain ⟨⟨htn, htp⟩, hts⟩ := hts
    have hminor := minor_absorb u s t
    have hedge := h.addEdge hgraph htp hup
    refine ⟨fun ht => hedge.pos ht ?_, ih hedge.decrementDegree ?_ ?_ ?_ fun x hx => ?_⟩
    · rw [(minor_addEdge s t u).isPresent]
      exact htp
    · rw [graph_decrementDegree, graph_addEdge]
      exact hgraph.addEdge htn hu
    · exact hminor.nodes.symm ▸ hu
    · exact (hminor.isPresent u).trans hup
    · exact ⟨hminor.nodes.symm ▸ (hts x hx).1, (hminor.isPresent x).trans (hts x hx).2⟩

/-- The neighbours of a node that is taken out have it to lose. -/
theorem Sound.countsDown_takeOut (h : s.Sound) (ht : s.status t = .simplify) :
    let s₁ := (s.setStatus t .onStack).record (.simplified t)
    CountsDown (fun s _ => s) (s₁.adjacent t) s₁ := by
  intro s₁
  obtain ⟨-, hv⟩ := h.work.isRegister_eq_false (t := t) (by simp [ht]) (by simp [ht])
  have hcounts : s₁.Counts (s₁.adjacent t) :=
    (h.counts.leave h.linked.graph hv (by simp [isPresent, ht]) (.inl rfl)).congr rfl
      (fun _ => rfl) rfl
  exact hcounts.countsDown fun x hx => (mem_adjacent.1 hx).2

/-- The neighbours of a node that is merged have it to lose, also if they do not get a new one. -/
theorem Sound.countsDown_combine (h : s.Sound) (hm : s.Mergeable u v) (hu : u ∈ s.graph.nodes) :
    let s₁ := s.redirected u v
    CountsDown (fun s t => s.addEdge t u) (s₁.adjacent v) s₁ := by
  intro s₁
  have hgraph : s₁.graph = s.graph := (graph_redirected s u v).1
  refine (counts_redirected h hm).countsDown_addEdge (hgraph ▸ h.linked.graph) (hgraph ▸ hu)
    (isPresent_redirected hm) fun x hx => ?_
  obtain ⟨hxn, hxp, -⟩ := of_mem_adjacent_redirected h hm hx
  exact ⟨hxn, hxp⟩

/-- So have those of a node that is merged when a copy is tried. -/
theorem Sound.countsDown_attempt (h : s.Sound) {m : Move} {s₁ : Coloring}
    (hid : s.moveStatus id = .worklist) (hm : s.graph.moves[id]? = some m)
    (hends : ({ s with trySet := s.trySet.erase id }.writeMoveStatus id .constrained).endsOf m =
      ((u, v), s₁)) (hne : u ≠ v) (hv : v.isRegister = false)
    (hapart : s₁.graph.adjacent u v = false) :
    let s₂ := (s₁.setMoveStatus id .coalesced).redirected u v
    CountsDown (fun s t => s.addEdge t u) (s₂.adjacent v) s₂ := by
  obtain ⟨p, u', v', hp, he, heq⟩ := endsOf_eq
    (s := { s with trySet := s.trySet.erase id }.writeMoveStatus id .constrained) h.linked.ends m
  obtain ⟨hpair, rfl⟩ := Prod.mk.inj (heq.symm.trans hends)
  obtain ⟨rfl, rfl⟩ := Prod.mk.inj hpair
  have hminor : s.Minor { s with aliases := p } := minor_aliases hp
  have hsound : { s with aliases := p }.Sound := h.minor hminor rfl rfl h.fits
  obtain ⟨⟨hup, hmem⟩, ⟨hvp, -⟩, -⟩ := hsound.present_of_standFor hm (isOpen_of_worklist hid)
    (StandFor.minor (s := s) he hminor)
  obtain ⟨hclosed, -⟩ := hsound.close id .coalesced rfl
  have hset := setMoveStatus_popped (s := { s with aliases := p }) hid
    (show MoveStatus.coalesced ≠ .worklist by simp)
  intro s₂
  have hs₂ : s₂ = ({ s with aliases := p }.setMoveStatus id .coalesced).redirected u' v' :=
    congrArg (fun s => redirected s u' v') hset
  rw [hs₂]
  exact hclosed.countsDown_combine ⟨hup, hvp, hv, hne, hapart⟩ hmem

/-! ## All lists -/

/-- What holds of the lists of work, which are kept beside the conditions. -/
structure Worklists (s : Coloring) : Prop where
  /-- The queue holds the nodes to be simplified, each of them once. -/
  queue : s.queue.Nodup ∧ ∀ t, t ∈ s.queue ↔ s.status t = .simplify
  /-- The list from which nodes give up their copies. -/
  freeze : ∀ t, t ∈ s.freezeSet ↔ s.status t = .freeze
  /-- The list from which a node is taken in hope. -/
  spill : ∀ t, t ∈ s.spillSet ↔ s.status t = .spill
  stack : s.stack.Nodup ∧ ∀ t, t ∈ s.stack ↔ s.status t = .onStack
  /-- The list from which copies are tried, all of which are copies of the graph. -/
  worklist : (∀ id, id ∈ s.trySet ↔ s.moveStatus id = .worklist) ∧
    s.nextMove?.map Prod.fst = s.trySet.toList.head?
  active : ∀ id, id ∈ s.activeSet ↔ s.moveStatus id = .active
  looked : ∀ t ∈ s.graph.nodes, s.status t ≠ .initial
  degree : ∀ t, s.status t = .simplify ∨ s.status t = .freeze ∨ s.status t = .spill →
    s.degree t = (s.adjacent t).length
  high : ∀ t, s.status t = .spill → s.k ≤ s.degree t
  low : ∀ t, s.status t = .freeze → s.degree t < s.k ∧ s.isMoveRelated t = true
  idle : ∀ t, s.status t = .simplify ∨ s.status t = .onStack → s.isMoveRelated t = false
  ends : ∀ id m, s.graph.moves[id]? = some m →
    s.moveStatus id = .worklist ∨ s.moveStatus id = .active → ∀ t, t = m.dst ∨ t = m.src →
      s.status (s.leader t) = .fixed ∨ s.status (s.leader t) = .freeze ∨
        s.status (s.leader t) = .spill
  /-- No degree is lowered below zero when a node is taken out, -/
  simplifying : ∀ t rest, s.queue = t :: rest →
    let s₁ := { s with queue := rest }.push t
    CountsDown (fun s _ => s) (s₁.adjacent t) s₁
  /-- nor when the ends of a copy are merged. -/
  merging : ∀ id m u v s₁, s.nextMove? = some (id, m) →
    ({ s with trySet := s.trySet.erase id }.writeMoveStatus id .constrained).endsOf m =
      ((u, v), s₁) →
    u ≠ v → v.isRegister = false → s₁.graph.adjacent u v = false →
    let s₂ := (s₁.setMoveStatus id .coalesced).redirected u v
    CountsDown (fun s t => s.addEdge t u) (s₂.adjacent v) s₂

section

variable (h : s.Sound)

include h

/-- What is tried next is a copy of the graph. -/
theorem Sound.nextMove?_eq : s.nextMove?.map Prod.fst = s.trySet.toList.head? := by
  rw [nextMove?]
  cases hid : s.trySet.toList.head? with
  | none => rfl
  | some id =>
    have hmem : id ∈ s.trySet := Std.ExtTreeSet.mem_toList.1 (List.mem_of_mem_head? hid)
    have hlt : id < s.graph.moves.length := by
      rw [← h.work.size]
      exact lt_size_of_isOpen (isOpen_of_worklist ((h.work.filed.trySet id).1 hmem))
    simp [List.getElem?_eq_getElem hlt]

theorem Sound.degree_eq (ht : s.status t = .simplify ∨ s.status t = .freeze ∨ s.status t = .spill) :
    s.degree t = (s.adjacent t).length := by
  have hp : s.isPresent t = true := by rcases ht with ht | ht | ht <;> simp [isPresent, ht]
  have hv : t.isRegister = false := by
    refine (h.work.isRegister_eq_false ?_ ?_).2 <;> rcases ht with ht | ht | ht <;> simp [ht]
  have hrest : s.remaining t = (s.adjacent t).toFinset := by
    ext x
    rw [mem_remaining, List.mem_toFinset, mem_adjacent]
  rw [h.counts t hv hp, hrest, List.toFinset_card_of_nodup (nodup_adjacent s t), List.count_nil,
    Nat.add_zero]

/-- An end of a copy that may still be merged is a register, or waits. -/
theorem Sound.status_of_end {m : Move} (hm : s.graph.moves[id]? = some m)
    (hopen : (s.moveStatus id).isOpen = true) (ht : t = m.dst ∨ t = m.src) :
    s.status (s.leader t) = .fixed ∨ s.status (s.leader t) = .freeze ∨
      s.status (s.leader t) = .spill := by
  obtain ⟨hp, hmem, -, hready⟩ := h.ends hm hopen ht
  obtain ⟨hstack, hmerged⟩ := isPresent_iff.1 hp
  have hinitial := (h.work.node _).2 hmem
  cases hstatus : s.status (s.leader t) <;> simp_all

/-- **What holds throughout makes the lists of work right.** -/
theorem Sound.worklists (ht : s.Tended) : s.Worklists where
  queue := ⟨h.work.filed.nodup, h.work.filed.queue⟩
  freeze := h.work.filed.freezeSet
  spill := h.work.filed.spillSet
  stack := ⟨h.linked.nodup, h.linked.stack⟩
  worklist := ⟨h.work.filed.trySet, h.nextMove?_eq⟩
  active := h.work.filed.activeSet
  looked t hmem := (h.work.node t).2 hmem
  degree t := h.degree_eq
  high t hspill := by
    have hfits := h.fits t
    rwa [Fits, hspill] at hfits
  low t hfreeze := by
    refine ⟨h.degree_lt hfreeze, ?_⟩
    by_contra hrelated
    exact ht.related t ⟨hfreeze, isMoveRelated_eq_false.1 (by simpa using hrelated)⟩
  idle t hidle := isMoveRelated_eq_false.2 (h.work.idle t hidle)
  ends id m hm hid t hend := by
    refine h.status_of_end hm ?_ hend
    rcases hid with hid | hid <;> rw [hid] <;> rfl
  simplifying t rest hq := by
    rw [h.work.filed.push_eq hq]
    exact h.countsDown_takeOut ((h.work.filed.queue t).1 (by simp [hq]))
  merging id m u v s₁ hnext hends hne hv hapart := by
    obtain ⟨hid, hm⟩ := h.work.filed.of_nextMove? hnext
    exact h.countsDown_attempt hid hm hends hne hv hapart

end

end Coloring

open Coloring

/-- **The lists of work are right before every step of a colouring**, whatever edges were added to
the graph of an instruction list, and for every palette and all that should not be spilled. -/
theorem color_keeps_worklists (palette within : List Temp) (unspillable : TempSet)
    (code : List Instr) (flow : Flow) (pairs : List (Temp × Temp)) (n : Nat) :
    (runSteps n (start palette unspillable
      ((roundGraph within code flow).connect pairs))).Worklists := by
  have hg := (wellFormed_roundGraph within code flow).connect pairs
  have hmoves := (movesWithin_roundGraph within code flow).connect pairs
  generalize (roundGraph within code flow).connect pairs = g at hg hmoves ⊢
  have hstart := starts_start palette unspillable g
  obtain ⟨hsound, htended⟩ := runSteps_induction (P := fun s => s.Sound ∧ s.Tended)
    (by
      rintro s s' ⟨h, ht⟩ hs
      exact ⟨h.step hs, ht.step h hs⟩) n
    ⟨hstart.sound hg fun m hm t ht => (hmoves m hm t ht).1, hstart.tended hg⟩
  exact hsound.worklists htended

end Lowering
