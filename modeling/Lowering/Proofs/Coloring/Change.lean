import Lowering.Coloring.Assign
import Lowering.Proofs.Coloring.Aliases

/-!
# Small changes to a colouring

Most of what a step does only moves nodes from one list of work to the next, or closes
copies.  `Minor` says what such a change can do, once for all of them: no node leaves
the graph, no copy is opened again, a node that becomes ready to be taken out has no
copy left, and the lists of work stay in step with the conditions.

## Main definitions

* `Coloring.Filed` — the lists of work are in step with the conditions.
* `Coloring.Minor` — what a small change can do.
* `Status.Suits`, `Coloring.Fits` — the degree of a node suits its condition.
-/

namespace Lowering

/-- Whether a degree suits a condition.  A node of high degree that was taken in hope is
ready to be taken out with any degree. -/
def Status.Suits (status : Status) (k degree : Nat) (chosen : Prop) : Prop :=
  match status with
  | .simplify => degree < k ∨ chosen
  | .freeze => degree < k
  | .spill => k ≤ degree
  | _ => True

namespace Coloring

variable {s s' s'' : Coloring} {t u : Temp} {m : Nat}

/-- Each list of work holds exactly the nodes or the copies in its condition. -/
structure Filed (s : Coloring) : Prop where
  queue : ∀ t, t ∈ s.queue ↔ s.status t = .simplify
  nodup : s.queue.Nodup
  freezeSet : ∀ t, t ∈ s.freezeSet ↔ s.status t = .freeze
  spillSet : ∀ t, t ∈ s.spillSet ↔ s.status t = .spill
  trySet : ∀ m, m ∈ s.trySet ↔ s.moveStatus m = .worklist
  activeSet : ∀ m, m ∈ s.activeSet ↔ s.moveStatus m = .active

/-- A change that takes no node out of the graph and merges none. -/
structure Minor (s s' : Coloring) : Prop where
  palette : s'.palette = s.palette
  unspillable : s'.unspillable = s.unspillable
  nodes : s'.graph.nodes = s.graph.nodes
  moves : s'.graph.moves = s.graph.moves
  leader : ∀ t, s'.leader t = s.leader t
  ends : s.aliases.Ends → s'.aliases.Ends
  stack : s'.stack = s.stack
  moveLists : s'.moveLists = s.moveLists
  decisions : s'.decisions = s.decisions
  size : s'.moveStatuses.size = s.moveStatuses.size
  isOpen : ∀ m, (s'.moveStatus m).isOpen = true → (s.moveStatus m).isOpen = true
  status : ∀ t, s'.status t = s.status t ∨ (s.status t = .spill ∨ s.status t = .freeze) ∧
    ((s'.status t = .spill ∨ s'.status t = .freeze) ∨
      s'.status t = .simplify ∧ s'.openMoves t = [])
  filed : s.Filed → s'.Filed

theorem isPresent_iff : s.isPresent t = true ↔
    s.status t ≠ .onStack ∧ s.status t ≠ .coalesced := by
  simp [isPresent]

theorem mem_openMoves :
    m ∈ s.openMoves t ↔ m ∈ s.moveLists.get t ∧ (s.moveStatus m).isOpen = true :=
  List.mem_filter

namespace Minor

theorem refl (s : Coloring) : s.Minor s :=
  ⟨rfl, rfl, rfl, rfl, fun _ => rfl, id, rfl, rfl, rfl, rfl, fun _ => id, fun _ => .inl rfl, id⟩

theorem openMoves_eq_nil (h : s.Minor s') (hs : s.openMoves t = []) : s'.openMoves t = [] := by
  refine List.eq_nil_iff_forall_not_mem.2 fun m hm => ?_
  obtain ⟨hmem, hopen⟩ := mem_openMoves.1 hm
  have hm' : m ∈ s.openMoves t := mem_openMoves.2 ⟨h.moveLists ▸ hmem, h.isOpen m hopen⟩
  simp [hs] at hm'

theorem trans (h : s.Minor s') (h' : s'.Minor s'') : s.Minor s'' where
  palette := h'.palette.trans h.palette
  unspillable := h'.unspillable.trans h.unspillable
  nodes := h'.nodes.trans h.nodes
  moves := h'.moves.trans h.moves
  leader t := (h'.leader t).trans (h.leader t)
  ends he := h'.ends (h.ends he)
  stack := h'.stack.trans h.stack
  moveLists := h'.moveLists.trans h.moveLists
  decisions := h'.decisions.trans h.decisions
  size := h'.size.trans h.size
  isOpen m hm := h.isOpen m (h'.isOpen m hm)
  status t := by
    have hnil := h'.openMoves_eq_nil (t := t)
    rcases h.status t with h₁ | ⟨h₁, h₂ | ⟨h₂, h₃⟩⟩ <;>
      rcases h'.status t with h₁' | ⟨h₁', h₂' | ⟨h₂', h₃'⟩⟩ <;> simp_all
  filed hf := h'.filed (h.filed hf)

theorem k (h : s.Minor s') : s'.k = s.k := by
  rw [Coloring.k, Coloring.k, h.palette]

theorem isPresent (h : s.Minor s') (t : Temp) : s'.isPresent t = s.isPresent t := by
  rcases h.status t with h₁ | ⟨h₁ | h₁, (h₂ | h₂) | ⟨h₂, -⟩⟩ <;> simp_all [Coloring.isPresent]

theorem status_onStack (h : s.Minor s') (t : Temp) :
    s'.status t = .onStack ↔ s.status t = .onStack := by
  rcases h.status t with h₁ | ⟨h₁ | h₁, (h₂ | h₂) | ⟨h₂, -⟩⟩ <;> simp [*]

theorem status_coalesced (h : s.Minor s') (t : Temp) :
    s'.status t = .coalesced ↔ s.status t = .coalesced := by
  rcases h.status t with h₁ | ⟨h₁ | h₁, (h₂ | h₂) | ⟨h₂, -⟩⟩ <;> simp [*]

/-- A run of small changes is a small change. -/
theorem foldl {α : Type} {f : Coloring → α → Coloring} (h : ∀ s a, Minor s (f s a)) (as : List α)
    (s : Coloring) : s.Minor (as.foldl f s) := by
  induction as generalizing s with
  | nil => exact refl s
  | cons a as ih => exact (h s a).trans (ih (f s a))

/-- The same for changes that look up leaders. -/
theorem foldl_of_ends {α : Type} {f : Coloring → α → Coloring}
    (h : ∀ s a, s.aliases.Ends → Minor s (f s a)) (as : List α) {s : Coloring}
    (hs : s.aliases.Ends) : s.Minor (as.foldl f s) := by
  induction as generalizing s with
  | nil => exact refl s
  | cons a as ih =>
    have hfirst := h s a hs
    exact hfirst.trans (ih (hfirst.ends hs))

end Minor

/-- What every part of a run keeps, the run keeps. -/
theorem foldl_keeps {α : Type} {f : Coloring → α → Coloring} {P : Coloring → Prop}
    (h : ∀ s a, P s → P (f s a)) (as : List α) {s : Coloring} (hs : P s) : P (as.foldl f s) := by
  induction as generalizing s with
  | nil => exact hs
  | cons a as ih => exact ih (h s a hs)

/-! ## The changes -/

/-- A list of work that holds what is in its condition does so after a change. -/
theorem mem_refile {κ α : Type} [DecidableEq κ] [Ord α] [Std.TransOrd α] [Std.LawfulEqOrd α]
    [DecidableEq α] {f : α → κ} {kind : κ} {set : Std.ExtTreeSet α}
    (h : ∀ x, x ∈ set ↔ f x = kind) (a x : α) (is : κ) :
    x ∈ refile kind (f a) is a set ↔ (if a = x then is else f x) = kind := by
  have hx := h x
  by_cases hax : a = x
  · subst hax
    by_cases his : is = kind <;> by_cases hwas : f a = kind <;> simp_all [refile]
  · by_cases his : is = kind <;> by_cases hwas : f a = kind <;> simp_all [refile]

theorem moveStatus_of_size_le (h : s.moveStatuses.size ≤ m) : s.moveStatus m = .frozen := by
  rw [moveStatus, Array.getD_eq_getD_getElem?, Array.getElem?_eq_none h]
  rfl

theorem lt_size_of_isOpen (h : (s.moveStatus m).isOpen = true) : m < s.moveStatuses.size := by
  refine Nat.lt_of_not_le fun hle => ?_
  rw [moveStatus_of_size_le hle] at h
  cases h

namespace Filed

/-- A node that is appended to the queue was taken out of it before, if it was there. -/
private theorem notMem_queue (h : s.Filed) {queue : List Temp}
    (hqueue : queue = if s.status t = .simplify then s.queue.filter (· ≠ t) else s.queue) :
    queue.Nodup ∧ t ∉ queue := by
  rw [hqueue]
  split
  · exact ⟨h.nodup.filter _, by simp⟩
  · next ht => exact ⟨h.nodup, mt (h.queue t).1 ht⟩

/-- The lists of work have to do with conditions only. -/
theorem update (h : s.Filed) (graph : Interference) (degrees : Table Nat) (aliases : Aliases)
    (moveLists : Table (List Nat)) (decisions : List Decision) :
    { s with graph, degrees, aliases, moveLists, decisions }.Filed :=
  ⟨h.queue, h.nodup, h.freezeSet, h.spillSet, h.trySet, h.activeSet⟩

theorem setStatus (h : s.Filed) (t : Temp) (status : Status) : (s.setStatus t status).Filed where
  queue u := by
    rw [status_setStatus]
    simp only [Coloring.setStatus]
    have hu := h.queue u
    by_cases hut : t = u
    · subst hut
      by_cases hs : status = .simplify <;> by_cases ht : s.status t = .simplify <;> simp_all
    · have hne : u ≠ t := Ne.symm hut
      by_cases hs : status = .simplify <;> by_cases ht : s.status t = .simplify <;> simp_all
  nodup := by
    obtain ⟨hnodup, hnot⟩ := h.notMem_queue (t := t) rfl
    simp only [Coloring.setStatus]
    split
    · refine List.nodup_append.2 ⟨hnodup, by simp, fun a ha b hb => ?_⟩
      rintro rfl
      exact hnot (List.mem_singleton.1 hb ▸ ha)
    · exact hnodup
  freezeSet u := by
    rw [status_setStatus]
    exact mem_refile h.freezeSet t u status
  spillSet u := by
    rw [status_setStatus]
    exact mem_refile h.spillSet t u status
  trySet := h.trySet
  activeSet := h.activeSet

/-- A copy is opened only if there is one. -/
theorem setMoveStatus (h : s.Filed) {status : MoveStatus}
    (hm : status.isOpen = true → m < s.moveStatuses.size) : (s.setMoveStatus m status).Filed := by
  by_cases hlt : m < s.moveStatuses.size
  · constructor
    · exact h.queue
    · exact h.nodup
    · exact h.freezeSet
    · exact h.spillSet
    · intro n
      rw [moveStatus_setMoveStatus s hlt]
      exact mem_refile h.trySet m n status
    · intro n
      rw [moveStatus_setMoveStatus s hlt]
      exact mem_refile h.activeSet m n status
  · -- There is no such copy, and it is in no list.
    have hsame : s.setMoveStatus m status = s := by
      rw [Coloring.setMoveStatus, moveStatus_of_size_le (by omega),
        Array.setIfInBounds_eq_of_size_le (by omega)]
      cases status with
      | worklist => exact absurd (hm rfl) hlt
      | active => exact absurd (hm rfl) hlt
      | _ => rfl
    rwa [hsame]

end Filed

/-- A node that waits may wait in the other list, and is ready once its copies are closed. -/
theorem minor_setStatus {status : Status} (ht : s.status t = .spill ∨ s.status t = .freeze)
    (hstatus : (status = .spill ∨ status = .freeze) ∨ status = .simplify ∧ s.openMoves t = []) :
    s.Minor (s.setStatus t status) where
  palette := rfl
  unspillable := rfl
  nodes := rfl
  moves := rfl
  leader _ := rfl
  ends := id
  stack := by rcases hstatus with (rfl | rfl) | ⟨rfl, -⟩ <;> rfl
  moveLists := rfl
  decisions := rfl
  size := rfl
  isOpen _ := id
  status u := by
    rw [status_setStatus]
    by_cases hu : t = u
    · subst hu
      rw [if_pos rfl]
      exact .inr ⟨ht, hstatus⟩
    · exact .inl (if_neg hu)
  filed h := h.setStatus t status

theorem minor_setMoveStatus {status : MoveStatus}
    (h : status.isOpen = true → (s.moveStatus m).isOpen = true) :
    s.Minor (s.setMoveStatus m status) where
  palette := rfl
  unspillable := rfl
  nodes := rfl
  moves := rfl
  leader _ := rfl
  ends := id
  stack := rfl
  moveLists := rfl
  decisions := rfl
  size := Array.size_setIfInBounds
  isOpen n hn := by
    by_cases hm : m < s.moveStatuses.size
    · rw [moveStatus_setMoveStatus s hm] at hn
      split at hn
      · next heq => exact heq ▸ h hn
      · exact hn
    · have hsame : s.moveStatuses.setIfInBounds m status = s.moveStatuses :=
        Array.setIfInBounds_eq_of_size_le (by omega)
      simpa [Coloring.moveStatus, setMoveStatus, hsame] using hn
  status _ := .inl rfl
  filed hf := hf.setMoveStatus fun hs => lt_size_of_isOpen (h hs)

/-- Two states that differ in the conditions of copies only, and in the lists of these. -/
def SameButMoves (s s' : Coloring) : Prop :=
  ∃ statuses tried active,
    s' = { s with moveStatuses := statuses, trySet := tried, activeSet := active }

theorem SameButMoves.trans (h : s.SameButMoves s') (h' : s'.SameButMoves s'') :
    s.SameButMoves s'' := by
  obtain ⟨statuses, tried, active, rfl⟩ := h
  obtain ⟨statuses', tried', active', rfl⟩ := h'
  exact ⟨statuses', tried', active', rfl⟩

/-- Trying copies again changes nothing but their conditions. -/
theorem sameButMoves_enableMoves (s : Coloring) (t : Temp) : s.SameButMoves (s.enableMoves t) := by
  refine foldl_keeps (P := s.SameButMoves) ?_ _ ⟨_, _, _, rfl⟩
  intro s' m hs'
  split
  · exact hs'.trans ⟨_, _, _, rfl⟩
  · exact hs'

theorem sameButMoves_enableMovesOf (s : Coloring) (ts : List Temp) :
    s.SameButMoves (s.enableMovesOf ts) :=
  foldl_keeps (P := s.SameButMoves) (fun s' t hs' => hs'.trans (sameButMoves_enableMoves s' t)) ts
    ⟨_, _, _, rfl⟩

theorem minor_enableMoves (s : Coloring) (t : Temp) : s.Minor (s.enableMoves t) := by
  refine Minor.foldl (fun s m => ?_) _ s
  split
  · next h => exact minor_setMoveStatus fun _ => by rw [h]; rfl
  · exact .refl s

theorem minor_enableMovesOf (s : Coloring) (ts : List Temp) : s.Minor (s.enableMovesOf ts) :=
  Minor.foldl minor_enableMoves ts s

theorem isMoveRelated_eq_false : s.isMoveRelated t = false ↔ s.openMoves t = [] := by
  simp [isMoveRelated]

theorem release_eq (s : Coloring) (t : Temp) :
    s.release t = s ∨ s.status t = .freeze ∧ s.openMoves t = [] ∧ s.degree t < s.k ∧
      s.release t = s.setStatus t .simplify := by
  unfold release
  split
  · next h =>
    simp only [Bool.and_eq_true, decide_eq_true_eq, Bool.not_eq_true'] at h
    exact .inr ⟨h.1.1, isMoveRelated_eq_false.1 h.1.2, h.2, rfl⟩
  · exact .inl rfl

theorem minor_release (s : Coloring) (t : Temp) : s.Minor (s.release t) := by
  rcases release_eq s t with h | ⟨hs, hopen, -, h⟩
  · rw [h]
    exact .refl s
  · rw [h]
    exact minor_setStatus (.inr hs) (.inr ⟨rfl, hopen⟩)

/-- Changing degrees is a small change. -/
theorem minor_degrees (s : Coloring) (degrees : Table Nat) :
    s.Minor { s with degrees := degrees } :=
  ⟨rfl, rfl, rfl, rfl, fun _ => rfl, id, rfl, rfl, rfl, rfl, fun _ => id, fun _ => .inl rfl,
    fun h => h.update ..⟩

/-- What counting one neighbour less can do: nothing for a register; else the degree goes
down, and a node that had `k` neighbours leaves the nodes of high degree. -/
theorem decrementDegree_cases (s : Coloring) (t : Temp) :
    t.isRegister = true ∧ s.decrementDegree t = s ∨
    t.isRegister = false ∧ ¬(s.degree t = s.k ∧ s.status t = .spill) ∧
      s.decrementDegree t = { s with degrees := s.degrees.set t (s.degree t - 1) } ∨
    t.isRegister = false ∧ s.degree t = s.k ∧ s.status t = .spill ∧
      ∃ s₁, { s with degrees := s.degrees.set t (s.degree t - 1) }.SameButMoves s₁ ∧ s.Minor s₁ ∧
        (s.decrementDegree t = s₁.setStatus t .freeze ∨
          s₁.openMoves t = [] ∧ s.decrementDegree t = s₁.setStatus t .simplify) := by
  cases ht : t.isRegister with
  | true => exact .inl ⟨rfl, by simp [decrementDegree, ht]⟩
  | false =>
    simp only [decrementDegree, ht, Bool.false_eq_true, if_false]
    by_cases h : s.degree t = s.k ∧ s.status t = .spill
    · generalize hs₀ : { s with degrees := s.degrees.set t (s.degree t - 1) } = s₀
      have hk : s.degree t = s₀.k ∧ s₀.status t = .spill := hs₀ ▸ h
      have hsame := sameButMoves_enableMovesOf s₀ (s₀.adjacent t ++ [t])
      have hminor : s.Minor (s₀.enableMovesOf (s₀.adjacent t ++ [t])) :=
        (hs₀ ▸ minor_degrees s _ : s.Minor s₀).trans (minor_enableMovesOf s₀ _)
      rw [if_pos (by simpa using hk)]
      refine .inr (.inr ⟨trivial, h.1, h.2, _, hsame, hminor, ?_⟩)
      split
      · exact .inl rfl
      · next hm => exact .inr ⟨isMoveRelated_eq_false.1 (by simpa using hm), rfl⟩
    · refine .inr (.inl ⟨trivial, h, if_neg ?_⟩)
      rw [Bool.and_eq_true, decide_eq_true_eq, decide_eq_true_eq]
      exact h

theorem minor_decrementDegree (s : Coloring) (t : Temp) : s.Minor (s.decrementDegree t) := by
  rcases decrementDegree_cases s t with ⟨-, h⟩ | ⟨-, -, h⟩ | ⟨-, -, hs, s₁, hs₁, hminor, h⟩
  · rw [h]
    exact .refl s
  · rw [h]
    exact minor_degrees s _
  · have hspill : s₁.status t = .spill := by
      obtain ⟨_, _, _, rfl⟩ := hs₁
      exact hs
    rcases h with h | ⟨hopen, h⟩ <;> rw [h]
    · exact hminor.trans (minor_setStatus (.inl hspill) (.inl (.inr rfl)))
    · exact hminor.trans (minor_setStatus (.inl hspill) (.inr ⟨rfl, hopen⟩))

/-- Shortening ways is a small change. -/
theorem minor_aliases {p : Aliases} (h : s.aliases.Shortens p) :
    s.Minor { s with aliases := p } :=
  ⟨rfl, rfl, rfl, rfl, h.root, fun _ => h.ends, rfl, rfl, rfl, rfl, fun _ => id, fun _ => .inl rfl,
    fun h => h.update ..⟩

/-- Looking up the other end of a copy shortens ways. -/
theorem otherEnd_eq (h : s.aliases.Ends) (u : Temp) (m : Move) :
    ∃ p, s.aliases.Shortens p ∧ otherEnd u s m =
      (if s.leader m.dst = s.leader u then s.leader m.src else s.leader m.dst,
        { s with aliases := p }) := by
  have h₁ := h.find m.dst
  have h₂ := h₁.trans (h₁.ends.find u)
  have hown : ((s.aliases.find m.dst).2.find u).1 = s.leader u := h₁.root u
  generalize hx : (if s.leader m.dst = s.leader u then m.src else m.dst) = x
  have hother : (((s.aliases.find m.dst).2.find u).2.find x).1 = s.leader x := h₂.root x
  refine ⟨_, h₂.trans (h₂.ends.find x), ?_⟩
  have heq : otherEnd u s m = ((((s.aliases.find m.dst).2.find u).2.find x).1,
      { s with aliases := (((s.aliases.find m.dst).2.find u).2.find x).2 }) := by
    rw [← hx, ← hown]
    rfl
  rw [heq, hother, ← hx]
  split <;> rfl

/-- What giving up a copy does: nothing if there is none; else it is closed, after looking up
its ends, and a node is looked at again. -/
theorem freezeMove_eq (u : Temp) (s : Coloring) (m : Nat) :
    s.graph.moves[m]? = none ∧ freezeMove u s m = s ∨
    ∃ p t, (s.aliases.Ends → s.aliases.Shortens p) ∧
      freezeMove u s m = ({ s with aliases := p }.setMoveStatus m .frozen).release t := by
  unfold freezeMove
  split
  · next move _ =>
    refine .inr ⟨(otherEnd u s move).2.aliases, (otherEnd u s move).1, fun h => ?_, rfl⟩
    obtain ⟨p, hp, heq⟩ := otherEnd_eq h u move
    rwa [heq]
  · next hnone => exact .inl ⟨hnone, rfl⟩

theorem minor_freezeMove (u : Temp) (h : s.aliases.Ends) (m : Nat) :
    s.Minor (freezeMove u s m) := by
  rcases freezeMove_eq u s m with ⟨-, heq⟩ | ⟨p, t, hp, heq⟩ <;> rw [heq]
  · exact .refl s
  · have hclose : { s with aliases := p }.Minor ({ s with aliases := p }.setMoveStatus m .frozen) :=
      minor_setMoveStatus (by simp [MoveStatus.isOpen])
    exact ((minor_aliases (hp h)).trans hclose).trans (minor_release _ t)

theorem minor_freezeMoves (h : s.aliases.Ends) (t : Temp) : s.Minor (s.freezeMoves t) :=
  Minor.foldl_of_ends (fun _ m h => minor_freezeMove t h m) _ h

theorem minor_addEdge (s : Coloring) (a b : Temp) : s.Minor (s.addEdge a b) := by
  unfold addEdge
  split
  · exact .refl s
  · exact ⟨rfl, rfl, Interference.nodes_addEdge .., Interference.moves_addEdge .., fun _ => rfl, id,
      rfl, rfl, rfl, rfl, fun _ => id, fun _ => .inl rfl, fun h => h.update ..⟩

/-! ## The graph and the degrees -/

@[simp] theorem graph_release (s : Coloring) (t : Temp) : (s.release t).graph = s.graph := by
  rcases release_eq s t with h | ⟨-, -, -, h⟩ <;> rw [h]
  rfl

@[simp] theorem degrees_release (s : Coloring) (t : Temp) : (s.release t).degrees = s.degrees := by
  rcases release_eq s t with h | ⟨-, -, -, h⟩ <;> rw [h]
  rfl

@[simp] theorem moveStatus_release (s : Coloring) (t : Temp) (m : Nat) :
    (s.release t).moveStatus m = s.moveStatus m := by
  rcases release_eq s t with h | ⟨-, -, -, h⟩ <;> rw [h]
  rfl

@[simp] theorem graph_decrementDegree (s : Coloring) (t : Temp) :
    (s.decrementDegree t).graph = s.graph := by
  rcases decrementDegree_cases s t with ⟨-, h⟩ | ⟨-, -, h⟩ | ⟨-, -, -, s₁, hs₁, -, h⟩
  · rw [h]
  · rw [h]
  · obtain ⟨_, _, _, rfl⟩ := hs₁
    rcases h with h | ⟨-, h⟩ <;> rw [h] <;> rfl

theorem degree_decrementDegree (s : Coloring) (t u : Temp) (hu : u.isRegister = false) :
    (s.decrementDegree t).degree u = if t = u then s.degree u - 1 else s.degree u := by
  have hset : (s.degrees.set t (s.degree t - 1)).get u =
      if t = u then s.degree u - 1 else s.degree u := by
    rw [Table.get_set]
    split
    · next h => rw [h]
    · rfl
  rcases decrementDegree_cases s t with ⟨ht, h⟩ | ⟨-, -, h⟩ | ⟨-, -, -, s₁, hs₁, -, h⟩
  · rw [h, if_neg fun heq => by simp [heq, hu] at ht]
  · rw [h, ← hset]
    rfl
  · obtain ⟨_, _, _, rfl⟩ := hs₁
    rw [← hset]
    rcases h with h | ⟨-, h⟩ <;> rw [h] <;> rfl

theorem graph_freezeMove (u : Temp) (s : Coloring) (m : Nat) :
    (freezeMove u s m).graph = s.graph ∧ (freezeMove u s m).degrees = s.degrees := by
  rcases freezeMove_eq u s m with ⟨-, heq⟩ | ⟨p, t, -, heq⟩ <;> rw [heq]
  · exact ⟨rfl, rfl⟩
  · exact ⟨graph_release .., degrees_release ..⟩

theorem graph_freezeMoves (s : Coloring) (t : Temp) :
    (s.freezeMoves t).graph = s.graph ∧ (s.freezeMoves t).degrees = s.degrees := by
  refine foldl_keeps (P := fun s' => s'.graph = s.graph ∧ s'.degrees = s.degrees) ?_ _ ⟨rfl, rfl⟩
  intro s' m h
  obtain ⟨hg, hd⟩ := graph_freezeMove t s' m
  exact ⟨hg.trans h.1, hd.trans h.2⟩

/-! ## Degrees that suit the condition -/

/-- The degree of a node suits its condition. -/
def Fits (s : Coloring) (t : Temp) : Prop :=
  (s.status t).Suits s.k (s.degree t) (.selected t ∈ s.decisions)

theorem fits_congr (hstatus : s'.status t = s.status t) (hdegree : s'.degree t = s.degree t)
    (hk : s'.k = s.k) (hdecisions : s'.decisions = s.decisions) : s'.Fits t ↔ s.Fits t := by
  rw [Fits, Fits, hstatus, hdegree, hk, hdecisions]

theorem SameButMoves.fits_iff (h : s.SameButMoves s') : s'.Fits t ↔ s.Fits t := by
  obtain ⟨_, _, _, rfl⟩ := h
  exact Iff.rfl

theorem Fits.setStatus_of_ne (h : s.Fits t) (hne : u ≠ t) (status : Status) :
    (s.setStatus u status).Fits t :=
  (fits_congr ((status_setStatus s u t status).trans (if_neg hne)) rfl rfl rfl).2 h

theorem fits_setStatus_self (status : Status) : (s.setStatus t status).Fits t ↔
    status.Suits s.k (s.degree t) (.selected t ∈ s.decisions) := by
  rw [Fits, status_setStatus, if_pos rfl]
  rfl

theorem Fits.record (h : s.Fits t) (d : Decision) : (s.record d).Fits t := by
  have hmono : .selected t ∈ s.decisions → .selected t ∈ (s.record d).decisions :=
    List.mem_cons_of_mem d
  rw [Fits] at h ⊢
  show (s.status t).Suits s.k (s.degree t) _
  cases hs : s.status t <;> rw [hs] at h
  case simplify => exact h.imp_right hmono
  all_goals exact h

theorem Fits.release (h : s.Fits t) (u : Temp) : (s.release u).Fits t := by
  rcases release_eq s u with hr | ⟨-, -, hlt, hr⟩ <;> rw [hr]
  · exact h
  · by_cases hu : u = t
    · subst hu
      exact (fits_setStatus_self .simplify).2 (.inl hlt)
    · exact h.setStatus_of_ne hu .simplify

theorem Fits.freezeMove (h : s.Fits t) (u : Temp) (m : Nat) : (freezeMove u s m).Fits t := by
  rcases freezeMove_eq u s m with ⟨-, heq⟩ | ⟨p, x, -, heq⟩ <;> rw [heq]
  · exact h
  · have hclosed : ({ s with aliases := p }.setMoveStatus m .frozen).Fits t := h
    exact hclosed.release x

theorem Fits.freezeMoves (h : s.Fits t) (u : Temp) : (s.freezeMoves u).Fits t :=
  foldl_keeps (P := fun s => s.Fits t) (fun _ m hs => hs.freezeMove u m) _ h

/-- Counting one neighbour less keeps other nodes as they are. -/
theorem Fits.decrementDegree_of_ne (h : s.Fits t) (hne : u ≠ t) : (s.decrementDegree u).Fits t := by
  have hget : ∀ d, (s.degrees.set u d).get t = s.degrees.get t := s.degrees.get_set_of_ne hne
  have hfits : { s with degrees := s.degrees.set u (s.degree u - 1) }.Fits t ↔ s.Fits t :=
    fits_congr rfl (hget _) rfl rfl
  rcases decrementDegree_cases s u with ⟨-, heq⟩ | ⟨-, -, heq⟩ | ⟨-, -, -, s₁, hs₁, -, heq⟩
  · rw [heq]
    exact h
  · rw [heq]
    exact hfits.2 h
  · have h₁ : s₁.Fits t := hs₁.fits_iff.2 (hfits.2 h)
    rcases heq with heq | ⟨-, heq⟩ <;> rw [heq] <;> exact h₁.setStatus_of_ne hne _

/-- Counting one neighbour less lets a node fit whose degree was right, or would be
right without a neighbour that has just come. -/
theorem fits_decrementDegree {d : Nat} (ht : t.isRegister = false)
    (h : (s.status t).Suits s.k d (.selected t ∈ s.decisions))
    (hd : s.degree t = d ∨ s.degree t = d + 1) (hpos : 0 < s.degree t) :
    (s.decrementDegree t).Fits t := by
  have hget : ∀ d, (s.degrees.set t d).get t = d := s.degrees.get_set_self t
  rcases decrementDegree_cases s t with ⟨hr, -⟩ | ⟨-, hnot, heq⟩ | ⟨-, hk, -, s₁, hs₁, -, heq⟩
  · simp [ht] at hr
  · have hsuits : (s.status t).Suits s.k (s.degree t - 1) (.selected t ∈ s.decisions) := by
      cases hs : s.status t with
      | simplify =>
        rw [hs] at h
        exact h.imp_left fun hlt => (by omega : s.degree t - 1 < s.k)
      | freeze =>
        rw [hs] at h
        exact (by omega : d < s.k → s.degree t - 1 < s.k) h
      | spill =>
        rw [hs] at h
        have hne : s.degree t ≠ s.k := fun heq => hnot ⟨heq, hs⟩
        exact (by omega : s.k ≤ d → s.k ≤ s.degree t - 1) h
      | _ => trivial
    rw [heq, Fits]
    simpa [Coloring.degree, Coloring.status, Coloring.k, hget] using hsuits
  · have hlow : s₁.degree t < s₁.k := by
      obtain ⟨_, _, _, rfl⟩ := hs₁
      simp only [Coloring.degree, Coloring.k, hget] at hk hpos ⊢
      omega
    rcases heq with heq | ⟨-, heq⟩ <;> rw [heq, fits_setStatus_self]
    · exact hlow
    · exact .inl hlow

end Coloring

end Lowering
