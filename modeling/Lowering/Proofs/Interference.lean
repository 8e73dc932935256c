import Lowering.Interference
import Lowering.Proofs.Liveness

/-!
# The edges of an interference graph

A graph keeps its edges as bits of a matrix, as lists of neighbours and as counters.  In a
well-formed graph the three agree, so that one look at the list of a virtual node decides
whether another node interferes with it.  The list of copies of a node agrees with the copies.

Edges and copies are kept apart, so that the graph of an instruction list can be seen as built in
two rounds, one for its copies and one for its edges.

## Main definitions

* `Interference.WellFormed` — bits, lists and counters agree.
* `Interference.adjacent_addEdges` — the edges after some have been added.
* `Interference.ofCode_eq` — copies and edges can be added in two rounds.
* `Interference.adjacent_ofCode` — the edges of the graph of an instruction list.
-/

namespace Lowering

namespace Interference

variable {g : Interference} {a b x y t : Temp}

/-- The indices of the copies that a temporary is an end of, read off from the copies. -/
def touching (moves : List Move) (t : Temp) : List Nat :=
  (moves.zipIdx.filter fun p => p.1.touches t).map Prod.snd

/-- The lists of neighbours agree with each other and hold nodes only, and the bits and the
counters agree with the lists.  Copies are listed with their ends. -/
structure WellFormed (g : Interference) : Prop where
  row : ∀ {a b}, b ∈ g.neighboursOf a → a.isRegister = false
  symm : ∀ {a b}, b ∈ g.neighboursOf a → b.isRegister = false → a ∈ g.neighboursOf b
  irrefl : ∀ a, a ∉ g.neighboursOf a
  mem : ∀ {a b}, b ∈ g.neighboursOf a → a ∈ g.nodes ∧ b ∈ g.nodes
  nodup : g.nodes.Nodup
  marked : ∀ {a b}, g.isMarked a b = true ↔ b ∈ g.neighboursOf a ∨ a ∈ g.neighboursOf b
  counted : ∀ a, g.degree a = (g.neighboursOf a).size
  listed : ∀ t, g.movesOf t = touching g.moves t

theorem adjacent_eq_true_iff : g.adjacent a b = true ↔
    (a ≠ b ∧ a.isRegister = true ∧ b.isRegister = true) ∨ g.isMarked a b = true := by
  simp [adjacent, and_assoc, or_iff_not_imp_left]

theorem WellFormed.adjacent_comm (h : g.WellFormed) (a b : Temp) :
    g.adjacent a b = g.adjacent b a := by
  rw [Bool.eq_iff_iff, adjacent_eq_true_iff, adjacent_eq_true_iff, h.marked, h.marked]
  tauto

/-- The list of a virtual node decides. -/
theorem WellFormed.adjacent_iff (h : g.WellFormed) (ha : a.isRegister = false) :
    g.adjacent a b = true ↔ b ∈ g.neighboursOf a := by
  have hback : a ∈ g.neighboursOf b → b ∈ g.neighboursOf a := fun hb => h.symm hb ha
  simp only [adjacent_eq_true_iff, h.marked, ha, Bool.false_eq_true, false_and, and_false, false_or]
  exact ⟨fun hab => hab.elim id hback, Or.inl⟩

/-- No bit is set for two registers. -/
theorem WellFormed.isMarked_registers (h : g.WellFormed) (ha : a.isRegister = true)
    (hb : b.isRegister = true) : g.isMarked a b = false := by
  rw [← Bool.not_eq_true, h.marked]
  rintro (hlist | hlist)
  · simp [h.row hlist] at ha
  · simp [h.row hlist] at hb

theorem WellFormed.adjacent_registers (h : g.WellFormed) (ha : a.isRegister = true)
    (hb : b.isRegister = true) : g.adjacent a b = true ↔ a ≠ b := by
  simp [adjacent_eq_true_iff, ha, hb, h.isMarked_registers ha hb]

theorem WellFormed.ne_of_adjacent (h : g.WellFormed) (hab : g.adjacent a b = true) : a ≠ b := by
  rintro rfl
  cases ha : a.isRegister with
  | true => exact (h.adjacent_registers ha ha).1 hab rfl
  | false => exact h.irrefl a ((h.adjacent_iff ha).1 hab)

/-! ## Adding edges -/

theorem addEdge_of_adjacent (hab : a = b ∨ g.adjacent a b = true) : g.addEdge a b = g := by
  simp only [addEdge, Bool.or_eq_true, decide_eq_true_eq]
  rw [if_pos hab]

theorem addEdge_of_not_adjacent (hab : ¬(a = b ∨ g.adjacent a b = true)) :
    g.addEdge a b = (((g.mark a b).mark b a).link a b).link b a := by
  simp only [addEdge, Bool.or_eq_true, decide_eq_true_eq]
  rw [if_neg hab]

/-- The lists of neighbours after adding an edge. -/
theorem WellFormed.mem_neighboursOf_addEdge (h : g.WellFormed) :
    x ∈ (g.addEdge a b).neighboursOf t ↔ x ∈ g.neighboursOf t ∨
      t.isRegister = false ∧ a ≠ b ∧ (t = a ∧ x = b ∨ t = b ∧ x = a) := by
  by_cases hab : a = b ∨ g.adjacent a b = true
  · rw [addEdge_of_adjacent hab]
    refine ⟨Or.inl, ?_⟩
    rintro (hx | ⟨ht, hne, ⟨rfl, rfl⟩ | ⟨rfl, rfl⟩⟩)
    · exact hx
    · exact (h.adjacent_iff ht).1 (hab.resolve_left hne)
    · exact (h.adjacent_iff ht).1 (h.adjacent_comm _ _ ▸ hab.resolve_left hne)
  · have hne : a ≠ b := fun heq => hab (.inl heq)
    rw [addEdge_of_not_adjacent hab, neighboursOf_link, neighboursOf_link, neighboursOf_mark,
      neighboursOf_mark]
    by_cases ht : t.isRegister = true
    · simp [ht]
    · by_cases hta : t = a <;> by_cases htb : t = b
      · exact absurd (hta.symm.trans htb) hne
      · subst hta
        simp [ht, hne, or_comm, eq_comm (a := x)]
      · subst htb
        simp [ht, hne, hta, or_comm, eq_comm (a := x)]
      · simp [hta, htb]

/-! ### Bits -/

theorem exists_id?_of_mem (ha : a ∈ g.nodes) : ∃ u, g.id? a = some u := by
  rw [← Option.isSome_iff_exists, id?, List.isSome_finIdxOf?]
  exact List.contains_iff_mem.2 ha

theorem get_of_id? {u : Fin g.nodes.length} (hu : g.id? a = some u) : g.nodes.get u = a :=
  (List.finIdxOf?_eq_some_iff.1 hu).1

/-- Marking a pair of nodes sets the bit of no other pair. -/
theorem isMarked_mark (ha : a ∈ g.nodes) (hb : b ∈ g.nodes) :
    (g.mark a b).isMarked x y = true ↔ g.isMarked x y = true ∨ x = a ∧ y = b := by
  obtain ⟨u, hu⟩ := exists_id?_of_mem ha
  obtain ⟨v, hv⟩ := exists_id?_of_mem hb
  have hmark : g.mark a b = { g with matrix := g.matrix.insert u v } := by simp only [mark, hu, hv]
  rw [hmark]
  change ((g.id? x).any fun p =>
    (g.id? y).any fun q => (g.matrix.insert u v).contains p q) = true ↔ _
  simp only [isMarked, Option.any_eq_true, BitMatrix.contains_insert]
  constructor
  · rintro ⟨p, hp, q, hq, hbit | ⟨rfl, rfl⟩⟩
    · exact .inl ⟨p, hp, q, hq, hbit⟩
    · exact .inr ⟨(get_of_id? hp).symm.trans (get_of_id? hu),
        (get_of_id? hq).symm.trans (get_of_id? hv)⟩
  · rintro (⟨p, hp, q, hq, hbit⟩ | ⟨rfl, rfl⟩)
    · exact ⟨p, hp, q, hq, .inl hbit⟩
    · exact ⟨u, hu, v, hv, .inr ⟨rfl, rfl⟩⟩

theorem isMarked_addEdge (ha : a ∈ g.nodes) (hb : b ∈ g.nodes)
    (hab : ¬(a = b ∨ g.adjacent a b = true)) :
    (g.addEdge a b).isMarked x y = true ↔
      g.isMarked x y = true ∨ x = a ∧ y = b ∨ x = b ∧ y = a := by
  rw [addEdge_of_not_adjacent hab, isMarked_link, isMarked_link, isMarked_mark, isMarked_mark ha hb,
    or_assoc]
  · rwa [nodes_mark]
  · rwa [nodes_mark]

theorem WellFormed.marked_addEdge (h : g.WellFormed) (ha : a ∈ g.nodes) (hb : b ∈ g.nodes) :
    (g.addEdge a b).isMarked x y = true ↔
      y ∈ (g.addEdge a b).neighboursOf x ∨ x ∈ (g.addEdge a b).neighboursOf y := by
  by_cases hab : a = b ∨ g.adjacent a b = true
  · rw [addEdge_of_adjacent hab]
    exact h.marked
  · have hne : a ≠ b := fun heq => hab (.inl heq)
    -- A new edge has a virtual end, which lists the other one.
    have hvirtual : a.isRegister = false ∨ b.isRegister = false := by
      by_contra hregisters
      simp only [not_or, Bool.not_eq_false] at hregisters
      exact hab (.inr (adjacent_eq_true_iff.2 (.inl ⟨hne, hregisters⟩)))
    rw [isMarked_addEdge ha hb hab, h.marked, h.mem_neighboursOf_addEdge,
      h.mem_neighboursOf_addEdge]
    constructor
    · rintro ((hlist | hlist) | ⟨rfl, rfl⟩ | ⟨rfl, rfl⟩)
      · exact .inl (.inl hlist)
      · exact .inr (.inl hlist)
      · exact hvirtual.imp (fun hx => .inr ⟨hx, hne, .inl ⟨rfl, rfl⟩⟩)
          fun hy => .inr ⟨hy, hne, .inr ⟨rfl, rfl⟩⟩
      · exact hvirtual.symm.imp (fun hx => .inr ⟨hx, hne, .inr ⟨rfl, rfl⟩⟩)
          fun hy => .inr ⟨hy, hne, .inl ⟨rfl, rfl⟩⟩
    · rintro ((hlist | ⟨-, -, hxy⟩) | (hlist | ⟨-, -, hyx⟩))
      · exact .inl (.inl hlist)
      · exact .inr hxy
      · exact .inl (.inr hlist)
      · exact .inr (hyx.symm.imp And.symm And.symm)

/-! ### Counters -/

theorem counted_link (hcount : ∀ t, g.degree t = (g.neighboursOf t).size)
    (hb : b ∉ g.neighboursOf a) (t : Temp) :
    (g.link a b).degree t = ((g.link a b).neighboursOf t).size := by
  rw [degree_link, neighboursOf_link]
  split
  · next ht =>
    obtain ⟨rfl, -⟩ := ht
    rw [Std.ExtTreeSet.size_insert, if_neg (by simpa using hb), hcount]
  · exact hcount t

theorem WellFormed.counted_addEdge (h : g.WellFormed) (t : Temp) :
    (g.addEdge a b).degree t = ((g.addEdge a b).neighboursOf t).size := by
  by_cases hab : a = b ∨ g.adjacent a b = true
  · rw [addEdge_of_adjacent hab]
    exact h.counted t
  · have hlist : b ∉ g.neighboursOf a ∧ a ∉ g.neighboursOf b := by
      rw [← not_or, ← h.marked]
      exact fun hbit => hab (.inr (adjacent_eq_true_iff.2 (.inr hbit)))
    rw [addEdge_of_not_adjacent hab]
    refine counted_link (counted_link (fun t => ?_) ?_) ?_ t
    · simpa using h.counted t
    · simpa using hlist.1
    · rw [neighboursOf_link, if_neg fun hba => hab (.inl hba.1.symm)]
      simpa using hlist.2

theorem WellFormed.addEdge (h : g.WellFormed) (ha : a ∈ g.nodes) (hb : b ∈ g.nodes) :
    (g.addEdge a b).WellFormed where
  row hx := by
    rcases h.mem_neighboursOf_addEdge.1 hx with hx | ⟨ht, -⟩
    · exact h.row hx
    · exact ht
  symm hx hreg := by
    refine h.mem_neighboursOf_addEdge.2 ?_
    rcases h.mem_neighboursOf_addEdge.1 hx with hx | ⟨-, hne, hx⟩
    · exact .inl (h.symm hx hreg)
    · exact .inr ⟨hreg, hne, hx.symm.imp And.symm And.symm⟩
  irrefl t ht := by
    rcases h.mem_neighboursOf_addEdge.1 ht with ht | ⟨-, hne, ⟨rfl, rfl⟩ | ⟨rfl, rfl⟩⟩
    · exact h.irrefl t ht
    · exact hne rfl
    · exact hne rfl
  mem hx := by
    rw [nodes_addEdge]
    rcases h.mem_neighboursOf_addEdge.1 hx with hx | ⟨-, -, ⟨rfl, rfl⟩ | ⟨rfl, rfl⟩⟩
    · exact h.mem hx
    · exact ⟨ha, hb⟩
    · exact ⟨hb, ha⟩
  nodup := by
    rw [nodes_addEdge]
    exact h.nodup
  marked := h.marked_addEdge ha hb
  counted := h.counted_addEdge
  listed t := by
    rw [movesOf, moveLists_addEdge, moves_addEdge]
    exact h.listed t

/-- The edges after adding one. -/
theorem WellFormed.adjacent_addEdge (h : g.WellFormed) (ha : a ∈ g.nodes) (hb : b ∈ g.nodes) :
    (g.addEdge a b).adjacent x y = true ↔ g.adjacent x y = true ∨
      a ≠ b ∧ (x = a ∧ y = b ∨ x = b ∧ y = a) := by
  -- Both sides are symmetric, so a virtual end can be taken to be the first one.
  have hvirtual : ∀ {x y : Temp}, x.isRegister = false →
      ((g.addEdge a b).adjacent x y = true ↔ g.adjacent x y = true ∨
        a ≠ b ∧ (x = a ∧ y = b ∨ x = b ∧ y = a)) := by
    intro x y hx
    rw [(h.addEdge ha hb).adjacent_iff hx, h.adjacent_iff hx, h.mem_neighboursOf_addEdge]
    simp [hx]
  cases hx : x.isRegister with
  | false => exact hvirtual hx
  | true =>
    cases hy : y.isRegister with
    | false =>
      rw [(h.addEdge ha hb).adjacent_comm, hvirtual hy, h.adjacent_comm y x]
      tauto
    | true =>
      rw [(h.addEdge ha hb).adjacent_registers hx hy, h.adjacent_registers hx hy]
      refine ⟨Or.inl, ?_⟩
      rintro (hne | ⟨hne, ⟨rfl, rfl⟩ | ⟨rfl, rfl⟩⟩)
      exacts [hne, hne, hne.symm]

theorem WellFormed.addEdges (h : g.WellFormed) {pairs : List (Temp × Temp)}
    (hmem : ∀ p ∈ pairs, p.1 ∈ g.nodes ∧ p.2 ∈ g.nodes) : (g.addEdges pairs).WellFormed := by
  induction pairs generalizing g with
  | nil => exact h
  | cons p rest ih =>
    obtain ⟨ha, hb⟩ := hmem p List.mem_cons_self
    refine ih (h.addEdge ha hb) fun q hq => ?_
    rw [nodes_addEdge]
    exact hmem q (List.mem_cons_of_mem p hq)

/-- The edges after adding some. -/
theorem WellFormed.adjacent_addEdges (h : g.WellFormed) {pairs : List (Temp × Temp)}
    (hmem : ∀ p ∈ pairs, p.1 ∈ g.nodes ∧ p.2 ∈ g.nodes) :
    (g.addEdges pairs).adjacent x y = true ↔ g.adjacent x y = true ∨
      x ≠ y ∧ ((x, y) ∈ pairs ∨ (y, x) ∈ pairs) := by
  induction pairs generalizing g with
  | nil => simp
  | cons p rest ih =>
    obtain ⟨ha, hb⟩ := hmem p List.mem_cons_self
    have hrest : ∀ q ∈ rest, q.1 ∈ (g.addEdge p.1 p.2).nodes ∧ q.2 ∈ (g.addEdge p.1 p.2).nodes := by
      intro q hq
      rw [nodes_addEdge]
      exact hmem q (List.mem_cons_of_mem p hq)
    rw [addEdges_cons, ih (h.addEdge ha hb) hrest, h.adjacent_addEdge ha hb]
    obtain ⟨a, b⟩ := p
    simp only [List.mem_cons, Prod.mk.injEq]
    constructor
    · rintro ((hadj | ⟨hne, ⟨rfl, rfl⟩ | ⟨rfl, rfl⟩⟩) | ⟨hne, hin⟩)
      · exact .inl hadj
      · exact .inr ⟨hne, .inl (.inl ⟨rfl, rfl⟩)⟩
      · exact .inr ⟨hne.symm, .inr (.inl ⟨rfl, rfl⟩)⟩
      · exact .inr ⟨hne, hin.imp .inr .inr⟩
    · rintro (hadj | ⟨hne, (⟨rfl, rfl⟩ | hin) | (⟨rfl, rfl⟩ | hin)⟩)
      · exact .inl (.inl hadj)
      · exact .inl (.inr ⟨hne, .inl ⟨rfl, rfl⟩⟩)
      · exact .inr ⟨hne, .inl hin⟩
      · exact .inl (.inr ⟨hne.symm, .inr ⟨rfl, rfl⟩⟩)
      · exact .inr ⟨hne, .inr hin⟩

theorem WellFormed.connect (h : g.WellFormed) (pairs : List (Temp × Temp)) :
    (g.connect pairs).WellFormed := by
  refine h.addEdges fun p hp => ?_
  simpa using (List.mem_filter.1 hp).2

/-! ## Adding copies -/

theorem touching_append (moves : List Move) (m : Move) (t : Temp) :
    touching (moves ++ [m]) t =
      if m.touches t then touching moves t ++ [moves.length] else touching moves t := by
  by_cases hm : m.touches t = true <;> simp [touching, List.zipIdx_append, hm]

theorem WellFormed.mem_movesOf (h : g.WellFormed) {id : Nat} :
    id ∈ g.movesOf t ↔ ∃ m, g.moves[id]? = some m ∧ (m.dst = t ∨ m.src = t) := by
  simp [h.listed, touching, Move.touches, List.mem_zipIdx_iff_getElem?]

theorem WellFormed.addMove (h : g.WellFormed) {m : Move} (hm : m.dst ≠ m.src) :
    (g.addMove m).WellFormed :=
  { h with
    listed := fun t => by
      rw [movesOf_addMove g hm, h.listed, ← touching_append]
      rfl }

/-- Add copies one after another. -/
def addMoves (g : Interference) (moves : List Move) : Interference := moves.foldl addMove g

theorem WellFormed.addMoves (h : g.WellFormed) {moves : List Move}
    (hmoves : ∀ m ∈ moves, m.dst ≠ m.src) : (g.addMoves moves).WellFormed := by
  induction moves generalizing g with
  | nil => exact h
  | cons m moves ih =>
    rw [List.forall_mem_cons] at hmoves
    exact ih (h.addMove hmoves.1) hmoves.2

/-- Copies change nothing else. -/
theorem addMoves_eq (g : Interference) (moves : List Move) :
    ∃ lists, g.addMoves moves = { g with moves := g.moves ++ moves, moveLists := lists } := by
  induction moves generalizing g with
  | nil => exact ⟨g.moveLists, by rw [List.append_nil]; rfl⟩
  | cons m moves ih =>
    obtain ⟨lists, heq⟩ := ih (g.addMove m)
    exact ⟨lists, heq.trans (by simp [Interference.addMove])⟩

/-! ### Copies and edges are kept apart -/

theorem mark_addMove (g : Interference) (m : Move) (a b : Temp) :
    (g.addMove m).mark a b = (g.mark a b).addMove m := by
  have hid : ∀ t, (g.addMove m).id? t = g.id? t := fun _ => rfl
  unfold mark
  rw [hid, hid]
  cases g.id? a <;> cases g.id? b <;> rfl

theorem link_addMove (g : Interference) (m : Move) (a b : Temp) :
    (g.addMove m).link a b = (g.link a b).addMove m := by
  unfold link
  split <;> rfl

theorem addEdge_addMove (g : Interference) (m : Move) (a b : Temp) :
    (g.addMove m).addEdge a b = (g.addEdge a b).addMove m := by
  have hadj : (g.addMove m).adjacent a b = g.adjacent a b := rfl
  unfold addEdge
  rw [hadj]
  split
  · rfl
  · rw [mark_addMove, mark_addMove, link_addMove, link_addMove]

theorem addEdges_addMove (g : Interference) (m : Move) (pairs : List (Temp × Temp)) :
    (g.addMove m).addEdges pairs = (g.addEdges pairs).addMove m := by
  induction pairs generalizing g with
  | nil => rfl
  | cons p pairs ih => rw [addEdges_cons, addEdge_addMove, ih, addEdges_cons]

theorem addEdges_addMoves (g : Interference) (moves : List Move) (pairs : List (Temp × Temp)) :
    (g.addMoves moves).addEdges pairs = (g.addEdges pairs).addMoves moves := by
  induction moves generalizing g with
  | nil => rfl
  | cons m moves ih => exact (ih (g.addMove m)).trans (by rw [addEdges_addMove]; rfl)

theorem addEdges_append (g : Interference) (pairs pairs' : List (Temp × Temp)) :
    g.addEdges (pairs ++ pairs') = (g.addEdges pairs).addEdges pairs' := List.foldl_append

/-! ## The graph of an instruction list -/

section

variable {palette : List Temp} {code : List Instr} {live : Liveness} {i : Instr} {after : TempSet}

theorem addInstr_eq (palette : List Temp) (g : Interference) (i : Instr) (after : TempSet) :
    g.addInstr palette i after =
      (g.addMoves (moveOf? palette i).toList).addEdges (conflicts palette i after) := by
  unfold addInstr
  cases moveOf? palette i with
  | none => rfl
  | some m => exact (addEdges_addMove g m _).symm

theorem addMoves_append (g : Interference) (moves moves' : List Move) :
    g.addMoves (moves ++ moves') = (g.addMoves moves).addMoves moves' := List.foldl_append

private theorem foldl_addInstr (palette : List Temp) (live : Liveness) (places : List (Instr × Nat))
    (g : Interference) :
    places.foldl (fun g p => g.addInstr palette p.1 (live.after p.2)) g =
      (g.addMoves (places.filterMap fun p => moveOf? palette p.1)).addEdges
        (places.flatMap fun p => conflicts palette p.1 (live.after p.2)) := by
  induction places generalizing g with
  | nil => rfl
  | cons p places ih =>
    have hmoves : (p :: places).filterMap (fun p => moveOf? palette p.1) =
        (moveOf? palette p.1).toList ++ places.filterMap fun p => moveOf? palette p.1 := by
      cases h : moveOf? palette p.1 <;> simp [h]
    rw [List.foldl_cons, ih, addInstr_eq, ← addEdges_addMoves, hmoves, addMoves_append,
      List.flatMap_cons, addEdges_append]

/-- The temporaries of an instruction list with its copies, without edges. -/
def copies (palette : List Temp) (code : List Instr) : Interference :=
  (discrete (code.flatMap Instr.temps)).addMoves (code.filterMap (moveOf? palette))

/-- **Copies and edges can be added in two rounds.** -/
theorem ofCode_eq (palette : List Temp) (code : List Instr) (live : Liveness) :
    ofCode palette code live = (copies palette code).addEdges
      (code.zipIdx.flatMap fun (i, n) => conflicts palette i (live.after n)) := by
  have hmoves : code.zipIdx.filterMap (fun p => moveOf? palette p.1) =
      code.filterMap (moveOf? palette) := by
    conv_rhs => rw [← List.zipIdx_map_fst 0 code, List.filterMap_map]
    rfl
  rw [copies, ← hmoves]
  exact foldl_addInstr palette live code.zipIdx _

/-- No copy is one of a temporary to itself. -/
theorem ne_of_moveOf? {m : Move} (h : moveOf? palette i = some m) : m.dst ≠ m.src := by
  unfold moveOf? at h
  split at h
  · split at h
    · next hcond =>
      cases h
      simp only [Bool.and_eq_true, decide_eq_true_eq] at hcond
      exact hcond.1.1
    · cases h
  · cases h

@[simp] theorem neighboursOf_discrete (temps : List Temp) (t : Temp) :
    (discrete temps).neighboursOf t = ∅ := Table.get_const ∅ t

@[simp] theorem degree_discrete (temps : List Temp) (t : Temp) :
    (discrete temps).degree t = 0 := Table.get_const 0 t

@[simp] theorem isMarked_discrete (temps : List Temp) (a b : Temp) :
    (discrete temps).isMarked a b = false := by
  simp [isMarked, discrete]

theorem wellFormed_discrete (temps : List Temp) : (discrete temps).WellFormed where
  row hx := by simp at hx
  symm hx := by simp at hx
  irrefl := by simp
  mem hx := by simp at hx
  nodup := TempSet.nodup_toList (TempSet.ofList temps)
  marked := by simp
  counted := by simp
  listed := Table.get_const []

theorem wellFormed_copies (palette : List Temp) (code : List Instr) :
    (copies palette code).WellFormed := by
  refine (wellFormed_discrete _).addMoves fun m hm => ?_
  obtain ⟨i, -, hi⟩ := List.mem_filterMap.1 hm
  exact ne_of_moveOf? hi

theorem copies_eq (palette : List Temp) (code : List Instr) : ∃ lists, copies palette code =
    { discrete (code.flatMap Instr.temps) with
      moves := code.filterMap (moveOf? palette), moveLists := lists } :=
  addMoves_eq (discrete (code.flatMap Instr.temps)) (code.filterMap (moveOf? palette))

theorem moves_ofCode (palette : List Temp) (code : List Instr) (live : Liveness) :
    (ofCode palette code live).moves = code.filterMap (moveOf? palette) := by
  obtain ⟨lists, heq⟩ := copies_eq palette code
  rw [ofCode_eq, moves_addEdges, heq]

theorem mem_nodes_copies : t ∈ (copies palette code).nodes ↔ t ∈ code.flatMap Instr.temps := by
  obtain ⟨lists, heq⟩ := copies_eq palette code
  rw [heq]
  exact Std.ExtTreeSet.mem_toList.trans TempSet.mem_ofList

theorem adjacent_copies : (copies palette code).adjacent x y = true ↔
    x.isRegister = true ∧ y.isRegister = true ∧ x ≠ y := by
  obtain ⟨lists, heq⟩ := copies_eq palette code
  have hmarked : (copies palette code).isMarked x y = false := by
    rw [heq]
    exact isMarked_discrete _ x y
  rw [adjacent_eq_true_iff, hmarked]
  simp only [Bool.false_eq_true, or_false]
  tauto

@[simp] theorem mem_nodes_ofCode : t ∈ (ofCode palette code live).nodes ↔
    t ∈ code.flatMap Instr.temps := by
  rw [ofCode_eq, nodes_addEdges, mem_nodes_copies]

/-- What interferes because of an instruction: something it writes, and something that it
writes too or that is live behind it. -/
theorem of_mem_conflicts (h : (x, y) ∈ conflicts palette i after) :
    x ∈ i.defs ∧ (y ∈ after ∨ y ∈ i.defs) ∧ x.isAllocatable palette = true ∧
      y.isAllocatable palette = true := by
  cases i with
  | oper template dst src jump =>
    simp only [conflicts, Instr.copy?, Instr.defs, List.mem_flatMap, List.mem_map, List.mem_filter,
      List.mem_append, Std.ExtTreeSet.mem_toList, Prod.mk.injEq] at h ⊢
    obtain ⟨d, hd, z, hz, rfl, rfl⟩ := h
    exact ⟨hd.1, hz.1, hd.2, hz.2⟩
  | label => simp [conflicts, Instr.copy?, Instr.defs] at h
  | move template dst src =>
    simp only [conflicts, Instr.copy?, Instr.defs] at h ⊢
    split at h
    · simp at h
    · next hd =>
      simp only [List.mem_map, List.mem_filter, Std.ExtTreeSet.mem_toList, Prod.mk.injEq] at h
      obtain ⟨z, hz, rfl, rfl⟩ := h
      simp_all

/-- What an instruction writes interferes with all else that it writes or that is live
behind it, but a copy spares its source. -/
theorem mem_conflicts (hx : x ∈ i.defs) (hy : y ∈ after ∨ y ∈ i.defs) (hne : y ≠ x)
    (hxp : x.isAllocatable palette = true) (hyp : y.isAllocatable palette = true)
    (hsrc : i.copy? ≠ some (x, y)) (hself : i.copy? ≠ some (x, x)) :
    (x, y) ∈ conflicts palette i after := by
  cases i with
  | oper template dst src jump =>
    simp only [conflicts, Instr.copy?, Instr.defs, List.mem_flatMap, List.mem_map, List.mem_filter,
      List.mem_append, Std.ExtTreeSet.mem_toList] at hx hy ⊢
    exact ⟨x, ⟨hx, hxp⟩, y, ⟨hy, hyp⟩, rfl⟩
  | label => simp [Instr.defs] at hx
  | move template dst src =>
    obtain rfl : x = dst := by simpa [Instr.defs] using hx
    have hafter : y ∈ after := hy.resolve_right (by simpa [Instr.defs] using hne)
    have hsrc : y ≠ src := fun h => hsrc (h ▸ rfl)
    have hself : x ≠ src := fun h => hself (h ▸ rfl)
    simp [conflicts, Instr.copy?, hself, hsrc, hxp, hyp, hafter]

/-- All pairs of temporaries that interfere because of some instruction. -/
private theorem mem_pairs {live : Liveness} :
    (x, y) ∈ (code.zipIdx.flatMap fun (i, n) => conflicts palette i (live.after n)) ↔
      ∃ n i, code[n]? = some i ∧ (x, y) ∈ conflicts palette i (live.after n) := by
  simp only [List.mem_flatMap, Prod.exists, List.mem_zipIdx_iff_getElem?]
  exact exists_comm

variable (hlive : ∀ n, ∀ t ∈ live.after n, t ∈ code.flatMap Instr.temps)

include hlive in
private theorem pairs_nodes (p : Temp × Temp)
    (hp : p ∈ code.zipIdx.flatMap fun (i, n) => conflicts palette i (live.after n)) :
    p.1 ∈ (copies palette code).nodes ∧ p.2 ∈ (copies palette code).nodes := by
  obtain ⟨n, i, hi, hp⟩ := mem_pairs.1 hp
  obtain ⟨hx, hy, -⟩ := of_mem_conflicts hp
  have hdefs : ∀ t ∈ i.defs, t ∈ code.flatMap Instr.temps := fun t ht =>
    List.mem_flatMap.2 ⟨i, List.mem_of_getElem? hi, List.mem_append_left _ ht⟩
  rw [mem_nodes_copies, mem_nodes_copies]
  exact ⟨hdefs _ hx, hy.elim (hlive n _) (hdefs _)⟩

include hlive in
theorem wellFormed_ofCode : (ofCode palette code live).WellFormed := by
  rw [ofCode_eq]
  exact (wellFormed_copies palette code).addEdges (pairs_nodes hlive)

include hlive in
/-- **The edges of the graph of an instruction list**: those between registers, and those
that an instruction makes. -/
theorem adjacent_ofCode : (ofCode palette code live).adjacent x y = true ↔
    x ≠ y ∧ (x.isRegister = true ∧ y.isRegister = true ∨ ∃ n i, code[n]? = some i ∧
      ((x, y) ∈ conflicts palette i (live.after n) ∨
        (y, x) ∈ conflicts palette i (live.after n))) := by
  rw [ofCode_eq, (wellFormed_copies palette code).adjacent_addEdges (pairs_nodes hlive),
    adjacent_copies, mem_pairs, mem_pairs]
  simp only [and_or_left, exists_or]
  exact or_congr_left (and_assoc.symm.trans and_comm)

end

end Interference

end Lowering
