import Lowering.Proofs.Interference.Edges

/-!
# How a graph keeps its edges

Whether two nodes interfere is a bit of a matrix, unless both are registers; then it is
whether they differ.  A virtual node lists its neighbours and counts them, and a register
does neither.  However edges are added, also again, in the other direction or from a node to
itself, the three agree and no bit is looked for outside the matrix.

## Main definitions

* `Interference.Consistent` — bits, lists and counters agree with the edges of a graph.
* `interference_consistent` — the main result.
-/

namespace Lowering

namespace Interference

variable {g : Interference} {a b : Temp}

/-- Bits, lists and counters of a graph agree with its edges. -/
structure Consistent (g : Interference) : Prop where
  symm : ∀ a b, g.adjacent a b = g.adjacent b a
  irrefl : ∀ a, g.adjacent a a = false
  /-- A virtual node lists the nodes that it interferes with. -/
  listed : ∀ a, a.isRegister = false →
    ∀ b, b ∈ g.neighboursOf a ↔ b ∈ g.nodes ∧ g.adjacent a b = true
  counted : ∀ a, a.isRegister = false → g.degree a = (g.neighboursOf a).size
  /-- A register neither lists nor counts. -/
  unlisted : ∀ a, a.isRegister = true → g.neighboursOf a = ∅ ∧ g.degree a = 0
  registers : ∀ a b, a.isRegister = true → b.isRegister = true → a ≠ b → g.adjacent a b = true
  /-- The bit of two nodes is in a word of the matrix.  It tells whether they interfere, unless
  both are registers; then it is not set. -/
  stored : ∀ u v : Fin g.nodes.length,
    ∃ w, g.matrix.words.toArray[(u * g.nodes.length + v) / 64]? = some w ∧
      (w.toNat.testBit ((u * g.nodes.length + v) % 64) = true ↔
        g.adjacent (g.nodes.get u) (g.nodes.get v) = true ∧
          ¬((g.nodes.get u).isRegister = true ∧ (g.nodes.get v).isRegister = true))

/-! ## Bits -/

theorem WellFormed.id?_get (h : g.WellFormed) (u : Fin g.nodes.length) :
    g.id? (g.nodes.get u) = some u := by
  refine List.finIdxOf?_eq_some_iff.2 ⟨rfl, fun v hlt heq => ?_⟩
  exact hlt.ne (Fin.ext ((List.Nodup.getElem_inj_iff h.nodup).1 heq))

theorem WellFormed.contains_matrix (h : g.WellFormed) (u v : Fin g.nodes.length) :
    g.matrix.contains u v = g.isMarked (g.nodes.get u) (g.nodes.get v) := by
  simp only [isMarked, h.id?_get, Option.any_some]

theorem WellFormed.isMarked_iff (h : g.WellFormed) : g.isMarked a b = true ↔
    g.adjacent a b = true ∧ ¬(a.isRegister = true ∧ b.isRegister = true) := by
  rw [adjacent_eq_true_iff]
  constructor
  · intro hbit
    refine ⟨.inr hbit, fun ⟨ha, hb⟩ => ?_⟩
    rw [h.isMarked_registers ha hb] at hbit
    cases hbit
  · rintro ⟨⟨-, hregisters⟩ | hbit, hnot⟩
    · exact absurd hregisters hnot
    · exact hbit

/-- Every pair of nodes has a word for its bit. -/
theorem getElem?_words (g : Interference) (u v : Fin g.nodes.length) :
    g.matrix.words.toArray[(u * g.nodes.length + v) / 64]? =
      some g.matrix.words[BitMatrix.word u v] := by
  rw [Vector.getElem?_toArray]
  exact Vector.getElem?_eq_getElem (BitMatrix.index_div_lt u v)

/-! ## Lists and counters -/

theorem WellFormed.neighboursOf_register (h : g.WellFormed) (ha : a.isRegister = true) :
    g.neighboursOf a = ∅ := by
  refine Std.ExtTreeSet.ext_mem fun b => ?_
  simp only [Std.ExtTreeSet.not_mem_empty, iff_false]
  intro hb
  simp [h.row hb] at ha

theorem WellFormed.consistent (h : g.WellFormed) : g.Consistent where
  symm := h.adjacent_comm
  irrefl a := by
    rw [← Bool.not_eq_true]
    exact fun haa => h.ne_of_adjacent haa rfl
  listed a ha b := by
    rw [h.adjacent_iff ha]
    exact ⟨fun hb => ⟨(h.mem hb).2, hb⟩, And.right⟩
  counted a _ := h.counted a
  unlisted a ha := by
    rw [h.counted, h.neighboursOf_register ha]
    exact ⟨rfl, Std.ExtTreeSet.size_empty⟩
  registers a b ha hb := (h.adjacent_registers ha hb).2
  stored u v := by
    refine ⟨_, g.getElem?_words u v, ?_⟩
    rw [← h.isMarked_iff, ← h.contains_matrix, BitMatrix.contains_iff_testBit]
    rfl

end Interference

/-! ## The main result -/

/-- **What a graph keeps agrees with its edges**, in the graph of an instruction list to which any
edges between its nodes were added.  Adding one more makes its two ends interfere, if they differ,
and no other two nodes. -/
theorem interference_consistent (palette : List Temp) (code : List Instr) (flow : Flow)
    (pairs : List (Temp × Temp)) :
    let g := (Interference.ofCode palette code (Liveness.ofCode code flow).1).connect pairs
    g.Consistent ∧ ∀ a ∈ g.nodes, ∀ b ∈ g.nodes, ∀ x y,
      (g.addEdge a b).adjacent x y = true ↔
        g.adjacent x y = true ∨ a ≠ b ∧ (x = a ∧ y = b ∨ x = b ∧ y = a) := by
  intro g
  have hg : g.WellFormed :=
    (Interference.wellFormed_ofCode (Interference.mem_temps_of_mem_after code flow)).connect pairs
  exact ⟨hg.consistent, fun a ha b hb x y => hg.adjacent_addEdge ha hb⟩

end Lowering
