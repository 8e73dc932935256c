import Lowering.Block.Placement
import Lowering.Proofs.Names

/-!
# The places of blocks

Placing never faults.  Every block gets one place, and the way in which its branch is
written is determined by the blocks that are placed behind it: a jump is dropped exactly if its
target is among them, and then the target comes first.
The labels that are drawn on the way are different from each other and new.

## Main definitions

* `Ending.Writes` — how a branch is written in front of some blocks.
* `Block.Places` — what placing gives.
* `Block.exists_place`, `BlockGraph.exists_schedule` — blocks can always be placed.
-/

namespace Lowering

/-- An ending stands for a branch, in front of blocks with these labels. -/
inductive Ending.Writes : Branch → List Label → Ending → Prop where
  | dropped (l : Label) (labels later : List Label) :
      Writes (.jump (.name l) labels) (l :: later) .dropped
  | jump (target : Expr) (labels later : List Label) (hleft : ∀ l ∈ later, target ≠ .name l) :
      Writes (.jump target labels) later (.branch (.jump target labels))
  | same (op : RelOp) (lhs rhs : Expr) (onTrue onFalse : Label) (later : List Label) :
      Writes (.cjump op lhs rhs onTrue onFalse) (onFalse :: later)
        (.branch (.cjump op lhs rhs onTrue onFalse))
  | negated (op : RelOp) (lhs rhs : Expr) (onTrue onFalse : Label) (later : List Label)
      (hleft : onFalse ∉ onTrue :: later) :
      Writes (.cjump op lhs rhs onTrue onFalse) (onTrue :: later)
        (.branch (.cjump op.negate lhs rhs onFalse onTrue))
  | detour (op : RelOp) (lhs rhs : Expr) (onTrue onFalse own : Label) (later : List Label)
      (htrue : onTrue ∉ later) (hfalse : onFalse ∉ later) :
      Writes (.cjump op lhs rhs onTrue onFalse) later
        (.detour (.cjump op lhs rhs onTrue own) own onFalse)

/-- The label that was drawn for an ending. -/
def Ending.own : Ending → List Label
  | detour _ own _ => [own]
  | _ => []

/-- The label of the first of some placed blocks. -/
def Placed.first? (placed : List Placed) : Option Label := placed.head?.map (·.block.label)

/-- The labels of some placed blocks. -/
def Placed.labels (placed : List Placed) : List Label := placed.map (·.block.label)

/-- Every ending stands for the branch of its block, in front of the blocks behind it. -/
def Placed.Chained : List Placed → Prop
  | [] => True
  | p :: rest => p.ending.Writes p.block.branch (labels rest) ∧ Chained rest

/-- The labels are different and were drawn while the counter went from `lo` to `hi`. -/
structure Label.Drawn (lo hi : Nat) (labels : List Label) : Prop where
  le : lo ≤ hi
  nodup : labels.Nodup
  range : ∀ l ∈ labels, ∃ id, l = .generated id ∧ lo < id ∧ id ≤ hi

theorem Label.drawn_nil (n : Nat) : Drawn n n [] := ⟨Nat.le_refl n, .nil, by simp⟩

theorem Label.drawn_succ (n : Nat) : Drawn n (n + 1) [.generated (n + 1)] :=
  ⟨Nat.le_succ n, by simp, by simp⟩

theorem Label.Drawn.append {lo mid hi : Nat} {xs ys : List Label} (h : Drawn lo mid xs)
    (h' : Drawn mid hi ys) : Drawn lo hi (xs ++ ys) where
  le := Nat.le_trans h.le h'.le
  nodup := by
    refine List.nodup_append.2 ⟨h.nodup, h'.nodup, ?_⟩
    rintro x hx y hy rfl
    obtain ⟨m, rfl, -, hm⟩ := h.range x hx
    obtain ⟨n, heq, hn, -⟩ := h'.range _ hy
    cases heq
    omega
  range := by
    intro l hl
    have := h.le
    have := h'.le
    rcases List.mem_append.1 hl with hl | hl
    · obtain ⟨id, rfl, hlo, hhi⟩ := h.range l hl
      exact ⟨id, rfl, by omega, by omega⟩
    · obtain ⟨id, rfl, hlo, hhi⟩ := h'.range l hl
      exact ⟨id, rfl, by omega, by omega⟩

namespace Block

/-- What placing a block and the rest gives. -/
structure Places (b : Block) (unplaced : List Block) (lo hi : Nat) (placed : List Placed) :
    Prop where
  perm : (placed.map (·.block)).Perm (b :: unplaced)
  first : placed.head?.map (·.block) = some b
  chained : Placed.Chained placed
  drawn : Label.Drawn lo hi (placed.flatMap (·.ending.own))

theorem exists_take?_of_among {l : Label} {blocks : List Block} (h : among l blocks = true) :
    ∃ b left, take? l blocks = some (b, left) := by
  induction blocks with
  | nil => simp [among] at h
  | cons c rest ih =>
    by_cases hc : c.label = l
    · exact ⟨c, rest, by simp [take?, hc]⟩
    · obtain ⟨b, left, htake⟩ := ih (by simpa [among, hc] using h)
      exact ⟨b, c :: left, by simp [take?, hc, htake]⟩

/-- A follower is a target of the branch and is not placed yet.  If it is the true target of a
comparison, the false one cannot follow. -/
theorem follower_eq_some {b : Block} {unplaced : List Block} {l : Label}
    (h : b.follower unplaced = some l) : among l unplaced = true ∧
      ((∃ labels, b.branch = .jump (.name l) labels) ∨ ∃ op lhs rhs onTrue onFalse,
        b.branch = .cjump op lhs rhs onTrue onFalse ∧
          (l = onFalse ∨ l = onTrue ∧ ¬among onFalse unplaced)) := by
  unfold follower at h
  split at h
  · next target labels hbranch =>
    split at h
    · next hamong =>
      cases h
      exact ⟨hamong, .inl ⟨labels, hbranch⟩⟩
    · cases h
  · cases h
  · next op lhs rhs onTrue onFalse hbranch =>
    split at h
    · next hamong =>
      cases h
      exact ⟨hamong, .inr ⟨op, lhs, rhs, _, _, hbranch, .inl rfl⟩⟩
    · next hfalse =>
      split at h
      · next hamong =>
        cases h
        exact ⟨hamong, .inr ⟨op, lhs, rhs, _, _, hbranch, .inr ⟨rfl, hfalse⟩⟩⟩
      · cases h

/-- Without a follower all targets of the branch are placed, or they are no blocks. -/
theorem follower_eq_none {b : Block} {unplaced : List Block} (h : b.follower unplaced = none) :
    (∃ target labels, b.branch = .jump target labels ∧
        ∀ l, among l unplaced = true → target ≠ .name l) ∨
      ∃ op lhs rhs onTrue onFalse, b.branch = .cjump op lhs rhs onTrue onFalse ∧
        ¬among onTrue unplaced ∧ ¬among onFalse unplaced := by
  unfold follower at h
  split at h
  · next target labels hbranch =>
    refine .inl ⟨_, labels, hbranch, ?_⟩
    rintro _ hamong ⟨⟩
    rw [if_pos hamong] at h
    cases h
  · next target labels hname hbranch =>
    exact .inl ⟨target, labels, hbranch, fun l _ => hname l⟩
  · next op lhs rhs onTrue onFalse hbranch =>
    split at h
    · cases h
    · next hfalse =>
      split at h
      · cases h
      · next htrue => exact .inr ⟨op, lhs, rhs, onTrue, onFalse, hbranch, htrue, hfalse⟩

/-- Blocks that are placed next are those that are not placed yet, the follower first. -/
structure Continues (b : Block) (unplaced : List Block) (later : List Label) : Prop where
  perm : later.Perm (unplaced.map (·.label))
  first : ∀ l, b.follower unplaced = some l → later.head? = some l

theorem Continues.among_iff {b : Block} {unplaced : List Block} {later : List Label}
    (h : b.Continues unplaced later) {l : Label} : among l unplaced = true ↔ l ∈ later := by
  rw [h.perm.mem_iff]
  simp [among]

/-- Writing a branch never faults, and the ending stands for it in front of the blocks that are
placed next. -/
theorem exists_ending (b : Block) (unplaced : List Block) (s : Supply) :
    ∃ ending s', (b.branch.ending (b.follower unplaced)).run s = (.ok ending, s') ∧
      (∀ later, b.Continues unplaced later → ending.Writes b.branch later) ∧
      Label.Drawn s.labels s'.labels ending.own := by
  cases hf : b.follower unplaced with
  | some l =>
    rcases (follower_eq_some hf).2 with ⟨labels, hb⟩ | ⟨op, lhs, rhs, onTrue, onFalse, hb, hl⟩
    · rw [hb]
      refine ⟨_, s, rfl, fun later hlater => ?_, Label.drawn_nil _⟩
      obtain ⟨later, rfl⟩ := List.head?_eq_some_iff.1 (hlater.first l hf)
      exact .dropped l labels later
    · rw [hb]
      by_cases hfalse : l = onFalse
      · subst hfalse
        refine ⟨.branch (.cjump op lhs rhs onTrue l), s, by simp [Branch.ending],
          fun later hlater => ?_, Label.drawn_nil _⟩
        obtain ⟨later, rfl⟩ := List.head?_eq_some_iff.1 (hlater.first l hf)
        exact .same ..
      · obtain ⟨rfl, hleft⟩ := hl.resolve_left hfalse
        refine ⟨.branch (.cjump op.negate lhs rhs onFalse l), s, by simp [Branch.ending, hfalse],
          fun later hlater => ?_, Label.drawn_nil _⟩
        obtain ⟨later, rfl⟩ := List.head?_eq_some_iff.1 (hlater.first l hf)
        exact .negated _ _ _ _ _ _ (mt hlater.among_iff.2 hleft)
  | none =>
    rcases follower_eq_none hf with
      ⟨target, labels, hb, hleft⟩ | ⟨op, lhs, rhs, onTrue, onFalse, hb, htrue, hfalse⟩
    · rw [hb]
      refine ⟨_, s, rfl, fun later hlater => ?_, Label.drawn_nil _⟩
      exact .jump target labels later fun l hl => hleft l (hlater.among_iff.2 hl)
    · rw [hb]
      refine ⟨_, { s with labels := s.labels + 1 }, rfl, fun later hlater => ?_, ?_⟩
      · exact .detour _ _ _ _ _ _ _ (mt hlater.among_iff.2 htrue) (mt hlater.among_iff.2 hfalse)
      · exact ⟨Nat.le_succ _, by simp [Ending.own], by simp [Ending.own]⟩

/-- What is placed after a block. -/
theorem Places.continues {b b' : Block} {unplaced left : List Block} {lo hi : Nat}
    {rest : List Placed} (h : Places b' left lo hi rest) (hperm : unplaced.Perm (b' :: left))
    (hnext : ∀ l, b.follower unplaced = some l → b'.label = l) :
    b.Continues unplaced (Placed.labels rest) where
  perm := by
    have hlabels := (h.perm.trans hperm.symm).map (·.label)
    rwa [List.map_map] at hlabels
  first := by
    intro l hl
    obtain ⟨p, hp, rfl⟩ := Option.map_eq_some_iff.1 h.first
    rw [Placed.labels, List.head?_map, hp, ← hnext l hl]
    rfl

/-- A placed block in front of what was placed after it. -/
theorem Places.cons {starts : Bool} {b b' : Block} {unplaced left : List Block} {lo mid hi : Nat}
    {ending : Ending} {rest : List Placed} (h : Places b' left mid hi rest)
    (hperm : unplaced.Perm (b' :: left)) (hwrites : ending.Writes b.branch (Placed.labels rest))
    (hdrawn : Label.Drawn lo mid ending.own) :
    Places b unplaced lo hi (⟨starts, b, ending⟩ :: rest) where
  perm := (h.perm.trans hperm.symm).cons b
  first := rfl
  chained := ⟨hwrites, h.chained⟩
  drawn := hdrawn.append h.drawn

/-- **Placing never faults**, and gives every block a place. -/
theorem exists_place (starts : Bool) (b : Block) (unplaced : List Block) (s : Supply) :
    ∃ placed s', (place starts b unplaced).run s = (.ok placed, s') ∧
      Places b unplaced s.labels s'.labels placed := by
  generalize hn : unplaced.length = n
  induction n using Nat.strongRecOn generalizing starts b unplaced s with
  | ind n ih =>
    obtain ⟨ending, s₁, hrun, hwrites, hdrawn⟩ := exists_ending b unplaced s
    rw [place, Attempt.run_bind_ok _ hrun]
    split
    · next l hl =>
      dsimp only
      split
      · next b' left htake =>
        -- The follower is placed next.
        obtain ⟨hperm, rfl⟩ := take?_perm htake
        obtain ⟨rest, s₂, hrest, hplaces⟩ := ih _ (hn ▸ length_of_take? htake) false b' left s₁ rfl
        have hlater := hwrites _ (hplaces.continues hperm fun l' hl' => Option.some.inj (hl ▸ hl'))
        exact ⟨_, s₂, by rw [Attempt.run_bind_ok _ hrest]; rfl, hplaces.cons hperm hlater hdrawn⟩
      · next htake =>
        -- A follower is not placed yet, so it is found.
        obtain ⟨b', left, htake'⟩ := exists_take?_of_among (follower_eq_some hl).1
        rw [htake'] at htake
        cases htake
    · next hnone =>
      have hnone : ∀ l, b.follower unplaced ≠ some l := by simp [hnone]
      cases unplaced with
      | nil =>
        have hlater := hwrites [] ⟨.refl _, fun l hl => absurd hl (hnone l)⟩
        exact ⟨_, s₁, rfl, ⟨.refl _, rfl, ⟨hlater, trivial⟩, by simpa using hdrawn⟩⟩
      | cons b' left =>
        obtain ⟨rest, s₂, hrest, hplaces⟩ := ih _ (by rw [← hn]; simp) true b' left s₁ rfl
        have hlater := hwrites _ (hplaces.continues (.refl _) fun l hl => absurd hl (hnone l))
        refine ⟨⟨starts, b, ending⟩ :: rest, s₂, ?_, hplaces.cons (.refl _) hlater hdrawn⟩
        dsimp only
        rw [Attempt.run_bind_ok _ hrest]
        rfl

theorem firstRepeated_eq_none {seen : List Label} {blocks : List Block} :
    firstRepeated seen blocks = none ↔
      (blocks.map (·.label)).Nodup ∧ ∀ b ∈ blocks, b.label ∉ seen := by
  induction blocks generalizing seen with
  | nil => simp [firstRepeated]
  | cons b rest ih =>
    rw [firstRepeated, List.map_cons, List.nodup_cons, List.forall_mem_cons]
    by_cases hb : b.label ∈ seen
    · simp [hb]
    · rw [if_neg hb, ih]
      simp only [List.mem_cons, not_or, List.mem_map, not_exists, not_and]
      constructor
      · rintro ⟨hnodup, hseen⟩
        exact ⟨⟨fun c hc => (hseen c hc).1, hnodup⟩, hb, fun c hc => (hseen c hc).2⟩
      · rintro ⟨⟨hfirst, hnodup⟩, -, hseen⟩
        exact ⟨hnodup, fun c hc => ⟨hfirst c hc, hseen c hc⟩⟩

/-- The label that is found occurs a second time. -/
theorem one_lt_count_of_firstRepeated {seen : List Label} {blocks : List Block} {l : Label}
    (h : firstRepeated seen blocks = some l) : 1 < (seen ++ blocks.map (·.label)).count l := by
  induction blocks generalizing seen with
  | nil => cases h
  | cons b rest ih =>
    rw [firstRepeated] at h
    split at h
    · next hb =>
      cases h
      have hseen := List.count_pos_iff.2 hb
      rw [List.map_cons, List.count_append, List.count_cons_self]
      omega
    · have hperm : (b.label :: seen ++ rest.map (·.label)).Perm
          (seen ++ (b :: rest).map (·.label)) := List.perm_middle.symm
      rw [← hperm.count_eq]
      exact ih h

end Block

namespace BlockGraph

/-- What a schedule of a graph is. -/
structure Schedules (g : BlockGraph) (lo hi : Nat) (placed : List Placed) : Prop where
  perm : (placed.map (·.block)).Perm g.blocks
  first : placed.head?.map (·.block) = g.blocks.head?
  chained : Placed.Chained placed
  drawn : Label.Drawn lo hi (placed.flatMap (·.ending.own))

/-- **A graph whose blocks have different labels has a schedule.** -/
theorem exists_schedule {g : BlockGraph} (h : (g.blocks.map (·.label)).Nodup) (s : Supply) :
    ∃ placed s', g.schedule.run s = (.ok placed, s') ∧
      g.Schedules s.labels s'.labels placed := by
  rw [schedule, Block.firstRepeated_eq_none.2 ⟨h, by simp⟩]
  cases hblocks : g.blocks with
  | nil =>
    exact ⟨[], s, rfl, by rw [hblocks]; exact .refl _, by rw [hblocks]; rfl, trivial,
      Label.drawn_nil _⟩
  | cons b rest =>
    obtain ⟨placed, s', hrun, hplaces⟩ := b.exists_place true rest s
    exact ⟨placed, s', hrun, hblocks ▸ hplaces.perm, hblocks ▸ hplaces.first, hplaces.chained,
      hplaces.drawn⟩

/-- A graph in which a label is repeated is refused. -/
theorem run_schedule_of_not_nodup {g : BlockGraph} (h : ¬(g.blocks.map (·.label)).Nodup)
    (s : Supply) : ∃ l, 1 < (g.blocks.map (·.label)).count l ∧
      g.schedule.run s = (.error (.duplicateBlock l), s) := by
  cases hfirst : Block.firstRepeated [] g.blocks with
  | none => exact absurd (Block.firstRepeated_eq_none.1 hfirst).1 h
  | some l =>
    refine ⟨l, Block.one_lt_count_of_firstRepeated hfirst, ?_⟩
    rw [schedule, hfirst]
    rfl

end BlockGraph

/-! ## Placing draws labels only -/

theorem Branch.keepsTemps_ending (b : Branch) (next : Option Label) :
    (b.ending next).KeepsTemps := by
  cases b with
  | jump target labels => cases next <;> exact .pure _
  | cjump op lhs rhs onTrue onFalse =>
    cases next with
    | none => exact .bind .label fun _ => .pure _
    | some l =>
      rw [Branch.ending]
      split <;> exact .pure _

theorem Block.keepsTemps_place (starts : Bool) (b : Block) (unplaced : List Block) :
    (b.place starts unplaced).KeepsTemps := by
  fun_induction place starts b unplaced with
  | case1 starts b unplaced next follower rest =>
    refine .bind (Branch.keepsTemps_ending _ _) fun ending => ?_
    dsimp only
    generalize next = next
    cases next with
    | some label =>
      dsimp only
      split
      · next b' left htake => exact .bind (follower label b' left htake) fun _ => .pure _
      · exact .throw _
    | none =>
      cases unplaced with
      | nil => exact .pure _
      | cons b' left => exact .bind rest fun _ => .pure _

theorem BlockGraph.keepsTemps_schedule (g : BlockGraph) : g.schedule.KeepsTemps := by
  rw [schedule]
  split
  · exact .throw _
  · split
    · exact .pure _
    · exact Block.keepsTemps_place _ _ _

end Lowering
