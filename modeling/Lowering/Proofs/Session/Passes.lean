import Lowering.Proofs.Allocation.Meaning
import Lowering.Proofs.Block.Partition
import Lowering.Proofs.Canonical.Operands
import Lowering.Proofs.Session.Names

/-!
# What each pass can name

Each pass in front of register allocation confines its result to the names of what it is
given.  For the recursive ones this goes along with their recursion.  Register allocation also
names what is in its palette.
-/

namespace Lowering

open Attempt Staged

variable {γ δ : Type} [Named γ] [Named δ] {given given' : List Name}

/-! ## Canonical statements -/

section

variable {stage : Fresh (Staged Expr)} {rest : Fresh (Staged γ)}

theorem names_saveIn_subset (staged : Staged Expr) (t : Temp) :
    names (staged.saveIn t) ⊆ names staged ++ names t := by
  simp only [saveIn, names_staged, names_append, names_cons, Stmt.names_move, Expr.names_temp,
    names_nil]
  grind

/-- Effects that are joined name what both name. -/
theorem names_joined_subset (head : Staged Expr) (tail : Staged γ) :
    names (⟨head.effects ++ tail.effects, head.value, tail.value⟩ : Staged (Expr × γ)) ⊆
      names head ++ names tail := by
  simp only [names_staged, names_append, names_pair]
  grind

theorem names_behind_subset (first : List Stmt) (staged : Staged γ) :
    names (⟨first ++ staged.effects, staged.value⟩ : Staged γ) ⊆ names first ++ names staged := by
  simp

theorem names_evaluate_subset (staged : Staged Expr) : names staged.evaluate ⊆ names staged := by
  unfold evaluate
  split
  · exact List.subset_append_left ..
  · simp

theorem confines_operand (e : Expr) (h : Confines id given stage) :
    Confines id given (operand e stage) := by
  unfold operand
  split
  · exact .withTemp fun t => h.before fun staged => .pure (names_saveIn_subset staged t)
  · refine h.trans fun staged => ?_
    split
    · exact .withTemp fun t => .pure (names_saveIn_subset staged t)
    · exact .pure (.refl _)

theorem confines_pair (h : Confines id given stage) (h' : Confines id given' rest) :
    Confines id (given ++ given') (pair stage rest) := by
  refine h.before fun head => h'.after fun tail => ?_
  split
  · exact .pure (names_joined_subset head tail)
  · -- The temporary in which the first operand is saved was drawn.
    refine .withTemp fun t => .pure ?_
    have hjoined := names_joined_subset (head.saveIn t) tail
    have hsaved := names_saveIn_subset head t
    grind

theorem confines_value (h : Confines id given rest) (g : γ → δ)
    (hg : ∀ v, names (g v) ⊆ names v) :
    Confines id given
      (do let staged ← rest; pure ⟨staged.effects, g staged.value⟩ : Fresh (Staged δ)) :=
  h.map fun staged => append_subset_append (.refl _) (hg staged.value)

theorem confines_finish {last : γ → Stmt} (h : Confines id given rest)
    (hlast : ∀ v, names (last v) ⊆ names v ++ given') :
    Confines id (given ++ given') (do let staged ← rest; pure (staged.finish last)) := by
  refine h.before fun staged => .pure ?_
  have hlast := hlast staged.value
  simp only [finish, names_append, names_cons, names_nil, names_staged]
  grind

end

mutual

theorem Expr.confines_stage : ∀ e : Expr, Confines id (names e) e.stage
  | .const _ => .pure (.refl _)
  | .name _ => .pure (.refl _)
  | .temp _ => .pure (.refl _)
  | .binop op lhs rhs => by
    rw [Expr.stage_binop]
    exact confines_value (confines_pair (confines_operand lhs lhs.confines_stage)
      (confines_operand rhs rhs.confines_stage)) (fun p => Expr.binop op p.1 p.2) fun _ => .refl _
  | .mem address => by
    rw [Expr.stage_mem]
    exact confines_value (confines_operand address address.confines_stage) Expr.mem fun _ => .refl _
  | .call function args => by
    rw [Expr.stage_call, Expr.names_call]
    exact confines_value (confines_pair (confines_operand function function.confines_stage)
      (Expr.confines_stageAll args)) (fun p => Expr.call p.1 p.2) fun _ => by simp
  | .eseq stmt value =>
    stmt.confines_canonical.both value.confines_stage fun first staged =>
      names_behind_subset first staged
  termination_by structural e => e

theorem Expr.confines_stageAll : ∀ es : List Expr, Confines id (names es) (Expr.stageAll es)
  | [] => .pure (.refl _)
  | e :: rest => confines_value (confines_pair (confines_operand e e.confines_stage)
      (Expr.confines_stageAll rest)) (fun p => p.1 :: p.2) fun _ => .refl _
  termination_by structural es => es

theorem Expr.confines_stageInto : ∀ (target source : Expr) {stage : Fresh (Staged Expr)}
    {given : List Name}, Confines id given stage →
    Confines id (names target ++ given) (Expr.stageInto source stage target)
  | .temp t, _, _, _, h =>
    (confines_finish h fun _ => List.perm_append_comm.subset).mono List.perm_append_comm.subset
  | .mem address, source, _, _, h => by
    rw [Expr.stageInto_mem, ← List.append_nil (names _ ++ _)]
    exact confines_finish (confines_pair (confines_operand address address.confines_stage)
      (confines_operand source h)) fun _ => List.subset_append_left ..
  | .eseq stmt target, source, _, _, h => by
    rw [Expr.names_eseq, List.append_assoc]
    exact stmt.confines_canonical.both (target.confines_stageInto source h) names_append_subset
  | .const _, _, _, _, _ => .throw _
  | .name _, _, _, _, _ => .throw _
  | .binop .., _, _, _, _ => .throw _
  | .call .., _, _, _, _ => .throw _
  termination_by structural target => target

theorem Branch.confines_canonical : ∀ b : Branch, Confines id (names b) b.canonical
  | .jump target labels => by
    rw [Branch.canonical_jump]
    exact confines_finish (confines_operand target target.confines_stage) fun _ => .refl _
  | .cjump _ lhs rhs onTrue onFalse => by
    rw [Branch.canonical_cjump, Branch.names_cjump, List.append_assoc]
    exact confines_finish (confines_pair (confines_operand lhs lhs.confines_stage)
      (confines_operand rhs rhs.confines_stage)) fun v => by simp
  termination_by structural b => b

/-- **Canonical statements** name only what the statement names. -/
theorem Stmt.confines_canonical : ∀ stmt : Stmt, Confines id (names stmt) stmt.canonical
  | .seq first second =>
    first.confines_canonical.both second.confines_canonical names_append_subset
  | .label _ => .pure (by simp)
  | .move target source => by
    rw [Stmt.canonical_move]
    exact target.confines_stageInto source source.confines_stage
  | .eval expr => by
    rw [Stmt.canonical_eval]
    exact expr.confines_stage.map names_evaluate_subset
  | .branch b => b.confines_canonical
  termination_by structural s => s

end

theorem Pipeline.confines_canonicalize (s : Stmt) :
    Confines Workspace.supply (names s) (Pipeline.canonicalize s) :=
  s.confines_canonical.fresh.trans fun _ =>
    .behind (grows_noteText _ _) fun _ => .pure (.refl _)

/-! ## Quads -/

theorem confines_named {x : Fresh Expr} (h : Confines id given x) :
    Confines id given (Expr.named x) := by
  refine h.trans fun e => ?_
  split
  · exact .pure (.refl _)
  · refine .withTemp fun t => .pure ?_
    show names t ++ names e ++ names t ⊆ names e ++ names t
    exact List.append_subset.2 ⟨List.perm_append_comm.subset, List.subset_append_right ..⟩

mutual

theorem Expr.confines_simplify : ∀ e : Expr, Confines id (names e) e.simplify
  | .const _ => .pure (.refl _)
  | .name _ => .pure (.refl _)
  | .temp _ => .pure (.refl _)
  | .binop _ lhs rhs =>
    (confines_named lhs.confines_simplify).both (confines_named rhs.confines_simplify)
      fun _ _ => .refl _
  | .mem address => (confines_named address.confines_simplify).map fun _ => .refl _
  | .call function args => by
    rw [Expr.names_call]
    exact (confines_named function.confines_simplify).both (Expr.confines_simplifyAll args)
      fun _ _ => by simp
  | .eseq stmt value =>
    stmt.confines_simplify.both (confines_named value.confines_simplify) fun _ _ => .refl _
  termination_by structural e => e

theorem Expr.confines_simplifyAll : ∀ es : List Expr, Confines id (names es) (Expr.simplifyAll es)
  | [] => .pure (.refl _)
  | e :: rest =>
    (confines_named e.confines_simplify).both (Expr.confines_simplifyAll rest) fun _ _ => .refl _
  termination_by structural es => es

theorem Expr.confines_simplifyTarget : ∀ target : Expr,
    Confines id (names target) target.simplifyTarget
  | .mem address => (confines_named address.confines_simplify).map fun _ => .refl _
  | .eseq stmt target =>
    stmt.confines_simplify.both target.confines_simplifyTarget fun _ _ => .refl _
  | .const _ => .pure (.refl _)
  | .name _ => .pure (.refl _)
  | .temp _ => .pure (.refl _)
  | .binop .. => .pure (.refl _)
  | .call .. => .pure (.refl _)
  termination_by structural target => target

theorem Branch.confines_simplify : ∀ b : Branch, Confines id (names b) b.simplify
  | .jump target labels => (confines_named target.confines_simplify).before fun _ => .pure (.refl _)
  | .cjump _ lhs rhs onTrue onFalse => by
    rw [Branch.names_cjump, List.append_assoc]
    exact (confines_named lhs.confines_simplify).bothBefore (confines_named rhs.confines_simplify)
      fun _ _ => .pure (by simp)
  termination_by structural b => b

theorem Stmt.confines_simplify : ∀ stmt : Stmt, Confines id (names stmt) stmt.simplify
  | .seq first second => first.confines_simplify.both second.confines_simplify fun _ _ => .refl _
  | .label _ => .pure (.refl _)
  | .move target source => by
    refine target.confines_simplifyTarget.before fun place => ?_
    split
    · exact (confines_named source.confines_simplify).after fun _ => .pure (.refl _)
    · exact source.confines_simplify.after fun _ => .pure (.refl _)
  | .eval expr => by
    simp only [Stmt.simplify]
    split
    · exact expr.confines_simplify.map fun _ => .refl _
    · exact (confines_named expr.confines_simplify).map fun _ => .refl _
  | .branch b => b.confines_simplify.map fun _ => .refl _
  termination_by structural s => s

end

/-- An operand names what its expression names. -/
theorem names_ofExpr {e : Expr} {o : Operand} (h : Operand.ofExpr e = .ok o) :
    names o = names e := by
  cases e <;> cases h <;> rfl

theorem names_mapM_ofExpr {es : List Expr} {os : List Operand}
    (h : es.mapM Operand.ofExpr = .ok os) : names os = names es := by
  rw [mapM_eq_ok_iff] at h
  induction h with
  | nil => rfl
  | cons he _ ih => rw [names_cons, names_cons, names_ofExpr he, ih]

/-- A quad names what its statement names. -/
theorem names_ofCanonical {s : Stmt} {q : Quad} (h : Quad.ofCanonical s = .ok (some q)) :
    names q ⊆ names s := by
  have hq : names q = q.nameList := rfl
  unfold Quad.ofCanonical at h
  split at h
  case h_1 =>
    cases h
    exact .refl _
  case h_2 | h_5 | h_8 =>
    obtain ⟨o, ho, h⟩ := bind_eq_ok h
    cases h
    rw [hq, Quad.nameList, names_ofExpr ho]
    exact .refl _
  case h_3 | h_4 =>
    obtain ⟨a, ha, h⟩ := bind_eq_ok h
    obtain ⟨b, hb, h⟩ := bind_eq_ok h
    cases h
    rw [hq, Quad.nameList, names_ofExpr ha, names_ofExpr hb]
    exact .refl _
  case h_6 =>
    obtain ⟨a, ha, h⟩ := bind_eq_ok h
    obtain ⟨b, hb, h⟩ := bind_eq_ok h
    cases h
    rw [hq, Quad.nameList, names_ofExpr ha, names_ofExpr hb, List.append_assoc]
    exact .refl _
  case h_7 | h_9 =>
    -- The result of a call is named behind the arguments, if it is kept at all.
    obtain ⟨f, hf, h⟩ := bind_eq_ok h
    obtain ⟨as, has, h⟩ := bind_eq_ok h
    cases h
    rw [hq, Quad.nameList, names_ofExpr hf, names_mapM_ofExpr has]
    grind
  case h_10 | h_11 | h_12 | h_13 => cases h

theorem names_ofCanonicals {stmts : List Stmt} {quads : List Quad}
    (h : Quad.ofCanonicals stmts = .ok quads) : names quads ⊆ names stmts := by
  obtain ⟨qs, hqs, heq⟩ := bind_eq_ok h
  obtain rfl := Except.ok.inj heq
  clear h heq
  rw [mapM_eq_ok_iff] at hqs
  induction hqs with
  | nil => exact .refl _
  | @cons s q stmts qs hs _ ih =>
    cases q with
    | none => exact List.subset_append_of_subset_right _ ih
    | some q =>
      show names q ++ names (qs.filterMap id) ⊆ names s ++ names stmts
      exact append_subset_append (names_ofCanonical hs) ih

theorem Pipeline.confines_quads (s : Stmt) :
    Confines Workspace.supply (names s) (Pipeline.quads s) := by
  refine s.confines_simplify.fresh.trans fun simple =>
    (Pipeline.confines_canonicalize simple).trans fun stmts => ?_
  cases hquads : Quad.ofCanonicals stmts with
  | error e => exact .throw e
  | ok quads => exact .pure (names_ofCanonicals hquads)

/-! ## Blocks -/

section

open Block

@[simp, grind =] theorem names_open (b : Open) : names b = names b.label ++ names b.body := rfl
@[simp, grind =] theorem names_graph (g : BlockGraph) :
    names g = names g.blocks ++ names g.exit := rfl

theorem names_start (l : Label) : names (Open.start l) = names l := List.append_nil _

theorem names_push (b : Open) (s : Stmt) : names (b.push s) = names b ++ names s := by
  simp [Open.push]

theorem names_close (b : Open) (branch : Branch) :
    names (b.close branch) = names b ++ names branch := rfl

theorem confines_orFresh (current : Option Open) :
    Confines id (names current) (Open.orFresh current) := by
  cases current with
  | some b => exact .pure (List.subset_append_left ..)
  | none =>
    refine .withLabel fun l => .pure ?_
    rw [names_start]
    exact .refl _

/-- Blocks name what the open block names, and then the statements and the exit. -/
theorem confines_partitionFrom (exit : Label) (current : Option Open) (stmts : List Stmt) :
    Confines id (names current ++ (names stmts ++ names exit))
      (partitionFrom exit current stmts) := by
  induction stmts generalizing current with
  | nil =>
    cases current with
    | none => exact .pure (List.nil_subset _)
    | some b =>
      refine .pure ?_
      rw [names_some, names_cons, names_close, Branch.names_goto]
      grind
  | cons s rest ih =>
    have hstraight : Confines id (names current ++ (names (s :: rest) ++ names exit)) (do
        let b ← Open.orFresh current
        partitionFrom exit (some (b.push s)) rest) := by
      refine (confines_orFresh current).before fun b => (ih (some (b.push s))).mono ?_
      rw [names_some, names_push, names_cons, List.append_assoc, List.append_assoc]
      exact .refl _
    cases s with
    | seq => cases current <;> exact .throw _
    | label l =>
      -- The label is all that the block names that is opened here.
      have hopen : names (some (Open.start l)) ++ (names rest ++ names exit) =
          names (Stmt.label l :: rest) ++ names exit := by
        rw [names_some, names_start, names_cons, Stmt.names_label, List.append_assoc]
      have hrest := ih (some (.start l))
      rw [hopen] at hrest
      cases current with
      | none => exact hrest
      | some b =>
        refine hrest.bind (List.subset_append_right ..) fun blocks => .pure ?_
        rw [names_cons, names_close, Branch.names_goto, names_some, names_cons, Stmt.names_label]
        grind
    | branch branch =>
      rw [partitionFrom_branch]
      refine (confines_orFresh current).before fun b => ?_
      have hrest : Confines id (names rest ++ names exit) (partitionFrom exit none rest) := ih none
      refine hrest.bind ?_ fun blocks => .pure ?_
      · rw [names_cons]
        grind
      · rw [names_cons, names_close, names_cons, Stmt.names_branch]
        grind
    | move target source => rwa [partitionFrom_straight current rfl (by simp)]
    | eval e => rwa [partitionFrom_straight current rfl (by simp)]

theorem confines_partition (stmts : List Stmt) :
    Confines id (names stmts) (partition stmts) := by
  refine .withLabel fun exit => ?_
  refine (confines_partitionFrom exit none stmts).bind (.refl _) fun blocks => .pure ?_
  show names blocks ++ names exit ⊆ names stmts ++ names exit ++ names blocks
  grind

theorem Pipeline.confines_partition (stmts : List Stmt) :
    Confines Workspace.supply (names stmts) (Pipeline.partition stmts) :=
  (Lowering.confines_partition stmts).fresh.trans fun _ =>
    .behind (grows_noteText _ _) fun _ => .pure (.refl _)

theorem confines_ending (b : Branch) (next : Option Label) :
    Confines id (names b) (b.ending next) := by
  cases b with
  | jump target labels =>
    cases next with
    | none => exact .pure (.refl _)
    | some l => exact .pure (List.nil_subset _)
  | cjump op lhs rhs onTrue onFalse =>
    cases next with
    | none =>
      -- The false label is replaced by one that was drawn, and written behind it.
      refine .withLabel fun own => .pure ?_
      show names lhs ++ names rhs ++ names onTrue ++ names own ++ names own ++ names onFalse ⊆
        names lhs ++ names rhs ++ names onTrue ++ names onFalse ++ names own
      grind
    | some l =>
      simp only [Branch.ending]
      split
      · exact .pure (.refl _)
      · refine .pure ?_
        show names lhs ++ names rhs ++ names onFalse ++ names onTrue ⊆
          names lhs ++ names rhs ++ names onTrue ++ names onFalse
        grind

theorem confines_place (starts : Bool) (b : Block) (unplaced : List Block) :
    Confines id (names b ++ names unplaced) (place starts b unplaced) := by
  generalize hn : unplaced.length = n
  induction n using Nat.strongRecOn generalizing starts b unplaced with
  | ind n ih =>
    rw [place]
    have hbranch : names b.branch ⊆ names b ++ names unplaced :=
      List.subset_append_of_subset_left _ (List.subset_append_right ..)
    refine (confines_ending b.branch _).bind hbranch fun ending => ?_
    -- Behind the block come those that are placed after it, out of those that were not placed.
    have hplaced : ∀ {later : Bool} {b' : Block} {left : List Block}, left.length < n →
        names b' ++ names left ⊆ names unplaced →
        Confines id (names b ++ names unplaced ++ names ending) (do
          let rest ← place later b' left
          pure (⟨starts, b, ending⟩ :: rest)) := by
      intro later b' left hlength hleft
      refine (ih _ hlength later b' left rfl).bind ?_ fun rest => .pure ?_
      · exact List.Subset.trans hleft (List.subset_append_of_subset_left _
          (List.subset_append_right ..))
      · show names b ++ names ending ++ names rest ⊆
          names b ++ names unplaced ++ names ending ++ names rest
        grind
    split
    · split
      · next htake =>
        exact hplaced (hn ▸ length_of_take? htake)
          (names_subset_of_subset (take?_perm htake).1.symm.subset)
      · exact .throw _
    · split
      · refine .pure ?_
        show names b ++ names ending ++ [] ⊆ names b ++ [] ++ names ending
        simp
      · exact hplaced (hn ▸ Nat.lt_succ_self _) (.refl _)

theorem confines_schedule (g : BlockGraph) : Confines id (names g) g.schedule := by
  unfold BlockGraph.schedule
  split
  · exact .throw _
  · split
    · exact .pure (List.nil_subset _)
    · next b rest hblocks =>
      refine (confines_place true b rest).mono ?_
      rw [names_graph, hblocks]
      exact List.subset_append_left ..

theorem names_ending_stmts (ending : Ending) : names ending.stmts ⊆ names ending := by
  cases ending with
  | dropped => exact .refl _
  | branch b => exact List.append_subset.2 ⟨.refl _, List.nil_subset _⟩
  | detour b own onFalse =>
    simp only [Ending.stmts, Stmt.goto, names_cons, Stmt.names_branch, Stmt.names_label,
      Branch.names_goto, names_nil]
    show _ ⊆ names b ++ names own ++ names onFalse
    grind

theorem names_stmts (p : Placed) : names p.stmts ⊆ names p := by
  refine List.Subset.trans (names_append_subset ..) ?_
  exact append_subset_append (List.subset_append_left ..) (names_ending_stmts p.ending)

theorem names_stmtsOf (g : BlockGraph) (placed : List Placed) :
    names (g.stmtsOf placed) ⊆ names placed ++ names g.exit := by
  intro n hn
  rw [BlockGraph.stmtsOf, names_append, List.mem_append] at hn
  rcases hn with hn | hn
  · obtain ⟨s, hs, hn⟩ := mem_names_list.1 hn
    obtain ⟨p, hp, hs⟩ := List.mem_flatMap.1 hs
    exact List.mem_append_left _
      (names_subset_of_mem hp (names_stmts p (names_subset_of_mem hs hn)))
  · exact List.mem_append_right _ (by simpa using hn)

theorem grows_notePlaced (placed : List Placed) :
    Grows Workspace.supply (Pipeline.notePlaced placed) := by
  induction placed with
  | nil => exact .pure ()
  | cons p rest ih =>
    rw [Pipeline.notePlaced]
    split <;> split
    · exact (grows_noteText _ _).bind fun _ => (grows_noteText _ _).bind fun _ => ih
    · exact (grows_noteText _ _).bind fun _ => ih
    · exact (grows_noteText _ _).bind fun _ => ih
    · exact ih

theorem Pipeline.confines_schedule (g : BlockGraph) :
    Confines Workspace.supply (names g) (Pipeline.schedule g) := by
  refine (Lowering.confines_schedule g).fresh.bind (.refl _) fun placed =>
    .behind (grows_notePlaced placed) fun _ =>
      .pure (List.Subset.trans (names_stmtsOf g placed) ?_)
  show names placed ++ names g.exit ⊆ names g.blocks ++ names g.exit ++ names placed
  grind

end

/-! ## Instructions -/

section

open Mips

@[simp, grind =] theorem names_oper (template : String) (dst src : List Temp)
    (jump : Option (List Label)) :
    names (Instr.oper template dst src jump) = names dst ++ names src ++ names jump := rfl
@[simp, grind =] theorem names_move (template : String) (dst src : Temp) :
    names (Instr.move template dst src) = names dst ++ names src := rfl
@[simp, grind =] theorem names_label (template : String) (l : Label) :
    names (Instr.label template l) = names l := rfl
@[simp, grind =] theorem names_op (template : String) (dst src : List Temp) :
    names (Instr.op template dst src) = names dst ++ names src := List.append_nil _
theorem names_jumping (template : String) (src : List Temp) (targets : List Label) :
    names (Instr.jumping template src targets) = names src ++ names targets := by
  simp [Instr.jumping]

@[simp] theorem Tile.nameListAll_eq (tiles : List Tile) : Tile.nameListAll tiles = names tiles := by
  induction tiles with
  | nil => rfl
  | cons tile rest ih => rw [Tile.nameListAll, ih]; rfl

theorem Tile.names_call (function : Label) (args : List Tile) :
    names (Tile.call function args) = names args := Tile.nameListAll_eq args
theorem Tile.names_callAt (function : Tile) (args : List Tile) :
    names (Tile.callAt function args) = names function ++ names args :=
  congrArg (names function ++ ·) (Tile.nameListAll_eq args)

theorem Tile.names_address (tile : Tile) : names tile.address.1 = names tile := by
  unfold Tile.address
  split <;> rfl

mutual

/-- Tiles name what the expression names that they cover. -/
theorem Expr.names_cover : ∀ e : Expr, names e.cover ⊆ names e
  | .const value => by
    rw [Expr.cover]
    split <;> exact List.nil_subset _
  | .name _ => List.nil_subset _
  | .temp _ => .refl _
  | .binop op lhs rhs => by
    rw [Expr.cover]
    split
    · exact List.nil_subset _
    · exact List.subset_append_of_subset_left _ lhs.names_cover
    · exact List.subset_append_of_subset_right _ rhs.names_cover
    · exact append_subset_append lhs.names_cover rhs.names_cover
  | .mem address => by
    show names address.cover.address.1 ⊆ names address
    rw [Tile.names_address]
    exact address.names_cover
  | .call function args => by
    have hfunction := function.names_cover
    have hargs := Expr.names_coverAll args
    rw [Expr.names_call]
    cases function with
    | name l =>
      rw [Expr.cover, Tile.names_call]
      exact List.subset_append_of_subset_right _ hargs
    | _ =>
      rw [Expr.cover, Tile.names_callAt]
      · exact append_subset_append hfunction hargs
      · exact nofun
  | .eseq _ _ => List.nil_subset _
  termination_by structural e => e

theorem Expr.names_coverAll : ∀ es : List Expr, names (Expr.coverAll es) ⊆ names es
  | [] => .refl _
  | e :: rest => append_subset_append e.names_cover (Expr.names_coverAll rest)
  termination_by structural es => es

end

theorem confines_emit (i : Instr) : Confines Workspace.supply (names i) (emit i) :=
  .behind (grows_noteText _ _) fun _ =>
    .pure (List.append_subset.2 ⟨.refl _, List.nil_subset _⟩)

/-- Code and one instruction behind it. -/
theorem confines_last {code : List Instr} {i : Instr} (hcode : names code ⊆ given)
    (hlast : names i ⊆ given) :
    Confines Workspace.supply given (do let last ← emit i; pure (code ++ last)) :=
  (confines_emit i).bind hlast fun _ =>
    .pure (List.Subset.trans (names_append_subset ..) (append_subset_append hcode (.refl _)))

/-- Code and an operation behind it whose result is drawn. -/
theorem confines_emitResult {code : List Instr} {template : Temp → String} {src : List Temp}
    (hcode : names code ⊆ given) (hsrc : names src ⊆ given) :
    Confines Workspace.supply given (emitResult code fun t => .op (template t) [t] src) := by
  refine confines_temp.fresh.bind (List.nil_subset _) fun t => ?_
  refine (confines_emit _).bind ?_ fun emitted => .pure ?_
  · rw [names_op]
    show names [t] ++ names src ⊆ given ++ names t
    grind
  · show names (code ++ emitted) ++ names t ⊆ given ++ names t ++ names emitted
    grind

theorem grows_checkArgs (count : Nat) : Grows Workspace.supply (checkArgs count) := by
  unfold checkArgs
  split
  · exact .throw _
  · exact .pure ()

theorem names_take_argumentRegisters (count : Nat) :
    names (argumentRegisters.take count) = [] :=
  List.eq_nil_of_subset_nil (names_subset_of_subset (List.take_subset count argumentRegisters))

section

variable (p q : List Instr × Temp)

/-- The code of two values comes in their order. -/
theorem names_codes_subset : names (p.1 ++ q.1) ⊆ names p ++ names q := by
  grind

theorem names_values_subset : names [p.2, q.2] ⊆ names p ++ names q := by
  grind

theorem names_value_subset : names [p.2] ⊆ names p := by
  grind

end

mutual

theorem Tile.confines_select : ∀ tile : Tile, Confines Workspace.supply (names tile) tile.select
  | .temp _ => .pure (.refl _)
  | .const _ => confines_emitResult (.refl _) (.refl _)
  | .name _ => confines_emitResult (.refl _) (.refl _)
  | .load base _ =>
    base.confines_select.trans fun p =>
      confines_emitResult (List.subset_append_left ..) (names_value_subset p)
  | .immediate _ operand _ =>
    operand.confines_select.trans fun p =>
      confines_emitResult (List.subset_append_left ..) (names_value_subset p)
  | .binop _ lhs rhs =>
    lhs.confines_select.before fun p => rhs.confines_select.after fun q =>
      confines_emitResult (names_codes_subset p q) (names_values_subset p q)
  | .call _ args => by
    rw [Tile.names_call]
    refine .behind (grows_checkArgs _) fun _ =>
      (Tile.confines_selectArgs argumentRegisters args rfl).trans fun code => ?_
    refine (confines_emit _).bind ?_ fun last => .pure ?_
    · rw [names_op, names_take_argumentRegisters]
      exact List.nil_subset _
    · show names (code ++ last) ++ [] ⊆ names code ++ names last
      simp
  | .callAt function args => by
    rw [Tile.names_callAt]
    refine function.confines_select.before fun p => .behind (grows_checkArgs _) fun _ =>
      (Tile.confines_selectArgs argumentRegisters args rfl).after fun code => ?_
    refine (confines_emit _).bind ?_ fun last => .pure ?_
    · rw [names_op, names_cons, names_take_argumentRegisters]
      show names p.2 ++ [] ⊆ names p.1 ++ names p.2 ++ names code
      grind
    · show names (p.1 ++ code ++ last) ++ [] ⊆ names p.1 ++ names p.2 ++ names code ++ names last
      grind
  | .faulty e => .throw e
  termination_by structural tile => tile

/-- Registers have no names, so only the arguments count. -/
theorem Tile.confines_selectArgs : ∀ (registers : List Temp) (args : List Tile),
    names registers = [] → Confines Workspace.supply (names args) (Tile.selectArgs registers args)
  | _, [], _ => .pure (.refl _)
  | [], _ :: _, _ => .pure (List.nil_subset _)
  | r :: registers, arg :: rest, hregisters => by
    obtain ⟨hr, hregisters⟩ := List.append_eq_nil_iff.1 hregisters
    refine arg.confines_select.before fun p => ?_
    refine (confines_emit _).bind ?_ fun last => ?_
    · show names r ++ names p.2 ⊆ names p.1 ++ names p.2 ++ names rest
      rw [hr]
      grind
    · refine (Tile.confines_selectArgs registers rest hregisters).bind ?_ fun more => .pure ?_
      · show names rest ⊆ names p ++ names rest ++ names last
        grind
      · show names (p.1 ++ last ++ more) ⊆
          names p.1 ++ names p.2 ++ names rest ++ names last ++ names more
        grind
  termination_by structural _ args => args

end

theorem Expr.confines_select (e : Expr) : Confines Workspace.supply (names e) e.cover.select :=
  e.cover.confines_select.mono e.names_cover

theorem Stmt.confines_copy (dst : Temp) (source : Expr) :
    Confines Workspace.supply (names (Expr.temp dst) ++ names source) (do
      let (code, src) ← source.cover.select
      let last ← emit (copy dst src)
      pure (code ++ last)) := by
  refine source.confines_select.after fun p => confines_last ?_ ?_
  · show names p.1 ⊆ names dst ++ (names p.1 ++ names p.2)
    grind
  · show names dst ++ names p.2 ⊆ names dst ++ (names p.1 ++ names p.2)
    grind

theorem Stmt.confines_selectMove (target source : Expr) :
    Confines Workspace.supply (names target ++ names source) (Stmt.selectMove target source) := by
  cases target with
  | mem address =>
    have hbase : Confines Workspace.supply (names address) address.cover.address.1.select := by
      refine (Tile.confines_select _).mono ?_
      rw [Tile.names_address]
      exact address.names_cover
    refine hbase.before fun p => source.confines_select.after fun q =>
      confines_last (names_codes_subset p q) ?_
    rw [names_op]
    exact names_values_subset p q
  | temp dst =>
    cases source with
    | const value =>
      refine (confines_emit _).mono ?_
      rw [loadConst, names_op]
      exact append_subset_append (List.append_subset.2 ⟨.refl _, List.nil_subset _⟩) (.refl _)
    | _ => exact Stmt.confines_copy dst _
  | _ => exact .throw _

theorem Branch.confines_jumpAt (target : Expr) (labels : List Label) :
    Confines Workspace.supply (names target ++ names labels) (do
      let (code, address) ← target.cover.select
      let last ← emit (.jumping "jr 's0" [address] labels)
      pure (code ++ last)) := by
  refine target.confines_select.before fun p => confines_last ?_ ?_
  · show names p.1 ⊆ names p.1 ++ names p.2 ++ names labels
    grind
  · rw [names_jumping]
    exact append_subset_append (names_value_subset p) (.refl _)

theorem Branch.confines_select (b : Branch) : Confines Workspace.supply (names b) b.select := by
  cases b with
  | jump target labels =>
    cases target with
    | name l =>
      refine (confines_emit _).mono ?_
      rw [names_jumping]
      show names [l] ⊆ names l ++ names labels
      simp
    | _ => exact Branch.confines_jumpAt _ labels
  | cjump op lhs rhs onTrue onFalse =>
    rw [Branch.names_cjump, List.append_assoc]
    refine lhs.confines_select.bothBefore rhs.confines_select fun p q => confines_last ?_ ?_
    · exact List.subset_append_of_subset_left _ (names_codes_subset p q)
    · rw [names_jumping]
      exact append_subset_append (names_values_subset p q) (by simp)

theorem Stmt.confines_select : ∀ s : Stmt, Confines Workspace.supply (names s) s.select
  | .seq first second => first.confines_select.both second.confines_select names_append_subset
  | .label l => confines_emit (.define l)
  | .move target source => Stmt.confines_selectMove target source
  | .eval e => e.confines_select.map fun _ => List.subset_append_left ..
  | .branch b => b.confines_select

/-- **Instructions** name only what the statements name. -/
theorem Stmt.confines_selectAll (stmts : List Stmt) :
    Confines Workspace.supply (names stmts) (Stmt.selectAll stmts) := by
  induction stmts with
  | nil => exact .pure (.refl _)
  | cons s rest ih => exact s.confines_select.both ih names_append_subset

end

/-! ## Register allocation -/

theorem Instr.names_temps (i : Instr) : names i.temps ⊆ names i := by
  cases i with
  | oper template dst src jump =>
    exact List.Subset.trans (names_append_subset dst src) (List.subset_append_left ..)
  | move template dst src =>
    show names dst ++ (names src ++ []) ⊆ names dst ++ names src
    simp
  | label template l => exact List.nil_subset _

theorem Instr.names_subset_of_temps {i : Instr} {t : Temp} (h : t ∈ i.temps) :
    names t ⊆ names i :=
  List.Subset.trans (names_subset_of_mem h) i.names_temps

theorem names_flatMap_temps {t : Temp} {code : List Instr} (h : t ∈ code.flatMap Instr.temps) :
    names t ⊆ names code := by
  obtain ⟨i, hi, ht⟩ := List.mem_flatMap.1 h
  exact List.Subset.trans (Instr.names_subset_of_temps ht) (names_subset_of_mem hi)

theorem of_mem_names_map (f : Temp → Temp) (ts : List Temp) {n : Name}
    (hn : n ∈ names (ts.map f)) : ∃ t ∈ ts, n ∈ names (f t) := by
  obtain ⟨u, hu, hn⟩ := mem_names_list.1 hn
  obtain ⟨t, ht, rfl⟩ := List.mem_map.1 hu
  exact ⟨t, ht, hn⟩

/-- Renaming brings in nothing but what temporaries are renamed to. -/
theorem Instr.of_mem_names_rename {i : Instr} {f : Temp → Temp} {n : Name}
    (hn : n ∈ names (i.rename f)) : n ∈ names i ∨ ∃ t ∈ i.temps, n ∈ names (f t) := by
  cases i with
  | oper template dst src jump =>
    have hdst := of_mem_names_map f dst (n := n)
    have hsrc := of_mem_names_map f src (n := n)
    grind [Instr.rename, Instr.temps, Instr.defs, Instr.uses]
  | move template dst src => grind [Instr.rename, Instr.temps, Instr.defs, Instr.uses]
  | label template l => exact .inl hn

namespace Spill

theorem names_loadSlot (offset : Int) (t : Temp) : names (Mips.loadSlot offset t) = names t := by
  simp [Mips.loadSlot, Mips.fp]

theorem names_storeSlot (offset : Int) (t : Temp) : names (Mips.storeSlot offset t) = names t := by
  simp [Mips.storeSlot, Mips.fp]

theorem names_fresh_subset {reps : List Replacement} {r : Replacement} (h : r ∈ reps) :
    names r.fresh ⊆ names reps :=
  List.Subset.trans (List.subset_append_right (names r.spilled) _) (names_subset_of_mem h)

/-- A window names what its instruction names, and what takes the place of it. -/
theorem names_window (reps : List Replacement) (i : Instr) :
    names (window reps i) ⊆ names i ++ names reps := by
  intro n hn
  obtain ⟨j, hj, hn⟩ := mem_names_list.1 hn
  rcases mem_window.1 hj with ⟨r, hr, -, rfl⟩ | rfl | ⟨r, hr, -, rfl⟩
  · rw [names_loadSlot] at hn
    exact List.mem_append_right _ (names_fresh_subset hr hn)
  · rcases Instr.of_mem_names_rename hn with hn | ⟨t, ht, hn⟩
    · exact List.mem_append_left _ hn
    · rcases mem_substitute reps t with heq | ⟨r, hr, -, heq⟩
      · exact List.mem_append_left _ (Instr.names_subset_of_temps ht (heq ▸ hn))
      · exact List.mem_append_right _ (names_fresh_subset hr (heq ▸ hn))
  · rw [names_storeSlot] at hn
    exact List.mem_append_right _ (names_fresh_subset hr hn)

theorem names_created (reps : List Replacement) : names (reps.map (·.fresh)) ⊆ names reps := by
  intro n hn
  obtain ⟨t, ht, hn⟩ := mem_names_list.1 hn
  obtain ⟨r, hr, rfl⟩ := List.mem_map.1 ht
  exact names_fresh_subset hr hn

theorem confines_replaceAll (ms : List (Temp × Int)) :
    Confines id (names (ms.map (·.1))) (replaceAll ms) := by
  induction ms with
  | nil => exact .pure (.refl _)
  | cons m rest ih =>
    refine .withTemp fun t => ih.bind ?_ fun reps => .pure ?_
    · exact List.subset_append_of_subset_left _ (List.subset_append_right ..)
    · show names m.1 ++ names t ++ names reps ⊆
        names m.1 ++ names (rest.map (·.1)) ++ names t ++ names reps
      grind

theorem confines_expand (slots : Slots) (i : Instr) :
    Confines Workspace.supply (names i) (expand slots i) := by
  have hmentioned : names ((mentioned slots i).map (·.1)) ⊆ names i := by
    intro n hn
    obtain ⟨t, ht, hn⟩ := mem_names_list.1 hn
    obtain ⟨m, hm, rfl⟩ := List.mem_map.1 ht
    exact Instr.names_subset_of_temps (mem_mentioned.1 hm).1 hn
  refine (confines_replaceAll _).fresh.bind hmentioned fun reps => ?_
  have hpure : Confines Workspace.supply (names i ++ names reps)
      (pure (window reps i, reps.map (·.fresh))) :=
    .pure (List.append_subset.2 ⟨names_window reps i,
      List.subset_append_of_subset_right _ (names_created reps)⟩)
  split
  · exact hpure
  · exact .behind (grows_noteText _ _) fun _ => hpure

theorem confines_expandAll (slots : Slots) (code : List Instr) :
    Confines Workspace.supply (names code) (expandAll slots code) := by
  induction code with
  | nil => exact .pure (.refl _)
  | cons i rest ih =>
    refine (confines_expand slots i).both ih fun p q => ?_
    show names (p.1 ++ q.1) ++ names (p.2 ++ q.2) ⊆
      names p.1 ++ names p.2 ++ (names q.1 ++ names q.2)
    grind

theorem grows_reserveAll (slots : Slots) (ts : List Temp) :
    Grows Workspace.supply (reserveAll slots ts) := by
  induction ts generalizing slots with
  | nil => exact .pure slots
  | cons t rest ih => exact grows_reserve.bind fun offset => ih _

/-- **Spilling** names only what the list names. -/
theorem confines_toSlots (spilled : List Temp) (code : List Instr) :
    Confines Workspace.supply (names code) (toSlots spilled code) :=
  .behind (grows_reserveAll ∅ spilled) fun slots => confines_expandAll slots code

end Spill

theorem grows_noteDecisions (ds : List Decision) :
    Grows Workspace.supply (noteDecisions ds) := by
  induction ds with
  | nil => exact .pure ()
  | cons d rest ih => exact (grows_noteText _ _).bind fun _ => ih

theorem grows_colorRound (round : Nat) (unspillable : TempSet) (code : List Instr) :
    Grows Workspace.supply (colorRound round unspillable code) := by
  have hanalyse : Grows Workspace.supply (analyse code) :=
    (Grows.ofExcept _).bind fun _ => (grows_noteText _ _).bind fun _ => .pure _
  refine grows_frame.bind fun frame => .bind (hanalyse.bind fun live => .pure _) fun g => ?_
  refine (grows_noteText _ _).bind fun _ => ?_
  refine .bind ((grows_noteDecisions _).bind fun _ => .pure _) fun outcome => ?_
  exact (grows_noteText _ _).bind fun _ => .pure _

theorem grows_allocateRounds (limit round left : Nat) (p : Progress) :
    Grows Workspace.supply (allocateRounds limit round left p) := by
  induction left generalizing round p with
  | zero => exact .throw _
  | succ left ih =>
    refine (grows_colorRound round p.created p.code).bind fun outcome => ?_
    split
    · exact grows_frame.bind fun frame => (grows_noteText _ _).bind fun _ => .pure _
    · exact (Spill.confines_toSlots outcome.spilled p.code).grows.bind fun _ => ih _ _

@[simp] theorem names_allocation (alloc : Allocation) :
    names alloc = names alloc.colors.toList ++ names alloc.spilled := rfl

/-- The colours of a round name what its list and its palette name. -/
theorem of_mem_names_colors {palette : List Temp} {unspillable : TempSet} {code : List Instr}
    {flow : Flow} {n : Name}
    (hn : n ∈ names (roundOutcome palette unspillable code flow).colors.toList) :
    n ∈ names code ∨ n ∈ names palette := by
  obtain ⟨⟨t, c⟩, hmem, hn⟩ := mem_names_list.1 hn
  obtain ⟨ht, hc⟩ := of_colors_round (Std.TreeMap.mem_toList_iff_getElem?_eq_some.1 hmem)
  rw [names_pair, List.mem_append] at hn
  rcases hn with hn | hn
  · exact .inl (names_flatMap_temps ht hn)
  · rcases hc with hc | hc
    · cases c with
      | register name => cases hn
      | virtual id => cases hc
    · exact .inr (names_subset_of_mem hc hn)

/-- **Rounds** name what the list, its palette and what was spilled before name. -/
theorem of_mem_names_allocateRounds {limit round left : Nat} {p : Progress} {w w' : Workspace}
    {code' : List Instr} {alloc : Allocation}
    (h : (allocateRounds limit round left p).run w = (.ok (code', alloc), w')) {n : Name}
    (hn : n ∈ names (code', alloc)) :
    (n ∈ names p.code ∨ n ∈ names p.spilled ∨ n ∈ names w.frame.palette) ∨
      n.Drawn w.supply w'.supply := by
  induction left generalizing round p w with
  | zero => cases h
  | succ left ih =>
    obtain ⟨flow, outcome, w₁, hflow, hout, hsupply, hframe, ⟨-, rfl, rfl, -⟩ |
      ⟨left', p', created, w₂, hleft, hslots, hspilled, h⟩⟩ := allocateRounds_succ h
    · simp only [names_pair, names_allocation, List.mem_append] at hn
      rcases hn with hn | hn | hn
      · exact .inl (.inl hn)
      · rw [hout] at hn
        rcases of_mem_names_colors hn with hn | hn
        · exact .inl (.inl hn)
        · exact .inl (.inr (.inr hn))
      · exact .inl (.inr (.inl hn))
    · obtain rfl := Nat.succ.inj hleft
      have hslot := Spill.confines_toSlots outcome.spilled p.code
      have hle : w.supply ≤ w₂.supply := hsupply ▸ hslot.grows.le hslots
      have hle' := (grows_allocateRounds limit (round + 1) left p').le h
      have hpalette : w₂.frame.palette = w.frame.palette := by
        rw [(Spill.run_toSlots_eq_ok hslots).2.2, hframe]
      rcases ih h with (hn | hn | hn) | hdrawn
      · rcases hslot.confined hslots n (by simp [hn]) with hn | hdrawn
        · exact .inl (.inl hn)
        · exact .inr (hdrawn.mono (hsupply ▸ le_rfl) hle')
      · rw [hspilled, names_append, List.mem_append] at hn
        rcases hn with hn | hn
        · exact .inl (.inr (.inl hn))
        · obtain ⟨t, ht, hn⟩ := mem_names_list.1 hn
          rw [hout] at ht
          exact .inl (.inl (names_flatMap_temps (of_mem_spilled_round ht).1 hn))
      · exact .inl (.inr (.inr (hpalette ▸ hn)))
      · exact .inr (hdrawn.mono hle le_rfl)

end Lowering
