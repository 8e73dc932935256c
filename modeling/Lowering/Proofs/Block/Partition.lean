import Lowering.Block.Partition
import Lowering.Proofs.Block.Placement
import Lowering.Proofs.Tree.Scope
import Mathlib.Data.List.Chain
import Mathlib.Data.List.Perm.Basic

/-!
# Blocks partition the statements

Flat statements can always be partitioned.  Each block is cut from the list: its label and its
branch were there or were put in, and without what was put in the blocks are the list.  A label
that is put in is a new one, and a branch that is put in goes on to the next block, or to the
exit behind the last one.  Neither is put in without need: a block with a new label begins with
a statement of the list, and behind a block with a new branch comes a label of the list.

## Main definitions

* `Block.Cut` — a block, and what of it was there.
* `Block.Cuts` — what partitioning gives.
* `Block.CanCut` — what the partition of a list rests on, with one lemma for each kind of statement.
* `Block.exists_partition` — flat statements can be partitioned.
-/

namespace Lowering.Block

/-- A block, and what of it was there. -/
structure Cut where
  block : Block
  /-- Whether the label was there. -/
  labelled : Bool
  /-- Whether the branch was there. -/
  ended : Bool

namespace Cut

/-- The statements of the block that were there. -/
def stmts (c : Cut) : List Stmt :=
  (if c.labelled then [.label c.block.label] else []) ++ c.block.body ++
    if c.ended then [.branch c.block.branch] else []

/-- The label that was put in. -/
def own (c : Cut) : List Label := if c.labelled then [] else [c.block.label]

/-- The label of the first of some cuts, or else the exit. -/
def next (exit : Label) (cuts : List Cut) : Label := (cuts.head?.map (·.block.label)).getD exit

/-- Branches that were put in go on to the next block. -/
def GoOn (exit : Label) : List Cut → Prop
  | [] => True
  | c :: rest => (c.ended = true ∨ c.block.branch = .goto (next exit rest)) ∧ GoOn exit rest

theorem next_mem (exit : Label) (cuts : List Cut) :
    next exit cuts = exit ∨ next exit cuts ∈ cuts.map (·.block.label) := by
  cases cuts with
  | nil => exact .inl rfl
  | cons c cuts => exact .inr List.mem_cons_self

theorem GoOn.of_mem {exit : Label} {cuts : List Cut} (h : GoOn exit cuts) {c : Cut}
    (hc : c ∈ cuts) : c.ended = true ∨
      ∃ l, c.block.branch = .goto l ∧ (l = exit ∨ l ∈ cuts.map (·.block.label)) := by
  induction cuts with
  | nil => cases hc
  | cons c' cuts ih =>
    rcases List.mem_cons.1 hc with rfl | hc
    · refine h.1.imp id fun hgo => ⟨_, hgo, ?_⟩
      exact (next_mem exit cuts).imp id (List.mem_cons_of_mem _)
    · refine (ih h.2 hc).imp id ?_
      rintro ⟨l, hgo, hl⟩
      exact ⟨l, hgo, hl.imp id (List.mem_cons_of_mem _)⟩

end Cut

/-- An open block, and whether its label was there. -/
structure Pending where
  opened : Open
  labelled : Bool

namespace Pending

/-- The statements of the open block that were there. -/
def stmts (p : Pending) : List Stmt :=
  (if p.labelled then [.label p.opened.label] else []) ++ p.opened.body

/-- The label that was put in. -/
def own (p : Pending) : List Label := if p.labelled then [] else [p.opened.label]

/-- A block that starts at a label. -/
def start (l : Label) : Pending := ⟨.start l, true⟩

/-- Add a statement at the end. -/
def push (p : Pending) (st : Stmt) : Pending := ⟨p.opened.push st, p.labelled⟩

theorem stmts_push (p : Pending) (st : Stmt) : (p.push st).stmts = p.stmts ++ [st] :=
  (List.append_assoc ..).symm

/-- The block has no label or branch inside, and something of it was there. -/
structure Sound (p : Pending) : Prop where
  straight : ∀ st ∈ p.opened.body, st.isStraight = true
  opens : p.labelled = true ∨ p.opened.body ≠ []

theorem sound_start (l : Label) : (start l).Sound := ⟨nofun, .inl rfl⟩

theorem sound_push {p : Pending} {st : Stmt} (hbody : ∀ st ∈ p.opened.body, st.isStraight = true)
    (hst : st.isStraight = true) : (p.push st).Sound where
  straight := by
    intro st' hst'
    rcases List.mem_append.1 hst' with hst' | hst'
    · exact hbody st' hst'
    · rwa [List.mem_singleton.1 hst']
  opens := by
    right
    simp [push, Open.push]

/-- End the block with a branch. -/
def close (p : Pending) (branch : Branch) (ended : Bool) : Cut :=
  ⟨p.opened.close branch, p.labelled, ended⟩

end Pending

/-- The blocks are cut from the statements, of which those of the pending block come first. -/
structure Cuts (exit : Label) (pending : Option Pending) (stmts : List Stmt) (lo hi : Nat)
    (cuts : List Cut) : Prop where
  stmts : cuts.flatMap Cut.stmts = pending.elim [] Pending.stmts ++ stmts
  straight : ∀ c ∈ cuts, ∀ st ∈ c.block.body, st.isStraight = true
  drawn : Label.Drawn lo hi (cuts.flatMap Cut.own)
  goOn : Cut.GoOn exit cuts
  opens : ∀ c ∈ cuts, c.labelled = true ∨ c.block.body ≠ [] ∨ c.ended = true
  meets : cuts.IsChain fun c c' => c.ended = true ∨ c'.labelled = true
  first : ∀ p ∈ pending, ∃ c ∈ cuts.head?, c.block.label = p.opened.label ∧
    c.labelled = p.labelled

variable {exit : Label} {pending next : Option Pending} {stmts : List Stmt} {lo mid hi : Nat}
  {cuts : List Cut} {s : Supply} {p : Pending}

/-- The pending block comes first, with a branch that was there or goes on to the next block,
which then starts at a label that was there. -/
theorem Cuts.cons (h : Cuts exit next stmts mid hi cuts) (hdrawn : Label.Drawn lo mid p.own)
    (hbody : ∀ st ∈ p.opened.body, st.isStraight = true) (branch : Branch) (ended : Bool)
    (hopens : p.labelled = true ∨ p.opened.body ≠ [] ∨ ended = true)
    (hends : ended = true ∨ branch = .goto (Cut.next exit cuts) ∧
      ∀ c ∈ cuts.head?, c.labelled = true) {stmts' : List Stmt}
    (hstmts : (if ended then [.branch branch] else []) ++
      (next.elim [] Pending.stmts ++ stmts) = stmts') :
    Cuts exit (some p) stmts' lo hi (p.close branch ended :: cuts) where
  stmts := by
    rw [List.flatMap_cons, h.stmts, ← hstmts]
    exact List.append_assoc ..
  straight := List.forall_mem_cons.2 ⟨hbody, h.straight⟩
  drawn := by
    rw [List.flatMap_cons]
    exact hdrawn.append h.drawn
  goOn := ⟨hends.imp_right And.left, h.goOn⟩
  opens := List.forall_mem_cons.2 ⟨hopens, h.opens⟩
  meets := by
    refine List.isChain_cons.2 ⟨fun c hc => ?_, h.meets⟩
    exact hends.imp_right fun hgo => hgo.2 c hc
  first := by
    rintro _ ⟨⟩
    exact ⟨_, rfl, rfl, rfl⟩

/-- There is a pending block, or one is started with a new label. -/
theorem exists_orFresh (hsound : ∀ p ∈ pending, p.Sound)
    (hdrawn : Label.Drawn lo s.labels (pending.elim [] Pending.own)) :
    ∃ p s', (Open.orFresh (pending.map (·.opened))).run s = (.ok p.opened, s') ∧
      s'.temps = s.temps ∧ Label.Drawn lo s'.labels p.own ∧
      p.stmts = pending.elim [] Pending.stmts ∧
      (∀ st ∈ p.opened.body, st.isStraight = true) ∧ ∀ q ∈ pending, p = q := by
  cases pending with
  | some p =>
    refine ⟨p, s, rfl, rfl, by simpa using hdrawn, by simp, (hsound p rfl).straight, ?_⟩
    rintro _ ⟨⟩
    rfl
  | none =>
    refine ⟨⟨.start (.generated (s.labels + 1)), false⟩, ⟨s.temps, s.labels + 1⟩, rfl, rfl,
      ⟨?_, ?_, ?_⟩, rfl, by simp [Open.start], nofun⟩
    · exact Nat.le_succ_of_le hdrawn.le
    · simp [Pending.own]
    · have := hdrawn.le
      simp [Pending.own, Open.start]
      omega

theorem partitionFrom_branch (current : Option Open) (branch : Branch) :
    partitionFrom exit current (.branch branch :: stmts) = (do
      let b ← Open.orFresh current
      let blocks ← partitionFrom exit none stmts
      pure (b.close branch :: blocks)) := by
  cases current <;> rfl

theorem partitionFrom_straight (current : Option Open) {st : Stmt} (hst : st.isStraight = true)
    (hflat : ∀ first second, st ≠ .seq first second) :
    partitionFrom exit current (st :: stmts) = (do
      let b ← Open.orFresh current
      partitionFrom exit (some (b.push st)) stmts) := by
  cases st with
  | seq first second => exact absurd rfl (hflat first second)
  | label => simp [Stmt.isStraight] at hst
  | branch => simp [Stmt.isStraight] at hst
  | move => cases current <;> rfl
  | eval => cases current <;> rfl

/-- The statements can be partitioned, behind whatever block is pending. -/
def CanCut (exit : Label) (stmts : List Stmt) : Prop :=
  ∀ ⦃pending : Option Pending⦄ ⦃lo : Nat⦄ ⦃s : Supply⦄, (∀ p ∈ pending, p.Sound) →
    Label.Drawn lo s.labels (pending.elim [] Pending.own) →
    ∃ cuts s', (partitionFrom exit (pending.map (·.opened)) stmts).run s =
        (.ok (cuts.map (·.block)), s') ∧
      s'.temps = s.temps ∧ Cuts exit pending stmts lo s'.labels cuts

theorem canCut_nil : CanCut exit [] := by
  intro pending lo s hsound hdrawn
  cases pending with
  | none => exact ⟨[], s, rfl, rfl, rfl, by simp, hdrawn, trivial, by simp, .nil, nofun⟩
  | some p =>
    have hnil : Cuts exit none [] s.labels s.labels [] :=
      ⟨rfl, by simp, Label.drawn_nil _, trivial, by simp, .nil, nofun⟩
    obtain ⟨hbody, hopens⟩ := hsound p rfl
    exact ⟨[p.close (.goto exit) false], s, rfl, rfl,
      hnil.cons hdrawn hbody _ false (by simpa using hopens) (.inr ⟨rfl, nofun⟩) rfl⟩

namespace CanCut

variable (h : CanCut exit stmts)

include h

/-- A straight statement goes to the pending block. -/
theorem straight {st : Stmt} (hst : st.isStraight = true)
    (hflat : ∀ first second, st ≠ .seq first second) : CanCut exit (st :: stmts) := by
  intro pending lo s hsound hdrawn
  obtain ⟨p, s₁, hrun, htemps, hdrawn, hstmts, hbody, hp⟩ := exists_orFresh hsound hdrawn
  have hpush : ∀ q ∈ some (p.push st), q.Sound := by
    rintro _ ⟨⟩
    exact Pending.sound_push hbody hst
  obtain ⟨cuts, s', hrun', htemps', hcuts⟩ := h hpush hdrawn
  refine ⟨cuts, s', ?_, htemps'.trans htemps, { hcuts with stmts := ?_, first := ?_ }⟩
  · rw [partitionFrom_straight _ hst hflat, Attempt.run_bind_ok _ hrun]
    exact hrun'
  · rw [hcuts.stmts, ← hstmts]
    show (p.push st).stmts ++ stmts = _
    rw [Pending.stmts_push, List.append_assoc]
    rfl
  · intro q hq
    rw [← hp q hq]
    exact hcuts.first (p.push st) rfl

/-- A label starts a block.  If one is pending, it goes on to the label. -/
theorem label (l : Label) : CanCut exit (.label l :: stmts) := by
  intro pending lo s hsound hdrawn
  have hstart : ∀ p ∈ some (Pending.start l), p.Sound := by
    rintro _ ⟨⟩
    exact Pending.sound_start l
  cases pending with
  | none =>
    obtain ⟨cuts, s', hrun, htemps, hcuts⟩ := h hstart hdrawn
    exact ⟨cuts, s', hrun, htemps, { hcuts with stmts := hcuts.stmts, first := nofun }⟩
  | some p =>
    obtain ⟨cuts, s', hrun, htemps, hcuts⟩ := h hstart (Label.drawn_nil _)
    obtain ⟨c, hc, hlabel, hlabelled⟩ := hcuts.first _ rfl
    have hgo : l = Cut.next exit cuts := by
      rw [Cut.next, Option.mem_def.1 hc]
      exact hlabel.symm
    have hfirst : ∀ c' ∈ cuts.head?, c'.labelled = true := by
      intro c' hc'
      rwa [Option.mem_unique hc' hc]
    obtain ⟨hbody, hopens⟩ := hsound p rfl
    exact ⟨p.close (.goto l) false :: cuts, s', Attempt.run_bind_ok _ hrun, htemps,
      hcuts.cons hdrawn hbody _ false (by simpa using hopens)
        (.inr ⟨congrArg _ hgo, hfirst⟩) rfl⟩

/-- A branch ends the pending block, and none is pending behind it. -/
theorem branch (b : Branch) : CanCut exit (.branch b :: stmts) := by
  intro pending lo s hsound hdrawn
  have hnone : ∀ p ∈ (none : Option Pending), p.Sound := nofun
  obtain ⟨p, s₁, hrun, htemps, hdrawn, hstmts, hbody, hp⟩ := exists_orFresh hsound hdrawn
  obtain ⟨cuts, s', hrun', htemps', hcuts⟩ := h hnone (Label.drawn_nil _)
  have hcut := hcuts.cons hdrawn hbody b true (.inr (.inr rfl)) (.inl rfl) rfl
  refine ⟨p.close b true :: cuts, s', ?_, htemps'.trans htemps,
    { hcut with stmts := ?_, first := ?_ }⟩
  · rw [partitionFrom_branch, Attempt.run_bind_ok _ hrun]
    exact Attempt.run_bind_ok _ hrun'
  · rw [hcut.stmts, ← hstmts]
    rfl
  · intro q hq
    rw [← hp q hq]
    exact ⟨_, rfl, rfl, rfl⟩

end CanCut

/-- **Flat statements can be partitioned**, behind a block that is pending. -/
theorem canCut_of_flat (hflat : ∀ first second, .seq first second ∉ stmts) : CanCut exit stmts := by
  induction stmts with
  | nil => exact canCut_nil
  | cons st rest ih =>
    have hrest := ih fun first second h => hflat first second (List.mem_cons_of_mem st h)
    cases st with
    | seq first second => exact absurd List.mem_cons_self (hflat first second)
    | label l => exact hrest.label l
    | branch b => exact hrest.branch b
    | move target source => exact hrest.straight rfl nofun
    | eval expr => exact hrest.straight rfl nofun

/-- **Flat statements can be partitioned.**  The exit label is drawn first. -/
theorem exists_partition (hflat : ∀ first second, .seq first second ∉ stmts) (s : Supply) :
    ∃ cuts s', (partition stmts).run s =
        (.ok ⟨cuts.map (·.block), .generated (s.labels + 1)⟩, s') ∧ s'.temps = s.temps ∧
      Cuts (.generated (s.labels + 1)) none stmts (s.labels + 1) s'.labels cuts := by
  have hnone : ∀ p ∈ (none : Option Pending), p.Sound := nofun
  obtain ⟨cuts, s', hrun, htemps, hcuts⟩ := canCut_of_flat hflat hnone
    (Label.drawn_nil (s.labels + 1)) (s := ⟨s.temps, s.labels + 1⟩)
  refine ⟨cuts, s', ?_, htemps, hcuts⟩
  rw [partition, Attempt.run_bind_ok _ (Fresh.run_label s)]
  exact Attempt.run_bind_ok _ hrun

namespace Cuts

variable (h : Cuts exit none stmts lo hi cuts)

include h

/-- The labels of the blocks were there or were put in. -/
theorem perm_labels :
    (cuts.map (·.block.label)).Perm (stmts.filterMap Stmt.label? ++ cuts.flatMap Cut.own) := by
  have hthere : stmts.filterMap Stmt.label? =
      cuts.flatMap fun c => if c.labelled then [c.block.label] else [] := by
    rw [← List.nil_append stmts]
    refine (congrArg (List.filterMap Stmt.label?) h.stmts).symm.trans ?_
    rw [List.filterMap_flatMap]
    refine List.flatMap_congr fun c hc => ?_
    have hbody := filterMap_label?_of_isStraight (h.straight c hc)
    rw [Cut.stmts, List.filterMap_append, List.filterMap_append, hbody]
    cases c.labelled <;> cases c.ended <;> rfl
  rw [hthere, List.map_eq_flatMap]
  refine .trans (.of_eq (List.flatMap_congr fun c _ => ?_)) (List.flatMap_append_perm ..).symm
  rw [Cut.own]
  cases c.labelled <;> rfl

/-- **The labels of the blocks are different** if those that were there are, and old. -/
theorem nodup_labels (hnodup : (stmts.filterMap Stmt.label?).Nodup)
    (hold : ∀ l ∈ stmts.filterMap Stmt.label?, l.Within lo) :
    (cuts.map (·.block.label)).Nodup := by
  refine h.perm_labels.nodup_iff.2 (List.nodup_append.2 ⟨hnodup, h.drawn.nodup, ?_⟩)
  rintro l hl _ hl' rfl
  obtain ⟨id, rfl, hid, -⟩ := h.drawn.range l hl'
  exact Nat.not_le_of_lt hid (hold _ hl)

/-- What a block is made of was there, but for a branch that goes on to a block or the exit. -/
theorem mem_of_mem {c : Cut} (hc : c ∈ cuts) :
    (∀ st ∈ c.block.body, st ∈ stmts) ∧ (.branch c.block.branch ∈ stmts ∨
      ∃ l, c.block.branch = .goto l ∧ (l = exit ∨ l ∈ cuts.map (·.block.label))) := by
  have hstmts : ∀ st ∈ c.stmts, st ∈ stmts := by
    intro st hst
    have hmem : st ∈ cuts.flatMap Cut.stmts := List.mem_flatMap.2 ⟨c, hc, hst⟩
    rw [h.stmts] at hmem
    exact hmem
  refine ⟨fun st hst => hstmts st (by simp [Cut.stmts, hst]), ?_⟩
  rcases h.goOn.of_mem hc with hended | ⟨l, hl⟩
  · exact .inl (hstmts _ (by simp [Cut.stmts, hended]))
  · exact .inr ⟨l, hl⟩

end Cuts

end Lowering.Block
