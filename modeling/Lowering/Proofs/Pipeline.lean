import Lowering.Pipeline
import Lowering.Proofs.Canonical.Fault
import Lowering.Proofs.Canonical.Form
import Lowering.Proofs.Mips.Fit

/-!
# No pass rejects what another one made

Every pass can fault: on a move target that is none, on nested statements, on two blocks with one
label, on too many arguments, on a jump to a label that is not defined, on code for which spilling
does not converge, and on a temporary without a register.  Nothing of this happens to tree code
that moves to temporaries and memory only, defines every label once, branches to labels that it
defines, and holds nothing that the target has no instructions for.

## Main definitions

* `Stmt.Compilable` — such tree code.
* `exists_select` — it has instructions.
* `compile_succeeds` — the main result.
-/

namespace Lowering

open Mips

variable {quiet : Prop} {label goal : Label → Prop} {w : Workspace} {stmt : Stmt}

/-- What all passes can be applied to, in a workspace.  All virtual temporaries and all generated
labels that are defined were drawn before.  If someone listens, labels have to be such that they
can stand in the text of an instruction. -/
structure Stmt.Compilable (w : Workspace) (stmt : Stmt) : Prop where
  targets : stmt.badTarget? = none
  labels : stmt.labels.Nodup
  obeys : stmt.Obeys (rules (w.journal.records? = none) w.supply.temps
    (fun l => l.Within w.supply.labels ∧ (w.journal.records? = none ∨ l.Wordable))
    (· ∈ stmt.labels))

/-! ## Passes that draw names and write records -/

/-- The frame is the same, and a silent journal is still silent. -/
structure Workspace.Continues (w w' : Workspace) : Prop where
  frame : w'.frame = w.frame
  silent : w.journal.records? = none → w'.journal.records? = none

theorem Workspace.Continues.trans {w₁ w₂ : Workspace} (h : w.Continues w₁)
    (h' : w₁.Continues w₂) : w.Continues w₂ :=
  ⟨h'.frame.trans h.frame, h'.silent ∘ h.silent⟩

theorem exists_run_fresh_bind {α β : Type} {x : Fresh α} {f : α → Pass β} {a : α} {b : β}
    {s : Supply} (hx : x.run w.supply = (.ok a, s)) (hf : Tells w.frame (f a) b) :
    ∃ w', (Pass.fresh x >>= f).run w = (.ok b, w') ∧ w.Continues w' ∧ w'.supply = s := by
  have hfresh : (Pass.fresh x).run w = (.ok a, { w with supply := s }) :=
    Pass.run_fresh_eq_ok_iff.2 ⟨s, hx, rfl⟩
  obtain ⟨journal, hrun, hsilent⟩ := hf { w with supply := s } rfl
  exact ⟨⟨s, w.frame, journal⟩, (Attempt.run_bind_ok f hfresh).trans hrun, ⟨rfl, hsilent⟩, rfl⟩

theorem tells_notePlaced {frame : Frame} (placed : List Placed) :
    Tells frame (Pipeline.notePlaced placed) () := by
  induction placed with
  | nil => exact tells_pure ()
  | cons p rest ih =>
    rw [Pipeline.notePlaced]
    split
    on_goal 1 => refine (tells_noteText _ _).bind ?_
    all_goals
      split
      · exact (tells_noteText _ _).bind ih
      · exact ih

/-! ## From tree code to instructions -/

theorem rules_narrower {m n : Nat} (hmn : m ≤ n) :
    (rules quiet m label goal).Narrower (rules quiet n label goal) :=
  ⟨id, id, fun ht => ⟨ht.1.mono hmn, ht.2⟩, fun ht => ht.mono hmn, id, id, id⟩

theorem rules_admits (lo hi : Nat) : (rules quiet hi label goal).Admits lo hi := by
  rintro t ht
  refine ⟨⟨ht.within, fun hreg => ?_⟩, ht.within⟩
  obtain ⟨id, rfl, -, -⟩ := ht
  cases hreg

/-- Tree code whose moves have targets has canonical statements. -/
theorem exists_canonicalize (htargets : stmt.badTarget? = none)
    (hobeys : stmt.Obeys (rules quiet w.supply.temps label goal)) :
    ∃ code w', (Pipeline.canonicalize stmt).run w = (.ok code, w') ∧ w.Continues w' ∧
      w'.supply.labels = w.supply.labels ∧ code.filterMap Stmt.label? = stmt.labels ∧
      ∀ st ∈ code, st.Fits (rules quiet w'.supply.temps label goal) := by
  have hends := stmt.ends_canonical
  rw [htargets] at hends
  obtain ⟨code, s, hrun⟩ := hends w.supply
  obtain ⟨hlabels, htemps, hlowered⟩ := stmt.yields_canonical hrun
  obtain ⟨w', hrun', hw, rfl⟩ : ∃ w', (Pipeline.canonicalize stmt).run w = (.ok code, w') ∧
      w.Continues w' ∧ w'.supply = s :=
    exists_run_fresh_bind hrun ((tells_noteText _ _).bind (tells_pure code))
  refine ⟨code, w', hrun', hw, hlabels, hlowered.labels, fun st hst => ?_⟩
  have hwide := stmt.obeys_mono (rules_narrower htemps) hobeys
  exact ⟨hlowered.canonical st hst, hlowered.obeys hwide (rules_admits _ _) st hst⟩

/-- Canonical statements can be partitioned into blocks with different labels, if labels are
defined once and the labels that are defined are all that branches lead to. -/
theorem exists_partitioned {code : List Stmt} {n : Nat}
    (hfits : ∀ st ∈ code, st.Fits (rules quiet n label goal))
    (hnodup : (code.filterMap Stmt.label?).Nodup)
    (hwithin : ∀ {l}, label l → l.Within w.supply.labels)
    (hwords : ∀ {l}, label l → quiet ∨ l.Wordable)
    (hgoal : ∀ {l}, goal l → l ∈ code.filterMap Stmt.label?) :
    ∃ g w', (Pipeline.partition code).run w = (.ok g, w') ∧ w.Continues w' ∧
      w'.supply.temps = w.supply.temps ∧ (g.blocks.map (·.label)).Nodup ∧
      (∀ {l}, g.Has l → quiet ∨ l.Wordable) ∧
      g.Obeys ((rules quiet n label goal).leading g.Has) := by
  have hflat : ∀ first second, .seq first second ∉ code := fun _ _ hst => by
    cases (hfits _ hst).canonical
  have hlabel : ∀ l ∈ code.filterMap Stmt.label?, label l := by
    intro l hl
    obtain ⟨st, hst, hl⟩ := List.mem_filterMap.1 hl
    cases st with
    | label =>
      cases hl
      exact (hfits _ hst).obeys
    | _ => cases hl
  obtain ⟨cuts, s, hrun, htemps, hcuts⟩ := Block.exists_partition hflat w.supply
  have hblocks : (cuts.map (·.block)).map (·.label) = cuts.map (·.block.label) := List.map_map
  -- The label of a block was there, or else it was drawn, and then it has words.
  have hname : ∀ l, BlockGraph.Has ⟨cuts.map (·.block), .generated (w.supply.labels + 1)⟩ l →
      quiet ∨ l.Wordable := by
    intro l hl
    rw [BlockGraph.Has, hblocks, hcuts.perm_labels.mem_iff, List.mem_append] at hl
    rcases hl with rfl | hl | hl
    · exact .inr (Label.wordable_generated _)
    · exact hwords (hlabel l hl)
    · obtain ⟨id, rfl, -, -⟩ := hcuts.drawn.range l hl
      exact .inr (Label.wordable_generated id)
  have hdistinct := hcuts.nodup_labels hnodup fun l hl =>
    (hwithin (hlabel l hl)).mono (Nat.le_succ _)
  obtain ⟨w', hrun', hw, rfl⟩ : ∃ w', (Pipeline.partition code).run w =
      (.ok ⟨cuts.map (·.block), .generated (w.supply.labels + 1)⟩, w') ∧
      w.Continues w' ∧ w'.supply = s :=
    exists_run_fresh_bind hrun ((tells_noteText _ _).bind (tells_pure _))
  exact ⟨_, w', hrun', hw, htemps, hblocks ▸ hdistinct, hname _, hcuts.obeys hfits hgoal hname⟩

/-- Blocks with different labels can be placed, and branches lead to labels of the schedule. -/
theorem exists_scheduled {g : BlockGraph} {n : Nat} (hnodup : (g.blocks.map (·.label)).Nodup)
    (hname : ∀ {l}, g.Has l → quiet ∨ l.Wordable)
    (hobeys : g.Obeys ((rules quiet n label goal).leading g.Has)) :
    ∃ scheduled w', (Pipeline.schedule g).run w = (.ok scheduled, w') ∧ w.Continues w' ∧
      w'.supply.temps = w.supply.temps ∧
      ∀ st ∈ scheduled, st.Fits (rules quiet n (fun _ => True) fun l => .label l ∈ scheduled) := by
  obtain ⟨placed, s, hrun, hplaced⟩ := g.exists_schedule hnodup w.supply
  obtain ⟨w', hrun', hw, rfl⟩ : ∃ w', (Pipeline.schedule g).run w =
      (.ok (g.stmtsOf placed), w') ∧ w.Continues w' ∧ w'.supply = s :=
    exists_run_fresh_bind hrun ((tells_notePlaced placed).bind (tells_pure _))
  have htemps := g.keepsTemps_schedule w.supply
  rw [hrun] at htemps
  exact ⟨_, w', hrun', hw, htemps, hplaced.obeys hobeys hname⟩

/-- **Tree code that can be compiled has tame instructions**, and they define every label they
jump to. -/
theorem exists_select (h : stmt.Compilable w) :
    ∃ selected w', (Pipeline.select stmt).run w = (.ok selected, w') ∧ w.Continues w' ∧
      Tames (w.journal.records? = none) (fun l => .label l ∈ selected.scheduled)
        w'.supply.temps selected.code ∧
      ∀ l, .label l ∈ selected.scheduled → .define l ∈ selected.code := by
  obtain ⟨canonical, w₁, hrun₁, hw₁, hcount, hlabels, hfits⟩ :=
    exists_canonicalize h.targets h.obeys
  obtain ⟨g, w₂, hrun₂, hw₂, htemps₂, hnodup, hname, hobeys⟩ := exists_partitioned hfits
    (hlabels ▸ h.labels) (fun hl => hcount ▸ hl.1) And.right (hlabels ▸ id)
  obtain ⟨scheduled, w₃, hrun₃, hw₃, htemps₃, hscheduled⟩ := exists_scheduled hnodup hname hobeys
  have hw := (hw₁.trans hw₂).trans hw₃
  obtain ⟨code, w', hrun₄, hframe, hsilent, -, hcode⟩ :=
    Stmt.ensures_selectAll hscheduled w₃ hw.silent
  obtain ⟨htames, hdefines⟩ := hcode (Nat.le_of_eq (htemps₃.trans htemps₂).symm)
  refine ⟨⟨canonical, scheduled, code⟩, w', ?_, ⟨hframe.trans hw.frame, hsilent⟩, htames, hdefines⟩
  rw [Pipeline.select, Attempt.run_bind_ok _ hrun₁, Attempt.run_bind_ok _ hrun₂,
    Attempt.run_bind_ok _ hrun₃, Attempt.run_bind_ok _ hrun₄]
  rfl

/-! ## All passes -/

/-- **No pass rejects what the passes before it made.**  With all registers of the target, tree
code that can be compiled runs through all passes up to register allocation, and the allocation
can be applied. -/
theorem compile_succeeds (h : stmt.Compilable w) (hpalette : w.frame.palette = allocatable) :
    ∃ code alloc w', (Pipeline.compile stmt).run w = (.ok (code, alloc), w') ∧
      ∃ out w'', (alloc.apply code).run w' = (.ok out, w'') := by
  obtain ⟨selected, w₁, hselect, hw₁, htames, hdefines⟩ := exists_select h
  have hpalette₁ : w₁.frame.palette = allocatable := by rw [hw₁.frame, hpalette]
  have hmarked := htames.concat Instr.tame_sink
  obtain ⟨code, alloc, w', hallocate, happly⟩ := hmarked.exists_allocate
    (fun l hl => List.mem_append_left _ (hdefines l hl)) hw₁.silent hpalette₁
  refine ⟨code, alloc, w', ?_, happly⟩
  rw [Pipeline.compile, Attempt.run_bind_ok _ hselect]
  exact hallocate

/-- A loop around a call, one of whose arguments has an effect, with a return at its end. -/
def callLoop : Stmt := .ofList
  [.label (.named "loop"),
    .move (.temp (.virtual 1)) (.binop .minus (.temp (.virtual 1))
      (.call (.name (.named "f"))
        [.mem (.temp sp), .eseq (.move (.temp (.virtual 2)) (.const 3)) (.temp (.virtual 2))])),
    .branch (.cjump .lt (.temp (.virtual 1)) (.const 10) (.named "loop") (.generated 1)),
    .label (.generated 1),
    .move (.temp v0) (.temp (.virtual 1)),
    .branch (.jump (.temp ra) [])]

/-- A workspace for it, in which someone listens. -/
def callSpace : Workspace where
  supply := ⟨2, 1⟩
  frame := { name := .named "g" }
  journal := ⟨some #[]⟩

theorem compilable_callLoop : callLoop.Compilable callSpace := by
  have hlabels : callLoop.labels = [.named "loop", .generated 1] := rfl
  have hconsts : (3 : Word) ≠ Int64.minValue ∧ (10 : Word) ≠ Int64.minValue := by decide
  have hwords : (Label.named "f").Wordable ∧ (Label.named "loop").Wordable := by
    simp [Label.Wordable, Label.text]
  refine ⟨rfl, by decide, ?_⟩
  rw [hlabels]
  simp [callLoop, callSpace, Stmt.ofList, Stmt.Obeys, Expr.Obeys, Expr.AllObey, Expr.ObeysInto,
    Branch.Obeys, Expr.Leads, rules, argumentRegisters, v0, ra, sp, hconsts,
    hwords, Label.wordable_generated]

theorem callLoop_compile_succeeds :
    callLoop.Compilable callSpace ∧ callSpace.frame.palette = allocatable ∧
      ∃ code alloc w', (Pipeline.compile callLoop).run callSpace = (.ok (code, alloc), w') ∧
        ∃ out w'', (alloc.apply code).run w' = (.ok out, w'') :=
  ⟨compilable_callLoop, rfl, compile_succeeds compilable_callLoop rfl⟩

end Lowering
