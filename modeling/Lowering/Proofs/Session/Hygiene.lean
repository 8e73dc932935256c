import Lowering.Proofs.Session.Passes

/-!
# Passes that share a supply do not share names

A session runs passes one after another, in any order and each on any input.  All they share is
the supply of names, which also a pass that faults hands on.  Whatever a pass names that was not
in its input was drawn during its own turn, so no two turns bring in the same name.

## Main definitions

* `Request`, `Answer` — what can be asked of the passes.
* `Turn`, `session` — a request with the supply before and after it, and a row of them.
* `session_hygienic` — no two turns bring in the same name.
-/

namespace Lowering

open Attempt

/-! ## Requests -/

/-- What can be asked of the passes. -/
inductive Request where
  | canonicalize (s : Stmt)
  | quads (s : Stmt)
  | partition (stmts : List Stmt)
  | schedule (g : BlockGraph)
  | select (stmts : List Stmt)
  | allocate (code : List Instr)

/-- What a pass makes of a request. -/
inductive Answer where
  | stmts (list : List Stmt)
  | quads (list : List Quad)
  | graph (g : BlockGraph)
  | code (list : List Instr)
  | allocated (list : List Instr) (alloc : Allocation)

/-- The names in an answer. -/
def Answer.nameList : Answer → List Name
  | stmts list => names list
  | quads list => names list
  | graph g => names g
  | code list => names list
  | allocated list alloc => names (list, alloc)

instance : Named Answer := ⟨Answer.nameList⟩

namespace Request

/-- Answer a request. -/
def run : Request → Pass Answer
  | canonicalize s => do
    let stmts ← Pipeline.canonicalize s
    pure (.stmts stmts)
  | quads s => do
    let quads ← Pipeline.quads s
    pure (.quads quads)
  | partition stmts => do
    let g ← Pipeline.partition stmts
    pure (.graph g)
  | schedule g => do
    let stmts ← Pipeline.schedule g
    pure (.stmts stmts)
  | select stmts => do
    let code ← Stmt.selectAll stmts
    pure (.code code)
  | allocate code => do
    let (code, alloc) ← Lowering.allocate code
    pure (.allocated code alloc)

/-- The names in a request that is made in a frame.  Only allocation looks at the palette. -/
def given (frame : Mips.Frame) : Request → List Name
  | canonicalize s => names s
  | quads s => names s
  | partition stmts => names stmts
  | schedule g => names g
  | select stmts => names stmts
  | allocate code => names code ++ names frame.palette

/-- Packing a result as an answer changes neither its names nor what it is confined to. -/
theorem confines_pack {α : Type} [Named α] {list : List Name} {x : Pass α} {pack : α → Answer}
    (hx : Confines Workspace.supply list x) (hpack : ∀ a, names (pack a) = names a) :
    Confines Workspace.supply list (x >>= fun a => pure (pack a)) :=
  hx.map fun a => hpack a ▸ .refl _

/-- **Every pass** names only what its request names and what it draws. -/
theorem of_mem_names_run {r : Request} {a : Answer} {w w' : Workspace}
    (hrun : r.run.run w = (.ok a, w')) {n : Name} (hn : n ∈ names a) :
    n ∈ r.given w.frame ∨ n.Drawn w.supply w'.supply := by
  cases r with
  | canonicalize s =>
    exact (confines_pack (Pipeline.confines_canonicalize s) fun _ => rfl).confined hrun n hn
  | quads s => exact (confines_pack (Pipeline.confines_quads s) fun _ => rfl).confined hrun n hn
  | partition stmts =>
    exact (confines_pack (Pipeline.confines_partition stmts) fun _ => rfl).confined hrun n hn
  | schedule g =>
    exact (confines_pack (Pipeline.confines_schedule g) fun _ => rfl).confined hrun n hn
  | select stmts =>
    exact (confines_pack (Stmt.confines_selectAll stmts) fun _ => rfl).confined hrun n hn
  | allocate code =>
    obtain ⟨⟨code', alloc⟩, w₁, hrun, hpure⟩ := run_bind_eq_ok_iff.1 hrun
    cases hpure
    rcases of_mem_names_allocateRounds hrun hn with (hn | hn | hn) | hdrawn
    · exact .inl (List.mem_append_left _ hn)
    · cases hn
    · exact .inl (List.mem_append_right _ hn)
    · exact .inr hdrawn

/-- **No pass** takes names back. -/
theorem grows_run (r : Request) : Grows Workspace.supply r.run := by
  cases r with
  | canonicalize s => exact (Pipeline.confines_canonicalize s).grows.bind fun _ => .pure _
  | quads s => exact (Pipeline.confines_quads s).grows.bind fun _ => .pure _
  | partition stmts => exact (Pipeline.confines_partition stmts).grows.bind fun _ => .pure _
  | schedule g => exact (Pipeline.confines_schedule g).grows.bind fun _ => .pure _
  | select stmts => exact (Stmt.confines_selectAll stmts).grows.bind fun _ => .pure _
  | allocate code => exact (grows_allocateRounds _ _ _ _).bind fun _ => .pure _

end Request

/-! ## Sessions -/

/-- A request, with the frame and the journal that the pass works on. -/
structure Step where
  request : Request
  frame : Mips.Frame
  journal : Journal := .silent

/-- What came of a step. -/
structure Turn where
  step : Step
  /-- The supply before the step. -/
  before : Supply
  answer : Except Fault Answer
  /-- The supply after the step, also if it failed. -/
  after : Supply

/-- Take a step. -/
def Step.turn (step : Step) (supply : Supply) : Turn :=
  let result := step.request.run.run ⟨supply, step.frame, step.journal⟩
  ⟨step, supply, result.1, result.2.supply⟩

/-- Take steps one after another, each with the supply that the one before it has left. -/
def session : Supply → List Step → List Turn
  | _, [] => []
  | supply, step :: rest => step.turn supply :: session (step.turn supply).after rest

namespace Turn

/-- The names that the step was given. -/
def given (t : Turn) : List Name := t.step.request.given t.step.frame

/-- The names in what came out. -/
def found (t : Turn) : List Name := names t.answer.toOption

/-- The names that came out and were not given. -/
def introduced (t : Turn) : List Name := t.found.filter (· ∉ t.given)

/-- A step is careful with names. -/
structure Hygienic (t : Turn) : Prop where
  /-- No counter decreases. -/
  grows : t.before ≤ t.after
  /-- If all names that were given are from the supply, then so are those that came out. -/
  within : (∀ n ∈ t.given, n.Within t.before) → ∀ n ∈ t.found, n.Within t.after
  /-- What was not given was drawn during the step. -/
  fresh : ∀ n ∈ t.introduced, n.Drawn t.before t.after

end Turn

theorem Step.hygienic_turn (step : Step) (supply : Supply) : (step.turn supply).Hygienic := by
  have hfound : ∀ n ∈ (step.turn supply).found, n ∈ (step.turn supply).given ∨
      n.Drawn (step.turn supply).before (step.turn supply).after := by
    intro n hn
    simp only [turn, Turn.found, Turn.given] at hn ⊢
    cases hrun : step.request.run.run ⟨supply, step.frame, step.journal⟩ with
    | mk answer w =>
      rw [hrun] at hn
      cases answer with
      | error e => cases hn
      | ok a =>
        rw [Except.toOption, names_some] at hn
        exact Request.of_mem_names_run hrun hn
  have hgrows : (step.turn supply).before ≤ (step.turn supply).after :=
    step.request.grows_run ⟨supply, step.frame, step.journal⟩
  constructor
  · exact hgrows
  · intro hgiven n hn
    rcases hfound n hn with hn | hdrawn
    · exact (hgiven n hn).mono hgrows
    · exact hdrawn.2
  · intro n hn
    obtain ⟨hn, hnew⟩ := List.mem_filter.1 hn
    exact (hfound n hn).resolve_left (by simpa using hnew)

/-- All turns of a session come after its start. -/
theorem le_before_of_mem_session {supply : Supply} {steps : List Step} {t : Turn}
    (ht : t ∈ session supply steps) : supply ≤ t.before := by
  induction steps generalizing supply with
  | nil => cases ht
  | cons step rest ih =>
    rcases List.mem_cons.1 ht with rfl | ht
    · exact le_rfl
    · exact (step.hygienic_turn supply).grows.trans (ih ht)

/-- **No two turns of a session bring in the same name.**  Whatever passes share a supply, and
whatever they are given: no counter ever decreases; a step that is given names up to the counters
gives names up to the counters; what it was not given is above the counters before it; and what
was brought in by one step is not brought in by a later one. -/
theorem session_hygienic (supply : Supply) (steps : List Step) :
    (∀ t ∈ session supply steps, t.Hygienic) ∧
      (session supply steps).Pairwise fun t u =>
        t.after ≤ u.before ∧ t.introduced.Disjoint u.introduced := by
  induction steps generalizing supply with
  | nil => exact ⟨by simp [session], .nil⟩
  | cons step rest ih =>
    obtain ⟨hturns, hpairs⟩ := ih (step.turn supply).after
    have hturn := step.hygienic_turn supply
    refine ⟨List.forall_mem_cons.2 ⟨hturn, hturns⟩, List.pairwise_cons.2 ⟨?_, hpairs⟩⟩
    intro u hu
    have hle := le_before_of_mem_session hu
    refine ⟨hle, fun n hn hn' => ?_⟩
    exact ((hturns u hu).fresh n hn').1 ((hturn.fresh n hn).2.mono hle)

/-- The same statement, canonicalized twice, has its call in different temporaries. -/
example :
    let step : Step :=
      { request := .canonicalize (.eval (.mem (.call (.name (.named "f")) [])))
        frame := { name := .named "main" } }
    (session ⟨0, 0⟩ [step, step]).map (·.introduced.eraseDups) = [[.temp 1], [.temp 2]] := by
  decide

end Lowering
