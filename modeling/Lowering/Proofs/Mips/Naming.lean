import Lowering.Proofs.Instr.Verbatim
import Lowering.Proofs.Mips.Fault
import Lowering.Proofs.Mips.Outline

/-!
# Labels in selected code

A label is written where it is called, jumped to or defined, and where its address is taken.  The
target of a jump is an operand, and the definition of a label is no template, so there the label
is written as it is.  The other two put its text into a template, where it is read again: a quote
in it may be that of a hole.

## Main definitions

* `Mention`, `Stmt.mentions` — where labels are written for a statement.
* `Label.Survives` — the label is written as it is, although its text is read as a template.
* `Mention.ShownBy` — how an instruction writes a label.
* `select_shows_labels` — the main result.
-/

namespace Lowering

open Mips Template

/-! ## Where labels are written -/

/-- A label in code, by what is done there. -/
inductive Mention where
  | call (function : Label) (count : Nat)
  | address (label : Label)
  | jump (label : Label)
  | branch (op : RelOp) (label : Label)
  | define (label : Label)
  deriving DecidableEq, Repr

mutual

/-- Where labels are written for an expression, in the order of evaluation. -/
def Expr.mentions : Expr → List Mention
  | .const _ | .temp _ => []
  | .name l => [.address l]
  | .binop _ lhs rhs => lhs.mentions ++ rhs.mentions
  | .mem address => address.mentions
  | .call (.name l) args => Expr.mentionsAll args ++ [.call l args.length]
  | .call function args => function.mentions ++ Expr.mentionsAll args
  | .eseq stmt value => stmt.mentions ++ value.mentions
  termination_by structural e => e

@[inherit_doc Expr.mentions]
def Expr.mentionsAll : List Expr → List Mention
  | [] => []
  | e :: rest => e.mentions ++ Expr.mentionsAll rest
  termination_by structural es => es

/-- Where labels are written for a branch.  Control falls through to the second label. -/
def Branch.mentions : Branch → List Mention
  | .jump (.name l) _ => [.jump l]
  | .jump target _ => target.mentions
  | .cjump op lhs rhs onTrue _ => lhs.mentions ++ rhs.mentions ++ [.branch op onTrue]
  termination_by structural b => b

/-- Where labels are written for a statement. -/
def Stmt.mentions : Stmt → List Mention
  | .seq first second => first.mentions ++ second.mentions
  | .label l => [.define l]
  | .move target source => target.mentions ++ source.mentions
  | .eval expr => expr.mentions
  | .branch b => b.mentions
  termination_by structural s => s

end

/-- The label that is written in a line. -/
def Line.mention? : Line → Option Mention
  | .address l => some (.address l)
  | .call l count => some (.call l count)
  | .jump l => some (.jump l)
  | .branch op onTrue _ => some (.branch op onTrue)
  | .define l => some (.define l)
  | _ => none

/-- The labels that are written in the lines, in their order. -/
def Mentions (lines : List Line) (ms : List Mention) : Prop := lines.filterMap Line.mention? = ms

namespace Mentions

variable {lines lines' : List Line} {ms ms' : List Mention} {line : Line}

theorem nil : Mentions [] [] := rfl

theorem append (h : Mentions lines ms) (h' : Mentions lines' ms') :
    Mentions (lines ++ lines') (ms ++ ms') := by
  rw [Mentions, List.filterMap_append, h, h']

/-- A line with a label. -/
theorem concat {m : Mention} (h : Mentions lines ms) (hline : line.mention? = some m) :
    Mentions (lines ++ [line]) (ms ++ [m]) :=
  h.append (by rw [Mentions, List.filterMap_cons_some hline, List.filterMap_nil])

/-- A line without a label. -/
theorem silent (h : Mentions lines ms) (hline : line.mention? = none) :
    Mentions (lines ++ [line]) ms := by
  rw [Mentions, List.filterMap_append, h, List.filterMap_cons_none hline, List.filterMap_nil,
    List.append_nil]

/-- An offset takes the place of a sum, and no label is written in either. -/
theorem address {tile : Tile} (h : Mentions tile.lines ms) : Mentions tile.address.1.lines ms := by
  unfold Tile.address
  split
  · rwa [Tile.lines, Mentions, List.filterMap_append, List.filterMap_cons_none rfl,
      List.filterMap_nil, List.append_nil] at h
  · exact h

end Mentions

mutual

/-- The tiles of an expression write its labels. -/
theorem Expr.mentions_cover : ∀ e : Expr, e.cover.Whole → Mentions e.cover.lines e.mentions
  | .const value, _ => by
    rw [Expr.cover]
    split <;> rfl
  | .name _, _ => rfl
  | .temp _, _ => rfl
  | .binop op lhs rhs, h => by
    rw [Expr.cover] at h ⊢
    split at h
    · exact h.elim
    · next imm value hfold =>
      obtain ⟨v, ⟨-, rfl⟩ | ⟨hside, -⟩⟩ := fold_eq_some hfold
      · rw [Expr.mentions, Expr.mentions, List.append_nil]
        exact (lhs.mentions_cover h).silent rfl
      · cases hside
    · next imm value hfold =>
      obtain ⟨v, ⟨hside, -⟩ | ⟨-, rfl⟩⟩ := fold_eq_some hfold
      · cases hside
      · exact (rhs.mentions_cover h).silent rfl
    · exact ((lhs.mentions_cover h.1).append (rhs.mentions_cover h.2)).silent rfl
  | .mem address, h => (address.mentions_cover (Tile.whole_address.1 h)).address.silent rfl
  | .call function args, h => by
    cases function with
    | name l =>
      refine (Expr.mentions_coverAll args h).concat ?_
      rw [Expr.length_coverAll]
      rfl
    | _ =>
      exact ((Expr.mentions_cover _ h.1).append (Expr.mentions_coverAll args h.2)).silent rfl
  | .eseq _ _, h => h.elim
  termination_by structural e => e

@[inherit_doc Expr.mentions_cover]
theorem Expr.mentions_coverAll : ∀ args : List Expr, Tile.AllWhole (Expr.coverAll args) →
    Mentions (Tile.argLines (Expr.coverAll args)) (Expr.mentionsAll args)
  | [], _ => .nil
  | arg :: rest, h => ((arg.mentions_cover h.1).silent rfl).append
    (Expr.mentions_coverAll rest h.2)
  termination_by structural args => args

end

/-- The lines of a statement write its labels. -/
theorem Stmt.mentions_lines (s : Stmt) (h : s.Whole) : Mentions s.lines s.mentions := by
  cases s with
  | seq first second => exact (first.mentions_lines h.1).append (second.mentions_lines h.2)
  | label l => rfl
  | move target source =>
    cases target with
    | mem address =>
      exact ((address.mentions_cover h.1).address.append (source.mentions_cover h.2)).silent rfl
    | temp t =>
      have hsource : Mentions source.cover.lines source.mentions := source.mentions_cover h
      cases source with
      | const value => rfl
      | _ => exact hsource.silent rfl
    | _ => exact h.elim
  | eval expr => exact expr.mentions_cover h
  | branch b =>
    cases b with
    | jump target labels =>
      cases target with
      | name l => rfl
      | _ => exact (Expr.mentions_cover _ h).silent rfl
    | cjump op lhs rhs onTrue onFalse =>
      exact ((lhs.mentions_cover h.1).append (rhs.mentions_cover h.2)).concat rfl
  termination_by structural s

/-! ## How labels are written -/

/-- The label is written as it is, although its text is read as a template: what reads as a hole in
it has no operand in the instruction, and an index that is a word without zeros in front. -/
def Label.Survives (l : Label) (i : Instr) : Prop :=
  ∀ p ∈ pieces l.text.toList, p.Bounded ∧ p.Stays (i.operand Temp.text)

/-- How an instruction writes a label.  A call, and what takes an address, write it as it is only
if it survives. -/
def Mention.ShownBy : Mention → Instr → Prop
  | .call l count, i =>
    i = .op ("jal " ++ l.text) callDefs (argumentRegisters.take count) ∧
      (i.text = .ok ("jal " ++ l.text) ↔ l.Survives i)
  | .address l, i => ∃ t, i = .op ("la 'd0, " ++ l.text) [t] [] ∧
      (i.text = .ok ("la " ++ t.text ++ ", " ++ l.text) ↔ l.Survives i)
  | .jump l, i => i.text = .ok ("j " ++ l.text)
  | .branch op l, i => ∃ a b, i.uses = [a, b] ∧
      i.text = .ok (branchMnemonic op ++ " " ++ a.text ++ ", " ++ b.text ++ ", " ++ l.text)
  | .define l, i => i.text = .ok (l.text ++ ":")

/-- The texts of temporaries can be told from holes and from digits. -/
theorem Instr.distinct_operand {i : Instr} (h : i.targets? = none) :
    Distinct (i.operand Temp.text) := by
  have htemp : ∀ (ts : List Temp) (n : Nat) (text : String), (ts[n]?).map Temp.text = some text →
      ∃ c cs, text.toList = c :: cs ∧ c ≠ '\'' ∧ c.isDigit = false := by
    intro ts n text htext
    obtain ⟨t, -, rfl⟩ := Option.map_eq_some_iff.1 htext
    cases t with
    | virtual id => exact ⟨'t', _, String.toList_append, by decide, by decide⟩
    | register name => exact ⟨'$', _, String.toList_append, by decide, by decide⟩
  intro role n text htext
  cases role with
  | source => exact htemp _ n text htext
  | destination => exact htemp _ n text htext
  | target => simp [Instr.operand, h] at htext

/-- A label without quotes survives everywhere. -/
theorem Label.survives_of_no_quote {l : Label} (h : '\'' ∉ l.text.toList) (i : Instr) :
    l.Survives i := by
  have hquote : ∀ c ∈ l.text.toList, c ≠ '\'' := fun c hc hquote => h (hquote ▸ hc)
  have hpieces : pieces (l.text.toList ++ []) = _ := pieces_append hquote
  rw [List.append_nil, pieces, List.append_nil] at hpieces
  rw [Label.Survives, hpieces]
  exact List.forall_mem_map.2 fun _ _ => ⟨trivial, trivial⟩

theorem Mention.shownBy_call (l : Label) (count : Nat) :
    (Mention.call l count).ShownBy
      (.op ("jal " ++ l.text) callDefs (argumentRegisters.take count)) := by
  refine ⟨rfl, ?_⟩
  rw [Label.Survives, ← fill_eq_self_iff (Instr.distinct_operand rfl)]
  exact fill_append_iff (by simp)

theorem Mention.shownBy_address (l : Label) (t : Temp) :
    (Mention.address l).ShownBy (.op ("la 'd0, " ++ l.text) [t] []) := by
  have htemplate : "la 'd0, " ++ l.text = "la " ++ ("'d0" ++ (", " ++ l.text)) := by
    simp [← String.toList_inj]
  have htext : "la " ++ t.text ++ ", " ++ l.text = "la " ++ (t.text ++ (", " ++ l.text)) := by
    simp [← String.toList_inj]
  refine ⟨t, rfl, ?_⟩
  rw [Label.Survives, ← fill_eq_self_iff (Instr.distinct_operand rfl), htext, htemplate]
  calc fill _ ("la " ++ ("'d0" ++ (", " ++ l.text))) = _
      ↔ fill _ ("'d0" ++ (", " ++ l.text)) = .ok (t.text ++ (", " ++ l.text)) :=
        fill_append_iff (by simp)
    _ ↔ fill _ (", " ++ l.text) = .ok (", " ++ l.text) :=
        fill_hole_iff .destination '0' rfl rfl rfl (by simp)
    _ ↔ fill _ l.text = .ok l.text := fill_append_iff (by simp)

theorem Mention.shownBy_jump (l : Label) :
    (Mention.jump l).ShownBy (.jumping "j 'j0" [] [l]) := by
  have htext : "j " ++ l.text = "j " ++ (l.text ++ "") := by simp
  show fill _ ("j " ++ ("'j0" ++ "")) = _
  rw [htext, fill_append_iff (by simp),
    fill_hole_iff .target '0' rfl rfl rfl (by simp), fill_empty]

theorem Mention.shownBy_branch (op : RelOp) (onTrue onFalse : Label) (a b : Temp) :
    (Mention.branch op onTrue).ShownBy
      (.jumping (branchMnemonic op ++ " 's0, 's1, 'j0") [a, b] [onTrue, onFalse]) := by
  have htemplate : branchMnemonic op ++ " 's0, 's1, 'j0" =
      branchMnemonic op ++ (" " ++ ("'s0" ++ (", " ++ ("'s1" ++ (", " ++ ("'j0" ++ "")))))) := rfl
  have htext : branchMnemonic op ++ " " ++ a.text ++ ", " ++ b.text ++ ", " ++ onTrue.text =
      branchMnemonic op ++
        (" " ++ (a.text ++ (", " ++ (b.text ++ (", " ++ (onTrue.text ++ "")))))) := by
    simp [← String.toList_inj]
  have hmnemonic : ∀ c ∈ (branchMnemonic op).toList, c ≠ '\'' := by
    cases op <;> simp [branchMnemonic]
  refine ⟨a, b, rfl, ?_⟩
  rw [htext, htemplate]
  show fill _ _ = _
  rw [fill_append_iff hmnemonic, fill_append_iff (by simp),
    fill_hole_iff .source '0' rfl rfl rfl (by simp), fill_append_iff (by simp),
    fill_hole_iff .source '1' rfl rfl rfl (by simp), fill_append_iff (by simp),
    fill_hole_iff .target '0' rfl rfl rfl (by simp), fill_empty]

/-- An instruction shows the label that is written in its line. -/
theorem Line.Written.shownBy {line : Line} {i : Instr} {m : Mention} (h : line.Written i)
    (hm : line.mention? = some m) : m.ShownBy i := by
  cases h with
  | address l d =>
    cases hm
    exact Mention.shownBy_address l d
  | call l count =>
    cases hm
    exact Mention.shownBy_call l count
  | jump l =>
    cases hm
    exact Mention.shownBy_jump l
  | branch op onTrue onFalse a b =>
    cases hm
    exact Mention.shownBy_branch op onTrue onFalse a b
  | define l =>
    cases hm
    exact rfl
  | _ => cases hm

/-- The instructions for the lines with labels show them. -/
theorem Outlined.exists_shown {lines : List Line} {code : List Instr} (h : Outlined lines code) :
    ∃ shown, shown.Sublist code ∧
      List.Forall₂ Mention.ShownBy (lines.filterMap Line.mention?) shown := by
  induction h with
  | nil => exact ⟨[], .refl [], .nil⟩
  | @cons line i lines code hi _ ih =>
    obtain ⟨shown, hsub, hshown⟩ := ih
    cases hm : line.mention? with
    | none =>
      rw [List.filterMap_cons_none hm]
      exact ⟨shown, hsub.cons i, hshown⟩
    | some m =>
      rw [List.filterMap_cons_some hm]
      exact ⟨i :: shown, hsub.cons_cons i, .cons (hi.shownBy hm) hshown⟩

/-- **Every label of a statement is written in its code**, in the same order and in its place.  The
target of a jump or branch and the definition of a label are written as they are.  In a call, and
where an address is taken, this holds exactly if the label survives being read as a template, as
all labels do in which there is no quote. -/
theorem select_shows_labels {s : Stmt} {w w' : Workspace} {code : List Instr}
    (h : s.select.run w = (.ok code, w')) :
    (∃ shown, shown.Sublist code ∧ List.Forall₂ Mention.ShownBy s.mentions shown) ∧
      ∀ (l : Label) (i : Instr), '\'' ∉ l.text.toList → l.Survives i := by
  obtain ⟨hwhole, hlines⟩ := (s.yields_lines h).2
  refine ⟨?_, fun l i hquote => Label.survives_of_no_quote hquote i⟩
  rw [← s.mentions_lines hwhole]
  exact hlines.exists_shown

/-- A function whose name reads as a hole is called with its own address. -/
def callsQuoted : Stmt := .eval (.call (.name (.named "x's0")) [.name (.named "x's0")])

def callsQuotedCode : List Instr := [
  .op "la 'd0, x's0" [.virtual 1] [],
  copy (.register "a0") (.virtual 1),
  .op "jal x's0" callDefs [.register "a0"]]

theorem callsQuoted_shows_labels :
    ∃ w', callsQuoted.select.run { frame := { name := .named "f" } } =
        (.ok callsQuotedCode, w') ∧
      (∃ shown, shown.Sublist callsQuotedCode ∧
        List.Forall₂ Mention.ShownBy
          [.address (.named "x's0"), .call (.named "x's0") 1] shown) ∧
      ∀ (l : Label) (i : Instr), '\'' ∉ l.text.toList → l.Survives i :=
  ⟨_, rfl, select_shows_labels (s := callsQuoted) (w := { frame := { name := .named "f" } }) rfl⟩

/-- The call does not name the function: an operand is put into its name. -/
theorem callsQuoted_misnamed :
    callsQuoted.isCanonical = true ∧
      ∃ i w', callsQuoted.select.run { frame := { name := .named "f" } } =
          (.ok callsQuotedCode, w') ∧
        i ∈ callsQuotedCode ∧ i = .op ("jal " ++ (Label.named "x's0").text) callDefs
          [.register "a0"] ∧
        i.text = .ok "jal x$a0" := by
  refine ⟨rfl, .op "jal x's0" callDefs [.register "a0"], _, rfl, ?_, rfl, ?_⟩
  · simp [callsQuotedCode]
  · show fill _ ("jal x" ++ ("'s0" ++ "")) = .ok ("jal x" ++ ("$a0" ++ ""))
    rw [fill_append_iff (by simp),
      fill_hole_iff .source '0' rfl rfl rfl (by simp), fill_empty]

end Lowering
