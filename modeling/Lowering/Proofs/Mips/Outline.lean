import Lowering.Proofs.Mips.Compute

/-!
# The outline of selected code

Which instructions are selected depends on the tiles alone, and so does their order; only the
temporaries that they work on are drawn on the way.  The outline of a statement lists what stands
in its instructions, one line for each, without the temporaries.

A tile that faults has no instructions, so if there are any then no tile of the statement does.

## Main definitions

* `Line`, `Line.Written` — what stands in an instruction, whatever its temporaries.
* `Tile.lines`, `Stmt.lines` — the outline of a tile and of a statement.
* `Tile.Whole`, `Stmt.Whole` — no tile faults.
* `Stmt.yields_lines` — selected code follows the outline.
-/

namespace Lowering

open Mips

/-- What stands in a line of selected code, without its temporaries. -/
inductive Line where
  | copy
  | const (value : Word)
  | address (label : Label)
  | load (offset : Word)
  | store (offset : Word)
  | immediate (op : Immediate) (value : Word)
  | binop (op : BinOp)
  | call (function : Label) (count : Nat)
  | callAt (count : Nat)
  | jump (label : Label)
  | jumpAt (labels : List Label)
  | branch (op : RelOp) (onTrue onFalse : Label)
  | define (label : Label)
  deriving DecidableEq, Repr

/-- The operation in a line, if there is one. -/
def Line.operation? : Line → Option Operation
  | .copy => some .move
  | .const value => some (.loadConst value)
  | .address l => some (.loadAddress l.text)
  | .load offset => some (.load offset)
  | .store offset => some (.store offset)
  | .immediate op value => some (.immediate op value)
  | .binop op => some (.binop op)
  | .call l _ => some (.call l.text)
  | .callAt _ => some .callAt
  | .jump _ => some .jump
  | .jumpAt _ => some .jumpAt
  | .branch op _ _ => some (.branch op)
  | .define _ => none

/-- The instruction is what stands in the line, with some temporaries. -/
inductive Line.Written : Line → Instr → Prop
  | copy (d a : Temp) : Written .copy (Mips.copy d a)
  | const (value : Word) (d : Temp) :
    Written (.const value) (.op (Operation.loadConst value).template [d] [])
  | address (l : Label) (d : Temp) :
    Written (.address l) (.op (Operation.loadAddress l.text).template [d] [])
  | load (offset : Word) (d a : Temp) :
    Written (.load offset) (.op (Operation.load offset).template [d] [a])
  | store (offset : Word) (a b : Temp) :
    Written (.store offset) (.op (Operation.store offset).template [] [a, b])
  | immediate (op : Immediate) (value : Word) (d a : Temp) :
    Written (.immediate op value) (.op (Operation.immediate op value).template [d] [a])
  | binop (op : BinOp) (d a b : Temp) :
    Written (.binop op) (.op (Operation.binop op).template [d] [a, b])
  | call (l : Label) (count : Nat) :
    Written (.call l count)
      (.op (Operation.call l.text).template callDefs (argumentRegisters.take count))
  | callAt (count : Nat) (f : Temp) :
    Written (.callAt count)
      (.op Operation.callAt.template callDefs (f :: argumentRegisters.take count))
  | jump (l : Label) : Written (.jump l) (.jumping Operation.jump.template [] [l])
  | jumpAt (labels : List Label) (a : Temp) :
    Written (.jumpAt labels) (.jumping Operation.jumpAt.template [a] labels)
  | branch (op : RelOp) (onTrue onFalse : Label) (a b : Temp) :
    Written (.branch op onTrue onFalse)
      (.jumping (Operation.branch op).template [a, b] [onTrue, onFalse])
  | define (l : Label) : Written (.define l) (.define l)

/-- The operation that the template of an instruction stands for. -/
def Instr.operation? : Instr → Option Operation
  | .oper template _ _ _ => Operation.decode template
  | .move template _ _ => Operation.decode template
  | .label _ _ => none

/-- The operation in a line is the one that is read. -/
theorem Line.Written.operation?_eq {line : Line} {i : Instr} (h : line.Written i) :
    i.operation? = line.operation? := by
  cases h with
  | define l => rfl
  | copy d a => exact Operation.decode_template .move
  | callAt count f => exact Operation.decode_template .callAt
  | jump l => exact Operation.decode_template .jump
  | jumpAt labels a => exact Operation.decode_template .jumpAt
  | _ => exact Operation.decode_template _

/-- The code is made of what stands in the lines. -/
def Outlined (lines : List Line) (code : List Instr) : Prop :=
  List.Forall₂ Line.Written lines code

namespace Outlined

variable {lines lines' : List Line} {code code' : List Instr} {line : Line} {i : Instr}

theorem nil : Outlined [] [] := List.Forall₂.nil

theorem singleton (h : line.Written i) : Outlined [line] [i] := List.Forall₂.cons h List.Forall₂.nil

theorem append (h : Outlined lines code) (h' : Outlined lines' code') :
    Outlined (lines ++ lines') (code ++ code') :=
  List.rel_append h h'

theorem concat (h : Outlined lines code) (hi : line.Written i) :
    Outlined (lines ++ [line]) (code ++ [i]) :=
  h.append (.singleton hi)

/-- The operations that are read in the code are those of its lines. -/
theorem map_operation? (h : Outlined lines code) :
    code.map Instr.operation? = lines.map Line.operation? := by
  induction h with
  | nil => rfl
  | cons hi _ ih => rw [List.map_cons, List.map_cons, hi.operation?_eq, ih]

theorem forall_operation?_iff (h : Outlined lines code) {P : Option Operation → Prop} :
    (∀ i ∈ code, P i.operation?) ↔ ∀ line ∈ lines, P line.operation? := by
  rw [← List.forall_mem_map, h.map_operation?, List.forall_mem_map]

end Outlined

/-! ## Tiles -/

mutual

/-- The outline of a tile.  Arguments are copied one after another. -/
def Tile.lines : Tile → List Line
  | .temp _ | .faulty _ => []
  | .const value => [.const value]
  | .name label => [.address label]
  | .load base offset => base.lines ++ [.load offset]
  | .immediate op operand value => operand.lines ++ [.immediate op value]
  | .binop op lhs rhs => lhs.lines ++ rhs.lines ++ [.binop op]
  | .call function args => Tile.argLines args ++ [.call function args.length]
  | .callAt function args => function.lines ++ Tile.argLines args ++ [.callAt args.length]
  termination_by structural tile => tile

@[inherit_doc Tile.lines]
def Tile.argLines : List Tile → List Line
  | [] => []
  | arg :: rest => arg.lines ++ [.copy] ++ Tile.argLines rest
  termination_by structural args => args

end

mutual

/-- Nothing in the tile faults. -/
def Tile.Whole : Tile → Prop
  | .temp _ | .const _ | .name _ => True
  | .load base _ => base.Whole
  | .immediate _ operand _ => operand.Whole
  | .binop _ lhs rhs => lhs.Whole ∧ rhs.Whole
  | .call _ args => Tile.AllWhole args
  | .callAt function args => function.Whole ∧ Tile.AllWhole args
  | .faulty _ => False
  termination_by structural tile => tile

@[inherit_doc Tile.Whole]
def Tile.AllWhole : List Tile → Prop
  | [] => True
  | tile :: rest => tile.Whole ∧ Tile.AllWhole rest
  termination_by structural tiles => tiles

end

theorem Tile.whole_address {tile : Tile} : tile.address.1.Whole ↔ tile.Whole := by
  unfold Tile.address
  split <;> rfl

/-- The code is that of a tile in which nothing faults. -/
structure Tile.WrittenOut (tile : Tile) (code : List Instr) : Prop where
  whole : tile.Whole
  outlined : Outlined tile.lines code

/-- The result of an operation stands behind what it needs. -/
theorem yields_lines_emitResult {tile : Tile} {code : List Instr} {last : Temp → Instr}
    (lines : List Line) {line : Line} (hlines : tile.lines = lines ++ [line])
    (hline : ∀ t, line.Written (last t)) :
    Pass.Yields (emitResult code last) fun _ _ out =>
      tile.Whole → Outlined lines code → tile.WrittenOut out.1 := by
  refine (Pass.Yields.emitResult code last).imp ?_
  rintro lo _ _ - ⟨rfl, rfl⟩ hwhole hcode
  exact ⟨hwhole, hlines ▸ hcode.concat (hline _)⟩

mutual

/-- **The code of a tile follows its outline.** -/
theorem Tile.yields_lines : ∀ tile : Tile,
    Pass.Yields tile.select fun _ _ out => tile.WrittenOut out.1
  | .temp _ => .pure fun _ => ⟨trivial, .nil⟩
  | .const value => (yields_lines_emitResult [] rfl (.const value)).imp
    fun _ _ _ _ h => h trivial .nil
  | .name label => (yields_lines_emitResult [] rfl (.address label)).imp
    fun _ _ _ _ h => h trivial .nil
  | .load base offset => .bind base.yields_lines fun out =>
    (yields_lines_emitResult _ rfl (.load offset · out.2)).imp
      fun _ _ _ _ h _ _ hbase => h hbase.whole hbase.outlined
  | .immediate op operand value => .bind operand.yields_lines fun out =>
    (yields_lines_emitResult _ rfl (.immediate op value · out.2)).imp
      fun _ _ _ _ h _ _ hoperand => h hoperand.whole hoperand.outlined
  | .binop op lhs rhs => .bind lhs.yields_lines fun out => .bind rhs.yields_lines fun out' =>
    (yields_lines_emitResult _ rfl (.binop op · out.2 out'.2)).imp
      fun _ _ _ _ h _ _ hrhs _ _ hlhs =>
        h ⟨hlhs.whole, hrhs.whole⟩ (hlhs.outlined.append hrhs.outlined)
  | .call function args => by
    refine .bind (.checkArgs _) fun _ => .bind (Tile.yields_argLines args argumentRegisters)
      fun code => .bind (.emit _) fun last => .pure ?_
    rintro _ _ _ ⟨-, rfl⟩ _ _ hargs _ _ ⟨-, hcount⟩
    obtain ⟨hwhole, hcode⟩ := hargs hcount
    exact ⟨hwhole, hcode.concat (.call function args.length)⟩
  | .callAt function args => by
    refine .bind function.yields_lines fun out => .bind (.checkArgs _) fun _ =>
      .bind (Tile.yields_argLines args argumentRegisters) fun code => .bind (.emit _)
      fun last => .pure ?_
    rintro _ _ _ ⟨-, rfl⟩ _ _ hargs _ _ ⟨-, hcount⟩ _ _ hfunction
    obtain ⟨hwhole, hcode⟩ := hargs hcount
    exact ⟨⟨hfunction.whole, hwhole⟩,
      (hfunction.outlined.append hcode).concat (.callAt args.length out.2)⟩
  | .faulty fault => .throw fault
  termination_by structural tile => tile

/-- The code of arguments, if there are registers for all of them. -/
theorem Tile.yields_argLines : ∀ (args : List Tile) (registers : List Temp),
    Pass.Yields (Tile.selectArgs registers args) fun _ _ code =>
      args.length ≤ registers.length → Tile.AllWhole args ∧ Outlined (Tile.argLines args) code
  | [], _ => .pure fun _ _ => ⟨trivial, .nil⟩
  | arg :: rest, [] => .pure fun _ h => absurd h (Nat.not_succ_le_zero _)
  | arg :: rest, r :: registers => by
    refine .bind arg.yields_lines fun out => .bind (.emit (copy r out.2)) fun last =>
      .bind (Tile.yields_argLines rest registers) fun more => .pure ?_
    rintro _ _ _ hrest _ _ ⟨-, rfl⟩ _ _ harg hlength
    obtain ⟨hwhole, hmore⟩ := hrest (Nat.le_of_succ_le_succ hlength)
    exact ⟨⟨harg.whole, hwhole⟩, (harg.outlined.concat (.copy r out.2)).append hmore⟩
  termination_by structural args => args

end

/-! ## Statements -/

/-- The outline of a statement. -/
def Stmt.lines : Stmt → List Line
  | .seq first second => first.lines ++ second.lines
  | .label l => [.define l]
  | .move (.mem address) source =>
    address.cover.address.1.lines ++ source.cover.lines ++ [.store address.cover.address.2]
  | .move (.temp _) (.const value) => [.const value]
  | .move _ source => source.cover.lines ++ [.copy]
  | .eval expr => expr.cover.lines
  | .branch (.jump (.name l) _) => [.jump l]
  | .branch (.jump target labels) => target.cover.lines ++ [.jumpAt labels]
  | .branch (.cjump op lhs rhs onTrue onFalse) =>
    lhs.cover.lines ++ rhs.cover.lines ++ [.branch op onTrue onFalse]

/-- Nothing that is covered in the statement faults, and it moves only to places. -/
def Stmt.Whole : Stmt → Prop
  | .seq first second => first.Whole ∧ second.Whole
  | .label _ => True
  | .move (.mem address) source => address.cover.Whole ∧ source.cover.Whole
  | .move (.temp _) source => source.cover.Whole
  | .move _ _ => False
  | .eval expr => expr.cover.Whole
  | .branch (.jump target _) => target.cover.Whole
  | .branch (.cjump _ lhs rhs _ _) => lhs.cover.Whole ∧ rhs.cover.Whole

/-- The code is that of a statement in which nothing faults. -/
structure Stmt.WrittenOut (s : Stmt) (code : List Instr) : Prop where
  whole : s.Whole
  outlined : Outlined s.lines code

theorem Stmt.yields_lines_selectMove (target source : Expr) :
    Pass.Yields (Stmt.selectMove target source) fun _ _ code =>
      (Stmt.move target source).WrittenOut code := by
  cases target with
  | mem address =>
    refine .bind (Tile.yields_lines _) fun out => .bind (Tile.yields_lines _) fun out' =>
      .bind (.emit _) fun last => .pure ?_
    rintro _ _ _ ⟨-, rfl⟩ _ _ hsource _ _ hbase
    exact ⟨⟨Tile.whole_address.1 hbase.whole, hsource.whole⟩,
      (hbase.outlined.append hsource.outlined).concat (.store _ out.2 out'.2)⟩
  | temp dst =>
    cases source with
    | const value =>
      refine (Pass.Yields.emit _).imp ?_
      rintro _ _ _ _ ⟨-, rfl⟩
      refine ⟨?_, .singleton (.const value dst)⟩
      rw [Stmt.Whole, Expr.cover]
      split <;> trivial
    | _ =>
      refine .bind (Tile.yields_lines _) fun out => .bind (.emit _) fun last => .pure ?_
      rintro _ _ _ ⟨-, rfl⟩ _ _ hsource
      exact ⟨hsource.whole, hsource.outlined.concat (.copy dst out.2)⟩
  | _ => exact .throw _

theorem Branch.yields_lines (b : Branch) :
    Pass.Yields b.select fun _ _ code => (Stmt.branch b).WrittenOut code := by
  cases b with
  | jump target labels =>
    cases target with
    | name l =>
      refine (Pass.Yields.emit _).imp ?_
      rintro _ _ _ _ ⟨-, rfl⟩
      exact ⟨trivial, .singleton (.jump l)⟩
    | _ =>
      refine .bind (Tile.yields_lines _) fun out => .bind (.emit _) fun last => .pure ?_
      rintro _ _ _ ⟨-, rfl⟩ _ _ htarget
      exact ⟨htarget.whole, htarget.outlined.concat (.jumpAt labels out.2)⟩
  | cjump op lhs rhs onTrue onFalse =>
    refine .bind (Tile.yields_lines _) fun out => .bind (Tile.yields_lines _) fun out' =>
      .bind (.emit _) fun last => .pure ?_
    rintro _ _ _ ⟨-, rfl⟩ _ _ hrhs _ _ hlhs
    exact ⟨⟨hlhs.whole, hrhs.whole⟩,
      (hlhs.outlined.append hrhs.outlined).concat (.branch op onTrue onFalse out.2 out'.2)⟩

/-- **Selected code follows the outline of its statement.** -/
theorem Stmt.yields_lines (s : Stmt) :
    Pass.Yields s.select fun _ _ code => s.WrittenOut code := by
  cases s with
  | seq first second =>
    refine .bind first.yields_lines fun head => .bind second.yields_lines fun tail => .pure ?_
    rintro _ _ _ hsecond _ _ hfirst
    exact ⟨⟨hfirst.whole, hsecond.whole⟩, hfirst.outlined.append hsecond.outlined⟩
  | label l =>
    refine (Pass.Yields.emit _).imp ?_
    rintro _ _ _ _ ⟨-, rfl⟩
    exact ⟨trivial, .singleton (.define l)⟩
  | move target source => exact Stmt.yields_lines_selectMove target source
  | eval expr =>
    refine .bind (Tile.yields_lines _) fun out => .pure ?_
    rintro _ _ _ hexpr
    exact ⟨hexpr.whole, hexpr.outlined⟩
  | branch b => exact b.yields_lines
  termination_by structural s

end Lowering
