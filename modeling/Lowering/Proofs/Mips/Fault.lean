import Lowering.Proofs.Canonical.Rejection
import Lowering.Proofs.Mips.Cover
import Lowering.Proofs.Mips.Select

/-!
# When there are no instructions

Selection faults for what occurs in the statements, at any depth and in any form: a statement in
front of a value, a move to something that is no place, a call with too many arguments, or the
least word subtracted.  The first three cannot be expressed by instructions; the last one is a
constant whose negation is no word.  Under a listener there is one more reason, a label that
cannot be put into words.

Covering leaves out what is folded into an instruction, and what stands beside something that
faults.  So not all that could fault does, but something does if anything could.

## Main definitions

* `Pass.Raises` — how a pass ends, by the faults that it may end with.
* `Node.Raises` — the fault for what occurs in a statement.
* `Stmt.raises_selectAll` — how selection ends.
* `select_iff_expressible` — the main result.
-/

namespace Lowering

open Mips Template

/-! ## Passes that may fault -/

/-- The fault for a label that cannot be put into words, if someone listens. -/
def Label.Wordless (heard : Bool) (l : Label) (e : Fault) : Prop :=
  heard = true ∧ ¬l.Wordable ∧ ∃ step, e = .overflow step

/-- The fault for more arguments than there are registers for them. -/
def Mips.TooMany (count : Nat) (e : Fault) : Prop :=
  argumentRegisters.length < count ∧
    e = .tooManyArguments argumentRegisters.length count

/-- The pass ends with one of the faults, or with a value if there are none.  It matters whether
someone listens, and that stays as it is. -/
def Pass.Raises {α : Type} (heard : Bool) (x : Pass α) (F : Fault → Prop) : Prop :=
  ∀ w : Workspace, w.journal.records?.isSome = heard →
    (∃ a w', x.run w = (.ok a, w') ∧ w'.journal.records?.isSome = heard ∧ ∀ e, ¬F e) ∨
      ∃ e w', x.run w = (.error e, w') ∧ F e

/-- The first faults are some of the second ones, and there are none only if there are none of
those. -/
structure Reports (F G : Fault → Prop) : Prop where
  sound : ∀ e, F e → G e
  complete : ∀ e, G e → ∃ e', F e'

namespace Reports

variable {F F' G G' : Fault → Prop}

theorem of_iff (h : ∀ e, F e ↔ G e) : Reports F G :=
  ⟨fun e => (h e).1, fun e he => ⟨e, (h e).2 he⟩⟩

/-- One fault stands for all others. -/
theorem of_mem {e : Fault} (h : G e) : Reports (· = e) G :=
  ⟨by rintro _ rfl; exact h, fun _ _ => ⟨e, rfl⟩⟩

theorem or (h : Reports F G) (h' : Reports F' G') :
    Reports (fun e => F e ∨ F' e) fun e => G e ∨ G' e where
  sound e := Or.imp (h.sound e) (h'.sound e)
  complete e := by
    rintro (he | he)
    · obtain ⟨e', he'⟩ := h.complete e he
      exact ⟨e', .inl he'⟩
    · obtain ⟨e', he'⟩ := h'.complete e he
      exact ⟨e', .inr he'⟩

theorem trans (h : Reports F G) (h' : Reports G G') : Reports F G' where
  sound e he := h'.sound e (h.sound e he)
  complete e he := by
    obtain ⟨e', he'⟩ := h'.complete e he
    exact h.complete e' he'

end Reports

namespace Pass.Raises

variable {α β : Type} {heard : Bool} {x : Pass α} {f : α → Pass β} {F G : Fault → Prop}

theorem reports (hx : x.Raises heard F) (h : Reports F G) : x.Raises heard G := by
  intro w hw
  rcases hx w hw with ⟨a, w', hrun, hw', hnone⟩ | ⟨e, w', hrun, he⟩
  · refine .inl ⟨a, w', hrun, hw', fun e he => ?_⟩
    obtain ⟨e', he'⟩ := h.complete e he
    exact hnone e' he'
  · exact .inr ⟨e, w', hrun, h.sound e he⟩

/-- There is a fault if there can be one. -/
theorem exists_error {w : Workspace} {e : Fault} (hx : x.Raises heard F)
    (hw : w.journal.records?.isSome = heard) (he : F e) :
    ∃ e' w', x.run w = (.error e', w') ∧ F e' := by
  rcases hx w hw with ⟨a, w', hrun, hw', hnone⟩ | h
  · exact absurd he (hnone e)
  · exact h

theorem exists_ok_iff {w : Workspace} (hx : x.Raises heard F)
    (hw : w.journal.records?.isSome = heard) :
    (∃ a w', x.run w = (.ok a, w')) ↔ ∀ e, ¬F e := by
  constructor
  · rintro ⟨a, w', hrun⟩ e he
    obtain ⟨e', w'', hrun', -⟩ := hx.exists_error hw he
    simp [hrun] at hrun'
  · intro h
    rcases hx w hw with ⟨a, w', hrun, -⟩ | ⟨e, w', -, he⟩
    · exact ⟨a, w', hrun⟩
    · exact absurd he (h e)

theorem pure (a : α) : Pass.Raises heard (pure a) fun _ => False :=
  fun w hw => .inl ⟨a, w, rfl, hw, fun _ => id⟩

theorem throw (e : Fault) : Pass.Raises heard (throw e : Pass α) (· = e) :=
  fun w _ => .inr ⟨e, w, rfl, rfl⟩

theorem bind (hx : x.Raises heard F) (hf : ∀ a, (f a).Raises heard G) :
    (x >>= f).Raises heard fun e => F e ∨ G e := by
  intro w hw
  rcases hx w hw with ⟨a, w', hrun, hw', hF⟩ | ⟨e, w', hrun, he⟩
  · rw [Attempt.run_bind_ok f hrun]
    rcases hf a w' hw' with ⟨b, w'', hrun', hw'', hG⟩ | ⟨e, w'', hrun', he⟩
    · exact .inl ⟨b, w'', hrun', hw'', fun e he => he.elim (hF e) (hG e)⟩
    · exact .inr ⟨e, w'', hrun', .inr he⟩
  · exact .inr ⟨e, w', Attempt.run_bind_error f hrun, .inl he⟩

/-- What follows does not fault. -/
theorem followed (hx : x.Raises heard F) (hf : ∀ a, (f a).Raises heard fun _ => False) :
    (x >>= f).Raises heard F :=
  (hx.bind hf).reports (.of_iff fun _ => or_iff_left id)

/-- What comes before does not fault. -/
theorem preceded (hx : x.Raises heard fun _ => False) (hf : ∀ a, (f a).Raises heard G) :
    (x >>= f).Raises heard G :=
  (hx.bind hf).reports (.of_iff fun _ => or_iff_right id)

theorem temp : Pass.Raises heard (Pass.fresh Fresh.temp) fun _ => False :=
  fun w hw => .inl ⟨_, { w with supply := ⟨w.supply.temps + 1, w.supply.labels⟩ }, rfl, hw,
    fun _ => id⟩

/-- Emitting an instruction faults if someone listens and there are no words for it. -/
theorem emit (i : Instr) : Pass.Raises heard (emit i) fun e =>
    heard = true ∧ (¬∃ text, i.text = .ok text) ∧ ∃ step, e = .overflow step := by
  refine followed (fun w hw => ?_) fun _ => pure [i]
  cases hr : w.journal.records? with
  | none =>
    refine .inl ⟨(), w, Pass.run_noteText_of_silent hr .., hw, ?_⟩
    rintro e ⟨rfl, -⟩
    simp [hr] at hw
  | some records =>
    cases ht : i.text with
    | ok text =>
      refine .inl ⟨(), { w with
        journal := ⟨some (records.push ⟨.trace, "Selected " ++ text ++ ""⟩)⟩ }, ?_, ?_, by simp⟩
      · simp [Pass.noteInstr, Pass.noteText, Journal.add, hr, ht, Except.map]
      · rw [← hw, hr]
        rfl
    | error e =>
      refine .inr ⟨e, w, ?_, ?_, by simp, Instr.overflow_of_text ht⟩
      · simp [Pass.noteInstr, Pass.noteText, Journal.add, hr, ht, Except.map]
      · rw [← hw, hr]
        rfl

theorem emit_text {i : Instr} (h : ∃ text, i.text = .ok text) :
    Pass.Raises heard (Mips.emit i) fun _ => False :=
  (emit i).reports (.of_iff fun _ => by simp [h])

theorem emit_oper {template : String} {dst src : List Temp} {jump : Option (List Label)}
    (h : Fillable template.toList) :
    Pass.Raises heard (Mips.emit (.oper template dst src jump)) fun _ => False :=
  emit_text (exists_fill_iff.2 h)

/-- An operation whose words depend on a label. -/
theorem emit_label {template : String} {dst src : List Temp} {l : Label}
    (h : Fillable template.toList ↔ l.Wordable) :
    Pass.Raises heard (Mips.emit (.op template dst src)) (l.Wordless heard) := by
  have htext : (∃ text, (Instr.op template dst src).text = .ok text) ↔ l.Wordable :=
    exists_fill_iff.trans h
  exact (emit _).reports (.of_iff fun _ => by rw [htext, Label.Wordless])

/-- An operation whose result is in a fresh temporary. -/
theorem emitResult {code : List Instr} {last : Temp → Instr}
    (h : ∀ t, Pass.Raises heard (Mips.emit (last t)) F) :
    Pass.Raises heard (emitResult code last) F :=
  preceded temp fun t => (h t).followed fun _ => pure _

/-- What follows runs only if there are not too many arguments. -/
theorem checkArgs {count : Nat} {f : Unit → Pass β}
    (hf : count ≤ argumentRegisters.length → (f ()).Raises heard G) :
    (checkArgs count >>= f).Raises heard fun e => TooMany count e ∨ G e := by
  rw [Mips.checkArgs]
  split
  · next hlt => exact fun w _ => .inr ⟨_, w, rfl, .inl ⟨hlt, rfl⟩⟩
  · next hle =>
    refine preceded (pure ()) fun _ => (hf (Nat.not_lt.1 hle)).reports (.of_iff fun e => ?_)
    exact (or_iff_right fun h => hle h.1).symm

end Pass.Raises

/-! ## Tiles -/

mutual

/-- The fault is one of those that the tile may end with. -/
def Tile.Raises (heard : Bool) (e : Fault) : Tile → Prop
  | .temp _ | .const _ => False
  | .name l => l.Wordless heard e
  | .load base _ => base.Raises heard e
  | .immediate _ operand _ => operand.Raises heard e
  | .binop _ lhs rhs => lhs.Raises heard e ∨ rhs.Raises heard e
  | .call function args =>
    TooMany args.length e ∨ Tile.AnyRaises heard e args ∨ function.Wordless heard e
  | .callAt function args =>
    function.Raises heard e ∨ TooMany args.length e ∨ Tile.AnyRaises heard e args
  | .faulty fault => e = fault
  termination_by structural tile => tile

@[inherit_doc Tile.Raises]
def Tile.AnyRaises (heard : Bool) (e : Fault) : List Tile → Prop
  | [] => False
  | tile :: rest => tile.Raises heard e ∨ Tile.AnyRaises heard e rest
  termination_by structural tiles => tiles

end

section Tiles

variable {heard : Bool}

/-- The sum in an address does not fault. -/
theorem Tile.reports_address (tile : Tile) :
    Reports (tile.address.1.Raises heard ·) (tile.Raises heard ·) := by
  unfold Tile.address
  split <;> exact .of_iff fun _ => .rfl

mutual

/-- **How the instructions of a tile end.** -/
theorem Tile.raises_select : ∀ tile : Tile, tile.select.Raises heard (tile.Raises heard ·)
  | .temp t => .pure _
  | .const v => by
    refine .emitResult fun t => .emit_oper ?_
    simp [Role.ofLetter?, fillable_wordText_nil]
  | .name l => by
    refine .emitResult fun t => .emit_label ?_
    simp [Role.ofLetter?, Label.Wordable]
  | .load base offset => by
    refine .followed base.raises_select fun _ => .emitResult fun t => .emit_oper ?_
    simp [Role.ofLetter?, fillable_wordText]
  | .immediate op operand v => by
    refine .followed operand.raises_select fun _ => .emitResult fun t => .emit_oper ?_
    cases op <;> simp [Immediate.mnemonic, Role.ofLetter?, fillable_wordText_nil]
  | .binop op lhs rhs => by
    refine .bind lhs.raises_select fun _ => .followed rhs.raises_select
      fun _ => .emitResult fun t => .emit_oper ?_
    cases op <;> simp [binopMnemonic, Role.ofLetter?]
  | .call function args => by
    refine .checkArgs fun hle => .bind (Tile.raises_selectArgs args argumentRegisters hle)
      fun _ => .followed (.emit_label ?_) fun _ => .pure _
    simp [Label.Wordable]
  | .callAt function args => by
    -- The function comes before the count of the arguments is looked at.
    refine .bind function.raises_select fun _ => .checkArgs fun hle =>
      .followed (Tile.raises_selectArgs args argumentRegisters hle) fun _ =>
      .followed (.emit_oper ?_) fun _ => .pure _
    simp [Role.ofLetter?]
  | .faulty fault => .throw fault
  termination_by structural tile => tile

/-- How the instructions of arguments end, if there are registers for all of them. -/
theorem Tile.raises_selectArgs : ∀ (args : List Tile) (registers : List Temp),
    args.length ≤ registers.length →
    (Tile.selectArgs registers args).Raises heard (Tile.AnyRaises heard · args)
  | [], _, _ => .pure _
  | arg :: rest, r :: registers, h =>
    .bind arg.raises_select fun out => .preceded (.emit_text (exists_text_copy r out.2))
      fun _ => .followed (Tile.raises_selectArgs rest registers (Nat.le_of_succ_le_succ h))
      fun _ => .pure _
  termination_by structural args => args

end

end Tiles

/-! ## Covering -/

/-- Only the least word cannot be subtracted. -/
theorem fold_eq_error {op : BinOp} {lhs rhs : Expr} {e : Fault} (h : fold op lhs rhs = .error e) :
    op = .minus ∧ rhs = .const Int64.minValue ∧ e = .overflow .negate := by
  cases op with
  | minus =>
    simp only [fold, foldMinus] at h
    split at h
    · split at h
      · next hv =>
        cases h
        exact ⟨rfl, congrArg Expr.const hv, rfl⟩
      · cases h
    · cases h
  | _ => cases h

/-- What is folded is a constant. -/
theorem fold_eq_some {op : BinOp} {lhs rhs : Expr} {folded : Folded}
    (h : fold op lhs rhs = .ok (some folded)) :
    ∃ v, folded.side = .left ∧ rhs = .const v ∨ folded.side = .right ∧ lhs = .const v := by
  cases op with
  | plus | and | or | xor => exact ⟨_, (foldEither_eq_some (Except.ok.inj h)).2⟩
  | minus =>
    obtain ⟨v, rfl, rfl⟩ := foldMinus_eq_some h
    exact ⟨v, .inl ⟨rfl, rfl⟩⟩
  | shl | shr | sar => exact ⟨_, .inl (foldShift_eq_some (Except.ok.inj h)).2⟩
  | mul | div => cases h

/-- The fault for what occurs in a statement: that it has no instructions, by itself and not for
what occurs in it. -/
def Node.Raises (heard : Bool) (e : Fault) : Node → Prop
  | .expr (.name l) => l.Wordless heard e
  | .expr (.binop op _ rhs) =>
    op = .minus ∧ rhs = .const Int64.minValue ∧ e = .overflow .negate
  | .expr (.call _ args) => TooMany args.length e
  | .expr (.eseq first value) => e = .nestedStatement (.eseq first value)
  | .stmt (.move target _) => target.isPlace = false ∧ e = .unwritable target
  | _ => False

/-- The fault is that of one of the nodes. -/
def Node.AnyRaises (heard : Bool) (e : Fault) (nodes : List Node) : Prop :=
  ∃ n ∈ nodes, n.Raises heard e

section Nodes

variable {heard : Bool} {e : Fault} {n : Node} {nodes nodes' : List Node}

@[simp] theorem Node.anyRaises_nil : ¬Node.AnyRaises heard e [] := by simp [Node.AnyRaises]

@[simp] theorem Node.anyRaises_cons :
    Node.AnyRaises heard e (n :: nodes) ↔ n.Raises heard e ∨ Node.AnyRaises heard e nodes := by
  simp [Node.AnyRaises]

@[simp] theorem Node.anyRaises_append : Node.AnyRaises heard e (nodes ++ nodes') ↔
    Node.AnyRaises heard e nodes ∨ Node.AnyRaises heard e nodes' := by
  simp [Node.AnyRaises, or_and_right, exists_or]

end Nodes

section Cover

variable {heard : Bool}

/-- Nothing that occurs in a constant faults. -/
theorem Expr.not_anyRaises_const {e : Fault} (v : Word) :
    ¬Node.AnyRaises heard e (Expr.const v).nodes := by
  simp [Expr.nodes, Node.Raises]

mutual

/-- **The tiles of an expression fault if anything in it does.** -/
theorem Expr.reports_cover : ∀ e : Expr,
    Reports (e.cover.Raises heard ·) (Node.AnyRaises heard · e.nodes)
  | .const v => by
    rw [Expr.cover]
    refine .of_iff fun f => iff_of_false ?_ (Expr.not_anyRaises_const v)
    split <;> exact id
  | .name l => .of_iff fun f => by simp [Expr.cover, Tile.Raises, Expr.nodes, Node.Raises]
  | .temp t => .of_iff fun f => by simp [Expr.cover, Tile.Raises, Expr.nodes, Node.Raises]
  | .binop op lhs rhs => by
    have hlhs := lhs.reports_cover
    have hrhs := rhs.reports_cover
    rw [Expr.cover]
    cases hfold : fold op lhs rhs with
    | error fault =>
      refine .of_mem ?_
      rw [Expr.nodes, Node.anyRaises_cons]
      exact .inl (fold_eq_error hfold)
    | ok folded =>
      -- The operation itself is fine, so the operands that are covered decide.
      have hnode (f : Fault) : ¬Node.Raises heard f (.expr (.binop op lhs rhs)) := by
        rintro ⟨rfl, rfl, -⟩
        cases hfold
      have hnodes (f : Fault) : Node.AnyRaises heard f (Expr.binop op lhs rhs).nodes ↔
          Node.AnyRaises heard f lhs.nodes ∨ Node.AnyRaises heard f rhs.nodes := by
        simp [Expr.nodes, hnode]
      refine Reports.trans ?_ (.of_iff fun f => (hnodes f).symm)
      rcases folded with _ | ⟨op, side, value⟩
      · exact hlhs.or hrhs
      · obtain ⟨v, ⟨hside, rfl⟩ | ⟨hside, rfl⟩⟩ := fold_eq_some hfold
        · cases hside
          exact hlhs.trans (.of_iff fun f => (or_iff_left (Expr.not_anyRaises_const v)).symm)
        · cases hside
          exact hrhs.trans (.of_iff fun f => (or_iff_right (Expr.not_anyRaises_const v)).symm)
  | .mem address => by
    have haddress := address.cover.reports_address.trans address.reports_cover
    refine haddress.trans (.of_iff fun f => ?_)
    simp [Expr.nodes, Node.Raises]
  | .call function args => by
    have hfunction := function.reports_cover
    have hargs := Expr.reports_coverAll args
    have hcount : Reports (TooMany (Expr.coverAll args).length) (TooMany args.length) :=
      .of_iff fun f => by rw [Expr.length_coverAll]
    have hnodes (f : Fault) : Node.AnyRaises heard f (Expr.call function args).nodes ↔
        TooMany args.length f ∨ Node.AnyRaises heard f function.nodes ∨
          Node.AnyRaises heard f (Expr.nodesAll args) := by
      simp [Expr.nodes, Node.Raises]
    cases function with
    | name l =>
      refine (hcount.or (hargs.or hfunction)).trans (.of_iff fun f => ?_)
      rw [hnodes, or_comm (a := Node.AnyRaises heard f (Expr.nodesAll args))]
    | _ =>
      refine (hfunction.or (hcount.or hargs)).trans (.of_iff fun f => ?_)
      rw [hnodes, or_left_comm]
  | .eseq first value => .of_mem (by simp [Expr.nodes, Node.Raises])
  termination_by structural e => e

theorem Expr.reports_coverAll : ∀ es : List Expr,
    Reports (Tile.AnyRaises heard · (Expr.coverAll es)) (Node.AnyRaises heard · (Expr.nodesAll es))
  | [] => .of_iff fun f => by simp [Expr.coverAll, Tile.AnyRaises, Expr.nodesAll]
  | e :: rest => by
    refine (e.reports_cover.or (Expr.reports_coverAll rest)).trans (.of_iff fun f => ?_)
    rw [Expr.nodesAll, Node.anyRaises_append]
  termination_by structural es => es

end

end Cover

/-! ## Statements -/

/-- What occurs in a statement and has a part in the words for its instructions.  A direct jump
has the label beside its words. -/
def Stmt.spoken : Stmt → List Node
  | .seq first second => .stmt (.seq first second) :: (first.spoken ++ second.spoken)
  | .branch (.jump (.name l) labels) => [.stmt (.branch (.jump (.name l) labels))]
  | s => s.nodes

section Select

variable {heard : Bool}

/-- How the instructions of an expression end. -/
theorem Expr.raises_select (e : Expr) :
    e.cover.select.Raises heard (Node.AnyRaises heard · e.nodes) :=
  e.cover.raises_select.reports e.reports_cover

theorem Stmt.raises_selectMove (target source : Expr) :
    (Stmt.selectMove target source).Raises heard
      (Node.AnyRaises heard · (Stmt.move target source).nodes) := by
  have hthrow (h : target.isPlace = false) : Pass.Raises heard
      (throw (.unwritable target) : Pass (List Instr))
      (Node.AnyRaises heard · (Stmt.move target source).nodes) := by
    refine .reports (.throw _) (.of_mem ?_)
    simp [Stmt.nodes, Node.Raises, h]
  cases target with
  | mem address =>
    have hbase : address.cover.address.1.select.Raises heard
        (Node.AnyRaises heard · address.nodes) :=
      (Tile.raises_select _).reports (address.cover.reports_address.trans address.reports_cover)
    refine .reports (.bind hbase fun _ => .followed source.raises_select
      fun _ => .followed (.emit_oper ?_) fun _ => .pure _)
      (.of_iff fun f => ?_)
    · simp [Role.ofLetter?, fillable_wordText]
    · simp [Stmt.nodes, Expr.nodes, Node.Raises, Expr.isPlace]
  | temp dst =>
    have hnodes (f : Fault) : Node.AnyRaises heard f source.nodes ↔
        Node.AnyRaises heard f (Stmt.move (.temp dst) source).nodes := by
      simp [Stmt.nodes, Expr.nodes, Node.Raises, Expr.isPlace]
    refine .reports ?_ (.of_iff hnodes)
    cases source with
    | const v =>
      refine .reports (.emit_oper ?_)
        (.of_iff fun f => (iff_false_right (Expr.not_anyRaises_const v)).2 id)
      simp [Role.ofLetter?, fillable_wordText_nil]
    | _ =>
      exact .followed (Expr.raises_select _) fun out =>
        .followed (.emit_text (exists_text_copy dst out.2)) fun _ => .pure _
  | _ => exact hthrow rfl

theorem Branch.raises_select (b : Branch) :
    b.select.Raises heard (Node.AnyRaises heard · (Stmt.branch b).spoken) := by
  cases b with
  | jump target labels =>
    cases target with
    | name l =>
      refine .reports (.emit_oper ?_) (.of_iff fun f => ?_)
      · simp [Role.ofLetter?]
      · simp [Stmt.spoken, Node.Raises]
    | _ =>
      refine .reports (.followed (Expr.raises_select _) fun _ =>
        .followed (.emit_oper ?_) fun _ => .pure _) (.of_iff fun f => ?_)
      · simp [Role.ofLetter?]
      · simp [Stmt.spoken, Stmt.nodes, Branch.nodes, Node.Raises]
  | cjump op lhs rhs onTrue onFalse =>
    refine .reports (.bind lhs.raises_select fun _ => .followed rhs.raises_select
      fun _ => .followed (.emit_oper ?_) fun _ => .pure _)
      (.of_iff fun f => ?_)
    · cases op <;> simp [branchMnemonic, Role.ofLetter?]
    · simp [Stmt.spoken, Stmt.nodes, Branch.nodes, Node.Raises]

/-- How the instructions of a statement end. -/
theorem Stmt.raises_select (s : Stmt) :
    s.select.Raises heard (Node.AnyRaises heard · s.spoken) := by
  cases s with
  | seq first second =>
    refine .reports (.bind first.raises_select fun _ => .followed second.raises_select
      fun _ => .pure _) (.of_iff fun f => ?_)
    simp [Stmt.spoken, Node.Raises]
  | label l =>
    refine .reports (.emit_text ⟨_, rfl⟩) (.of_iff fun f => ?_)
    simp [Stmt.spoken, Stmt.nodes, Node.Raises]
  | move target source => exact Stmt.raises_selectMove target source
  | eval expr =>
    refine .reports (.followed expr.raises_select fun _ => .pure _) (.of_iff fun f => ?_)
    simp [Stmt.spoken, Stmt.nodes, Node.Raises]
  | branch b => exact b.raises_select
  termination_by structural s

/-- **Selection faults if anything in the statements does**, and then for something in them. -/
theorem Stmt.raises_selectAll (stmts : List Stmt) :
    (Stmt.selectAll stmts).Raises heard (Node.AnyRaises heard · (stmts.flatMap Stmt.spoken)) := by
  induction stmts with
  | nil => exact .reports (.pure _) (.of_iff fun f => by simp)
  | cons s stmts ih =>
    refine .reports (.bind s.raises_select fun _ => .followed ih fun _ => .pure _)
      (.of_iff fun f => ?_)
    rw [List.flatMap_cons, Node.anyRaises_append]

end Select

/-! ## The main result -/

/-- Instructions can express the statements: no statement stands in front of a value, moves go to
places, and no call has more than four arguments. -/
structure Stmt.Expressible (stmts : List Stmt) : Prop where
  flat : ∀ first value, .expr (.eseq first value) ∉ stmts.flatMap Stmt.nodes
  places : ∀ target source, .stmt (.move target source) ∈ stmts.flatMap Stmt.nodes →
    target.isPlace = true
  arity : ∀ function args, .expr (.call function args) ∈ stmts.flatMap Stmt.nodes →
    args.length ≤ 4

/-- The least word is subtracted from something. -/
def Stmt.SubtractsLeast (stmts : List Stmt) : Prop :=
  ∃ lhs, .expr (.binop .minus lhs (.const Int64.minValue)) ∈ stmts.flatMap Stmt.nodes

section Expressible

variable {heard : Bool} {stmts : List Stmt} {n : Node} {e : Fault}

/-- Only the label of a direct jump has no part in the words. -/
theorem Stmt.mem_spoken_iff (hn : ∀ l, n ≠ .expr (.name l)) (s : Stmt) :
    n ∈ s.spoken ↔ n ∈ s.nodes := by
  fun_induction Stmt.spoken s with
  | case1 first second ih ih' => simp [Stmt.nodes, ih, ih']
  | case2 l labels => simp [Stmt.nodes, Branch.nodes, Expr.nodes, hn l]
  | case3 => rfl

theorem Stmt.mem_flatMap_spoken_iff (hn : ∀ l, n ≠ .expr (.name l)) :
    n ∈ stmts.flatMap Stmt.spoken ↔ n ∈ stmts.flatMap Stmt.nodes := by
  simp only [List.mem_flatMap, Stmt.mem_spoken_iff hn]

/-- What can be expressed faults for the least word or for want of words. -/
theorem Stmt.Expressible.cases_anyRaises (h : Stmt.Expressible stmts)
    (hraises : Node.AnyRaises heard e (stmts.flatMap Stmt.spoken)) :
    Stmt.SubtractsLeast stmts ∧ e = .overflow .negate ∨
      ∃ l, .expr (.name l) ∈ stmts.flatMap Stmt.spoken ∧ l.Wordless heard e := by
  obtain ⟨n, hn, he⟩ := hraises
  unfold Node.Raises at he
  split at he
  · next l => exact .inr ⟨l, hn, he⟩
  · next lhs rhs =>
    obtain ⟨rfl, rfl, rfl⟩ := he
    exact .inl ⟨⟨lhs, (Stmt.mem_flatMap_spoken_iff (by simp)).1 hn⟩, rfl⟩
  · next function args =>
    have hargs := h.arity function args ((Stmt.mem_flatMap_spoken_iff (by simp)).1 hn)
    exact absurd he.1 (Nat.not_lt.2 hargs)
  · next first value =>
    exact absurd ((Stmt.mem_flatMap_spoken_iff (by simp)).1 hn) (h.flat first value)
  · next target source =>
    have hplace := h.places target source ((Stmt.mem_flatMap_spoken_iff (by simp)).1 hn)
    simp [hplace] at he
  · exact he.elim

theorem Stmt.anyRaises_of_subtractsLeast (h : Stmt.SubtractsLeast stmts) :
    Node.AnyRaises heard (.overflow .negate) (stmts.flatMap Stmt.spoken) := by
  obtain ⟨lhs, hlhs⟩ := h
  exact ⟨_, (Stmt.mem_flatMap_spoken_iff (by simp)).2 hlhs, rfl, rfl, rfl⟩

/-- What does not fault can be expressed. -/
theorem Stmt.expressible_of_forall_not
    (h : ∀ e, ¬Node.AnyRaises heard e (stmts.flatMap Stmt.spoken)) : Stmt.Expressible stmts where
  flat first value hn := h _ ⟨_, (Stmt.mem_flatMap_spoken_iff (by simp)).2 hn, rfl⟩
  places target source hn := by
    by_contra hplace
    refine h _ ⟨_, (Stmt.mem_flatMap_spoken_iff (by simp)).2 hn, ?_, rfl⟩
    simpa using hplace
  arity function args hn := by
    by_contra hargs
    exact h _ ⟨_, (Stmt.mem_flatMap_spoken_iff (by simp)).2 hn, Nat.not_le.1 hargs, rfl⟩

/-- What cannot fault, by what occurs. -/
theorem Stmt.forall_not_anyRaises_iff :
    (∀ e, ¬Node.AnyRaises heard e (stmts.flatMap Stmt.spoken)) ↔
      Stmt.Expressible stmts ∧ ¬Stmt.SubtractsLeast stmts ∧
        (heard = true → ∀ l, .expr (.name l) ∈ stmts.flatMap Stmt.spoken → l.Wordable) := by
  constructor
  · intro h
    refine ⟨Stmt.expressible_of_forall_not h, fun hleast => ?_, fun hheard l hl => ?_⟩
    · exact h _ (Stmt.anyRaises_of_subtractsLeast hleast)
    · by_contra hwords
      exact h (.overflow .add) ⟨_, hl, hheard, hwords, .add, rfl⟩
  · rintro ⟨hexpressible, hleast, hwords⟩ e he
    rcases hexpressible.cases_anyRaises he with ⟨h, -⟩ | ⟨l, hl, hheard, hwordless, -⟩
    · exact hleast h
    · exact hwordless (hwords hheard l hl)

end Expressible

/-- **Selection fails exactly on what it cannot express.**  For all statements, canonical or not,
there are instructions if and only if instructions can express them and the least word is not
subtracted; under a listener, it must be possible to put the labels into words as well.  If the
least word is all that is wrong, selection overflows. -/
theorem select_iff_expressible (stmts : List Stmt) (w : Workspace) :
    ((∃ code w', (Stmt.selectAll stmts).run w = (.ok code, w')) ↔
      Stmt.Expressible stmts ∧ ¬Stmt.SubtractsLeast stmts ∧
        (w.journal.records? = none ∨
          ∀ l, .expr (.name l) ∈ stmts.flatMap Stmt.spoken → l.Wordable)) ∧
    (Stmt.Expressible stmts → Stmt.SubtractsLeast stmts →
      ∃ step w', (Stmt.selectAll stmts).run w = (.error (.overflow step), w') ∧
        (w.journal.records? = none → step = .negate)) := by
  have hraises : (Stmt.selectAll stmts).Raises w.journal.records?.isSome _ :=
    Stmt.raises_selectAll stmts
  constructor
  · rw [hraises.exists_ok_iff rfl, Stmt.forall_not_anyRaises_iff, Option.isSome_iff_ne_none,
      Classical.or_iff_not_imp_left]
  · intro hexpressible hleast
    obtain ⟨e, w', hrun, he⟩ :=
      hraises.exists_error rfl (Stmt.anyRaises_of_subtractsLeast hleast)
    rcases hexpressible.cases_anyRaises he with ⟨-, rfl⟩ | ⟨l, -, hheard, -, step, rfl⟩
    · exact ⟨.negate, w', hrun, fun _ => rfl⟩
    · exact ⟨step, w', hrun, fun hnone => by simp [hnone] at hheard⟩

/-- A call among the arguments of another, which gives an address, and a direct jump to a label
that cannot be put into words. -/
def storeBehindCalls : List Stmt :=
  [.move (.mem (.binop .plus (.call (.name (.named "f")) [.call (.temp (.virtual 1)) []])
      (.const 4))) (.const 1),
    .branch (.jump (.name (.named "'s18446744073709551616")) [])]

/-- The least word is subtracted from what a call gives. -/
def evalLessLeast : List Stmt :=
  [.eval (.binop .minus (.call (.name (.named "f")) []) (.const Int64.minValue))]

/-- Under a listener, the first statements have instructions, and the second ones overflow. -/
theorem storeBehindCalls_selected :
    (∃ code w', (Stmt.selectAll storeBehindCalls).run
        { (default : Workspace) with journal := .listening } = (.ok code, w')) ∧
      ∃ step w', (Stmt.selectAll evalLessLeast).run default = (.error (.overflow step), w') ∧
        step = .negate := by
  constructor
  · refine (select_iff_expressible _ _).1.2 ⟨⟨?_, ?_, ?_⟩, ?_, .inr ?_⟩
    · simp [storeBehindCalls, Stmt.nodes, Branch.nodes, Expr.nodes, Expr.nodesAll]
    · simp [storeBehindCalls, Stmt.nodes, Branch.nodes, Expr.nodes, Expr.nodesAll, Expr.isPlace]
    · intro function args hcall
      have hargs : function = .name (.named "f") ∧ args = [.call (.temp (.virtual 1)) []] ∨
          function = .temp (.virtual 1) ∧ args = [] := by
        simpa [storeBehindCalls, Stmt.nodes, Branch.nodes, Expr.nodes, Expr.nodesAll] using hcall
      rcases hargs with ⟨-, rfl⟩ | ⟨-, rfl⟩ <;> decide
    · simp [Stmt.SubtractsLeast, storeBehindCalls, Stmt.nodes, Branch.nodes, Expr.nodes,
        Expr.nodesAll]
    · simp [storeBehindCalls, Stmt.spoken, Stmt.nodes, Expr.nodes, Expr.nodesAll, Label.Wordable,
        Label.text]
  · obtain ⟨step, w', hrun, hstep⟩ := (select_iff_expressible evalLessLeast default).2
      ⟨by simp [evalLessLeast, Stmt.nodes, Expr.nodes, Expr.nodesAll],
        by simp [evalLessLeast, Stmt.nodes, Expr.nodes, Expr.nodesAll],
        by simp [evalLessLeast, Stmt.nodes, Expr.nodes, Expr.nodesAll]⟩
      ⟨.call (.name (.named "f")) [], List.mem_cons_of_mem _ List.mem_cons_self⟩
    exact ⟨step, w', hrun, hstep rfl⟩

end Lowering
