import Lowering.Pipeline
import Lowering.Proofs.Canonical.Fault
import Lowering.Proofs.Flow
import Lowering.Proofs.Names

/-!
# When there are no quads

Naming puts a simple operand wherever a quad needs one, except in one place: the source of a
move into memory that stands behind a statement.  If such a source is a load or the value of an
operator, it is still there when the statement is canonical, and the store is refused.  There is
no other reason why a statement whose moves have targets should have no quads.

Naming and staging are followed together: for each piece of tree code, what staging leaves once
its operands are named.

## Main definitions

* `Stmt.hidesStore` — a statement with a store that is refused.
* `Quadable` — statements that are quads, but for stores that are refused.
* `Expr.Becomes` — what naming makes of an expression.
* `quads_exist_unless_store_hidden` — the main result.
-/

namespace Lowering

open Staged

/-! ## Stores behind statements -/

/-- Whether the expression is a load or the value of an operator. -/
def Expr.isOperation : Expr → Bool
  | .binop .. | .mem _ => true
  | _ => false

/-- Whether the expression is a word of memory, behind any number of statements. -/
def Expr.endsInMem : Expr → Bool
  | .mem _ => true
  | .eseq _ target => target.endsInMem
  | _ => false

mutual

/-- Whether there is a hidden store inside the expression. -/
def Expr.hidesStore : Expr → Bool
  | .const _ | .name _ | .temp _ => false
  | .binop _ lhs rhs => lhs.hidesStore || rhs.hidesStore
  | .mem address => address.hidesStore
  | .call function args => function.hidesStore || Expr.anyHidesStore args
  | .eseq stmt value => stmt.hidesStore || value.hidesStore
  termination_by structural e => e

@[inherit_doc Expr.hidesStore]
def Expr.anyHidesStore : List Expr → Bool
  | [] => false
  | e :: rest => e.hidesStore || Expr.anyHidesStore rest
  termination_by structural es => es

@[inherit_doc Expr.hidesStore]
def Branch.hidesStore : Branch → Bool
  | .jump target _ => target.hidesStore
  | .cjump _ lhs rhs _ _ => lhs.hidesStore || rhs.hidesStore
  termination_by structural b => b

/-- Whether there is a *hidden store* in the statement: a move of a load or of the value of an
operator into memory that stands behind a statement. -/
def Stmt.hidesStore : Stmt → Bool
  | .seq first second => first.hidesStore || second.hidesStore
  | .label _ => false
  | .move target source =>
    target.hidesStore || source.hidesStore ||
      (!target.isMem && target.endsInMem && source.isOperation)
  | .eval expr => expr.hidesStore
  | .branch b => b.hidesStore
  termination_by structural s => s

end

/-! ## Statements that are quads -/

/-- Whether the expression is one operation at most, on simple operands. -/
def Expr.isShallow : Expr → Bool
  | .const _ | .name _ | .temp _ => true
  | .binop _ lhs rhs => lhs.isSimple && rhs.isSimple
  | .mem address => address.isSimple
  | .call function args => function.isSimple && args.all isSimple
  | .eseq .. => false

/-- The statement is one quad, or none. -/
def Stmt.HasQuad (s : Stmt) : Prop := ∃ q, Quad.ofCanonical s = .ok q

/-- The statement stores a load or the value of an operator. -/
def Stmt.IsRefused (s : Stmt) : Prop :=
  ∃ e : Expr, e.isOperation = true ∧ Quad.ofCanonical s = .error (.complexOperand e)

section HasQuad

variable {e lhs rhs address value function : Expr} {args : List Expr}

theorem exists_ofExpr (h : e.isSimple = true) : ∃ o, Operand.ofExpr e = .ok o := by
  cases e <;> first | exact ⟨_, rfl⟩ | simp [Expr.isSimple] at h

theorem exists_ofExprs (h : args.all Expr.isSimple = true) :
    ∃ os, args.mapM Operand.ofExpr = .ok os :=
  exists_mapM_iff.2 fun _ he => exists_ofExpr (List.all_eq_true.1 h _ he)

theorem hasQuad_call (hf : function.isSimple = true) (has : args.all Expr.isSimple = true) :
    (Stmt.eval (.call function args)).HasQuad := by
  obtain ⟨f, hf⟩ := exists_ofExpr hf
  obtain ⟨as, has⟩ := exists_ofExprs has
  exact ⟨some (.call f as none), by simp [Quad.ofCanonical, hf, has, bind, Except.bind]⟩

/-- Whatever one operation gives can be moved into a temporary. -/
theorem hasQuad_move (t : Temp) (h : e.isShallow = true) :
    (Stmt.move (.temp t) e).HasQuad := by
  cases e with
  | const v => exact ⟨_, rfl⟩
  | name l => exact ⟨_, rfl⟩
  | temp t => exact ⟨_, rfl⟩
  | binop op lhs rhs =>
    obtain ⟨hl, hr⟩ := Bool.and_eq_true_iff.1 h
    obtain ⟨a, ha⟩ := exists_ofExpr hl
    obtain ⟨b, hb⟩ := exists_ofExpr hr
    exact ⟨some (.binop op t a b), by simp [Quad.ofCanonical, ha, hb, bind, Except.bind]⟩
  | mem address =>
    obtain ⟨a, ha⟩ := exists_ofExpr h
    exact ⟨some (.load t a), by simp [Quad.ofCanonical, ha, bind, Except.bind]⟩
  | call function args =>
    obtain ⟨hf, has⟩ := Bool.and_eq_true_iff.1 h
    obtain ⟨f, hf⟩ := exists_ofExpr hf
    obtain ⟨as, has⟩ := exists_ofExprs has
    exact ⟨some (.call f as (some t)), by simp [Quad.ofCanonical, hf, has, bind, Except.bind]⟩
  | eseq => cases h

theorem hasQuad_store (ha : address.isSimple = true) (hv : value.isSimple = true) :
    (Stmt.move (.mem address) value).HasQuad := by
  obtain ⟨a, ha⟩ := exists_ofExpr ha
  obtain ⟨v, hv⟩ := exists_ofExpr hv
  exact ⟨some (.store a v), by simp [Quad.ofCanonical, ha, hv, bind, Except.bind]⟩

theorem isRefused_store (ha : address.isSimple = true) (hv : value.isOperation = true) :
    (Stmt.move (.mem address) value).IsRefused := by
  obtain ⟨a, ha⟩ := exists_ofExpr ha
  have herror : Operand.ofExpr value = .error (.complexOperand value) := by
    cases value <;> first | rfl | cases hv
  exact ⟨value, hv, by simp [Quad.ofCanonical, ha, herror, bind, Except.bind]⟩

theorem hasQuad_jump (labels : List Label) (h : e.isSimple = true) :
    (Stmt.branch (.jump e labels)).HasQuad := by
  obtain ⟨o, ho⟩ := exists_ofExpr h
  exact ⟨some (.jump o labels), by simp [Quad.ofCanonical, ho, bind, Except.bind]⟩

theorem hasQuad_cjump (op : RelOp) (onTrue onFalse : Label) (hl : lhs.isSimple = true)
    (hr : rhs.isSimple = true) : (Stmt.branch (.cjump op lhs rhs onTrue onFalse)).HasQuad := by
  obtain ⟨a, ha⟩ := exists_ofExpr hl
  obtain ⟨b, hb⟩ := exists_ofExpr hr
  exact ⟨some (.cjump op a b onTrue onFalse),
    by simp [Quad.ofCanonical, ha, hb, bind, Except.bind]⟩

end HasQuad

/-- Each of the statements is a quad or a store that is refused, and whether there is a store
that is refused is known. -/
structure Quadable (refused : Bool) (code : List Stmt) : Prop where
  each : ∀ s ∈ code, s.HasQuad ∨ s.IsRefused
  refused_iff : (∃ s ∈ code, s.IsRefused) ↔ refused = true

namespace Quadable

variable {refused refused' : Bool} {code code' : List Stmt} {last : Stmt}

theorem nil : Quadable false [] := ⟨nofun, by simp⟩

theorem append (h : Quadable refused code) (h' : Quadable refused' code') :
    Quadable (refused || refused') (code ++ code') where
  each := by
    intro s hs
    exact (List.mem_append.1 hs).elim (h.each s) (h'.each s)
  refused_iff := by
    rw [Bool.or_eq_true, ← h.refused_iff, ← h'.refused_iff]
    constructor
    · rintro ⟨s, hs, hr⟩
      exact (List.mem_append.1 hs).imp (fun hs => ⟨s, hs, hr⟩) fun hs => ⟨s, hs, hr⟩
    · rintro (⟨s, hs, hr⟩ | ⟨s, hs, hr⟩)
      · exact ⟨s, List.mem_append_left _ hs, hr⟩
      · exact ⟨s, List.mem_append_right _ hs, hr⟩

theorem of_hasQuad (h : last.HasQuad) : Quadable false [last] where
  each := by simp [h]
  refused_iff := by
    obtain ⟨q, hq⟩ := h
    simp [Stmt.IsRefused, hq]

theorem of_isRefused (h : last.IsRefused) : Quadable true [last] :=
  ⟨by simp [h], by simpa using h⟩

theorem concat (h : Quadable refused code) (hlast : last.HasQuad) :
    Quadable refused (code ++ [last]) := by
  simpa using h.append (of_hasQuad hlast)

/-- Statements have quads unless a store is refused. -/
theorem ofCanonicals (h : Quadable refused code) :
    if refused then ∃ e : Expr, e.isOperation = true ∧
      Quad.ofCanonicals code = .error (.complexOperand e)
    else ∃ quads, Quad.ofCanonicals code = .ok quads := by
  cases hmap : code.mapM Quad.ofCanonical with
  | ok quads =>
    have hnone : refused = false := by
      rw [← Bool.not_eq_true, ← h.refused_iff]
      rintro ⟨s, hs, e, -, herror⟩
      obtain ⟨q, hq⟩ := exists_mapM_iff.1 ⟨quads, hmap⟩ s hs
      simp [herror] at hq
    rw [hnone]
    exact ⟨quads.filterMap id, by simp [Quad.ofCanonicals, hmap, bind, Except.bind]⟩
  | error fault =>
    obtain ⟨s, hs, hfault⟩ := exists_of_mapM_eq_error hmap
    have hrefused : s.IsRefused := by
      refine (h.each s hs).resolve_left ?_
      rintro ⟨q, hq⟩
      simp [hfault] at hq
    rw [h.refused_iff.1 ⟨s, hs, hrefused⟩]
    obtain ⟨e, he, herror⟩ := hrefused
    obtain rfl : fault = .complexOperand e := by simpa [hfault] using herror
    exact ⟨e, he, by simp [Quad.ofCanonicals, hmap, bind, Except.bind]⟩

end Quadable

/-! ## What staging leaves -/

/-- What may be left of an expression whose operands are named: one operation at most, of a known
sort. -/
structure Expr.Left (operation call : Bool) (v : Expr) : Prop where
  isShallow : v.isShallow = true
  isOperation : v.isOperation = operation
  isCall : v.isCall = call

theorem Expr.Left.isSimple {v : Expr} (h : v.Left false false) : v.isSimple = true := by
  obtain ⟨hshallow, hoperation, hcall⟩ := h
  cases v with
  | eseq => cases hshallow
  | binop | mem => cases hoperation
  | call => cases hcall
  | _ => rfl

theorem Expr.left_of_isSimple {v : Expr} (h : v.isSimple = true) : v.Left false false := by
  cases v <;> first | exact ⟨rfl, rfl, rfl⟩ | cases h

theorem Expr.Left.eq_false_of_call {v : Expr} {operation : Bool} (h : v.Left operation true) :
    operation = false := by
  rw [← h.isOperation]
  have hcall := h.isCall
  cases v <;> first | rfl | cases hcall

/-- The effects are quads, but for stores that are refused, and what is left has some form. -/
structure Staged.Settles {γ : Type} (refused : Bool) (form : γ → Prop) (staged : Staged γ) :
    Prop where
  effects : Quadable refused staged.effects
  form : form staged.value

section Combinators

variable {γ δ : Type} {refused refused' operation call : Bool} {form : γ → Prop}
  {stage : Fresh (Staged Expr)} {rest : Fresh (Staged γ)} {e : Expr}

theorem Staged.Settles.plain {v : γ} (h : form v) : Settles false form (Staged.plain v) :=
  ⟨.nil, h⟩

theorem Staged.Settles.saveIn {staged : Staged Expr}
    (h : Settles refused (Expr.Left operation call) staged) (t : Temp) :
    Settles refused (Expr.Left false false) (staged.saveIn t) :=
  ⟨h.effects.concat (hasQuad_move t h.form.isShallow),
    Expr.left_of_isSimple (v := .temp t) rfl⟩

/-- A call is saved, and anything else is left as it is. -/
theorem settles_operand (hcall : e.isCall = call)
    (h : stage.Yields fun _ _ => Settles refused (Expr.Left operation call)) :
    (operand e stage).Yields fun _ _ => Settles refused (Expr.Left operation false) := by
  unfold operand
  split
  · next he =>
    obtain rfl : call = true := hcall.symm.trans he
    refine .bind .temp fun t => .bind h fun staged => .pure fun _ _ _ hs _ _ _ => ?_
    rw [hs.form.eq_false_of_call]
    exact hs.saveIn t
  · next he =>
    obtain rfl : call = false := hcall.symm.trans (Bool.eq_false_iff.2 he)
    refine .bind h fun staged => ?_
    split
    · next hvalue =>
      refine .bind .temp fun t => .pure fun _ _ _ _ _ _ hs => ?_
      simp [hs.form.isCall] at hvalue
    · exact .pure fun _ _ _ hs => hs

/-- Simple operands stay simple when one of them is saved. -/
theorem settles_pair (h : stage.Yields fun _ _ => Settles refused (Expr.Left false false))
    (h' : rest.Yields fun _ _ => Settles refused' form) :
    (pair stage rest).Yields fun _ _ =>
      Settles (refused || refused') fun p : Expr × γ => p.1.isSimple = true ∧ form p.2 := by
  refine .bind h fun head => .bind h' fun tail => ?_
  split
  · exact .pure fun _ _ _ htail _ _ hhead =>
      ⟨hhead.effects.append htail.effects, hhead.form.isSimple, htail.form⟩
  · exact .bind .temp fun t => .pure fun _ _ _ _ _ _ htail _ _ hhead =>
      ⟨(hhead.saveIn t).effects.append htail.effects, rfl, htail.form⟩

theorem settles_map (h : rest.Yields fun _ _ => Settles refused form) (g : γ → δ)
    {form' : δ → Prop} (hform : ∀ {v}, form v → form' (g v)) :
    (do let staged ← rest; pure ⟨staged.effects, g staged.value⟩ : Fresh (Staged δ)).Yields
      fun _ _ => Settles refused form' :=
  .bind h fun _ => .pure fun _ _ _ hs => ⟨hs.effects, hform hs.form⟩

theorem settles_finish (h : rest.Yields fun _ _ => Settles refused form) {last : γ → Stmt}
    (hlast : ∀ {v}, form v → Quadable refused' [last v]) :
    (do let staged ← rest; pure (staged.finish last)).Yields fun _ _ =>
      Quadable (refused || refused') :=
  .bind h fun _ => .pure fun _ _ _ hs => hs.effects.append (hlast hs.form)

end Combinators

/-! ## Naming and then staging -/

/-- What an expression becomes: the targets of moves stay where they were, and one operation at
most, of a known sort, is left by staging. -/
structure Expr.Becomes (e : Expr) (operation call : Bool) (e' : Expr) : Prop where
  badTarget : e'.badTarget? = e.badTarget?
  isOperation : e'.isOperation = operation
  isCall : e'.isCall = call
  stage : e'.stage.Yields fun _ _ => Settles e.hidesStore (Expr.Left operation call)

theorem Expr.Becomes.operand {e e' : Expr} {operation call : Bool}
    (h : e.Becomes operation call e') : (Staged.operand e' e'.stage).Yields fun _ _ =>
      Settles e.hidesStore (Expr.Left operation false) :=
  settles_operand h.isCall h.stage

/-- What is named is simple, behind a statement if need be. -/
theorem becomes_named {e : Expr} {operation call : Bool} {x : Fresh Expr}
    (h : x.Ensures fun _ _ => e.Becomes operation call) :
    (Expr.named x).Ensures fun _ _ => e.Becomes false false := by
  refine .bind h fun e' => ?_
  split
  · next hsimple =>
    refine .pure fun _ _ _ he => ?_
    have hleft := Expr.left_of_isSimple hsimple
    obtain rfl : operation = false := he.isOperation.symm.trans hleft.isOperation
    obtain rfl : call = false := he.isCall.symm.trans hleft.isCall
    exact he
  · refine .bind .temp fun t => .pure fun _ _ _ _ _ _ he => ⟨?_, rfl, rfl, ?_⟩
    · rw [← he.badTarget]
      exact Option.or_none
    · have hmove : (Stmt.move (.temp t) e').canonical.Yields fun _ _ => Quadable e.hidesStore := by
        rw [Stmt.canonical_move]
        simpa using! settles_finish he.stage fun hv =>
          Quadable.of_hasQuad (hasQuad_move t hv.isShallow)
      refine .bind hmove fun first => .bind (P := fun _ _ staged => staged = plain (.temp t))
        (.pure fun _ => rfl) fun staged => .pure fun _ _ _ hs _ _ hfirst => ?_
      rw [hs]
      exact ⟨by simpa [plain] using hfirst, Expr.left_of_isSimple (v := .temp t) rfl⟩

/-- What has no parts stays as it is. -/
theorem becomes_self {e : Expr} (hsimple : e.isSimple = true)
    (hstage : e.stage = pure (plain e)) (hstore : e.hidesStore = false) :
    (pure e : Fresh Expr).Ensures fun _ _ => e.Becomes e.isOperation e.isCall := by
  have hleft := Expr.left_of_isSimple hsimple
  refine .pure fun _ => ⟨rfl, rfl, rfl, ?_⟩
  rw [hstage, hstore, hleft.isOperation, hleft.isCall]
  exact .pure fun _ => .plain hleft

mutual

theorem Expr.becomes_simplify : ∀ e : Expr,
    e.simplify.Ensures fun _ _ => e.Becomes e.isOperation e.isCall
  | .const _ => becomes_self rfl rfl rfl
  | .name _ => becomes_self rfl rfl rfl
  | .temp _ => becomes_self rfl rfl rfl
  | .binop op lhs rhs =>
    .bind (becomes_named lhs.becomes_simplify) fun lhs' =>
      .bind (becomes_named rhs.becomes_simplify) fun rhs' => .pure fun _ _ _ hr _ _ hl => by
        refine ⟨?_, rfl, rfl, ?_⟩
        · rw [Expr.badTarget?, Expr.badTarget?, hl.badTarget, hr.badTarget]
        · rw [Expr.stage_binop]
          exact settles_map (settles_pair hl.operand hr.operand)
            (fun p => Expr.binop op p.1 p.2)
            fun hv => ⟨by simp [Expr.isShallow, hv.1, hv.2.isSimple], rfl, rfl⟩
  | .mem address =>
    .bind (becomes_named address.becomes_simplify) fun address' => .pure fun _ _ _ ha => by
      refine ⟨ha.badTarget, rfl, rfl, ?_⟩
      rw [Expr.stage_mem]
      exact settles_map ha.operand Expr.mem fun hv => ⟨hv.isSimple, rfl, rfl⟩
  | .call function args =>
    .bind (becomes_named function.becomes_simplify) fun function' =>
      .bind (Expr.becomes_simplifyAll args) fun args' => .pure fun _ _ _ has _ _ hf => by
        refine ⟨?_, rfl, rfl, ?_⟩
        · rw [Expr.badTarget?, Expr.badTarget?, hf.badTarget, has.1]
        · rw [Expr.stage_call]
          exact settles_map (settles_pair hf.operand has.2)
            (fun p => Expr.call p.1 p.2)
            fun hv => ⟨by simpa [Expr.isShallow, hv.1] using hv.2, rfl, rfl⟩
  | .eseq stmt value =>
    .bind stmt.becomes_simplify fun stmt' =>
      .bind (becomes_named value.becomes_simplify) fun value' => .pure fun _ _ _ hv _ _ hs => by
        refine ⟨?_, rfl, rfl, ?_⟩
        · rw [Expr.badTarget?, Expr.badTarget?, hs.1, hv.badTarget]
        · exact .bind hs.2 fun first => .bind hv.stage fun staged =>
            .pure fun _ _ _ hstaged _ _ hfirst =>
              ⟨hfirst.append hstaged.effects, hstaged.form⟩
  termination_by structural e => e

theorem Expr.becomes_simplifyAll : ∀ es : List Expr,
    (Expr.simplifyAll es).Ensures fun _ _ es' =>
      Expr.badTargetAll? es' = Expr.badTargetAll? es ∧ (Expr.stageAll es').Yields fun _ _ =>
        Settles (Expr.anyHidesStore es) fun vs => vs.all Expr.isSimple = true
  | [] => .pure fun _ => ⟨rfl, .pure fun _ => .plain rfl⟩
  | e :: rest =>
    .bind (becomes_named e.becomes_simplify) fun e' =>
      .bind (Expr.becomes_simplifyAll rest) fun rest' => .pure fun _ _ _ hrest _ _ he => by
        refine ⟨?_, ?_⟩
        · rw [Expr.badTargetAll?, Expr.badTargetAll?, he.badTarget, hrest.1]
        · exact settles_map (settles_pair he.operand hrest.2) (fun p => p.1 :: p.2)
            fun hv => by simpa [hv.1] using hv.2
  termination_by structural es => es

/-- Into memory behind a statement an operation is moved as it is. -/
theorem Expr.becomes_simplifyTarget : ∀ target : Expr,
    target.simplifyTarget.Ensures fun _ _ target' =>
      (∀ bad, target'.badTargetInto? bad = target.badTargetInto? bad) ∧
      ∀ {source source' : Expr} {operation call : Bool}, source.Becomes operation call source' →
        (Expr.stageInto source' source'.stage target').Yields fun _ _ => Quadable
          (target.hidesStore || source.hidesStore || (target.endsInMem && operation))
  | .temp t => .pure fun _ => by
    refine ⟨fun _ => rfl, fun hsource => ?_⟩
    simpa [Expr.hidesStore, Expr.endsInMem] using! settles_finish hsource.stage fun hv =>
      Quadable.of_hasQuad (hasQuad_move t hv.isShallow)
  | .mem address =>
    .bind (becomes_named address.becomes_simplify) fun address' => .pure fun _ _ _ ha => by
      refine ⟨fun _ => ?_, fun {source source' operation call} hsource => ?_⟩
      · rw [Expr.badTargetInto?, Expr.badTargetInto?, ha.badTarget]
      · have hpair := settles_pair ha.operand hsource.operand
        rw [Expr.stageInto_mem]
        refine settles_finish hpair fun {p} hp => ?_
        cases operation with
        | true => exact .of_isRefused (isRefused_store hp.1 hp.2.isOperation)
        | false => exact .of_hasQuad (hasQuad_store hp.1 hp.2.isSimple)
  | .eseq stmt target =>
    .bind stmt.becomes_simplify fun stmt' =>
      .bind target.becomes_simplifyTarget fun target' => .pure fun _ _ _ ht _ _ hs => by
        refine ⟨fun _ => ?_, fun hsource => ?_⟩
        · rw [Expr.badTargetInto?, Expr.badTargetInto?, hs.1, ht.1]
        · refine .bind hs.2 fun first => .bind (ht.2 hsource) fun rest =>
            .pure fun _ _ _ hrest _ _ hfirst => ?_
          simpa [Expr.hidesStore, Expr.endsInMem, Bool.or_assoc] using hfirst.append hrest
  | .const _ => .pure fun _ => ⟨fun _ => rfl, fun _ => .throw _⟩
  | .name _ => .pure fun _ => ⟨fun _ => rfl, fun _ => .throw _⟩
  | .binop .. => .pure fun _ => ⟨fun _ => rfl, fun _ => .throw _⟩
  | .call .. => .pure fun _ => ⟨fun _ => rfl, fun _ => .throw _⟩
  termination_by structural target => target

theorem Branch.becomes_simplify : ∀ b : Branch,
    b.simplify.Ensures fun _ _ b' => b'.badTarget? = b.badTarget? ∧
      b'.canonical.Yields fun _ _ => Quadable b.hidesStore
  | .jump target labels =>
    .bind (becomes_named target.becomes_simplify) fun target' => .pure fun _ _ _ ht => by
      refine ⟨ht.badTarget, ?_⟩
      rw [Branch.canonical_jump]
      simpa using! settles_finish ht.operand fun hv =>
        Quadable.of_hasQuad (hasQuad_jump labels hv.isSimple)
  | .cjump op lhs rhs onTrue onFalse =>
    .bind (becomes_named lhs.becomes_simplify) fun lhs' =>
      .bind (becomes_named rhs.becomes_simplify) fun rhs' => .pure fun _ _ _ hr _ _ hl => by
        refine ⟨?_, ?_⟩
        · rw [Branch.badTarget?, Branch.badTarget?, hl.badTarget, hr.badTarget]
        · rw [Branch.canonical_cjump]
          simpa using! settles_finish (settles_pair hl.operand hr.operand) fun hv =>
            Quadable.of_hasQuad (hasQuad_cjump op onTrue onFalse hv.1 hv.2.isSimple)
  termination_by structural b => b

/-- **Naming and then staging gives quads**, but for hidden stores. -/
theorem Stmt.becomes_simplify : ∀ s : Stmt,
    s.simplify.Ensures fun _ _ s' => s'.badTarget? = s.badTarget? ∧
      s'.canonical.Yields fun _ _ => Quadable s.hidesStore
  | .seq first second =>
    .bind first.becomes_simplify fun first' =>
      .bind second.becomes_simplify fun second' => .pure fun _ _ _ hs _ _ hf => by
        refine ⟨?_, ?_⟩
        · rw [Stmt.badTarget?, Stmt.badTarget?, hf.1, hs.1]
        · exact .bind hf.2 fun head => .bind hs.2 fun tail =>
            .pure fun _ _ _ htail _ _ hhead => hhead.append htail
  | .label l => .pure fun _ => ⟨rfl, .pure fun _ => .of_hasQuad ⟨_, rfl⟩⟩
  | .move target source => by
    refine .bind target.becomes_simplifyTarget fun target' => ?_
    split
    · next hmem =>
      refine .bind (becomes_named source.becomes_simplify) fun source' =>
        .pure fun _ _ _ hsource _ _ ht => ⟨?_, ?_⟩
      · rw [Stmt.badTarget?, Stmt.badTarget?, ht.1, hsource.badTarget]
      · rw [Stmt.canonical_move]
        simpa [Stmt.hidesStore, hmem] using! ht.2 hsource
    · next hmem =>
      refine .bind source.becomes_simplify fun source' =>
        .pure fun _ _ _ hsource _ _ ht => ⟨?_, ?_⟩
      · rw [Stmt.badTarget?, Stmt.badTarget?, ht.1, hsource.badTarget]
      · rw [Stmt.canonical_move]
        simpa [Stmt.hidesStore, hmem] using! ht.2 hsource
  | .eval expr => by
    have hquad : ∀ {expr' : Expr} {operation call : Bool}, expr.Becomes operation call expr' →
        (∀ {v : Expr}, v.Left operation call → (Stmt.eval v).HasQuad) →
        (Stmt.eval expr').canonical.Yields fun _ _ => Quadable expr.hidesStore := by
      intro expr' operation call he hlast
      rw [Stmt.canonical_eval]
      refine .bind he.stage fun staged => .pure fun _ _ _ hs => ?_
      unfold evaluate
      split
      · exact hs.effects
      · exact hs.effects.concat (hlast hs.form)
    rw [Stmt.simplify]
    split
    · next hcall =>
      refine .bind expr.becomes_simplify fun expr' => .pure fun _ _ _ he =>
        ⟨he.badTarget, hquad he fun {v} hv => ?_⟩
      rw [hcall] at hv
      obtain ⟨hshallow, -, hv⟩ := hv
      cases v with
      | call function args =>
        obtain ⟨hf, has⟩ := Bool.and_eq_true_iff.1 hshallow
        exact hasQuad_call hf has
      | _ => cases hv
    · refine .bind (becomes_named expr.becomes_simplify) fun expr' => .pure fun _ _ _ he =>
        ⟨he.badTarget, hquad he fun {v} hv => ?_⟩
      have hsimple := hv.isSimple
      cases v <;> first | exact ⟨_, rfl⟩ | cases hsimple
  | .branch b =>
    .bind b.becomes_simplify fun b' => .pure fun _ _ _ hb => hb
  termination_by structural s => s

end

/-! ## The main result -/

/-- **A statement has quads unless it hides a store.**  If a move has no target, the first such
move is the fault.  Otherwise there are quads, unless a load or the value of an operator is moved
into memory that stands behind a statement; then the fault is such an operand.  In particular every
canonical statement that is left is a quad or such a store. -/
theorem quads_exist_unless_store_hidden (stmt : Stmt) (w : Workspace) :
    match stmt.badTarget?, stmt.hidesStore with
    | some target, _ =>
      ∃ w', (Pipeline.quads stmt).run w = (.error (.badMoveTarget target), w')
    | none, true => ∃ e w', e.isOperation = true ∧
      (Pipeline.quads stmt).run w = (.error (.complexOperand e), w')
    | none, false => ∃ quads w', (Pipeline.quads stmt).run w = (.ok quads, w') := by
  obtain ⟨simple, supply, hsimple, -, htarget, hquadable⟩ := stmt.becomes_simplify w.supply
  have hsimplified : (Pass.fresh stmt.simplify).run w = (.ok simple, { w with supply }) :=
    Pass.run_fresh_eq_ok_iff.2 ⟨supply, hsimple, rfl⟩
  have hends := simple.ends_canonical
  rw [htarget] at hends
  rw [Pipeline.quads, Attempt.run_bind_ok _ hsimplified]
  cases htargets : stmt.badTarget? with
  | some target =>
    rw [htargets] at hends
    obtain ⟨supply', hcanonical⟩ := hends supply
    obtain ⟨w', hrun⟩ := exists_run_canonicalize_error (w := { w with supply }) hcanonical
    exact ⟨w', Attempt.run_bind_error _ hrun⟩
  | none =>
    rw [htargets] at hends
    obtain ⟨code, supply', hcanonical⟩ := hends supply
    obtain ⟨w', hrun⟩ := exists_run_canonicalize (w := { w with supply }) hcanonical
    have hcode := (hquadable hcanonical).2.2.ofCanonicals
    rw [Attempt.run_bind_ok _ hrun]
    cases hhides : stmt.hidesStore with
    | true =>
      rw [hhides, if_pos rfl] at hcode
      obtain ⟨e, he, hquads⟩ := hcode
      exact ⟨e, w', he, by rw [hquads]; rfl⟩
    | false =>
      rw [hhides, if_neg (by simp)] at hcode
      obtain ⟨quads, hquads⟩ := hcode
      exact ⟨quads, w', by rw [hquads]; rfl⟩

/-- A sum that is stored behind a label. -/
def labelledStore : Stmt :=
  .move (.eseq (.label (.named "a")) (.mem (.name (.named "x"))))
    (.binop .plus (.temp (.virtual 11)) (.const 1))

/-- The target of the move is memory, but the sum is no operand of a quad. -/
theorem labelledStore_refused :
    labelledStore.badTarget? = none ∧
      ∃ w', (Pipeline.quads labelledStore).run { frame := { name := .named "f" } } =
        (.error (.complexOperand (.binop .plus (.temp (.virtual 11)) (.const 1))), w') :=
  ⟨rfl, _, rfl⟩

end Lowering
