import Lowering.Proofs.Names
import Lowering.Proofs.Tree.Scope

/-!
# What happens in tree code

When tree code is gone through from left to right, some things happen that another order, or a
second time, would make into other things: labels are defined, branches and calls are reached, and
memory and temporaries are written.  A call is reached behind its function and its arguments, a
write behind what is written, and a branch behind its operands.

Reading a temporary or a word of memory is no event.

## Main definitions

* `Event` — something that happens.
* `Stmt.events` — what happens in a statement, in order.
* `oldEvents` — what happens in a list of statements, but for writes to temporaries that are drawn
  later.
-/

namespace Lowering

/-- Something that happens when tree code is gone through. -/
inductive Event where
  /-- A label is defined. -/
  | label (l : Label)
  /-- A jump to one of some labels is reached. -/
  | jump (labels : List Label)
  /-- A comparison that leads to one of two labels is reached. -/
  | cjump (op : RelOp) (onTrue onFalse : Label)
  /-- A call with some number of arguments is made. -/
  | call (arity : Nat)
  /-- A word of memory is written. -/
  | store
  /-- A temporary is written. -/
  | write (t : Temp)
  deriving DecidableEq, Repr

/-- Whether the event is something else than a write to a temporary beyond the counter. -/
def Event.isOld (bound : Nat) : Event → Bool
  | write (.virtual id) => id ≤ bound
  | _ => true

theorem Event.isOld_write {bound : Nat} {t : Temp} :
    (write t).isOld bound = true ↔ t.Within bound := by
  cases t with
  | virtual id => simp [isOld]
  | register name => simp [isOld]

mutual

/-- What happens in an expression, in order. -/
def Expr.events : Expr → List Event
  | .const _ | .name _ | .temp _ => []
  | .binop _ lhs rhs => lhs.events ++ rhs.events
  | .mem address => address.events
  | .call function args => function.events ++ Expr.eventsAll args ++ [.call args.length]
  | .eseq stmt value => stmt.events ++ value.events
  termination_by structural e => e

@[inherit_doc Expr.events]
def Expr.eventsAll : List Expr → List Event
  | [] => []
  | e :: rest => e.events ++ Expr.eventsAll rest
  termination_by structural es => es

/-- What happens in a move into the expression, if the given events happen in the source.  The
statements in front of the target come first, then its address, then the source. -/
def Expr.eventsInto (source : List Event) : Expr → List Event
  | .temp t => source ++ [.write t]
  | .mem address => address.events ++ source ++ [.store]
  | .eseq stmt target => stmt.events ++ target.eventsInto source
  | _ => source
  termination_by structural target => target

@[inherit_doc Expr.events]
def Branch.events : Branch → List Event
  | .jump target labels => target.events ++ [.jump labels]
  | .cjump op lhs rhs onTrue onFalse => lhs.events ++ rhs.events ++ [.cjump op onTrue onFalse]
  termination_by structural b => b

/-- What happens in a statement, in order. -/
def Stmt.events : Stmt → List Event
  | .seq first second => first.events ++ second.events
  | .label l => [.label l]
  | .move target source => target.eventsInto source.events
  | .eval expr => expr.events
  | .branch b => b.events
  termination_by structural s => s

end

/-! ## Writes name temporaries -/

section

variable {t : Temp}

mutual

theorem Expr.mem_temps_of_write : ∀ e : Expr, .write t ∈ e.events → t ∈ e.temps
  | .const _, h => by cases h
  | .name _, h => by cases h
  | .temp _, h => by cases h
  | .binop _ lhs rhs, h => by
    rw [Expr.events, List.mem_append] at h
    rw [Expr.temps, List.mem_append]
    exact h.imp lhs.mem_temps_of_write rhs.mem_temps_of_write
  | .mem address, h => address.mem_temps_of_write h
  | .call function args, h => by
    have h : .write t ∈ function.events ∨ .write t ∈ Expr.eventsAll args := by
      simpa [Expr.events] using h
    rw [Expr.temps, List.mem_append]
    exact h.imp function.mem_temps_of_write (Expr.mem_tempsAll_of_write args)
  | .eseq stmt value, h => by
    rw [Expr.events, List.mem_append] at h
    rw [Expr.temps, List.mem_append]
    exact h.imp stmt.mem_temps_of_write value.mem_temps_of_write
  termination_by structural e => e

theorem Expr.mem_tempsAll_of_write : ∀ es : List Expr,
    .write t ∈ Expr.eventsAll es → t ∈ Expr.tempsAll es
  | [], h => by cases h
  | e :: rest, h => by
    rw [Expr.eventsAll, List.mem_append] at h
    rw [Expr.tempsAll, List.mem_append]
    exact h.imp e.mem_temps_of_write (Expr.mem_tempsAll_of_write rest)
  termination_by structural es => es

theorem Expr.mem_temps_of_writeInto : ∀ (target : Expr) {source : List Event},
    .write t ∈ target.eventsInto source → t ∈ target.temps ∨ .write t ∈ source
  | .temp x, _, h => by
    rw [Expr.eventsInto, List.mem_append, List.mem_singleton] at h
    rcases h with h | h
    · exact .inr h
    · cases h
      exact .inl List.mem_cons_self
  | .mem address, source, h => by
    have h : .write t ∈ address.events ∨ .write t ∈ source := by
      simpa [Expr.eventsInto] using h
    exact h.imp_left address.mem_temps_of_write
  | .eseq stmt target, _, h => by
    rw [Expr.eventsInto, List.mem_append] at h
    rw [Expr.temps, List.mem_append, or_assoc]
    exact h.imp stmt.mem_temps_of_write target.mem_temps_of_writeInto
  | .const _, _, h => .inr h
  | .name _, _, h => .inr h
  | .binop .., _, h => .inr h
  | .call .., _, h => .inr h
  termination_by structural target => target

theorem Branch.mem_temps_of_write : ∀ b : Branch, .write t ∈ b.events → t ∈ b.temps
  | .jump target _, h => by
    have h : .write t ∈ target.events := by simpa [Branch.events] using h
    exact target.mem_temps_of_write h
  | .cjump _ lhs rhs _ _, h => by
    have h : .write t ∈ lhs.events ∨ .write t ∈ rhs.events := by simpa [Branch.events] using h
    rw [Branch.temps, List.mem_append]
    exact h.imp lhs.mem_temps_of_write rhs.mem_temps_of_write
  termination_by structural b => b

/-- **A temporary that is written occurs.** -/
theorem Stmt.mem_temps_of_write : ∀ s : Stmt, .write t ∈ s.events → t ∈ s.temps
  | .seq first second, h => by
    rw [Stmt.events, List.mem_append] at h
    rw [Stmt.temps, List.mem_append]
    exact h.imp first.mem_temps_of_write second.mem_temps_of_write
  | .label _, h => by
    cases List.mem_singleton.1 h
  | .move target source, h => by
    rw [Stmt.temps, List.mem_append]
    exact (target.mem_temps_of_writeInto h).imp_right source.mem_temps_of_write
  | .eval expr, h => expr.mem_temps_of_write h
  | .branch b, h => b.mem_temps_of_write h
  termination_by structural s => s

end

end

/-! ## Lists of statements -/

/-- What happens in statements one after another, but for writes to temporaries beyond the
counter. -/
def oldEvents (bound : Nat) (code : List Stmt) : List Event :=
  (code.flatMap Stmt.events).filter (·.isOld bound)

section

variable {bound : Nat}

@[simp] theorem oldEvents_append (c d : List Stmt) :
    oldEvents bound (c ++ d) = oldEvents bound c ++ oldEvents bound d := by
  simp [oldEvents]

theorem oldEvents_singleton (s : Stmt) :
    oldEvents bound [s] = s.events.filter (·.isOld bound) := by
  simp [oldEvents]

end

end Lowering
