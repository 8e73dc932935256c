import Lowering.Pipeline
import Mathlib.Order.Basic

/-!
# The names in what passes read and write

A name is the number of a virtual temporary or of a generated label.  Every value that a
pass reads or writes has its names, in no particular order.

A computation *confines* its result to a list of names if the result has only names of the
list and names that were drawn meanwhile.  This goes along with sequencing: what a computation was
given gives way to what it names.  So for a pass it follows its definition, and the list is taken
apart as the input is.

## Main definitions

* `Name`, `Name.Within`, `Name.Drawn` — names, and when they were drawn.
* `Named` — values with names.
* `Attempt.Grows`, `Attempt.Confines` — the supply only grows, and what a result can name.
-/

namespace Lowering

/-- The number of a virtual temporary or of a generated label. -/
inductive Name where
  | temp (id : Nat)
  | label (id : Nat)
  deriving DecidableEq, Repr

/-- One supply comes before another if it has handed out no more. -/
instance : Preorder Supply where
  le s s' := s.temps ≤ s'.temps ∧ s.labels ≤ s'.labels
  le_refl _ := ⟨Nat.le_refl _, Nat.le_refl _⟩
  le_trans _ _ _ h h' := ⟨Nat.le_trans h.1 h'.1, Nat.le_trans h.2 h'.2⟩

theorem Supply.le_iff {s s' : Supply} : s ≤ s' ↔ s.temps ≤ s'.temps ∧ s.labels ≤ s'.labels := .rfl

namespace Name

/-- The name is not above its counter. -/
def Within (s : Supply) : Name → Prop
  | temp id => id ≤ s.temps
  | label id => id ≤ s.labels

instance (s : Supply) : DecidablePred (Within s)
  | temp id => inferInstanceAs (Decidable (id ≤ s.temps))
  | label id => inferInstanceAs (Decidable (id ≤ s.labels))

theorem Within.mono {n : Name} {s s' : Supply} (h : n.Within s) (hle : s ≤ s') : n.Within s' := by
  cases n with
  | temp id => exact Nat.le_trans h (Supply.le_iff.1 hle).1
  | label id => exact Nat.le_trans h (Supply.le_iff.1 hle).2

/-- The name was drawn while the supply went from one state to another. -/
def Drawn (lo hi : Supply) (n : Name) : Prop := ¬n.Within lo ∧ n.Within hi

theorem Drawn.mono {n : Name} {lo lo' hi hi' : Supply} (h : n.Drawn lo hi) (hlo : lo' ≤ lo)
    (hhi : hi ≤ hi') : n.Drawn lo' hi' :=
  ⟨fun hn => h.1 (hn.mono hlo), h.2.mono hhi⟩

end Name

/-! ## Values with names -/

/-- Values in which there are names. -/
class Named (α : Type) where
  /-- The names in a value. -/
  names : α → List Name

export Named (names)

section

variable {α β : Type} [Named α] [Named β]

instance : Named Temp where
  names
    | .virtual id => [.temp id]
    | .register _ => []

instance : Named Label where
  names
    | .generated id => [.label id]
    | .named _ => []

instance : Named (List α) := ⟨fun as => as.flatMap names⟩
instance : Named (Option α) := ⟨fun a => names a.toList⟩
instance : Named (α × β) := ⟨fun p => names p.1 ++ names p.2⟩

end

mutual

/-- The names in an expression. -/
def Expr.nameList : Expr → List Name
  | .const _ => []
  | .name l => names l
  | .temp t => names t
  | .binop _ lhs rhs => lhs.nameList ++ rhs.nameList
  | .mem address => address.nameList
  | .call function args => function.nameList ++ Expr.nameListAll args
  | .eseq stmt value => stmt.nameList ++ value.nameList
  termination_by structural e => e

@[inherit_doc Expr.nameList]
def Expr.nameListAll : List Expr → List Name
  | [] => []
  | e :: rest => e.nameList ++ Expr.nameListAll rest
  termination_by structural es => es

/-- The names in a branch. -/
def Branch.nameList : Branch → List Name
  | .jump target labels => target.nameList ++ names labels
  | .cjump _ lhs rhs onTrue onFalse =>
    lhs.nameList ++ rhs.nameList ++ names onTrue ++ names onFalse
  termination_by structural b => b

/-- The names in a statement. -/
def Stmt.nameList : Stmt → List Name
  | .seq first second => first.nameList ++ second.nameList
  | .label l => names l
  | .move target source => target.nameList ++ source.nameList
  | .eval expr => expr.nameList
  | .branch b => b.nameList
  termination_by structural s => s

end

instance : Named Expr := ⟨Expr.nameList⟩
instance : Named Branch := ⟨Branch.nameList⟩
instance : Named Stmt := ⟨Stmt.nameList⟩

instance {α : Type} [Named α] : Named (Staged α) :=
  ⟨fun staged => names staged.effects ++ names staged.value⟩

mutual

/-- The names of the temporaries that the instructions of a tile read. -/
def Tile.nameList : Tile → List Name
  | .temp t => names t
  | .const _ | .name _ | .faulty _ => []
  | .load base _ => base.nameList
  | .immediate _ operand _ => operand.nameList
  | .binop _ lhs rhs => lhs.nameList ++ rhs.nameList
  | .call _ args => Tile.nameListAll args
  | .callAt function args => function.nameList ++ Tile.nameListAll args
  termination_by structural tile => tile

@[inherit_doc Tile.nameList]
def Tile.nameListAll : List Tile → List Name
  | [] => []
  | tile :: rest => tile.nameList ++ Tile.nameListAll rest
  termination_by structural tiles => tiles

end

instance : Named Tile := ⟨Tile.nameList⟩

/-- The names in an operand. -/
def Operand.nameList : Operand → List Name
  | temp t => names t
  | name l => names l
  | const _ => []

instance : Named Operand := ⟨Operand.nameList⟩

/-- The names in a quad. -/
def Quad.nameList : Quad → List Name
  | load dst address => names dst ++ names address
  | store address value => names address ++ names value
  | binop _ dst lhs rhs => names dst ++ names lhs ++ names rhs
  | move dst src => names dst ++ names src
  | call function args dst => names function ++ names args ++ names dst
  | jump target labels => names target ++ names labels
  | cjump _ lhs rhs onTrue onFalse =>
    names lhs ++ names rhs ++ names onTrue ++ names onFalse
  | label l => names l

instance : Named Quad := ⟨Quad.nameList⟩

instance : Named Block := ⟨fun b => names b.label ++ names b.body ++ names b.branch⟩
instance : Named Block.Open := ⟨fun b => names b.label ++ names b.body⟩
instance : Named BlockGraph := ⟨fun g => names g.blocks ++ names g.exit⟩

/-- The names in an ending. -/
def Ending.nameList : Ending → List Name
  | dropped => []
  | branch b => names b
  | detour b own onFalse => names b ++ names own ++ names onFalse

instance : Named Ending := ⟨Ending.nameList⟩
instance : Named Placed := ⟨fun p => names p.block ++ names p.ending⟩

/-- The temporaries of an instruction, its targets, and the label that it defines. -/
def Instr.nameList : Instr → List Name
  | oper _ dst src jump => names dst ++ names src ++ names jump
  | move _ dst src => names dst ++ names src
  | label _ l => names l

instance : Named Instr := ⟨Instr.nameList⟩

instance : Named Spill.Replacement := ⟨fun r => names r.spilled ++ names r.fresh⟩
instance : Named Allocation := ⟨fun a => names a.colors.toList ++ names a.spilled⟩

section

variable {α β : Type} [Named α] [Named β]

@[simp, grind =] theorem names_virtual (id : Nat) : names (Temp.virtual id) = [.temp id] := rfl
@[simp, grind =] theorem names_register (name : String) : names (Temp.register name) = [] := rfl
@[simp, grind =] theorem names_generated (id : Nat) :
    names (Label.generated id) = [.label id] := rfl
@[simp, grind =] theorem names_named (name : String) : names (Label.named name) = [] := rfl

@[simp, grind =] theorem names_nil : names ([] : List α) = [] := rfl
@[simp, grind =] theorem names_cons (a : α) (as : List α) :
    names (a :: as) = names a ++ names as := rfl
@[simp, grind =] theorem names_append (as bs : List α) : names (as ++ bs) = names as ++ names bs :=
  List.flatMap_append
theorem names_append_subset (as bs : List α) : names (as ++ bs) ⊆ names as ++ names bs := by
  rw [names_append]
  exact .refl _
@[simp, grind =] theorem names_pair (p : α × β) : names p = names p.1 ++ names p.2 := rfl
@[simp, grind =] theorem names_none : names (none : Option α) = [] := rfl
@[simp, grind =] theorem names_some (a : α) : names (some a) = names a := List.append_nil _
@[simp, grind =] theorem names_staged (staged : Staged α) :
    names staged = names staged.effects ++ names staged.value := rfl

theorem append_subset_append {l l' m m' : List Name} (h : l ⊆ l') (h' : m ⊆ m') :
    l ++ m ⊆ l' ++ m' :=
  List.append_subset.2 ⟨List.subset_append_of_subset_left _ h,
    List.subset_append_of_subset_right _ h'⟩

theorem mem_names_list {n : Name} {as : List α} : n ∈ names as ↔ ∃ a ∈ as, n ∈ names a :=
  List.mem_flatMap

theorem names_subset_of_mem {a : α} {as : List α} (h : a ∈ as) : names a ⊆ names as :=
  fun _ hn => mem_names_list.2 ⟨a, h, hn⟩

/-- Part of a list has part of its names. -/
theorem names_subset_of_subset {as bs : List α} (h : as ⊆ bs) : names as ⊆ names bs := by
  intro n hn
  obtain ⟨a, ha, hn⟩ := mem_names_list.1 hn
  exact mem_names_list.2 ⟨a, h ha, hn⟩

end

namespace Expr

@[simp] theorem nameListAll_eq (es : List Expr) : Expr.nameListAll es = names es := by
  induction es with
  | nil => rfl
  | cons e rest ih => rw [Expr.nameListAll, ih]; rfl

@[simp, grind =] theorem names_const (value : Word) : names (const value) = [] := rfl
@[simp, grind =] theorem names_name (l : Label) : names (name l) = names l := rfl
@[simp, grind =] theorem names_temp (t : Temp) : names (temp t) = names t := rfl
@[simp, grind =] theorem names_binop (op : BinOp) (lhs rhs : Expr) :
    names (binop op lhs rhs) = names lhs ++ names rhs := rfl
@[simp, grind =] theorem names_mem (address : Expr) : names (mem address) = names address := rfl
@[simp, grind =] theorem names_call (function : Expr) (args : List Expr) :
    names (call function args) = names function ++ names args := by
  rw [← nameListAll_eq]
  rfl
@[simp, grind =] theorem names_eseq (stmt : Stmt) (value : Expr) :
    names (eseq stmt value) = names stmt ++ names value := rfl

end Expr

@[simp, grind =] theorem Branch.names_jump (target : Expr) (labels : List Label) :
    names (Branch.jump target labels) = names target ++ names labels := rfl
@[simp, grind =] theorem Branch.names_cjump (op : RelOp) (lhs rhs : Expr) (onTrue onFalse : Label) :
    names (Branch.cjump op lhs rhs onTrue onFalse) =
      names lhs ++ names rhs ++ names onTrue ++ names onFalse := rfl
@[simp, grind =] theorem Branch.names_goto (l : Label) :
    names (Branch.goto l) = names l ++ names l := by
  simp [Branch.goto]

@[simp, grind =] theorem Stmt.names_seq (first second : Stmt) :
    names (Stmt.seq first second) = names first ++ names second := rfl
@[simp, grind =] theorem Stmt.names_label (l : Label) : names (Stmt.label l) = names l := rfl
@[simp, grind =] theorem Stmt.names_move (target source : Expr) :
    names (Stmt.move target source) = names target ++ names source := rfl
@[simp, grind =] theorem Stmt.names_eval (e : Expr) : names (Stmt.eval e) = names e := rfl
@[simp, grind =] theorem Stmt.names_branch (b : Branch) : names (Stmt.branch b) = names b := rfl

/-! ## What a computation can name -/

namespace Attempt

variable {σ α β : Type} {supply : σ → Supply} {given given' known : List Name}

/-- The supply only grows, whether the computation faults or not. -/
def Grows (supply : σ → Supply) (x : Attempt σ α) : Prop := ∀ s, supply s ≤ supply (x.run s).2

namespace Grows

theorem le {x : Attempt σ α} {r : Except Fault α} {s s' : σ} (hx : Grows supply x)
    (hrun : x.run s = (r, s')) : supply s ≤ supply s' := by
  simpa [hrun] using hx s

theorem pure (a : α) : Grows supply (pure a) := fun _ => le_rfl

theorem throw (e : Fault) : Grows supply (throw e : Attempt σ α) := fun _ => le_rfl

theorem bind {x : Attempt σ α} {f : α → Attempt σ β} (hx : Grows supply x)
    (hf : ∀ a, Grows supply (f a)) : Grows supply (x >>= f) := by
  intro s
  have hle := hx s
  rw [run_bind]
  generalize x.run s = result at hle
  rcases result with ⟨_ | a, s'⟩
  · exact hle
  · exact hle.trans (hf a s')

theorem ofExcept (r : Except Fault α) : Grows supply (ofExcept r : Attempt σ α) := by
  cases r with
  | ok a => exact .pure a
  | error e => exact .throw e

end Grows

/-- The supply only grows, and a result has only names that were given and names that were
drawn meanwhile. -/
structure Confines [Named α] (supply : σ → Supply) (given : List Name) (x : Attempt σ α) :
    Prop where
  grows : Grows supply x
  confined : ∀ ⦃s a s'⦄, x.run s = (.ok a, s') →
    ∀ n ∈ names a, n ∈ given ∨ n.Drawn (supply s) (supply s')

namespace Confines

variable [Named α] [Named β] {x : Attempt σ α} {f : α → Attempt σ β}

theorem mono (h : Confines supply given x) (hsub : given ⊆ given') : Confines supply given' x :=
  ⟨h.grows, fun _ _ _ hrun n hn => (h.confined hrun n hn).imp_left fun hn => hsub hn⟩

theorem pure {a : α} (h : names a ⊆ given) : Confines supply given (pure a) := by
  refine ⟨.pure a, ?_⟩
  intro s a' s' hrun n hn
  cases hrun
  exact .inl (h hn)

theorem throw (e : Fault) : Confines supply given (throw e : Attempt σ α) := ⟨.throw e, nofun⟩

/-- Behind names that are kept, what a computation is given gives way to what it names. -/
theorem after (hx : Confines supply given x)
    (hf : ∀ a, Confines supply (known ++ names a) (f a)) :
    Confines supply (known ++ given) (x >>= f) := by
  refine ⟨hx.grows.bind fun a => (hf a).grows, ?_⟩
  intro s b s'' hrun n hn
  obtain ⟨a, s', hrun, hrun'⟩ := run_bind_eq_ok_iff.1 hrun
  have hle := hx.grows.le hrun
  have hle' := (hf a).grows.le hrun'
  rcases (hf a).confined hrun' n hn with hn | hdrawn
  · rcases List.mem_append.1 hn with hn | hn
    · exact .inl (List.mem_append_left _ hn)
    · refine (hx.confined hrun n hn).imp (fun hn => List.mem_append_right _ hn) fun hdrawn => ?_
      exact hdrawn.mono le_rfl hle'
  · exact .inr (hdrawn.mono hle le_rfl)

/-- In front of names that are kept it does so too. -/
theorem before (hx : Confines supply given x)
    (hf : ∀ a, Confines supply (names a ++ known) (f a)) :
    Confines supply (given ++ known) (x >>= f) :=
  (hx.after fun a => (hf a).mono List.perm_append_comm.subset).mono List.perm_append_comm.subset

/-- Nothing is kept. -/
theorem trans (hx : Confines supply given x) (hf : ∀ a, Confines supply (names a) (f a)) :
    Confines supply given (x >>= f) := by
  have h : Confines supply ([] ++ given) (x >>= f) := hx.after hf
  exact h

/-- What a computation is given is known anyway. -/
theorem bind (hx : Confines supply given x) (hgiven : given ⊆ known)
    (hf : ∀ a, Confines supply (known ++ names a) (f a)) : Confines supply known (x >>= f) :=
  (hx.after hf).mono (List.append_subset.2 ⟨List.Subset.refl known, hgiven⟩)

theorem map {g : α → β} (hx : Confines supply given x) (hg : ∀ a, names (g a) ⊆ names a) :
    Confines supply given (x >>= fun a => Pure.pure (g a)) :=
  hx.trans fun a => .pure (hg a)

section

variable {γ : Type} [Named γ] {y : Attempt σ β} {g : α → β → γ}

/-- One computation and then another one. -/
theorem both (hx : Confines supply given x) (hy : Confines supply given' y)
    (hg : ∀ a b, names (g a b) ⊆ names a ++ names b) :
    Confines supply (given ++ given') (x >>= fun a => y >>= fun b => Pure.pure (g a b)) :=
  hx.before fun a => hy.after fun b => .pure (hg a b)

/-- One computation and then another one, in front of names that are kept. -/
theorem bothBefore {f : α → β → Attempt σ γ} (hx : Confines supply given x)
    (hy : Confines supply given' y)
    (hf : ∀ a b, Confines supply (names a ++ names b ++ known) (f a b)) :
    Confines supply (given ++ given' ++ known) (x >>= fun a => y >>= fun b => f a b) := by
  have hpair := (hx.both hy (g := Prod.mk) fun _ _ => .refl _).before fun p => hf p.1 p.2
  simpa only [bind_assoc, pure_bind] using hpair

end

/-- What comes first names nothing that counts. -/
theorem behind {γ : Type} {x : Attempt σ γ} {f : γ → Attempt σ β} (hx : Grows supply x)
    (hf : ∀ a, Confines supply given (f a)) : Confines supply given (x >>= f) := by
  refine ⟨hx.bind fun a => (hf a).grows, ?_⟩
  intro s b s'' hrun n hn
  obtain ⟨a, s', hrun, hrun'⟩ := run_bind_eq_ok_iff.1 hrun
  have hle := hx.le hrun
  exact ((hf a).confined hrun' n hn).imp_right fun hdrawn => hdrawn.mono hle le_rfl

end Confines

end Attempt

/-! ## Drawing and telling -/

open Attempt

theorem confines_temp : Confines id [] Fresh.temp := by
  refine ⟨fun s => Supply.le_iff.2 ⟨Nat.le_succ _, Nat.le_refl _⟩, ?_⟩
  intro s t s' hrun n hn
  cases hrun
  obtain rfl := List.mem_singleton.1 hn
  exact .inr ⟨Nat.not_succ_le_self _, Nat.le_refl _⟩

theorem confines_label : Confines id [] Fresh.label := by
  refine ⟨fun s => Supply.le_iff.2 ⟨Nat.le_refl _, Nat.le_succ _⟩, ?_⟩
  intro s l s' hrun n hn
  cases hrun
  obtain rfl := List.mem_singleton.1 hn
  exact .inr ⟨Nat.not_succ_le_self _, Nat.le_refl _⟩

section

variable {β : Type} [Named β] {given : List Name}

/-- With a temporary that is drawn first, its name is known. -/
theorem Attempt.Confines.withTemp {f : Temp → Fresh β}
    (hf : ∀ t, Confines id (given ++ names t) (f t)) : Confines id given (Fresh.temp >>= f) :=
  confines_temp.bind (List.nil_subset given) hf

@[inherit_doc Attempt.Confines.withTemp]
theorem Attempt.Confines.withLabel {f : Label → Fresh β}
    (hf : ∀ l, Confines id (given ++ names l) (f l)) : Confines id given (Fresh.label >>= f) :=
  confines_label.bind (List.nil_subset given) hf

end

theorem Attempt.Grows.fresh {α : Type} {x : Fresh α} (h : Grows id x) :
    Grows Workspace.supply (Pass.fresh x) :=
  fun w => h w.supply

theorem Attempt.Confines.fresh {α : Type} [Named α] {given : List Name} {x : Fresh α}
    (h : Confines id given x) : Confines Workspace.supply given (Pass.fresh x) := by
  refine ⟨h.grows.fresh, ?_⟩
  intro w a w' hrun
  obtain ⟨supply, hfresh, rfl⟩ := Pass.run_fresh_eq_ok_iff.1 hrun
  exact h.confined hfresh

theorem grows_noteText (level : Level) (message : Unit → Except Fault String) :
    Grows Workspace.supply (Pass.noteText level message) := by
  intro w
  simp only [Pass.noteText]
  split <;> exact le_rfl

theorem grows_frame : Grows Workspace.supply Pass.frame := fun _ => le_rfl

theorem grows_reserve : Grows Workspace.supply Pass.reserve := fun _ => le_rfl

end Lowering
