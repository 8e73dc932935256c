import Lowering.Proofs.Mips.Fault
import Lowering.Proofs.Mips.Outline

/-!
# Numbers in the fields of instructions

A number in an instruction stands in a field of a few bits.  Offsets and what is added have a
sign.  What masks the bits of a value has none, and neither has the amount of a shift.  A number
out of the range of its field is not the one that is read from there.

One check guards all constants but the amounts of shifts, and it is the one for a field with a
sign.  So a negative constant that is folded into a mask stands in a field that cannot hold it,
and that is all that goes wrong.

## Main definitions

* `Field`, `Field.Holds`, `Field.read` — fields, their ranges and what is read from them.
* `Instr.field?` — the field of an instruction and the number in it.
* `Expr.MasksNegative` — an expression in which a negative constant becomes a mask.
* `select_fields_hold_iff` — the main result.
-/

namespace Lowering

open Mips

/-! ## Fields -/

/-- A field of an instruction for a number. -/
inductive Field where
  /-- Sixteen bits, of which the first one is the sign. -/
  | signed
  /-- Sixteen bits. -/
  | unsigned
  /-- The amount of a shift in five bits. -/
  | amount
  deriving DecidableEq, Repr

namespace Field

/-- The least number of a field. -/
def least : Field → Int
  | signed => -32768
  | unsigned | amount => 0

/-- The greatest number of a field. -/
def greatest : Field → Int
  | signed => 32767
  | unsigned => 65535
  | amount => 31

/-- The number is in the range of the field. -/
def Holds (f : Field) (v : Word) : Prop := f.least ≤ v.toInt ∧ v.toInt ≤ f.greatest

instance (f : Field) (v : Word) : Decidable (f.Holds v) := inferInstanceAs (Decidable (_ ∧ _))

/-- What is read from a field into which a number was put: the number in its range that has the
same last bits. -/
def read (f : Field) (v : Word) : Word :=
  Int64.ofInt (f.least + (v.toInt - f.least) % (f.greatest - f.least + 1))

/-- **A field gives back what it holds, and no other number.** -/
theorem read_eq_iff {f : Field} {v : Word} : f.read v = v ↔ f.Holds v := by
  have hword : -2 ^ 63 ≤ f.least ∧ f.greatest < 2 ^ 63 ∧ f.least ≤ f.greatest := by
    cases f <;> decide
  have hlow := Int.emod_nonneg (v.toInt - f.least) (b := f.greatest - f.least + 1) (by omega)
  have hhigh := Int.emod_lt_of_pos (v.toInt - f.least) (b := f.greatest - f.least + 1) (by omega)
  rw [← Int64.toInt_inj, read, Int64.toInt_ofInt_of_le (by omega) (by omega)]
  constructor
  · intro h
    exact ⟨by omega, by omega⟩
  · rintro ⟨hleast, hgreatest⟩
    rw [Int.emod_eq_of_lt (by omega) (by omega)]
    omega

/-- The number is in the range of the field, or it would be if the field had a sign. -/
def Takes (f : Field) (v : Word) : Prop :=
  f.Holds v ∨ f = unsigned ∧ signed.Holds v ∧ v.toInt < 0

end Field

namespace Mips

theorem fitsImmediate_iff {v : Word} : fitsImmediate v = true ↔ Field.signed.Holds v := by
  simp [fitsImmediate, Field.Holds, Field.least, Field.greatest]

theorem fitsShift_iff {v : Word} : fitsShift v = true ↔ Field.amount.Holds v := by
  simp only [fitsShift, Bool.and_eq_true, decide_eq_true_eq, Field.Holds, Field.least,
    Field.greatest]
  omega

/-- The field of an operation with a constant. -/
def Immediate.field : Immediate → Field
  | addi => .signed
  | andi | ori | xori => .unsigned
  | sll | srl | sra => .amount

/-- The field of an operation and the number in it. -/
def Operation.field? : Operation → Option (Field × Word)
  | load offset | store offset => some (.signed, offset)
  | immediate op value => some (op.field, value)
  | _ => none

/-- An operation with a constant computes the same with what is read from its field, as long as
the field holds the constant. -/
theorem Immediate.eval_read_iff {op : Immediate} {v : Word} (h : op.field.Takes v) :
    (∀ a, op.operator.eval a (op.field.read v) = op.operator.eval a v) ↔ op.field.Holds v := by
  refine ⟨fun heval => ?_, fun hv a => by rw [Field.read_eq_iff.2 hv]⟩
  cases op with
  | andi => exact Field.read_eq_iff.1 (by simpa [operator, BinOp.eval] using heval (-1))
  | ori => exact Field.read_eq_iff.1 (by simpa [operator, BinOp.eval] using heval 0)
  | xori => exact Field.read_eq_iff.1 (by simpa [operator, BinOp.eval] using heval 0)
  | _ => exact h.resolve_right fun hunsigned => by cases hunsigned.1

end Mips

/-- The field of an instruction and the number in it. -/
def Instr.field? (i : Instr) : Option (Field × Word) := i.operation?.bind (·.field?)

/-- The field of the instruction, if it has one, holds the number in it. -/
def Instr.Encodable (i : Instr) : Prop := ∀ f v, i.field? = some (f, v) → f.Holds v

/-! ## Constants that are folded -/

/-- A negative constant becomes the mask of a bitwise operation: the right operand, or the left one
if the right one does not. -/
def Expr.MasksNegative : Expr → Prop
  | .binop op lhs rhs => (op = .and ∨ op = .or ∨ op = .xor) ∧
    ∃ n, Field.signed.Holds n ∧ n.toInt < 0 ∧
      (rhs = .const n ∨ lhs = .const n ∧ ∀ m, rhs = .const m → ¬Field.signed.Holds m)
  | _ => False

@[inherit_doc Expr.MasksNegative]
def Node.MasksNegative : Node → Prop
  | .expr e => e.MasksNegative
  | .stmt _ => False

section Fold

variable {op : BinOp} {imm : Immediate} {lhs rhs : Expr} {folded : Folded}

/-- What is folded of a commutative operation. -/
theorem foldEither_cases (imm : Immediate) (lhs rhs : Expr) :
    (∃ n, rhs = .const n ∧ Field.signed.Holds n ∧
      foldEither imm lhs rhs = some ⟨imm, .left, n⟩) ∨
    (∀ m, rhs = .const m → ¬Field.signed.Holds m) ∧
      ((∃ n, lhs = .const n ∧ Field.signed.Holds n ∧
        foldEither imm lhs rhs = some ⟨imm, .right, n⟩) ∨
      (∀ m, lhs = .const m → ¬Field.signed.Holds m) ∧ foldEither imm lhs rhs = none) := by
  by_cases hrhs : ∃ n, rhs = .const n ∧ Field.signed.Holds n
  · obtain ⟨n, rfl, hn⟩ := hrhs
    exact .inl ⟨n, rfl, hn, if_pos (fitsImmediate_iff.2 hn)⟩
  · have hright : ∀ m, rhs = .const m → ¬Field.signed.Holds m := fun m hm hholds =>
      hrhs ⟨m, hm, hholds⟩
    have hleft : foldEither imm lhs rhs = foldEither imm lhs (.temp zero) := by
      cases rhs with
      | const m => exact if_neg (mt fitsImmediate_iff.1 (hright m rfl))
      | _ => rfl
    rw [hleft]
    refine .inr ⟨hright, ?_⟩
    by_cases hlhs : ∃ n, lhs = .const n ∧ Field.signed.Holds n
    · obtain ⟨n, rfl, hn⟩ := hlhs
      exact .inl ⟨n, rfl, hn, if_pos (fitsImmediate_iff.2 hn)⟩
    · have hnone : ∀ m, lhs = .const m → ¬Field.signed.Holds m := fun m hm hholds =>
        hlhs ⟨m, hm, hholds⟩
      refine .inr ⟨hnone, ?_⟩
      cases lhs with
      | const m => exact if_neg (mt fitsImmediate_iff.1 (hnone m rfl))
      | _ => rfl

/-- A constant that becomes a mask, and a negative one among those. -/
theorem masksNegative_iff (imm : Immediate) (hop : op = .and ∨ op = .or ∨ op = .xor) :
    (Expr.binop op lhs rhs).MasksNegative ↔
      ∃ folded, foldEither imm lhs rhs = some folded ∧ folded.value.toInt < 0 := by
  rcases foldEither_cases imm lhs rhs with ⟨n, rfl, hn, h⟩ | ⟨hright, ⟨n, rfl, hn, h⟩ | ⟨hleft, h⟩⟩
  · rw [h]
    constructor
    · rintro ⟨-, m, -, hneg, hm | ⟨-, hm⟩⟩
      · cases hm
        exact ⟨_, rfl, hneg⟩
      · exact absurd hn (hm n rfl)
    · rintro ⟨_, ⟨⟩, hneg⟩
      exact ⟨hop, n, hn, hneg, .inl rfl⟩
  · rw [h]
    constructor
    · rintro ⟨-, m, hm, hneg, hrhs | ⟨hlhs, -⟩⟩
      · exact absurd hm (hright m hrhs)
      · cases hlhs
        exact ⟨_, rfl, hneg⟩
    · rintro ⟨_, ⟨⟩, hneg⟩
      exact ⟨hop, n, hn, hneg, .inr ⟨rfl, hright⟩⟩
  · rw [h]
    constructor
    · rintro ⟨-, m, hm, hneg, hrhs | ⟨hlhs, -⟩⟩
      · exact absurd hm (hright m hrhs)
      · exact absurd hm (hleft m hlhs)
    · rintro ⟨_, ⟨⟩, -⟩

theorem holds_of_foldEither (h : foldEither imm lhs rhs = some folded) :
    folded.op = imm ∧ Field.signed.Holds folded.value := by
  rcases foldEither_cases imm lhs rhs with ⟨n, -, hn, h'⟩ | ⟨-, ⟨n, -, hn, h'⟩ | ⟨-, h'⟩⟩
  · cases h.symm.trans h'
    exact ⟨rfl, hn⟩
  · cases h.symm.trans h'
    exact ⟨rfl, hn⟩
  · cases h.symm.trans h'

theorem holds_of_foldShift (h : foldShift imm rhs = some folded) :
    folded.op = imm ∧ Field.amount.Holds folded.value := by
  obtain ⟨rfl, -, rfl⟩ := foldShift_eq_some h
  refine ⟨rfl, fitsShift_iff.1 ?_⟩
  by_contra hfits
  cases h.symm.trans (if_neg hfits)

theorem holds_of_foldMinus (h : foldMinus rhs = .ok (some folded)) :
    folded.op = .addi ∧ Field.signed.Holds folded.value := by
  obtain ⟨n, rfl, rfl⟩ := foldMinus_eq_some h
  refine ⟨rfl, fitsImmediate_iff.1 ?_⟩
  rw [foldMinus] at h
  split at h
  · cases h
  · by_contra hfits
    rw [if_neg hfits] at h
    cases h

/-- A mask that passed the check for a field with a sign. -/
theorem Field.holds_unsigned_iff {v : Word} (h : signed.Holds v) :
    unsigned.Holds v ↔ ¬v.toInt < 0 := by
  have hgreatest : v.toInt ≤ 32767 := h.2
  simp only [Holds, least, greatest]
  omega

/-- A constant that is folded into a mask. -/
theorem holds_of_fold_mask (hop : op = .and ∨ op = .or ∨ op = .xor)
    (himm : imm.field = .unsigned) (h : foldEither imm lhs rhs = some folded) :
    folded.op.field.Takes folded.value ∧
      (folded.op.field.Holds folded.value ↔ ¬(Expr.binop op lhs rhs).MasksNegative) := by
  obtain ⟨rfl, hsigned⟩ := holds_of_foldEither h
  have hiff := Field.holds_unsigned_iff hsigned
  rw [himm, masksNegative_iff folded.op hop]
  constructor
  · by_cases hneg : folded.value.toInt < 0
    · exact .inr ⟨rfl, hsigned, hneg⟩
    · exact .inl (hiff.2 hneg)
  · rw [hiff, h]
    simp

/-- **A constant that is folded has its field, unless it is a negative mask.** -/
theorem holds_of_fold (h : fold op lhs rhs = .ok (some folded)) :
    folded.op.field.Takes folded.value ∧
      (folded.op.field.Holds folded.value ↔ ¬(Expr.binop op lhs rhs).MasksNegative) := by
  have hplain : folded.op.field.Holds folded.value → ¬(op = .and ∨ op = .or ∨ op = .xor) →
      folded.op.field.Takes folded.value ∧
        (folded.op.field.Holds folded.value ↔ ¬(Expr.binop op lhs rhs).MasksNegative) :=
    fun hholds hop => ⟨.inl hholds, fun _ hmasks => hop hmasks.1, fun _ => hholds⟩
  cases op with
  | plus =>
    obtain ⟨himm, hholds⟩ := holds_of_foldEither (Except.ok.inj h)
    exact hplain (by rwa [himm]) (by simp)
  | minus =>
    obtain ⟨himm, hholds⟩ := holds_of_foldMinus h
    exact hplain (by rwa [himm]) (by simp)
  | and => exact holds_of_fold_mask (by simp) rfl (Except.ok.inj h)
  | or => exact holds_of_fold_mask (by simp) rfl (Except.ok.inj h)
  | xor => exact holds_of_fold_mask (by simp) rfl (Except.ok.inj h)
  | shl | shr | sar =>
    obtain ⟨himm, hholds⟩ := holds_of_foldShift (Except.ok.inj h)
    exact hplain (by rwa [himm]) (by simp)
  | mul | div => cases h

theorem not_masksNegative_of_fold (h : fold op lhs rhs = .ok none) :
    ¬(Expr.binop op lhs rhs).MasksNegative := by
  intro hmasks
  obtain ⟨imm, himm⟩ : ∃ imm, foldEither imm lhs rhs = none := by
    rcases hmasks.1 with rfl | rfl | rfl
    · exact ⟨_, Except.ok.inj h⟩
    · exact ⟨_, Except.ok.inj h⟩
    · exact ⟨_, Except.ok.inj h⟩
  obtain ⟨folded, hsome, -⟩ := (masksNegative_iff imm hmasks.1).1 hmasks
  cases himm.symm.trans hsome

end Fold

/-! ## Code -/

def Line.field? (line : Line) : Option (Field × Word) := line.operation?.bind (·.field?)

/-- The fields of lines are those for what occurs in some code: only a negative mask is not held
by its field. -/
structure Accounts (nodes : List Node) (lines : List Line) : Prop where
  takes : ∀ line ∈ lines, ∀ f v, line.field? = some (f, v) → f.Takes v
  holds_iff : (∀ line ∈ lines, ∀ f v, line.field? = some (f, v) → f.Holds v) ↔
    ∀ n ∈ nodes, ¬n.MasksNegative

namespace Accounts

variable {nodes nodes' : List Node} {lines lines' : List Line} {line line' : Line} {n : Node}

theorem nil : Accounts [] [] := ⟨nofun, by simp⟩

theorem append (h : Accounts nodes lines) (h' : Accounts nodes' lines') :
    Accounts (nodes ++ nodes') (lines ++ lines') where
  takes := List.forall_mem_append.2 ⟨h.takes, h'.takes⟩
  holds_iff := by
    rw [List.forall_mem_append, List.forall_mem_append, h.holds_iff, h'.holds_iff]

/-- The order of lines does not matter. -/
theorem perm (h : Accounts nodes lines) (hperm : lines.Perm lines') : Accounts nodes lines' where
  takes line hline := h.takes line (hperm.mem_iff.2 hline)
  holds_iff := by simp only [← h.holds_iff, hperm.mem_iff]

/-- Something for which there is no line. -/
theorem under (h : Accounts nodes lines) (hn : ¬n.MasksNegative) : Accounts (n :: nodes) lines where
  takes := h.takes
  holds_iff := by
    rw [List.forall_mem_cons, h.holds_iff]
    exact (and_iff_right hn).symm

/-- A line with a number that its field holds, if there is a number in it. -/
theorem concat (h : Accounts nodes lines) (hline : ∀ f v, line.field? = some (f, v) → f.Holds v) :
    Accounts nodes (lines ++ [line]) where
  takes := List.forall_mem_append.2
    ⟨h.takes, List.forall_mem_singleton.2 fun f v hv => .inl (hline f v hv)⟩
  holds_iff := by
    rw [List.forall_mem_append, List.forall_mem_singleton, h.holds_iff]
    exact and_iff_left hline

theorem numberless (h : Accounts nodes lines) (hline : line.field? = none) :
    Accounts nodes (lines ++ [line]) :=
  h.concat (by simp [hline])

/-- A number is put into the same field of another line. -/
theorem replace (h : Accounts nodes (lines ++ [line])) (hfield : line'.field? = line.field?) :
    Accounts nodes (lines ++ [line']) := by
  obtain ⟨htakes, hholds⟩ := h
  rw [List.forall_mem_append, List.forall_mem_singleton] at htakes hholds
  rw [← hfield] at htakes hholds
  constructor
  · rwa [List.forall_mem_append, List.forall_mem_singleton]
  · rwa [List.forall_mem_append, List.forall_mem_singleton]

/-- The sum in an address becomes an offset, which has the same field. -/
theorem address {tile : Tile} (h : Accounts nodes tile.lines) (access : Word → Line)
    (haccess : ∀ offset, (access offset).field? = some (.signed, offset)) :
    Accounts nodes (tile.address.1.lines ++ [access tile.address.2]) := by
  unfold Tile.address
  split
  · exact h.replace (haccess _)
  · refine h.concat ?_
    rw [haccess]
    rintro _ _ ⟨⟩
    exact (show Field.signed.Holds 0 by decide)

/-- A constant is folded, and the other operand is computed. -/
theorem fold {op : BinOp} {lhs rhs : Expr} {folded : Folded}
    (hfold : Mips.fold op lhs rhs = .ok (some folded))
    (h : Accounts (lhs.nodes ++ rhs.nodes) lines) :
    Accounts (.expr (.binop op lhs rhs) :: (lhs.nodes ++ rhs.nodes))
      (lines ++ [.immediate folded.op folded.value]) := by
  obtain ⟨htakes, hiff⟩ := holds_of_fold hfold
  have hfield : (Line.immediate folded.op folded.value).field? =
      some (folded.op.field, folded.value) := rfl
  constructor
  · refine List.forall_mem_append.2 ⟨h.takes, List.forall_mem_singleton.2 ?_⟩
    rw [hfield]
    rintro _ _ ⟨⟩
    exact htakes
  · rw [List.forall_mem_append, List.forall_mem_singleton, hfield, List.forall_mem_cons,
      h.holds_iff, and_comm]
    refine and_congr ⟨fun hholds => hiff.1 (hholds _ _ rfl), fun hmasks => ?_⟩ Iff.rfl
    rintro _ _ ⟨⟩
    exact hiff.2 hmasks

end Accounts

mutual

/-- The lines of an expression. -/
theorem Expr.accounts_cover : ∀ e : Expr, e.cover.Whole → Accounts e.nodes e.cover.lines
  | .const value, _ => by
    rw [Expr.cover]
    split
    · exact Accounts.nil.under id
    · exact (Accounts.nil.under id).numberless rfl
  | .name l, _ => (Accounts.nil.under id).numberless rfl
  | .temp t, _ => Accounts.nil.under id
  | .binop op lhs rhs, h => by
    rw [Expr.cover] at h ⊢
    split at h
    · exact h.elim
    · next imm value hfold =>
      obtain ⟨v, ⟨-, rfl⟩ | ⟨hside, -⟩⟩ := fold_eq_some hfold
      · refine Accounts.fold hfold ?_
        rw [← List.append_nil lhs.cover.lines]
        exact (lhs.accounts_cover h).append (Accounts.nil.under id)
      · cases hside
    · next imm value hfold =>
      obtain ⟨v, ⟨hside, -⟩ | ⟨-, rfl⟩⟩ := fold_eq_some hfold
      · cases hside
      · exact Accounts.fold hfold ((rhs.accounts_cover h).under id)
    · next hfold =>
      have hboth := (lhs.accounts_cover h.1).append (rhs.accounts_cover h.2)
      exact (hboth.under (n := .expr (.binop op lhs rhs))
        (not_masksNegative_of_fold hfold)).numberless rfl
  | .mem address, h => by
    have haddress := address.accounts_cover (Tile.whole_address.1 h)
    exact (haddress.address .load fun _ => rfl).under id
  | .call function args, h => by
    cases function with
    | name l => exact (((Expr.accounts_coverAll args h).under id).under id).numberless rfl
    | _ =>
      have hfunction := Expr.accounts_cover _ h.1
      exact ((hfunction.append (Expr.accounts_coverAll args h.2)).under id).numberless rfl
  | .eseq _ _, h => h.elim
  termination_by structural e => e

/-- The lines of arguments. -/
theorem Expr.accounts_coverAll : ∀ args : List Expr, Tile.AllWhole (Expr.coverAll args) →
    Accounts (Expr.nodesAll args) (Tile.argLines (Expr.coverAll args))
  | [], _ => .nil
  | arg :: rest, h => ((arg.accounts_cover h.1).numberless rfl).append
    (Expr.accounts_coverAll rest h.2)
  termination_by structural args => args

end

/-- The lines of a statement. -/
theorem Stmt.accounts_lines (s : Stmt) (h : s.Whole) : Accounts s.nodes s.lines := by
  cases s with
  | seq first second =>
    exact ((first.accounts_lines h.1).append (second.accounts_lines h.2)).under id
  | label l => exact (Accounts.nil.under id).numberless rfl
  | move target source =>
    cases target with
    | mem address =>
      have haddress := (address.accounts_cover h.1).address .store fun _ => rfl
      have hsource := source.accounts_cover h.2
      refine (((haddress.under id).append hsource).under id).perm ?_
      rw [Stmt.lines, List.append_assoc, List.append_assoc]
      exact List.Perm.append_left _ List.perm_append_comm
    | temp t =>
      have hsource : Accounts _ _ := source.accounts_cover h
      have hcopy : Accounts _ (_ ++ [Line.copy]) := ((hsource.under (n := .expr (.temp t)) id).under
        (n := .stmt (.move (.temp t) source)) id).numberless rfl
      cases source with
      | const value => exact (((Accounts.nil.under id).under id).under id).numberless rfl
      | _ => exact hcopy
    | _ => exact h.elim
  | eval expr => exact (expr.accounts_cover h).under id
  | branch b =>
    cases b with
    | jump target labels =>
      cases target with
      | name l => exact ((Accounts.nil.under id).under id).numberless rfl
      | _ => exact ((Expr.accounts_cover _ h).under id).numberless rfl
    | cjump op lhs rhs onTrue onFalse =>
      exact (((lhs.accounts_cover h.1).append (rhs.accounts_cover h.2)).under id).numberless rfl
  termination_by structural s

/-- **Every number in selected code is in the range of its field, but for negative masks.**  Those
have sixteen bits with the sign.  All fields hold their numbers exactly if no negative constant
becomes a mask.  An operation computes, with what is read from its field, what it does with the
constant that was written exactly if the field holds it. -/
theorem select_fields_hold_iff {s : Stmt} {w w' : Workspace} {code : List Instr}
    (h : s.select.run w = (.ok code, w')) :
    (∀ i ∈ code, ∀ f v, i.field? = some (f, v) →
      f.Holds v ∨ f = .unsigned ∧ Field.signed.Holds v ∧ v.toInt < 0) ∧
    ((∀ i ∈ code, i.Encodable) ↔ ∀ n ∈ s.nodes, ¬n.MasksNegative) ∧
    ∀ i ∈ code, ∀ op v, i.operation? = some (.immediate op v) →
      ((∀ a, op.operator.eval a (op.field.read v) = op.operator.eval a v) ↔
        op.field.Holds v) := by
  obtain ⟨hwhole, hlines⟩ := (s.yields_lines h).2
  obtain ⟨htakes, hholds⟩ := s.accounts_lines hwhole
  have hcode : ∀ i ∈ code, ∀ f v, i.field? = some (f, v) → f.Takes v :=
    (hlines.forall_operation?_iff
      (P := fun op? => ∀ f v, op?.bind (·.field?) = some (f, v) → f.Takes v)).2 htakes
  refine ⟨hcode, ?_, fun i hi op v hop => Immediate.eval_read_iff (hcode i hi _ v ?_)⟩
  · exact (hlines.forall_operation?_iff
      (P := fun op? => ∀ f v, op?.bind (·.field?) = some (f, v) → f.Holds v)).trans hholds
  · rw [Instr.field?, hop]
    rfl

/-- A shifted value is masked by a negative constant and stored at a distance. -/
def storesMasked : Stmt :=
  .move (.mem (.binop .plus (.temp (.virtual 1)) (.const (-4))))
    (.binop .and (.binop .shl (.temp (.virtual 2)) (.const 3)) (.const (-1)))

def storesMaskedCode : List Instr := [
  .op "sll 'd0, 's0, 3" [.virtual 3] [.virtual 2],
  .op "andi 'd0, 's0, -1" [.virtual 4] [.virtual 3],
  .op "sw 's1, -4('s0)" [] [.virtual 1, .virtual 4]]

theorem storesMasked_fields_hold_iff :
    ∃ w', storesMasked.select.run { supply := ⟨2, 0⟩, frame := { name := .named "f" } } =
        (.ok storesMaskedCode, w') ∧
      (∀ i ∈ storesMaskedCode, ∀ f v, i.field? = some (f, v) →
        f.Holds v ∨ f = .unsigned ∧ Field.signed.Holds v ∧ v.toInt < 0) ∧
      ((∀ i ∈ storesMaskedCode, i.Encodable) ↔ ∀ n ∈ storesMasked.nodes, ¬n.MasksNegative) ∧
      ∀ i ∈ storesMaskedCode, ∀ op v, i.operation? = some (.immediate op v) →
        ((∀ a, op.operator.eval a (op.field.read v) = op.operator.eval a v) ↔
          op.field.Holds v) :=
  ⟨_, rfl, select_fields_hold_iff
    (w := { supply := ⟨2, 0⟩, frame := { name := .named "f" } }) rfl⟩

/-- The mask of this code is not held by its field, and with what is read from there another value
is computed. -/
theorem storesMasked_unencodable :
    ∃ i w', storesMasked.select.run { supply := ⟨2, 0⟩, frame := { name := .named "f" } } =
        (.ok storesMaskedCode, w') ∧
      i ∈ storesMaskedCode ∧ i.operation? = some (.immediate .andi (-1)) ∧
      i.field? = some (.unsigned, -1) ∧ ¬Field.unsigned.Holds (-1) ∧
      BinOp.and.eval 65536 (Field.unsigned.read (-1)) = 0 ∧ BinOp.and.eval 65536 (-1) = 65536 := by
  have hmask := Operation.decode_template (.immediate .andi (-1))
  refine ⟨.op "andi 'd0, 's0, -1" [.virtual 4] [.virtual 3], _, rfl, ?_, hmask,
    congrArg (·.bind Operation.field?) hmask, by decide, by decide, by decide⟩
  simp [storesMaskedCode]

end Lowering
