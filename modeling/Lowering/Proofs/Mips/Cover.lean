import Lowering.Canonical.Form
import Lowering.Proofs.Mips.Machine
import Lowering.Proofs.Tree.Pure
import Lowering.Proofs.Tree.Scope

/-!
# What tiles give

The tiles of a pure expression give its value, in every state in which the register that always
holds zero does.  A constant that is folded into an instruction is the same operand of the same
operator, or its negation is added.

## Main definitions

* `Tile.Gives`, `Tile.temps` — the value of a tile, and what it reads.
* `eval_of_fold` — an operation with a constant.
* `Expr.gives_cover` — the tiles of an expression.
-/

namespace Lowering

open Mips

/-! ## Values of tiles -/

/-- A tile without calls gives a word in a state.  Nothing is asked of what faults. -/
def Tile.Gives (O : Outside) (s : TreeState) : Tile → Word → Prop
  | .temp t, v => v = s.temps t
  | .const value, v => v = value
  | .name label, v => v = O.symbol label.text
  | .load base offset, v => ∃ b, base.Gives O s b ∧ v = s.memory (b + offset)
  | .immediate op operand value, v => ∃ a, operand.Gives O s a ∧ v = op.operator.eval a value
  | .binop op lhs rhs, v => ∃ a b, lhs.Gives O s a ∧ rhs.Gives O s b ∧ v = op.eval a b
  | .call .., _ | .callAt .., _ => False
  | .faulty _, _ => True
  termination_by structural tile => tile

/-- The temporaries that a tile without calls reads. -/
def Tile.temps : Tile → List Temp
  | .temp t => [t]
  | .load base _ => base.temps
  | .immediate _ operand _ => operand.temps
  | .binop _ lhs rhs => lhs.temps ++ rhs.temps
  | _ => []
  termination_by structural tile => tile

section Gives

variable {O : Outside} {s s' : TreeState} {v : Word}

/-- A tile gives the same as long as memory and the temporaries that it reads are the same. -/
theorem Tile.Gives.congr (hmemory : s.memory = s'.memory) : ∀ {tile : Tile} {v : Word},
    tile.Gives O s v → (∀ t ∈ tile.temps, s.temps t = s'.temps t) → tile.Gives O s' v
  | .temp t, _, h, htemps => h.trans (htemps t List.mem_cons_self)
  | .const _, _, h, _ => h
  | .name _, _, h, _ => h
  | .load _ _, _, ⟨b, hb, hv⟩, htemps => ⟨b, hb.congr hmemory htemps, hmemory ▸ hv⟩
  | .immediate _ _ _, _, ⟨a, ha, hv⟩, htemps => ⟨a, ha.congr hmemory htemps, hv⟩
  | .binop _ _ _, _, ⟨a, b, ha, hb, hv⟩, htemps =>
    ⟨a, b, ha.congr hmemory fun t ht => htemps t (List.mem_append_left _ ht),
      hb.congr hmemory fun t ht => htemps t (List.mem_append_right _ ht), hv⟩
  | .faulty _, _, h, _ => h

/-- A tile is the sum of a base and an offset. -/
theorem Tile.Gives.address {tile : Tile} (h : tile.Gives O s v) :
    ∃ b, tile.address.1.Gives O s b ∧ v = b + tile.address.2 := by
  unfold Tile.address
  split
  · obtain ⟨b, hb, rfl⟩ := h
    exact ⟨b, hb, rfl⟩
  · exact ⟨v, h, (Int64.add_zero v).symm⟩

theorem Tile.temps_address (tile : Tile) : tile.address.1.temps = tile.temps := by
  unfold Tile.address
  split <;> rfl

/-! ## Covering -/

/-- The operand that is not folded in. -/
def Mips.Side.operand (lhs rhs : Expr) : Side → Expr
  | .left => lhs
  | .right => rhs

theorem foldEither_eq_some {op : Immediate} {lhs rhs : Expr} {folded : Folded} :
    foldEither op lhs rhs = some folded → folded.op = op ∧
      (folded.side = .left ∧ rhs = .const folded.value ∨
        folded.side = .right ∧ lhs = .const folded.value) := by
  intro h
  unfold foldEither at h
  extract_lets left at h
  have hleft : left = some folded →
      folded.op = op ∧ folded.side = .right ∧ lhs = .const folded.value := by
    intro h
    simp only [left] at h
    split at h
    · split at h
      · cases h
        exact ⟨rfl, rfl, rfl⟩
      · cases h
    · cases h
  split at h
  · split at h
    · cases h
      exact ⟨rfl, .inl ⟨rfl, rfl⟩⟩
    · exact (hleft h).imp_right .inr
  · exact (hleft h).imp_right .inr

theorem foldShift_eq_some {op : Immediate} {rhs : Expr} {folded : Folded}
    (h : foldShift op rhs = some folded) :
    folded.op = op ∧ folded.side = .left ∧ rhs = .const folded.value := by
  unfold foldShift at h
  split at h
  · split at h
    · cases h
      exact ⟨rfl, rfl, rfl⟩
    · cases h
  · cases h

theorem foldMinus_eq_some {rhs : Expr} {folded : Folded}
    (h : foldMinus rhs = .ok (some folded)) :
    ∃ n, rhs = .const n ∧ folded = ⟨.addi, .left, -n⟩ := by
  unfold foldMinus at h
  split at h
  · next n =>
    split at h
    · cases h
    · split at h
      · cases h
        exact ⟨n, rfl, rfl⟩
      · cases h
  · cases h

/-- Either constant operand of a commutative operation can be folded. -/
theorem eval_of_foldEither (op : Immediate) {lhs rhs : Expr} {folded : Folded}
    (h : foldEither op lhs rhs = some folded)
    (hcomm : ∀ a b, op.operator.eval a b = op.operator.eval b a) (W : World) (s : TreeState) :
    op.operator.eval (lhs.value W s) (rhs.value W s) =
      folded.op.operator.eval ((folded.side.operand lhs rhs).value W s) folded.value := by
  obtain ⟨rfl, ⟨hside, rfl⟩ | ⟨hside, rfl⟩⟩ := foldEither_eq_some h
  · rw [hside]
    rfl
  · rw [hside, hcomm]
    rfl

theorem eval_of_foldShift (op : Immediate) {rhs : Expr} {folded : Folded}
    (h : foldShift op rhs = some folded) (lhs : Expr) (W : World) (s : TreeState) :
    op.operator.eval (lhs.value W s) (rhs.value W s) =
      folded.op.operator.eval ((folded.side.operand lhs rhs).value W s) folded.value := by
  obtain ⟨rfl, hside, rfl⟩ := foldShift_eq_some h
  rw [hside]
  rfl

/-- **An operation with a constant computes what it stands for.** -/
theorem eval_of_fold {op : BinOp} {lhs rhs : Expr} {folded : Folded}
    (h : fold op lhs rhs = .ok (some folded)) (W : World) (s : TreeState) :
    op.eval (lhs.value W s) (rhs.value W s) =
      folded.op.operator.eval ((folded.side.operand lhs rhs).value W s) folded.value := by
  cases op with
  | plus => exact eval_of_foldEither .addi (Except.ok.inj h) Int64.add_comm W s
  | minus =>
    obtain ⟨n, rfl, rfl⟩ := foldMinus_eq_some h
    exact Int64.sub_eq_add_neg _ n
  | and => exact eval_of_foldEither .andi (Except.ok.inj h) Int64.and_comm W s
  | or => exact eval_of_foldEither .ori (Except.ok.inj h) Int64.or_comm W s
  | xor => exact eval_of_foldEither .xori (Except.ok.inj h) Int64.xor_comm W s
  | shl => exact eval_of_foldShift .sll (Except.ok.inj h) lhs W s
  | shr => exact eval_of_foldShift .srl (Except.ok.inj h) lhs W s
  | sar => exact eval_of_foldShift .sra (Except.ok.inj h) lhs W s
  | mul | div => cases h

/-- **A tile gives the value of what it covers.** -/
theorem Expr.gives_cover (hzero : s.temps zero = 0) : ∀ {e : Expr}, e.isPure = true →
    e.cover.Gives O s (e.value O.world s)
  | .const value, _ => by
    rw [Expr.cover]
    split
    · next hvalue => exact hvalue.trans hzero.symm
    · rfl
  | .name _, _ => rfl
  | .temp _, _ => rfl
  | .binop op lhs rhs, h => by
    obtain ⟨hl, hr⟩ := Bool.and_eq_true_iff.1 h
    have hlhs := gives_cover hzero hl
    have hrhs := gives_cover hzero hr
    rw [Expr.cover]
    split
    · trivial
    · next hfold => exact ⟨_, hlhs, eval_of_fold hfold O.world s⟩
    · next hfold => exact ⟨_, hrhs, eval_of_fold hfold O.world s⟩
    · exact ⟨_, _, hlhs, hrhs, rfl⟩
  | .mem address, h => by
    have haddress : address.isPure = true := h
    obtain ⟨b, hb, hv⟩ := (gives_cover hzero haddress).address
    exact ⟨b, hb, congrArg s.memory hv⟩

/-- A tile reads only what is read in what it covers, and the register that always holds zero. -/
theorem Expr.temps_cover {t : Temp} : ∀ {e : Expr}, e.isPure = true → t ∈ e.cover.temps →
    t = zero ∨ t ∈ e.temps
  | .const value, _, ht => by
    rw [Expr.cover] at ht
    split at ht
    · exact .inl (List.mem_singleton.1 ht)
    · cases ht
  | .name _, _, ht => nomatch ht
  | .temp _, _, ht => .inr ht
  | .binop op lhs rhs, h, ht => by
    obtain ⟨hl, hr⟩ := Bool.and_eq_true_iff.1 h
    have hlhs : t ∈ lhs.cover.temps → t = zero ∨ t ∈ lhs.temps ++ rhs.temps := fun ht =>
      (temps_cover hl ht).imp_right (List.mem_append_left _)
    have hrhs : t ∈ rhs.cover.temps → t = zero ∨ t ∈ lhs.temps ++ rhs.temps := fun ht =>
      (temps_cover hr ht).imp_right (List.mem_append_right _)
    rw [Expr.cover] at ht
    split at ht
    · cases ht
    · exact hlhs ht
    · exact hrhs ht
    · exact (List.mem_append.1 ht).elim hlhs hrhs
  | .mem address, h, ht => by
    have haddress : address.isPure = true := h
    have hbase : t ∈ address.cover.address.1.temps := ht
    rw [Tile.temps_address] at hbase
    exact temps_cover (e := address) haddress hbase

/-- What holds of the temporaries of an expression, and of the register that always holds zero,
holds of what its tiles read. -/
theorem Expr.forall_temps_cover {e : Expr} {P : Temp → Prop} (hpure : e.isPure = true)
    (hzero : P zero) (h : ∀ t ∈ e.temps, P t) : ∀ t ∈ e.cover.temps, P t := by
  intro t ht
  rcases Expr.temps_cover hpure ht with rfl | ht
  · exact hzero
  · exact h t ht

end Gives

end Lowering
