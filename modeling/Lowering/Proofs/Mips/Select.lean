import Lowering.Mips.Select
import Lowering.Proofs.Block.Goals
import Lowering.Proofs.Words

/-!
# What selection gives

Canonical statements that obey the rules of the target have instructions.  Each of these reads
two virtual temporaries at most, and few registers may be among what it reads; if it writes a
virtual temporary, it writes nothing else; and it jumps only where a branch leads.

Records are written on the way, so whether there are instructions may depend on who listens: the
text of an instruction with a label in it may be no text at all.

## Main definitions

* `Mips.rules` — what may occur in statements.
* `Instr.Tame` — what selected instructions are like.
* `Stmt.ensures_selectAll` — the main result.
-/

namespace Lowering

open Mips Template

/-! ## Passes that draw temporaries and write records -/

section Ensures

variable {α β : Type} {quiet : Prop} {P : Nat → Nat → α → Prop} {Q : Nat → Nat → β → Prop}

/-- The pass gives a value that goes with the numbers of temporaries before it and after it,
provided that nobody listens if that is asked for. -/
def Pass.Ensures (quiet : Prop) (x : Pass α) (P : Nat → Nat → α → Prop) : Prop :=
  ∀ w : Workspace, (quiet → w.journal.records? = none) → ∃ a w', x.run w = (.ok a, w') ∧
    w'.frame = w.frame ∧ (quiet → w'.journal.records? = none) ∧
    w.supply.temps ≤ w'.supply.temps ∧ P w.supply.temps w'.supply.temps a

namespace Pass.Ensures

theorem pure {a : α} (h : ∀ n, P n n a) : Pass.Ensures quiet (pure a) P :=
  fun w hw => ⟨a, w, rfl, rfl, hw, Nat.le_refl _, h _⟩

theorem bind {x : Pass α} {f : α → Pass β} (hx : Pass.Ensures quiet x P)
    (hf : ∀ a, Pass.Ensures quiet (f a) fun mid hi b => ∀ lo ≤ mid, P lo mid a → Q lo hi b) :
    Pass.Ensures quiet (x >>= f) Q := by
  intro w hw
  obtain ⟨a, w', hrun, hframe, hw', hle, hP⟩ := hx w hw
  obtain ⟨b, w'', hrun', hframe', hw'', hle', hQ⟩ := hf a w' hw'
  refine ⟨b, w'', ?_, hframe'.trans hframe, hw'', Nat.le_trans hle hle', hQ _ hle hP⟩
  rw [Attempt.run_bind_ok f hrun, hrun']

theorem imp {x : Pass α} {P' : Nat → Nat → α → Prop} (hx : Pass.Ensures quiet x P)
    (h : ∀ lo hi a, lo ≤ hi → P lo hi a → P' lo hi a) : Pass.Ensures quiet x P' := by
  intro w hw
  obtain ⟨a, w', hrun, hframe, hw', hle, hP⟩ := hx w hw
  exact ⟨a, w', hrun, hframe, hw', hle, h _ _ a hle hP⟩

theorem temp : Pass.Ensures quiet (Pass.fresh Fresh.temp)
    fun lo hi t => t = .virtual (lo + 1) ∧ hi = lo + 1 :=
  fun w hw => ⟨_, { w with supply := ⟨w.supply.temps + 1, w.supply.labels⟩ }, rfl, rfl, hw,
    Nat.le_succ _, rfl, rfl⟩

/-- An instruction is emitted, if it can be put into words or nobody listens. -/
theorem emit {i : Instr} (h : quiet ∨ ∃ text, i.text = .ok text) :
    Pass.Ensures quiet (emit i) fun lo hi code => hi = lo ∧ code = [i] := by
  intro w hw
  have hnote : ∃ w', (Pass.noteInstr .trace "Selected " i "").run w = (.ok (), w') ∧
      w'.frame = w.frame ∧ (quiet → w'.journal.records? = none) ∧ w'.supply = w.supply := by
    cases hr : w.journal.records? with
    | none => exact ⟨w, Pass.run_noteText_of_silent hr .., rfl, fun _ => hr, rfl⟩
    | some records =>
      have hloud : ¬quiet := fun hq => by simp [hw hq] at hr
      obtain ⟨text, ht⟩ := h.resolve_left hloud
      refine ⟨{ w with journal := ⟨some (records.push ⟨.trace, "Selected " ++ text ++ ""⟩)⟩ }, ?_,
        rfl, fun hq => absurd hq hloud, rfl⟩
      simp [Pass.noteInstr, Pass.noteText, Journal.add, hr, ht, Except.map]
  obtain ⟨w', hrun, hframe, hw', hsupply⟩ := hnote
  refine ⟨[i], w', ?_, hframe, hw', by simp [hsupply], by rw [hsupply], rfl⟩
  rw [Mips.emit, Attempt.run_bind_ok _ hrun]
  rfl

end Pass.Ensures

end Ensures

/-! ## Instructions -/

/-- Registers that selected instructions read, or the mark behind them. -/
def Mips.readable : List Temp := [zero, sp, fp, ra, v0] ++ argumentRegisters ++ calleeSaved

/-- The temporary was drawn before, and if it is a register it may be read. -/
structure Temp.Readable (n : Nat) (t : Temp) : Prop where
  within : t.Within n
  register : t.isRegister = true → t ∈ Mips.readable

theorem Temp.Readable.mono {m n : Nat} {t : Temp} (h : t.Readable m) (hmn : m ≤ n) :
    t.Readable n :=
  ⟨h.within.mono hmn, h.register⟩

theorem readable_v0 (n : Nat) : v0.Readable n := ⟨trivial, fun _ => by decide⟩

/-- What a selected instruction is like: its temporaries were drawn before, and few registers are
among those that it reads; it reads two virtual temporaries at most, and if it writes one it writes
nothing else; it jumps to goals only; and it has a text if someone listens or if it is a copy. -/
structure Instr.Tame (quiet : Prop) (goal : Label → Prop) (n : Nat) (i : Instr) : Prop where
  defs : ∀ t ∈ i.defs, t.Within n
  uses : ∀ t ∈ i.uses, t.Readable n
  few : (i.uses.filter (!·.isRegister)).length ≤ 2
  single : (∃ t ∈ i.defs, t.isRegister = false) → i.defs.length = 1
  goals : ∀ labels, i.targets? = some labels → ∀ l ∈ labels, goal l
  words : quiet ∨ ∃ text, i.text = .ok text
  copies : i.copy?.isSome → ∃ text, i.text = .ok text

section Tame

variable {quiet : Prop} {goal : Label → Prop} {m n : Nat} {template : String} {t : Temp}
  {src : List Temp} {code code' : List Instr}

theorem Instr.Tame.mono {i : Instr} (h : i.Tame quiet goal m) (hmn : m ≤ n) :
    i.Tame quiet goal n :=
  { h with
    defs := fun t ht => (h.defs t ht).mono hmn
    uses := fun t ht => (h.uses t ht).mono hmn }

theorem Instr.tame_oper {dst : List Temp} {jump : Option (List Label)}
    (hwords : quiet ∨ Fillable template.toList) (hdst : ∀ t ∈ dst, t.Within n)
    (hsrc : ∀ t ∈ src, t.Readable n) (hfew : (src.filter (!·.isRegister)).length ≤ 2)
    (hsingle : (∃ t ∈ dst, t.isRegister = false) → dst.length = 1)
    (hgoal : ∀ labels, jump = some labels → ∀ l ∈ labels, goal l) :
    (Instr.oper template dst src jump).Tame quiet goal n :=
  ⟨hdst, hsrc, hfew, hsingle, hgoal, hwords.imp_right exists_fill_iff.2, nofun⟩

/-- An operation with two operands at most and a result in one place. -/
theorem Instr.tame_result (hwords : quiet ∨ Fillable template.toList) (ht : t.Within n)
    (hsrc : ∀ t ∈ src, t.Readable n) (hlen : src.length ≤ 2) :
    (Instr.op template [t] src).Tame quiet goal n :=
  tame_oper hwords (by simpa using ht) hsrc (Nat.le_trans (List.length_filter_le ..) hlen)
    (fun _ => rfl) nofun

/-- An operation with two operands at most and no result. -/
theorem Instr.tame_effect {jump : Option (List Label)} (hwords : Fillable template.toList)
    (hsrc : ∀ t ∈ src, t.Readable n) (hlen : src.length ≤ 2)
    (hgoal : ∀ labels, jump = some labels → ∀ l ∈ labels, goal l) :
    (Instr.oper template [] src jump).Tame quiet goal n :=
  tame_oper (.inr hwords) nofun hsrc (Nat.le_trans (List.length_filter_le ..) hlen)
    (by rintro ⟨_, ⟨⟩, _⟩) hgoal

theorem exists_text_copy (dst src : Temp) : ∃ text, (copy dst src).text = .ok text :=
  exists_fill_iff.2 (by simp [Role.ofLetter?])

theorem Instr.tame_copy {dst : Temp} (hdst : dst.Within n) (hsrc : t.Readable n) :
    (copy dst t).Tame quiet goal n := by
  refine ⟨by simpa [copy, Instr.defs] using hdst, by simpa [copy, Instr.uses] using hsrc, ?_,
    fun _ => rfl, nofun, .inr (exists_text_copy dst t), fun _ => exists_text_copy dst t⟩
  exact Nat.le_trans (List.length_filter_le ..) (by simp [copy, Instr.uses])

theorem Instr.tame_define (l : Label) : (Instr.define l).Tame quiet goal n :=
  ⟨nofun, nofun, Nat.zero_le _, by rintro ⟨_, ⟨⟩, _⟩, nofun, .inr ⟨_, rfl⟩, nofun⟩

/-- The mark at the end reads registers only. -/
theorem Instr.tame_sink : sink.Tame quiet goal n := by
  have hregs : ∀ t ∈ sink.uses, t.isRegister = true ∧ t ∈ Mips.readable := by decide
  refine tame_oper (.inr (by simp)) nofun (fun t ht => ?_) (by decide) (by rintro ⟨_, ⟨⟩, _⟩) ?_
  · exact ⟨Temp.within_of_isRegister (hregs t ht).1 n, fun _ => (hregs t ht).2⟩
  · rintro _ ⟨⟩
    exact nofun

/-- A call reads its arguments in registers, and at most one other operand. -/
theorem Instr.tame_call (src : List Temp) (count : Nat)
    (hwords : quiet ∨ Fillable template.toList) (hsrc : ∀ t ∈ src, t.Readable n)
    (hlen : src.length ≤ 1) :
    (Instr.op template callDefs (src ++ argumentRegisters.take count)).Tame quiet goal n := by
  have hregs : ∀ t ∈ argumentRegisters.take count, t ∈ argumentRegisters :=
    fun t ht => List.mem_of_mem_take ht
  have hreg : ∀ t ∈ callDefs ++ argumentRegisters, t.isRegister = true := by decide
  refine tame_oper hwords (fun t ht => ?_) (fun t ht => ?_) ?_ ?_ nofun
  · exact Temp.within_of_isRegister (hreg t (List.mem_append_left _ ht)) n
  · rcases List.mem_append.1 ht with ht | ht
    · exact hsrc t ht
    · have hr := hreg t (List.mem_append_right _ (hregs t ht))
      refine ⟨Temp.within_of_isRegister hr n, fun _ => List.mem_append_left _ ?_⟩
      exact List.mem_append_right _ (hregs t ht)
  · have hnone : (argumentRegisters.take count).filter (!·.isRegister) = [] := by
      refine List.filter_eq_nil_iff.2 fun t ht => ?_
      simp [hreg t (List.mem_append_right _ (hregs t ht))]
    rw [List.filter_append, hnone, List.append_nil]
    exact Nat.le_trans (List.length_filter_le ..) (Nat.le_succ_of_le hlen)
  · rintro ⟨t, ht, hv⟩
    simp [hreg t (List.mem_append_left _ ht)] at hv

/-- All instructions are tame. -/
def Tames (quiet : Prop) (goal : Label → Prop) (n : Nat) (code : List Instr) : Prop :=
  ∀ i ∈ code, i.Tame quiet goal n

theorem Tames.mono (h : Tames quiet goal m code) (hmn : m ≤ n) : Tames quiet goal n code :=
  fun i hi => (h i hi).mono hmn

theorem Tames.append (h : Tames quiet goal n code) (h' : Tames quiet goal n code') :
    Tames quiet goal n (code ++ code') :=
  fun i hi => (List.mem_append.1 hi).elim (h i) (h' i)

theorem Tames.concat {i : Instr} (h : Tames quiet goal n code) (hi : i.Tame quiet goal n) :
    Tames quiet goal n (code ++ [i]) :=
  h.append (by simpa [Tames] using hi)

end Tame

/-! ## Tiles -/

/-- What may occur in statements: no least word; labels that can be put into words, unless nobody
listens; temporaries that were drawn before; no register that is read but those that always hold
the same; and no more arguments than there are registers for them. -/
def Mips.rules (quiet : Prop) (n : Nat) (label goal : Label → Prop) : Rules where
  const v := v ≠ Int64.minValue
  name l := quiet ∨ l.Wordable
  temp t := t.Within n ∧ (t.isRegister = true → t ∈ [zero, sp, fp, ra])
  target t := t.Within n
  arity count := count ≤ argumentRegisters.length
  label := label
  goal := goal

mutual

/-- Everything in the tile obeys the rules. -/
def Tile.Obeys (R : Rules) : Tile → Prop
  | .temp t => R.temp t
  | .const _ => True
  | .name l => R.name l
  | .load base _ => base.Obeys R
  | .immediate _ operand _ => operand.Obeys R
  | .binop _ lhs rhs => lhs.Obeys R ∧ rhs.Obeys R
  | .call function args => R.arity args.length ∧ R.name function ∧ Tile.AllObey R args
  | .callAt function args => R.arity args.length ∧ function.Obeys R ∧ Tile.AllObey R args
  | .faulty _ => False
  termination_by structural tile => tile

@[inherit_doc Tile.Obeys]
def Tile.AllObey (R : Rules) : List Tile → Prop
  | [] => True
  | tile :: rest => tile.Obeys R ∧ Tile.AllObey R rest
  termination_by structural tiles => tiles

end

section Cover

variable {R : Rules} (hzero : R.temp zero) (hconst : ∀ v, R.const v → v ≠ Int64.minValue)

/-- Only the least word cannot be folded. -/
theorem exists_fold {op : BinOp} {lhs rhs : Expr} (h : rhs ≠ .const Int64.minValue) :
    ∃ folded, fold op lhs rhs = .ok folded := by
  cases op with
  | minus =>
    show ∃ folded, foldMinus rhs = .ok folded
    unfold foldMinus
    split
    · next v => exact ⟨_, if_neg fun hv => h (by rw [hv])⟩
    · exact ⟨none, rfl⟩
  | _ => exact ⟨_, rfl⟩

theorem Tile.obeys_address {tile : Tile} (h : tile.Obeys R) : tile.address.1.Obeys R := by
  unfold Tile.address
  split
  · exact h
  · exact h

include hzero hconst

/-- A pure expression is covered. -/
theorem Expr.obeys_cover : ∀ e : Expr, e.isPure = true → e.Obeys R → e.cover.Obeys R
  | .const v, _, _ => by
    rw [Expr.cover]
    split
    · exact hzero
    · trivial
  | .name l, _, h => h
  | .temp t, _, h => h
  | .binop op lhs rhs, hpure, h => by
    obtain ⟨hl, hr⟩ := Bool.and_eq_true_iff.1 hpure
    have hlhs := lhs.obeys_cover hl h.1
    have hrhs := rhs.obeys_cover hr h.2
    have hmin : rhs ≠ .const Int64.minValue := by
      rintro rfl
      exact hconst _ h.2 rfl
    obtain ⟨folded, hfold⟩ := exists_fold hmin
    rw [Expr.cover, hfold]
    match folded with
    | none => exact ⟨hlhs, hrhs⟩
    | some ⟨_, .left, _⟩ => exact hlhs
    | some ⟨_, .right, _⟩ => exact hrhs
  | .mem address, hpure, h => Tile.obeys_address (address.obeys_cover hpure h)

theorem Expr.allObey_coverAll {es : List Expr} (hpure : es.all Expr.isPure = true)
    (h : Expr.AllObey R es) : Tile.AllObey R (Expr.coverAll es) := by
  induction es with
  | nil => trivial
  | cons e es ih =>
    rw [List.all_cons, Bool.and_eq_true] at hpure
    exact ⟨e.obeys_cover hzero hconst hpure.1 h.1, ih hpure.2 h.2⟩

omit hzero hconst in
theorem Expr.length_coverAll (es : List Expr) : (Expr.coverAll es).length = es.length := by
  induction es with
  | nil => rfl
  | cons e es ih => rw [Expr.coverAll, List.length_cons, ih, List.length_cons]

/-- **What is left of an expression is covered**, and what is covered obeys the rules. -/
theorem Expr.obeys_cover_of_pureOrCall {e : Expr} (hform : e.isPureOrCall = true)
    (h : e.Obeys R) : e.cover.Obeys R := by
  rcases Bool.or_eq_true_iff.1 hform with hpure | hcall
  · exact e.obeys_cover hzero hconst hpure h
  · cases e with
    | call function args =>
      obtain ⟨hf, has⟩ := Bool.and_eq_true_iff.1 hcall
      have hargs := Expr.allObey_coverAll hzero hconst has h.2.2
      have harity : R.arity (Expr.coverAll args).length := by
        rw [Expr.length_coverAll]
        exact h.1
      have hfunction := function.obeys_cover hzero hconst hf h.2.1
      cases function with
      | name l => exact ⟨harity, h.2.1, hargs⟩
      | _ => exact ⟨harity, hfunction, hargs⟩
    | _ => cases hcall

end Cover

/-! ## Selection -/

section Select

variable {quiet : Prop} {n : Nat} {label goal : Label → Prop}

/-- Tame instructions and a place for the value. -/
structure Computes (quiet : Prop) (goal : Label → Prop) (n : Nat) (out : List Instr × Temp) :
    Prop where
  tames : Tames quiet goal n out.1
  value : out.2.Readable n

theorem Computes.mono {m : Nat} {out : List Instr × Temp} (h : Computes quiet goal m out)
    (hmn : m ≤ n) : Computes quiet goal n out :=
  ⟨h.tames.mono hmn, h.value.mono hmn⟩

theorem ensures_emitResult (goal : Label → Prop) {template : String} (code : List Instr)
    (src : List Temp) (hwords : quiet ∨ Fillable template.toList) (hlen : src.length ≤ 2) :
    Pass.Ensures quiet (emitResult code fun t => .op template [t] src) fun lo hi out =>
      Tames quiet goal lo code → (∀ t ∈ src, t.Readable lo) → Computes quiet goal hi out := by
  refine .bind .temp fun t => .bind (.emit (hwords.imp_right exists_fill_iff.2)) fun emitted =>
    .pure fun hi mid _ hemit lo _ ht hcode hsrc => ?_
  obtain ⟨rfl, rfl⟩ := hemit
  obtain ⟨rfl, rfl⟩ := ht
  have hle := Nat.le_succ lo
  refine ⟨(hcode.mono hle).concat (Instr.tame_result hwords (Nat.le_refl _) ?_ hlen), ?_⟩
  · exact fun t ht => (hsrc t ht).mono hle
  · exact ⟨Nat.le_refl _, nofun⟩

theorem ensures_checkArgs {count : Nat} (h : count ≤ argumentRegisters.length) :
    Pass.Ensures quiet (checkArgs count) fun lo hi _ => hi = lo := by
  rw [checkArgs, if_neg (Nat.not_lt.2 h)]
  exact .pure fun _ => rfl

theorem fillable_wordText (v : Word) (cs : List Char) :
    Fillable ((Word.text v).toList ++ cs) ↔ Fillable cs :=
  fillable_append fun _ => ne_quote_of_mem_toString

theorem fillable_wordText_nil (v : Word) : Fillable (Word.text v).toList :=
  fillable_of_ne_quote fun _ => ne_quote_of_mem_toString

mutual

/-- **A tile has instructions.** -/
theorem Tile.ensures_select : ∀ tile : Tile, tile.Obeys (rules quiet n label goal) →
    Pass.Ensures quiet tile.select fun lo hi out => n ≤ lo → Computes quiet goal hi out
  | .temp t, h => .pure fun m hm => by
    have hreadable : ∀ r ∈ [zero, sp, fp, ra], r ∈ Mips.readable := by decide
    exact ⟨nofun, h.1.mono hm, fun hreg => hreadable t (h.2 hreg)⟩
  | .const v, _ => by
    have hwords : Fillable ("li 'd0, " ++ Word.text v).toList := by
      simp [Role.ofLetter?, fillable_wordText_nil]
    exact (ensures_emitResult goal [] [] (.inr hwords) (Nat.zero_le _)).imp
      fun lo hi out _ hout _ => hout nofun nofun
  | .name l, h => by
    have hwords : quiet ∨ Fillable ("la 'd0, " ++ l.text).toList :=
      h.imp_right fun hl => by simpa [Role.ofLetter?] using! hl
    exact (ensures_emitResult goal [] [] hwords (Nat.zero_le _)).imp
      fun lo hi out _ hout _ => hout nofun nofun
  | .load base offset, h => by
    have hwords : Fillable ("lw 'd0, " ++ Word.text offset ++ "('s0)").toList := by
      simp [Role.ofLetter?, fillable_wordText]
    refine .bind (base.ensures_select h) fun (code, b) => ?_
    refine (ensures_emitResult goal code [b] (.inr hwords) (by simp)).imp
      fun mid hi out _ hout lo _ hbase hn => ?_
    exact hout (hbase hn).tames (by simpa using (hbase hn).value)
  | .immediate op operand v, h => by
    have hwords : Fillable (op.mnemonic ++ " 'd0, 's0, " ++ Word.text v).toList := by
      cases op <;> simp [Immediate.mnemonic, Role.ofLetter?, fillable_wordText_nil]
    refine .bind (operand.ensures_select h) fun (code, a) => ?_
    refine (ensures_emitResult goal code [a] (.inr hwords) (by simp)).imp
      fun mid hi out _ hout lo _ hoperand hn => ?_
    exact hout (hoperand hn).tames (by simpa using (hoperand hn).value)
  | .binop op lhs rhs, h => by
    have hwords : Fillable (binopMnemonic op ++ " 'd0, 's0, 's1").toList := by
      cases op <;> simp [binopMnemonic, Role.ofLetter?]
    refine .bind (lhs.ensures_select h.1) fun (first, a) =>
      .bind (rhs.ensures_select h.2) fun (second, b) => ?_
    refine (ensures_emitResult goal (first ++ second) [a, b] (.inr hwords) (by simp)).imp
      fun mid hi out _ hout mid' hmid hrhs lo hlo hlhs hn => ?_
    have hl := (hlhs hn).mono hmid
    have hr := hrhs (Nat.le_trans hn hlo)
    exact hout (hl.tames.append hr.tames) (by simpa using ⟨hl.value, hr.value⟩)
  | .call function args, h => by
    have hwords : quiet ∨ Fillable ("jal " ++ function.text).toList :=
      h.2.1.imp_right fun hl => by simpa using! hl
    refine .bind (ensures_checkArgs h.1) fun _ =>
      .bind (Tile.ensures_selectArgs args argumentRegisters (by decide) h.2.2) fun code =>
      .bind (.emit (hwords.imp_right exists_fill_iff.2)) fun last =>
      .pure fun hi mid _ hlast mid' _ hcode lo _ hcheck hn => ?_
    obtain ⟨rfl, rfl⟩ := hlast
    subst hcheck
    exact ⟨(hcode hn).concat (Instr.tame_call [] args.length hwords (by simp) (Nat.zero_le _)),
      readable_v0 hi⟩
  | .callAt function args, h => by
    have hwords : Fillable "jalr 's0".toList := by simp [Role.ofLetter?]
    refine .bind (function.ensures_select h.2.1) fun (first, f) =>
      .bind (ensures_checkArgs h.1) fun _ =>
      .bind (Tile.ensures_selectArgs args argumentRegisters (by decide) h.2.2) fun code =>
      .bind (.emit (.inr (exists_fill_iff.2 hwords))) fun last =>
      .pure fun hi mid _ hlast mid' hmid hcode mid'' hcheck' hcheck lo hlo hfunction hn => ?_
    obtain ⟨rfl, rfl⟩ := hlast
    subst hcheck
    have hf := (hfunction hn).mono hmid
    refine ⟨(hf.tames.append (hcode (Nat.le_trans hn hlo))).concat ?_, readable_v0 hi⟩
    exact Instr.tame_call [f] args.length (.inr hwords) (by simpa using hf.value) (Nat.le_refl _)
  | .faulty _, h => h.elim
  termination_by structural tile => tile

/-- Arguments are copied to their registers. -/
theorem Tile.ensures_selectArgs : ∀ (args : List Tile) (registers : List Temp),
    (∀ r ∈ registers, r.isRegister = true) → Tile.AllObey (rules quiet n label goal) args →
    Pass.Ensures quiet (Tile.selectArgs registers args)
      fun lo hi code => n ≤ lo → Tames quiet goal hi code
  | [], _, _, _ => .pure fun _ _ => nofun
  | arg :: rest, [], _, _ => .pure fun _ _ => nofun
  | arg :: rest, r :: registers, hregs, h => by
    rw [List.forall_mem_cons] at hregs
    refine .bind (arg.ensures_select h.1) fun (code, value) =>
      .bind (.emit (.inr (exists_text_copy r value))) fun last =>
      .bind (Tile.ensures_selectArgs rest registers hregs.2 h.2) fun more =>
      .pure fun hi mid hmid hmore mid' _ hlast lo hlo harg hn => ?_
    obtain ⟨rfl, rfl⟩ := hlast
    have ha := (harg hn).mono hmid
    refine (ha.tames.concat (Instr.tame_copy ?_ ha.value)).append (hmore (Nat.le_trans hn hlo))
    exact Temp.within_of_isRegister hregs.1 hi
  termination_by structural args => args

end

theorem rules_temp_zero : (rules quiet n label goal).temp zero := ⟨trivial, fun _ => by decide⟩

/-- What is left of an expression has instructions. -/
theorem Expr.ensures_select {e : Expr} (hform : e.isPureOrCall = true)
    (h : e.Obeys (rules quiet n label goal)) :
    Pass.Ensures quiet e.cover.select fun lo hi out => n ≤ lo → Computes quiet goal hi out :=
  Tile.ensures_select _
    (Expr.obeys_cover_of_pureOrCall rules_temp_zero (fun _ hv => hv) hform h)

theorem Expr.isPureOrCall_of_isPure {e : Expr} (h : e.isPure = true) : e.isPureOrCall = true :=
  Bool.or_eq_true_iff.2 (.inl h)

/-- A value is computed and copied. -/
theorem ensures_copy {dst : Temp} {source : Expr} (hdst : dst.Within n)
    (hform : source.isPureOrCall = true) (h : source.Obeys (rules quiet n label goal)) :
    Pass.Ensures quiet (do
      let (code, src) ← source.cover.select
      let last ← emit (copy dst src)
      pure (code ++ last)) fun lo hi code => n ≤ lo → Tames quiet goal hi code := by
  refine .bind (Expr.ensures_select hform h) fun (code, src) =>
    .bind (.emit (.inr (exists_text_copy dst src))) fun last =>
    .pure fun hi mid _ hlast lo hlo hcode hn => ?_
  obtain ⟨rfl, rfl⟩ := hlast
  exact (hcode hn).tames.concat (Instr.tame_copy (hdst.mono (Nat.le_trans hn hlo)) (hcode hn).value)

theorem Stmt.ensures_selectMove {target source : Expr}
    (h : (Stmt.move target source).Fits (rules quiet n label goal)) :
    Pass.Ensures quiet (Stmt.selectMove target source)
      fun lo hi code => n ≤ lo → Tames quiet goal hi code := by
  obtain ⟨hcanonical, htarget, hsource⟩ := h
  cases target with
  | mem address =>
    obtain ⟨ha, hs⟩ := Bool.and_eq_true_iff.1 hcanonical
    have hbase := Tile.obeys_address
      (Expr.obeys_cover rules_temp_zero (fun _ hv => hv) address ha htarget)
    have hwords : Fillable
        ("sw 's1, " ++ Word.text address.cover.address.2 ++ "('s0)").toList := by
      simp [Role.ofLetter?, fillable_wordText]
    refine .bind (Tile.ensures_select _ hbase) fun (first, b) =>
      .bind (Expr.ensures_select (Expr.isPureOrCall_of_isPure hs) hsource) fun (second, value) =>
      .bind (.emit (.inr (exists_fill_iff.2 hwords))) fun last =>
      .pure fun hi mid _ hlast mid' hmid hvalue lo hlo hb hn => ?_
    obtain ⟨rfl, rfl⟩ := hlast
    have hb := (hb hn).mono hmid
    have hv := hvalue (Nat.le_trans hn hlo)
    refine (hb.tames.append hv.tames).concat (Instr.tame_effect hwords ?_ (by simp) nofun)
    simpa using ⟨hb.value, hv.value⟩
  | temp dst =>
    cases source with
    | const v =>
      have hwords : Fillable ("li 'd0, " ++ Word.text v).toList := by
        simp [Role.ofLetter?, fillable_wordText_nil]
      have hemit : Pass.Ensures quiet (emit (loadConst dst v)) _ :=
        .emit (.inr (exists_fill_iff.2 hwords))
      refine hemit.imp fun lo hi code _ hcode hn => ?_
      obtain ⟨rfl, rfl⟩ := hcode
      exact List.forall_mem_singleton.2 (Instr.tame_result (.inr hwords) (htarget.mono hn) nofun
        (Nat.zero_le _))
    | _ => exact ensures_copy htarget hcanonical hsource
  | _ => simp [Stmt.isCanonical] at hcanonical

theorem Branch.ensures_select {b : Branch}
    (h : (Stmt.branch b).Fits (rules quiet n label goal)) :
    Pass.Ensures quiet b.select fun lo hi code => n ≤ lo → Tames quiet goal hi code := by
  obtain ⟨hcanonical, hb⟩ := h
  cases b with
  | jump target labels =>
    obtain ⟨htarget, hleads, hlabels⟩ := hb
    -- A target that is no label is computed, and then the list says where it may lead.
    have hjump : Pass.Ensures quiet (do
        let (code, address) ← target.cover.select
        let last ← emit (.jumping "jr 's0" [address] labels)
        pure (code ++ last)) fun lo hi code => n ≤ lo → Tames quiet goal hi code := by
      have hwords : Fillable "jr 's0".toList := by simp [Role.ofLetter?]
      refine .bind (Expr.ensures_select (Expr.isPureOrCall_of_isPure hcanonical) htarget)
        fun (code, address) => .bind (.emit (.inr (exists_fill_iff.2 hwords))) fun last =>
        .pure fun hi mid _ hlast lo _ hcode hn => ?_
      obtain ⟨rfl, rfl⟩ := hlast
      refine (hcode hn).tames.concat (Instr.tame_effect hwords ?_ (by simp) ?_)
      · simpa using (hcode hn).value
      · rintro _ ⟨⟩
        exact hlabels
    cases target with
    | name l =>
      have hwords : Fillable "j 'j0".toList := by simp [Role.ofLetter?]
      have hemit : Pass.Ensures quiet (emit (.jumping "j 'j0" [] [l])) _ :=
        .emit (.inr (exists_fill_iff.2 hwords))
      refine hemit.imp fun lo hi code _ hcode _ => ?_
      obtain ⟨rfl, rfl⟩ := hcode
      refine List.forall_mem_singleton.2 (Instr.tame_effect hwords nofun (Nat.zero_le _) ?_)
      rintro _ ⟨⟩
      exact List.forall_mem_singleton.2 hleads
    | _ => exact hjump
  | cjump op lhs rhs onTrue onFalse =>
    obtain ⟨hl, hr⟩ := Bool.and_eq_true_iff.1 hcanonical
    have hwords : Fillable (branchMnemonic op ++ " 's0, 's1, 'j0").toList := by
      cases op <;> simp [branchMnemonic, Role.ofLetter?]
    refine .bind (Expr.ensures_select (Expr.isPureOrCall_of_isPure hl) hb.1.1) fun (first, a) =>
      .bind (Expr.ensures_select (Expr.isPureOrCall_of_isPure hr) hb.1.2) fun (second, b) =>
      .bind (.emit (.inr (exists_fill_iff.2 hwords))) fun last =>
      .pure fun hi mid _ hlast mid' hmid hrhs lo hlo hlhs hn => ?_
    obtain ⟨rfl, rfl⟩ := hlast
    have hl := (hlhs hn).mono hmid
    have hr := hrhs (Nat.le_trans hn hlo)
    refine (hl.tames.append hr.tames).concat (Instr.tame_effect hwords ?_ (by simp) ?_)
    · simpa using ⟨hl.value, hr.value⟩
    · rintro _ ⟨⟩
      simpa using! hb.2

/-- **A canonical statement that obeys the rules has instructions**, and a label is defined by
one of them. -/
theorem Stmt.ensures_select {st : Stmt} (h : st.Fits (rules quiet n label goal)) :
    Pass.Ensures quiet st.select fun lo hi code => n ≤ lo →
      Tames quiet goal hi code ∧ ∀ l, st = .label l → .define l ∈ code := by
  cases st with
  | seq => exact absurd h.canonical (by simp [Stmt.isCanonical])
  | label l =>
    refine (Pass.Ensures.emit (.inr ⟨_, rfl⟩)).imp fun lo hi code _ hcode _ => ?_
    obtain ⟨rfl, rfl⟩ := hcode
    refine ⟨by simpa [Tames] using Instr.tame_define l, ?_⟩
    rintro _ ⟨⟩
    exact List.mem_cons_self
  | move target source =>
    exact (Stmt.ensures_selectMove h).imp fun lo hi code _ hcode hn => ⟨hcode hn, by simp⟩
  | eval expr =>
    -- No constant is evaluated in canonical statements.
    have hform : expr.isPureOrCall = true := by
      cases expr with
      | const => cases h.canonical
      | _ => exact h.canonical
    exact .bind (Expr.ensures_select hform h.obeys) fun _ =>
      .pure fun _ _ _ hcode hn => ⟨(hcode hn).tames, by simp⟩
  | branch b =>
    exact (Branch.ensures_select h).imp fun lo hi code _ hcode hn => ⟨hcode hn, by simp⟩

/-- **Canonical statements that obey the rules have instructions**, and each label that they
define is defined by one of them. -/
theorem Stmt.ensures_selectAll {stmts : List Stmt}
    (h : ∀ st ∈ stmts, st.Fits (rules quiet n label goal)) :
    Pass.Ensures quiet (Stmt.selectAll stmts) fun lo hi code => n ≤ lo →
      Tames quiet goal hi code ∧ ∀ l, .label l ∈ stmts → .define l ∈ code := by
  induction stmts with
  | nil => exact .pure fun _ _ => ⟨nofun, nofun⟩
  | cons st stmts ih =>
    rw [List.forall_mem_cons] at h
    refine .bind (Stmt.ensures_select h.1) fun head => .bind (ih h.2) fun tail =>
      .pure fun hi mid hhi htail lo hlo hhead hn => ?_
    obtain ⟨hhead, hlabel⟩ := hhead hn
    obtain ⟨htail, hlabels⟩ := htail (Nat.le_trans hn hlo)
    refine ⟨(hhead.mono hhi).append htail, fun l hl => List.mem_append.2 ?_⟩
    rcases List.mem_cons.1 hl with hl | hl
    · exact .inl (hlabel l hl.symm)
    · exact .inr (hlabels l hl)

end Select

end Lowering
