import Lowering.Proofs.Mips.Passing
import Lowering.Proofs.Mips.Select

/-!
# Instructions compute what tiles give

The instructions of a tile compute its value.  They change temporaries only that were drawn for
them, so that the values of several tiles can be computed one after another.  For a call the values
of its arguments are passed in registers, and the address of the function is computed before that.

## Main definitions

* `Pass.Yields` — what a pass gives if it does not fault.
* `Delivers`, `Invokes` — instructions compute a value, and make a call.
* `Tile.yields_select`, `Tile.yields_selectArgs` — the instructions of tiles.
* `Expr.yields_select` — the instructions of expressions.
* `Expr.yields_callSite`, `Expr.yields_call` — the instructions of calls.
-/

namespace Lowering

open Mips

/-! ## Passes that draw temporaries -/

section Yields

variable {α β : Type} {P : Nat → Nat → α → Prop} {Q : Nat → Nat → β → Prop}

/-- If the pass gives a value, the value goes with the numbers of temporaries before it and after
it. -/
def Pass.Yields (x : Pass α) (P : Nat → Nat → α → Prop) : Prop :=
  ∀ ⦃w a w'⦄, x.run w = (.ok a, w') →
    w.supply.temps ≤ w'.supply.temps ∧ P w.supply.temps w'.supply.temps a

namespace Pass.Yields

theorem pure {a : α} (h : ∀ n, P n n a) : Pass.Yields (pure a) P := by
  intro w _ _ hrun
  cases hrun
  exact ⟨Nat.le_refl _, h _⟩

theorem throw (e : Fault) : Pass.Yields (throw e : Pass α) P := nofun

theorem bind {x : Pass α} {f : α → Pass β} (hx : Pass.Yields x P)
    (hf : ∀ a, Pass.Yields (f a) fun mid hi b => ∀ lo ≤ mid, P lo mid a → Q lo hi b) :
    Pass.Yields (x >>= f) Q := by
  intro w b w'' hrun
  obtain ⟨a, w', hrun, hrun'⟩ := Attempt.run_bind_eq_ok_iff.1 hrun
  obtain ⟨hle, hP⟩ := hx hrun
  obtain ⟨hle', hQ⟩ := hf a hrun'
  exact ⟨Nat.le_trans hle hle', hQ _ hle hP⟩

theorem imp {x : Pass α} {P' : Nat → Nat → α → Prop} (hx : Pass.Yields x P)
    (h : ∀ lo hi a, lo ≤ hi → P lo hi a → P' lo hi a) : Pass.Yields x P' := by
  intro w a w' hrun
  obtain ⟨hle, hP⟩ := hx hrun
  exact ⟨hle, h _ _ a hle hP⟩

theorem emit (i : Instr) : Pass.Yields (emit i) fun lo hi code => hi = lo ∧ code = [i] := by
  intro w code w' hrun
  obtain ⟨_, w₁, hnote, hpure⟩ := Attempt.run_bind_eq_ok_iff.1 hrun
  cases hpure
  have hsupply := (Pass.run_noteText_eq_ok hnote).1
  exact ⟨Nat.le_of_eq (congrArg Supply.temps hsupply).symm, congrArg Supply.temps hsupply, rfl⟩

theorem checkArgs (count : Nat) : Pass.Yields (checkArgs count) fun lo hi _ =>
    hi = lo ∧ count ≤ argumentRegisters.length := by
  rw [Mips.checkArgs]
  split
  · exact .throw _
  · next h => exact .pure fun _ => ⟨rfl, Nat.not_lt.1 h⟩

theorem emitResult (code : List Instr) (last : Temp → Instr) :
    Pass.Yields (emitResult code last) fun lo hi out =>
      hi = lo + 1 ∧ out = (code ++ [last (.virtual (lo + 1))], .virtual (lo + 1)) := by
  have htemp : Pass.Yields (Pass.fresh Fresh.temp) fun lo hi t =>
      t = .virtual (lo + 1) ∧ hi = lo + 1 := by
    intro w _ _ hrun
    cases hrun
    exact ⟨Nat.le_succ _, rfl, rfl⟩
  refine .bind htemp fun t => .bind (.emit (last t)) fun emitted => .pure ?_
  rintro hi mid - ⟨rfl, rfl⟩ lo - ⟨rfl, rfl⟩
  exact ⟨rfl, rfl⟩

end Pass.Yields

end Yields

/-! ## Instructions of tiles -/

/-- Instructions compute a word in a temporary.  Either the tile is this temporary, or it is none
and the temporary was drawn.  The instructions change temporaries only that were drawn. -/
structure Delivers (O : Outside) (tile : Tile) (lo hi : Nat) (out : List Instr × Temp)
    (s : TreeState) (v : Word) : Prop where
  place : tile = .temp out.2 ∨ (∀ t, tile ≠ .temp t) ∧ out.2.Drawn lo hi
  run : ∃ s', exec O out.1 s = some (none, s') ∧ s'.temps out.2 = v ∧
    s.Agrees (Temp.Drawn lo hi) s'

section Delivers

variable {O : Outside} {s s' : TreeState} {v a b : Word} {lo mid hi : Nat}
  {first second : List Instr} {x y : Temp}

theorem TreeState.write_virtual (s : TreeState) (id : Nat) (v : Word) :
    s.write (.virtual id) v = s.setTemp (.virtual id) v := if_neg nofun

/-- The result of an operation on what was computed before. -/
theorem delivers_result {tile : Tile} {code : List Instr} {src : List Temp} (op : Operation)
    (htile : ∀ t, tile ≠ .temp t) (hcode : exec O code s = some (none, s'))
    (hagrees : s.Agrees (Temp.Drawn lo hi) s') (hle : lo ≤ hi)
    (hperform : ∀ d, op.perform O s' [d] src none = some (none, s'.write d v)) :
    Delivers O tile lo (hi + 1)
      (code ++ [.op op.template [.virtual (hi + 1)] src], .virtual (hi + 1)) s v where
  place := .inr ⟨htile, Temp.drawn_succ hle⟩
  run := by
    refine ⟨s'.setTemp (.virtual (hi + 1)) v, ?_, ?_, ?_⟩
    · rw [exec_append hcode, exec_singleton, Instr.op, Instr.perform_oper, hperform,
        TreeState.write_virtual]
    · simp [TreeState.setTemp]
    · exact (hagrees.mono fun _ ht => ht.mono (Nat.le_refl lo) (Nat.le_succ hi)).setHidden
        (Temp.drawn_succ hle) v

theorem Delivers.within {tile : Tile} (h : Delivers O tile lo hi (first, x) s v) (hle : lo ≤ hi)
    (htemps : ∀ t ∈ tile.temps, t.Within lo) : x.Within hi := by
  rcases h.place with rfl | ⟨-, hdrawn⟩
  · exact (htemps x List.mem_cons_self).mono hle
  · exact hdrawn.within

/-- Instructions compute what a tile gives. -/
def Tile.ComputedBy (O : Outside) (tile : Tile) (lo hi : Nat) (out : List Instr × Temp) : Prop :=
  (∀ t ∈ tile.temps, t.Within lo) → ∀ {s v}, tile.Gives O s v →
    Delivers O tile lo hi out s v

/-- Nothing is asked for a call, whose value is not read off the state. -/
theorem Tile.computedBy_of_not_gives {tile : Tile} {out : List Instr × Temp}
    (h : ∀ s v, ¬tile.Gives O s v) : tile.ComputedBy O lo hi out :=
  fun _ s v hv => absurd hv (h s v)

/-- Two tiles are computed one after the other.  What is drawn for the second one does not change
the value of the first one, nor the other way round. -/
theorem Tile.ComputedBy.pair {tile tile' : Tile} (h : tile.ComputedBy O lo mid (first, x))
    (h' : tile'.ComputedBy O mid hi (second, y)) (hlo : lo ≤ mid) (hhi : mid ≤ hi)
    (htemps : ∀ t ∈ tile.temps, t.Within lo) (htemps' : ∀ t ∈ tile'.temps, t.Within lo)
    (ha : tile.Gives O s a) (hb : tile'.Gives O s b) :
    ∃ s', exec O (first ++ second) s = some (none, s') ∧ s'.temps x = a ∧ s'.temps y = b ∧
      s.Agrees (Temp.Drawn lo hi) s' := by
  obtain ⟨s₁, hrun₁, hx, hagrees₁⟩ := (h htemps ha).run
  have hb₁ : tile'.Gives O s₁ b := hb.congr hagrees₁.memory fun t ht =>
    hagrees₁.temps t (htemps' t ht).not_drawn
  obtain ⟨s₂, hrun₂, hy, hagrees₂⟩ := (h' (fun t ht => (htemps' t ht).mono hlo) hb₁).run
  have hwithin : x.Within mid := (h htemps ha).within hlo htemps
  refine ⟨s₂, by rw [exec_append hrun₁, hrun₂], ?_, hy, ?_⟩
  · rw [← hagrees₂.temps x hwithin.not_drawn, hx]
  · exact (hagrees₁.mono fun _ ht => ht.mono (Nat.le_refl lo) hhi).trans
      (hagrees₂.mono fun _ ht => ht.mono hlo (Nat.le_refl hi))

/-- A word is copied to a register behind the instructions that compute it. -/
theorem Delivers.exec_copy {tile : Tile} {code : List Instr}
    (h : Delivers O tile lo hi (code, x) s v) {r : Temp} (hr : r ≠ zero) :
    ∃ s', exec O (code ++ [copy r x]) s = some (none, s') ∧
      (s.setTemp r v).Agrees (Temp.Drawn lo hi) s' := by
  obtain ⟨s₁, hrun, hv, hagrees⟩ := h.run
  refine ⟨s₁.setTemp r v, ?_, hagrees.setTemp r v⟩
  rw [exec_append hrun, exec_singleton, Instr.perform_copy, hv, TreeState.write, if_neg hr]

mutual

/-- **The instructions of a tile compute its value.** -/
theorem Tile.yields_select (O : Outside) : ∀ tile : Tile,
    Pass.Yields tile.select (tile.ComputedBy O)
  | .temp t => .pure fun n _ s v hv =>
    ⟨.inl rfl, s, rfl, hv.symm, .refl s⟩
  | .const value => (Pass.Yields.emitResult _ _).imp <| by
    rintro lo _ _ - ⟨rfl, rfl⟩ - s v rfl
    exact delivers_result (.loadConst v) nofun rfl (.refl s) (Nat.le_refl lo) fun d => rfl
  | .name label => (Pass.Yields.emitResult _ _).imp <| by
    rintro lo _ _ - ⟨rfl, rfl⟩ - s v rfl
    exact delivers_result (.loadAddress label.text) nofun rfl (.refl s) (Nat.le_refl lo)
      fun d => rfl
  | .load base offset => by
    refine .bind (base.yields_select O) fun (code, r) => (Pass.Yields.emitResult _ _).imp ?_
    rintro mid _ _ - ⟨rfl, rfl⟩ lo hlo hbase htemps s v ⟨b, hb, rfl⟩
    obtain ⟨s₁, hrun, hr, hagrees⟩ := (hbase htemps hb).run
    refine delivers_result (.load offset) nofun hrun hagrees hlo fun d => ?_
    rw [Operation.perform, hr, hagrees.memory]
  | .immediate op operand value => by
    refine .bind (operand.yields_select O) fun (code, r) => (Pass.Yields.emitResult _ _).imp ?_
    rintro mid _ _ - ⟨rfl, rfl⟩ lo hlo hoperand htemps s v ⟨a, ha, rfl⟩
    obtain ⟨s₁, hrun, hr, hagrees⟩ := (hoperand htemps ha).run
    refine delivers_result (.immediate op value) nofun hrun hagrees hlo fun d => ?_
    rw [Operation.perform, hr]
  | .binop op lhs rhs => by
    refine .bind (lhs.yields_select O) fun (first, x) => .bind (rhs.yields_select O)
      fun (second, y) => (Pass.Yields.emitResult _ _).imp ?_
    rintro hi _ _ - ⟨rfl, rfl⟩ mid hmid hrhs lo hlo hlhs htemps s v ⟨a, b, ha, hb, rfl⟩
    have hl : ∀ t ∈ lhs.temps, t.Within lo := fun t ht => htemps t (List.mem_append_left _ ht)
    have hr : ∀ t ∈ rhs.temps, t.Within lo := fun t ht => htemps t (List.mem_append_right _ ht)
    obtain ⟨s₂, hrun, hx, hy, hagrees⟩ := hlhs.pair hrhs hlo hmid hl hr ha hb
    refine delivers_result (.binop op) nofun hrun hagrees (Nat.le_trans hlo hmid) fun d => ?_
    rw [Operation.perform, hx, hy]
  | .call _ args => .bind (.checkArgs _) fun _ =>
    .bind (Tile.yields_selectArgs O args argumentRegisters) fun _ => .bind (.emit _) fun _ =>
    .pure <| by
      intros
      exact Tile.computedBy_of_not_gives nofun
  | .callAt function args => .bind (function.yields_select O) fun (_, _) =>
    .bind (.checkArgs _) fun _ => .bind (Tile.yields_selectArgs O args argumentRegisters) fun _ =>
    .bind (.emit _) fun _ => .pure <| by
      intros
      exact Tile.computedBy_of_not_gives nofun
  | .faulty _ => .throw _
  termination_by structural tile => tile

/-- The instructions of arguments pass their values. -/
theorem Tile.yields_selectArgs (O : Outside) : ∀ (args : List Tile) (registers : List Temp),
    Pass.Yields (Tile.selectArgs registers args) fun lo hi code =>
      zero ∉ registers → Tile.AllWithin lo args → ∀ {s s'}, Tile.Passes O registers args s s' →
        ∃ t, exec O code s = some (none, t) ∧ s'.Agrees (Temp.Drawn lo hi) t
  | [], registers => .pure <| by
    rintro n - - s s' rfl
    exact ⟨s', rfl, .refl s'⟩
  | arg :: rest, [] => .pure <| by
    rintro n - - s s' rfl
    exact ⟨s', rfl, .refl s'⟩
  | arg :: rest, r :: registers => by
    refine .bind (arg.yields_select O) fun (code, x) => .bind (.emit (copy r x)) fun last =>
      .bind (Tile.yields_selectArgs O rest registers) fun more => .pure ?_
    rintro hi mid hmid hrest _ - ⟨rfl, rfl⟩ lo hlo harg hr hargs s s' ⟨v, hv, h⟩
    obtain ⟨hself, hothers⟩ := List.forall_mem_cons.1 hargs
    rw [List.mem_cons, not_or] at hr
    obtain ⟨s₁, hrun₁, hagrees₁⟩ := (harg hself hv).exec_copy (Ne.symm hr.1)
    obtain ⟨t₁, hpasses, hagrees₂⟩ := h.congr hagrees₁ fun tile htile t ht =>
      (hothers tile htile t ht).not_drawn
    obtain ⟨t, hrun₂, hagrees₃⟩ := hrest hr.2 (Tile.AllWithin.mono hothers hlo) hpasses
    refine ⟨t, by rw [exec_append hrun₁, hrun₂], ?_⟩
    exact (hagrees₂.mono fun _ ht => ht.mono (Nat.le_refl lo) hmid).trans
      (hagrees₃.mono fun _ ht => ht.mono hlo (Nat.le_refl hi))
  termination_by structural args => args

end

/-! ## Calls -/

/-- In front of the call of a function with a name its arguments are passed. -/
theorem Tile.yields_callSite (O : Outside) (label : Label) (args : List Tile) :
    Pass.Yields (Tile.call label args).select fun lo hi out =>
      args.length ≤ argumentRegisters.length ∧ ∃ code, out =
        (code ++ [.op ("jal " ++ label.text) callDefs (argumentRegisters.take args.length)], v0) ∧
        (Tile.AllWithin lo args → ∀ {s s'}, Tile.Passes O argumentRegisters args s s' →
          ∃ t, exec O code s = some (none, t) ∧ s'.Agrees (Temp.Drawn lo hi) t) := by
  refine .bind (.checkArgs _) fun _ => .bind (Tile.yields_selectArgs O args argumentRegisters)
    fun code => .bind (.emit _) fun last => .pure ?_
  rintro hi _ - ⟨rfl, rfl⟩ mid - hcode lo - ⟨rfl, hlen⟩
  exact ⟨hlen, code, rfl, hcode slots_argumentRegisters.nonzero⟩

/-- In front of the call of a function at an address the address is computed and the arguments are
passed.  The address is in a temporary that was drawn, unless it is a temporary itself. -/
theorem Tile.yields_callAtSite (O : Outside) (function : Tile) (args : List Tile) :
    Pass.Yields (Tile.callAt function args).select fun lo hi out =>
      args.length ≤ argumentRegisters.length ∧ ∃ code x, out =
        (code ++ [.op "jalr 's0" callDefs (x :: argumentRegisters.take args.length)], v0) ∧
        (Tile.AllWithin lo (function :: args) → ∀ {s s' f}, function.Gives O s f →
          Tile.Passes O argumentRegisters args s s' →
          ∃ t, exec O code s = some (none, t) ∧ s'.Agrees (Temp.Drawn lo hi) t ∧
            (function = .temp x ∨ (∀ y, function ≠ .temp y) ∧ t.temps x = f)) := by
  refine .bind (function.yields_select O) fun (first, x) => .bind (.checkArgs _) fun _ =>
    .bind (Tile.yields_selectArgs O args argumentRegisters) fun code => .bind (.emit _) fun last =>
    .pure ?_
  rintro hi _ - ⟨rfl, rfl⟩ mid hmid hcode _ - ⟨rfl, hlen⟩ lo hlo hfunction
  refine ⟨hlen, first ++ code, x, rfl, fun hwithin s s' f hf hpasses => ?_⟩
  obtain ⟨hself, hothers⟩ := List.forall_mem_cons.1 hwithin
  have hdelivers := hfunction hself hf
  obtain ⟨s₁, hrun₁, hx, hagrees₁⟩ := hdelivers.run
  obtain ⟨t₁, hpasses₁, hagrees₂⟩ := hpasses.congr hagrees₁ fun arg harg t ht =>
    (hothers arg harg t ht).not_drawn
  obtain ⟨t, hrun₂, hagrees₃⟩ := hcode slots_argumentRegisters.nonzero
    (Tile.AllWithin.mono hothers hlo) hpasses₁
  refine ⟨t, by rw [exec_append hrun₁, hrun₂], ?_, hdelivers.place.imp_right ?_⟩
  · exact (hagrees₂.mono fun _ ht => ht.mono (Nat.le_refl lo) hmid).trans
      (hagrees₃.mono fun _ ht => ht.mono hlo (Nat.le_refl hi))
  · -- What was drawn for the address is not drawn again, and it is no register.
    rintro ⟨htile, hdrawn⟩
    have hkept : ¬x.Drawn mid hi := hdrawn.within.not_drawn
    have hregister : x ∉ argumentRegisters :=
      fun hmem => slots_argumentRegisters.not_drawn hmem hdrawn
    exact ⟨htile, by rw [← hagrees₃.temps x hkept, ← hpasses₁.agrees.temps x hregister, hx]⟩

/-- Instructions that make a call as tree code does.  The result is in its register, and other
registers that a call may overwrite are of no use. -/
structure Invokes (O : Outside) (lo hi : Nat) (out : List Instr × Temp) (s : TreeState)
    (function : Word) (args : List Word) : Prop where
  place : out.2 = v0
  run : ∃ s', exec O out.1 s = some (none, s') ∧
    s'.temps v0 = (O.world.invoke function args s).1 ∧
    (O.world.invoke function args s).2.Agrees (fun x => x.Drawn lo hi ∨ x ∈ callDefs) s'

/-- A call behind instructions that bring its arguments to registers. -/
theorem invokes_of_exec {code : List Instr} {function : Word} {args : List Word} {i : Instr}
    (hrun : exec O code s = some (none, s'))
    (hagrees : s.Agrees (fun x => x.Drawn lo hi ∨ x ∈ argumentRegisters) s')
    (hcall : i.perform O s' = some (none, O.invoke function args callDefs s')) :
    Invokes O lo hi (code ++ [i], v0) s function args where
  place := rfl
  run := by
    have hregisters : ∀ x ∈ argumentRegisters, x ∈ callDefs := by decide
    have hv0 : v0 ∈ callDefs := by decide
    refine ⟨O.invoke function args callDefs s', ?_, ?_, fun x hx => ?_, ?_, ?_⟩
    · rw [exec_append hrun, exec_singleton, hcall]
    · simp [Outside.invoke, World.invoke, Outside.world, hagrees.memory]
    · rw [not_or] at hx
      have hne : x ≠ v0 := fun heq => hx.2 (heq ▸ hv0)
      have hkept : ¬(x.Drawn lo hi ∨ x ∈ argumentRegisters) :=
        not_or.2 ⟨hx.1, fun hmem => hx.2 (hregisters x hmem)⟩
      simpa [Outside.invoke, World.invoke, Outside.world, hne, hx.2] using hagrees.temps x hkept
    · simp [Outside.invoke, World.invoke, Outside.world, hagrees.memory]
    · simp [Outside.invoke, World.invoke, Outside.world, hagrees.calls]

/-! ## Expressions -/

/-- **The instructions of a pure expression compute its value.** -/
theorem Expr.yields_select (O : Outside) {e : Expr} (hpure : e.isPure = true) :
    Pass.Yields e.cover.select fun lo hi out => (∀ t ∈ e.temps, t.Within lo) →
      ∀ {s}, s.temps zero = 0 → Delivers O e.cover lo hi out s (e.value O.world s) :=
  (e.cover.yields_select O).imp fun _ _ _ _ h htemps _ hzero =>
    h (Expr.forall_temps_cover hpure trivial htemps) (Expr.gives_cover hzero hpure)

/-- **The instructions of a call** are those that prepare it, and the call itself. -/
theorem Expr.yields_callSite (O : Outside) {function : Expr} {args : List Expr}
    (h : (Expr.call function args).isPureCall = true) :
    Pass.Yields (Expr.call function args).cover.select fun lo hi out =>
      args.length ≤ argumentRegisters.length ∧ ∃ code i operand, out = (code ++ [i], v0) ∧
        CalledBy args.length function i operand ∧
        ((∀ t ∈ (Expr.call function args).temps, t.Within lo) → ∀ {s}, s.temps zero = 0 →
          ∃ s', exec O code s = some (none, s') ∧
            Prepared O.world function args operand lo hi s s') := by
  obtain ⟨hf, has⟩ := Bool.and_eq_true_iff.1 h
  have hnonzero := slots_argumentRegisters.nonzero
  by_cases hname : ∃ l, function = .name l
  · obtain ⟨l, rfl⟩ := hname
    refine (Tile.yields_callSite O l (Expr.coverAll args)).imp ?_
    rintro lo hi _ - ⟨hlen, code, rfl, hcode⟩
    rw [Expr.length_coverAll] at hlen ⊢
    refine ⟨hlen, code, _, none, rfl, .label l, fun htemps s hzero => ?_⟩
    obtain ⟨s', hrun, hagrees⟩ := hcode (Expr.allWithin_coverAll has htemps)
      (Expr.passes_coverAll has hzero hnonzero)
    exact ⟨s', hrun, hagrees, fun x hx => absurd hx (Option.not_mem_none x)⟩
  · have hcover : (Expr.call function args).cover =
        .callAt function.cover (Expr.coverAll args) := by
      cases function with
      | name l => exact absurd ⟨l, rfl⟩ hname
      | _ => rfl
    rw [hcover]
    refine (Tile.yields_callAtSite O function.cover (Expr.coverAll args)).imp ?_
    rintro lo hi _ - ⟨hlen, code, x, rfl, hcode⟩
    rw [Expr.length_coverAll] at hlen ⊢
    refine ⟨hlen, code, _, some x, rfl, .address (not_exists.1 hname) x, fun htemps s hzero => ?_⟩
    rw [Expr.temps, List.forall_mem_append] at htemps
    have hgives : function.cover.Gives O s (function.value O.world s) := Expr.gives_cover hzero hf
    obtain ⟨s', hrun, hagrees, hplace⟩ := hcode
      (List.forall_mem_cons.2 ⟨Expr.forall_temps_cover hf trivial htemps.1,
        Expr.allWithin_coverAll has htemps.2⟩) hgives (Expr.passes_coverAll has hzero hnonzero)
    refine ⟨s', hrun, hagrees, fun y hy => ?_⟩
    cases hy
    rcases hplace with hcover | ⟨htile, hvalue⟩
    · refine (Expr.eq_temp_of_cover hcover).imp_right ?_
      rintro ⟨hconst, rfl⟩
      rw [hcover] at hgives
      have hwithin : zero.Within lo := trivial
      rw [← hagrees.temps zero hwithin.not_drawn, ← (agrees_pass ..).temps zero hnonzero]
      exact ⟨hconst, hgives.symm⟩
    · exact .inr ⟨fun y heq => htile y (by rw [heq, Expr.cover]), hvalue⟩

/-- **The instructions of a call make it.** -/
theorem Expr.yields_call (O : Outside) {function : Expr} {args : List Expr}
    (h : (Expr.call function args).isPureCall = true) :
    Pass.Yields (Expr.call function args).cover.select fun lo hi out =>
      (∀ t ∈ (Expr.call function args).temps, t.Within lo ∧ t ∉ argumentRegisters) →
        ∀ {s}, s.temps zero = 0 →
          Invokes O lo hi out s (function.value O.world s) (args.map (Expr.value O.world s)) := by
  refine (Expr.yields_callSite O h).imp ?_
  rintro lo hi _ - ⟨hlen, code, i, operand, rfl, hcalled, hprepared⟩ htemps s hzero
  have hwithin : ∀ t ∈ (Expr.call function args).temps, t.Within lo := fun t ht => (htemps t ht).1
  obtain ⟨s', hrun, hs'⟩ := hprepared hwithin hzero
  have hover : HandsOver O.world function args operand s s' :=
    hs'.handsOver (.of_notMem fun t ht => (htemps t ht).2) hlen fun t ht =>
      hwithin t (List.mem_append_left _ ht)
  refine invokes_of_exec hrun ?_ (hcalled.perform hover)
  exact ((agrees_pass ..).mono fun _ => .inr).trans (hs'.arguments.mono fun _ => .inl)

end Delivers

end Lowering
