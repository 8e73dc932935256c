import Lowering.Proofs.Mips.Meaning

/-!
# What a call finds in its registers

The arguments of a call are passed one after another.  At the call each register of an argument
holds the value that the argument had when those before it had been passed.  This is the value that
it had in front of the statement if everything was read in time; for temporaries as operands, it is
so from all states only then.

## Main definitions

* `Stmt.MakesCall` — statements with calls.
* `Stmt.yields_callSite` — their instructions.
* `readsInTime_of_handsOver` — what is not read in time may be overwritten.
* `call_passes_in_order` — the main result.
-/

namespace Lowering

open Mips

variable {W : World} {s s' : TreeState} {registers ts : List Temp} {args : List Expr}

/-! ## Overwritten registers -/

/-- The same values are passed if temporaries differ that no argument mentions. -/
theorem TreeState.Agrees.pass {hidden : Temp → Prop} (h : s.Agrees hidden s')
    (htemps : ∀ e ∈ args, ∀ t ∈ e.temps, ¬hidden t) :
    (pass W registers args s).Agrees hidden (pass W registers args s') := by
  induction args generalizing registers s s' with
  | nil => exact h
  | cons e rest ih =>
    rw [List.forall_mem_cons] at htemps
    cases registers with
    | nil => exact h
    | cons r registers =>
      have hvalue : e.value W s = e.value W s' :=
        Expr.value_congr h.memory fun t ht => h.temps t (htemps.1 t ht)
      rw [Lowering.pass, Lowering.pass, hvalue]
      exact ih (h.setTemp r _) htemps.2

/-- If all temporaries hold zero, so do those to which some of them are passed. -/
theorem temps_pass_eq_zero (h : ∀ t, s.temps t = 0) (x : Temp) :
    (pass W registers (ts.map .temp) s).temps x = 0 := by
  induction ts generalizing registers s with
  | nil => exact h x
  | cons t ts ih =>
    cases registers with
    | nil => exact h x
    | cons r registers =>
      refine ih fun y => ?_
      simp [TreeState.setTemp, Expr.value, h, Function.update_apply]

/-- One register is marked. -/
def marked (r : Temp) : TreeState := ⟨fun t => if t = r then 1 else 0, fun _ => 0, []⟩

/-- If an argument is copied to a marked register that is something else, the mark is lost. -/
theorem temps_setTemp_marked {r t : Temp} (h : t ≠ r) (x : Temp) :
    ((marked r).setTemp r ((marked r).temps t)).temps x = 0 := by
  simp [TreeState.setTemp, marked, h, Function.update_apply]

/-- Temporaries that are passed as if at once from all states are read in time. -/
theorem pairwise_of_map_temps_pass (hnodup : registers.Nodup) (hnonzero : zero ∉ registers)
    (h : ∀ s : TreeState, s.temps zero = 0 →
      (registers.take ts.length).map (pass W registers (ts.map .temp) s).temps =
        ts.map s.temps) :
    (registers.zip (ts.map Expr.temp)).Pairwise fun p q => p.2 = .temp p.1 ∨ p.1 ∉ q.2.temps := by
  induction ts generalizing registers with
  | nil => simp
  | cons t ts ih =>
    cases registers with
    | nil => exact .nil
    | cons r registers =>
      obtain ⟨hr, hnodup⟩ := List.nodup_cons.1 hnodup
      rw [List.mem_cons, not_or] at hnonzero
      have hrest : ∀ s : TreeState, s.temps zero = 0 →
          (registers.take ts.length).map
            (pass W registers (ts.map .temp) (s.setTemp r (s.temps t))).temps = ts.map s.temps :=
        fun s hs => (List.cons.inj (h s hs)).2
      have hlater : t = r ∨ r ∉ ts := by
        refine or_iff_not_imp_left.2 fun htr hmem => ?_
        have hall := hrest (marked r) (by simp [marked, hnonzero.1])
        have hone : (1 : Word) ∈ ts.map (marked r).temps :=
          List.mem_map.2 ⟨r, hmem, if_pos rfl⟩
        rw [← hall] at hone
        obtain ⟨x, -, hx⟩ := List.mem_map.1 hone
        rw [temps_pass_eq_zero (temps_setTemp_marked htr)] at hx
        exact absurd hx (by decide)
      refine List.pairwise_cons.2 ⟨fun q hq => ?_, ih hnodup hnonzero.2 fun s hs => ?_⟩
      · obtain ⟨u, hu, heq⟩ := List.mem_map.1 (List.of_mem_zip hq).2
        rw [← heq]
        refine hlater.imp (congrArg Expr.temp) fun hr hmem => ?_
        obtain rfl : r = u := List.mem_singleton.1 hmem
        exact hr hu
      · rw [← hrest s hs]
        rcases hlater with rfl | hlater
        · rw [TreeState.setTemp_temps]
        · have hagrees : s.Agrees (· = r) (s.setTemp r (s.temps t)) :=
            (TreeState.Agrees.refl s).setHidden (by rfl) _
          refine List.map_congr_left fun x hx => (hagrees.pass ?_).temps x ?_
          · simp only [List.forall_mem_map, Expr.temps, List.mem_singleton, forall_eq]
            exact fun u hu heq => hlater (heq ▸ hu)
          · rintro rfl
            exact hr (List.mem_of_mem_take hx)

/-- Each register holds the value of its argument. -/
theorem HandsOver.temps_eq {function : Expr} {operand : Option Temp}
    (h : HandsOver W function args operand s s') {p : Temp × Expr}
    (hp : p ∈ argumentRegisters.zip args) : s'.temps p.1 = p.2.value W s := by
  obtain ⟨n, hn, rfl⟩ := List.getElem_of_mem hp
  rw [List.length_zip, Nat.lt_min] at hn
  have hget := congrArg (·[n]?) h.arguments
  simpa [List.getElem?_take, hn] using hget

/-- If temporaries are handed over from all states, they are read in time: a mark in a register
that is not would be lost. -/
theorem readsInTime_of_handsOver {function : Expr} {i : Instr} {operand : Option Temp} {lo hi : Nat}
    (hcalled : CalledBy ts.length function i operand)
    (h : ∀ s : TreeState, s.temps zero = 0 → ∃ s',
      Prepared W function (ts.map .temp) operand lo hi s s' ∧
      HandsOver W function (ts.map .temp) operand s s') :
    ReadsInTime argumentRegisters function (ts.map .temp) where
  arguments := by
    have hslots := slots_argumentRegisters
    refine pairwise_of_map_temps_pass (W := W) hslots.nodup hslots.nonzero fun s hs => ?_
    obtain ⟨s', hprepared, hover⟩ := h s hs
    have harguments := hover.arguments
    rw [List.length_map, List.map_map] at harguments
    refine Eq.trans (List.map_congr_left fun r hr => ?_) harguments
    exact hprepared.arguments.temps r (hslots.not_drawn (List.mem_of_mem_take hr))
  address p hp hfunction := by
    have hmem := List.of_mem_zip hp
    have hnonzero : zero ≠ p.1 := fun heq => slots_argumentRegisters.nonzero (heq ▸ hmem.1)
    obtain ⟨s', hprepared, hover⟩ := h (marked p.1) (if_neg hnonzero)
    -- The call reads the address where it was, and this register holds the argument by now.
    have hmark : s'.temps p.1 = 1 := by
      subst hfunction
      cases hcalled with
      | address _ x =>
        rcases hprepared.address x rfl with heq | ⟨hne, -⟩
        · cases heq
          exact (hover.address _ rfl).trans (if_pos rfl)
        · exact absurd rfl (hne p.1)
    obtain ⟨t, -, ht⟩ := List.mem_map.1 hmem.2
    rw [hover.temps_eq hp, ← ht] at hmark
    by_contra hne
    rw [← ht, Expr.temp.injEq] at hne
    have hlost : (marked p.1).temps t = 0 := if_neg hne
    exact absurd (hlost.symm.trans hmark) (by decide)

/-! ## Statements -/

/-- The statement makes a call, and some instructions follow it: a result that is moved somewhere is
copied from its register. -/
inductive Stmt.MakesCall (function : Expr) (args : List Expr) : Stmt → List Instr → Prop
  | eval : Stmt.MakesCall function args (.eval (.call function args)) []
  | move (dst : Temp) :
    Stmt.MakesCall function args (.move (.temp dst) (.call function args)) [copy dst v0]

/-- **The instructions of a statement with a call** prepare it, make it, and move its result. -/
theorem Stmt.yields_callSite (O : Outside) {stmt : Stmt} {function : Expr} {rest : List Instr}
    (hstmt : stmt.MakesCall function args rest)
    (hpure : (Expr.call function args).isPureCall = true) :
    Pass.Yields stmt.select fun lo hi code =>
      args.length ≤ argumentRegisters.length ∧ ∃ before i operand, code = before ++ i :: rest ∧
        CalledBy args.length function i operand ∧
        ((∀ t ∈ (Expr.call function args).temps, t.Within lo) → ∀ {s}, s.temps zero = 0 →
          ∃ s', exec O before s = some (none, s') ∧
            Prepared O.world function args operand lo hi s s') := by
  cases hstmt with
  | eval =>
    refine .bind (Expr.yields_callSite O hpure) ?_
    rintro ⟨code, x⟩
    refine .pure ?_
    rintro hi lo - ⟨hlen, before, i, operand, hout, hsite⟩
    cases hout
    exact ⟨hlen, before, i, operand, rfl, hsite⟩
  | move dst =>
    refine .bind (Expr.yields_callSite O hpure) ?_
    rintro ⟨code, x⟩
    refine .bind (.emit _) fun last => .pure ?_
    rintro hi _ - ⟨rfl, rfl⟩ lo - ⟨hlen, before, i, operand, hout, hsite⟩
    cases hout
    exact ⟨hlen, before, i, operand, by simp, hsite⟩

/-- From every state the call finds what its operands have as values there. -/
def AlwaysHandsOver (O : Outside) (before : List Instr) (function : Expr) (args : List Expr)
    (operand : Option Temp) : Prop :=
  ∀ s s', s.temps zero = 0 → exec O before s = some (none, s') →
    HandsOver O.world function args operand s s'

/-! ## The main result -/

/-- **Arguments are passed one after another.**  Let a statement be a call, or the move of its
result into a temporary, and let the operands of the call be pure and mention temporaries only that
were drawn before.  If the statement has instructions, there is one among them that makes the call.
From every state in which the register that always holds zero does, those before it end, and leave
the state to which the arguments, passed one after another, lead; but for temporaries that were
drawn.  The address of the function is the one that it had at first, or is read in a temporary only
now.

If everything is read in time, each register then holds the value that its argument had at first,
and the operand holds the address that the function had.  If the arguments are temporaries, this is
so from all states only if they are read in time. -/
theorem call_passes_in_order {stmt : Stmt} {function : Expr} {rest code : List Instr}
    {w w' : Workspace} (hstmt : stmt.MakesCall function args rest)
    (hpure : (Expr.call function args).isPureCall = true)
    (htemps : ∀ t ∈ (Expr.call function args).temps, t.Within w.supply.temps)
    (h : stmt.select.run w = (.ok code, w')) (O : Outside) :
    ∃ before i operand, code = before ++ i :: rest ∧ CalledBy args.length function i operand ∧
      (∀ s : TreeState, s.temps zero = 0 → ∃ s', exec O before s = some (none, s') ∧
        Prepared O.world function args operand w.supply.temps w'.supply.temps s s') ∧
      (ReadsInTime argumentRegisters function args →
        AlwaysHandsOver O before function args operand) ∧
      ∀ ts : List Temp, args = ts.map .temp →
        AlwaysHandsOver O before function args operand →
          ReadsInTime argumentRegisters function args := by
  obtain ⟨-, hlen, before, i, operand, hcode, hcalled, hprepared⟩ :=
    Stmt.yields_callSite O hstmt hpure h
  have hruns : ∀ s : TreeState, s.temps zero = 0 → ∃ s', exec O before s = some (none, s') ∧
      Prepared O.world function args operand w.supply.temps w'.supply.temps s s' :=
    fun s hs => hprepared htemps hs
  refine ⟨before, i, operand, hcode, hcalled, hruns, fun hread s s' hs hrun => ?_, ?_⟩
  · obtain ⟨s₁, hrun₁, hs₁⟩ := hruns s hs
    cases hrun.symm.trans hrun₁
    exact hs₁.handsOver hread hlen fun t ht => htemps t (List.mem_append_left _ ht)
  · rintro ts rfl halways
    rw [List.length_map] at hcalled
    exact readsInTime_of_handsOver hcalled fun s hs =>
      (hruns s hs).imp fun s' hs' => ⟨hs'.2, halways s s' hs hs'.1⟩

/-- The second argument is where it has to be already, and the first one is computed from it. -/
def nextTo : List Expr :=
  [.binop .plus (.temp (.register "a1")) (.const 4), .temp (.register "a1")]

def nextToCode : List Instr := [
  .op "addi 'd0, 's0, 4" [.virtual 3] [.register "a1"],
  copy (.register "a0") (.virtual 3),
  copy (.register "a1") (.register "a1"),
  .op "jalr 's0" callDefs [.virtual 1, .register "a0", .register "a1"],
  copy (.virtual 2) v0]

theorem nextTo_passes_in_order :
    ((Expr.call (.temp (.virtual 1)) nextTo).isPureCall = true ∧
      (∀ t ∈ (Expr.call (.temp (.virtual 1)) nextTo).temps, t.Within 2) ∧
      ReadsInTime argumentRegisters (.temp (.virtual 1)) nextTo) ∧
    ∃ w', (Stmt.move (.temp (.virtual 2)) (.call (.temp (.virtual 1)) nextTo)).select.run
        { supply := ⟨2, 0⟩, frame := { name := .named "f" } } = (.ok nextToCode, w') ∧
      ∃ before i operand, nextToCode = before ++ [i, copy (.virtual 2) v0] ∧
        CalledBy 2 (.temp (.virtual 1)) i operand ∧
        (∀ s : TreeState, s.temps zero = 0 → ∃ s', exec echoing before s = some (none, s') ∧
          Prepared echoing.world (.temp (.virtual 1)) nextTo operand 2 w'.supply.temps s s') ∧
        AlwaysHandsOver echoing before (.temp (.virtual 1)) nextTo operand := by
  have hpure : (Expr.call (.temp (.virtual 1)) nextTo).isPureCall = true := rfl
  have htemps : ∀ t ∈ (Expr.call (.temp (.virtual 1)) nextTo).temps, t.Within 2 := by
    simp [nextTo, Expr.temps, Expr.tempsAll]
  have hread : ReadsInTime argumentRegisters (.temp (.virtual 1)) nextTo :=
    ⟨by simp [argumentRegisters, nextTo, Expr.temps], by simp [argumentRegisters, nextTo]⟩
  have hrun : (Stmt.move (.temp (.virtual 2)) (.call (.temp (.virtual 1)) nextTo)).select.run
      { supply := ⟨2, 0⟩, frame := { name := .named "f" } } = (.ok nextToCode, _) := rfl
  obtain ⟨before, i, operand, hcode, hcalled, hruns, hover, -⟩ :=
    call_passes_in_order (.move (.virtual 2)) hpure htemps hrun echoing
  exact ⟨⟨hpure, htemps, hread⟩, _, hrun, before, i, operand, hcode, hcalled, hruns, hover hread⟩

/-- The second argument is in the register of the first one. -/
def displaced : List Expr := [.temp (.virtual 1), .temp (.register "a0")]

def displacedCode : List Instr :=
  [copy (.register "a0") (.virtual 1), copy (.register "a1") (.register "a0")]

/-- It is overwritten before it is read: not every call finds what its arguments had as values in
front of the statement. -/
theorem displaced_overwritten :
    ((Expr.call (.name (.named "g")) displaced).isPureCall = true ∧
      ∀ t ∈ (Expr.call (.name (.named "g")) displaced).temps, t.Within 1) ∧
    ∃ i w', (Stmt.eval (.call (.name (.named "g")) displaced)).select.run
        { supply := ⟨1, 0⟩, frame := { name := .named "f" } } = (.ok (displacedCode ++ [i]), w') ∧
      CalledBy displaced.length (.name (.named "g")) i none ∧
      ∃ s s', s.temps zero = 0 ∧ exec echoing displacedCode s = some (none, s') ∧
        ¬HandsOver echoing.world (.name (.named "g")) displaced none s s' := by
  have htemps : ∀ t ∈ (Expr.call (.name (.named "g")) displaced).temps, t.Within 1 := by
    simp [displaced, Expr.temps, Expr.tempsAll]
  refine ⟨⟨rfl, htemps⟩, _, _, rfl, .label _, marked (.register "a0"),
    ((marked (.register "a0")).setTemp (.register "a0") 0).setTemp (.register "a1") 0, rfl, ?_,
    fun h => ?_⟩
  · simp [displacedCode, exec, Instr.perform_copy, TreeState.write, marked, TreeState.setTemp, zero]
  · have hmem : (.register "a1", .temp (.register "a0")) ∈ argumentRegisters.zip displaced := by
      simp [argumentRegisters, displaced]
    have hsecond : (0 : Word) = 1 := h.temps_eq hmem
    exact absurd hsecond (by decide)

end Lowering
