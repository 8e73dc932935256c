import Lowering.Proofs.Mips.Cover
import Lowering.Proofs.Names
import Lowering.Proofs.Tree.Mirror

/-!
# Passing arguments in registers

In front of a call the values of its arguments are brought to registers, one after another: each
is computed when those before it are in their registers already.  So an argument that mentions one
of these registers may find the value of an earlier argument there.  If everything is read in time
this makes no difference, and all arguments are passed as if at once.

## Main definitions

* `pass` — arguments are passed one after another.
* `ReadsInTime` — nothing is read that was overwritten.
* `HandsOver`, `CalledBy` — what a call finds, and the instruction that makes it.
* `Prepared`, `Prepared.handsOver` — the state in front of a call, and the main result.
* `Tile.Passes` — the same for tiles.
-/

namespace Lowering

open Mips

variable {W : World} {O : Outside} {s s' : TreeState} {registers : List Temp} {args : List Expr}

/-! ## Registers of arguments -/

/-- Registers to which words can be copied one after another. -/
structure Mips.Slots (registers : List Temp) : Prop where
  nodup : registers.Nodup
  register : ∀ r ∈ registers, r.isRegister = true
  nonzero : zero ∉ registers

theorem Mips.slots_argumentRegisters : Slots argumentRegisters := ⟨by decide, by decide, by decide⟩

/-- These registers are none of the temporaries that are drawn. -/
theorem Mips.Slots.not_drawn (h : Slots registers) {r : Temp} (hr : r ∈ registers) {lo hi : Nat} :
    ¬r.Drawn lo hi := by
  rintro ⟨id, rfl, -⟩
  cases h.register _ hr

/-! ## One after another -/

/-- The values of arguments are brought to registers, one after another. -/
def pass (W : World) (registers : List Temp) : List Expr → TreeState → TreeState
  | [], s => s
  | e :: rest, s =>
    match registers with
    | [] => s
    | r :: registers => pass W registers rest (s.setTemp r (e.value W s))
  termination_by structural args => args

/-- Nothing changes but the registers. -/
theorem agrees_pass (W : World) (registers : List Temp) (args : List Expr) (s : TreeState) :
    s.Agrees (· ∈ registers) (pass W registers args s) := by
  induction args generalizing registers s with
  | nil => exact .refl s
  | cons e rest ih =>
    cases registers with
    | nil => exact .refl s
    | cons r registers =>
      exact ((TreeState.Agrees.refl s).setHidden List.mem_cons_self _).trans
        ((ih registers _).mono fun _ => List.mem_cons_of_mem r)

theorem TreeState.setTemp_temps (s : TreeState) (t : Temp) : s.setTemp t (s.temps t) = s := by
  simp [TreeState.setTemp]

/-- An expression has the same value as long as memory and what it mentions are the same. -/
theorem Expr.value_congr (hmemory : s.memory = s'.memory) : ∀ {e : Expr},
    (∀ t ∈ e.temps, s.temps t = s'.temps t) → e.value W s = e.value W s'
  | .const _, _ | .name _, _ | .call .., _ | .eseq .., _ => rfl
  | .temp t, h => h t List.mem_cons_self
  | .binop op lhs rhs, h => by
    have hl := value_congr hmemory (e := lhs) fun t ht => h t (List.mem_append_left _ ht)
    have hr := value_congr hmemory (e := rhs) fun t ht => h t (List.mem_append_right _ ht)
    rw [Expr.value, Expr.value, hl, hr]
  | .mem address, h => by
    rw [Expr.value, Expr.value, hmemory, value_congr hmemory (e := address) h]

/-- Nothing is read too late.  If an argument is copied to a register and is not this register
itself, then no later argument mentions the register, nor is the address of the function in it. -/
structure ReadsInTime (registers : List Temp) (function : Expr) (args : List Expr) : Prop where
  arguments : (registers.zip args).Pairwise fun p q => p.2 = .temp p.1 ∨ p.1 ∉ q.2.temps
  address : ∀ p ∈ registers.zip args, function = .temp p.1 → p.2 = .temp p.1

theorem Expr.mem_tempsAll {e : Expr} {t : Temp} (he : e ∈ args) (ht : t ∈ e.temps) :
    t ∈ Expr.tempsAll args := by
  induction args with
  | nil => cases he
  | cons e' rest ih =>
    rcases List.mem_cons.1 he with rfl | he
    · exact List.mem_append_left _ ht
    · exact List.mem_append_right _ (ih he)

/-- It is enough that the registers are not mentioned at all. -/
theorem ReadsInTime.of_notMem {function : Expr}
    (h : ∀ t ∈ (Expr.call function args).temps, t ∉ registers) :
    ReadsInTime registers function args where
  arguments := by
    refine List.pairwise_of_forall_mem_list fun p hp q hq => .inr fun hmem => ?_
    have hmention := Expr.mem_tempsAll (List.of_mem_zip hq).2 hmem
    exact h p.1 (List.mem_append_right _ hmention) (List.of_mem_zip hp).1
  address := by
    rintro p hp rfl
    exact absurd (List.of_mem_zip hp).1 (h p.1 (List.mem_append_left _ List.mem_cons_self))

/-- If later arguments do not mention what was overwritten, each register gets the value that its
argument had at first. -/
theorem map_temps_pass (hnodup : registers.Nodup) (hlen : args.length ≤ registers.length)
    (h : (registers.zip args).Pairwise fun p q => p.2 = .temp p.1 ∨ p.1 ∉ q.2.temps) :
    (registers.take args.length).map (pass W registers args s).temps =
      args.map (Expr.value W s) := by
  induction args generalizing registers s with
  | nil => rfl
  | cons e rest ih =>
    cases registers with
    | nil => exact absurd hlen (Nat.not_succ_le_zero _)
    | cons r registers =>
      obtain ⟨hr, hnodup⟩ := List.nodup_cons.1 hnodup
      obtain ⟨hlater, h⟩ := List.pairwise_cons.1 h
      have hlen := Nat.le_of_succ_le_succ hlen
      have hrest : ∀ e' ∈ rest,
          e'.value W (s.setTemp r (e.value W s)) = e'.value W s := by
        intro e' he'
        rw [← List.map_snd_zip hlen] at he'
        obtain ⟨q, hq, rfl⟩ := List.mem_map.1 he'
        rcases hlater q hq with hself | hr
        · rw [show e = .temp r from hself, Expr.value, TreeState.setTemp_temps]
        · have hmemory : (s.setTemp r (e.value W s)).memory = s.memory := rfl
          refine Expr.value_congr hmemory fun t ht => ?_
          have hne : t ≠ r := fun heq => hr (heq ▸ ht)
          simp [TreeState.setTemp, hne]
      have hself : (pass W registers rest (s.setTemp r (e.value W s))).temps r = e.value W s := by
        rw [← (agrees_pass W registers rest _).temps r hr]
        simp [TreeState.setTemp]
      rw [List.length_cons, List.take_succ_cons, List.map_cons, List.map_cons, pass, hself,
        ih hnodup hlen h, List.map_congr_left hrest]

/-- A register keeps what it held if it is what is copied to it. -/
theorem temps_pass_eq {x : Temp} (h : ∀ p ∈ registers.zip args, p.1 = x → p.2 = .temp x) :
    (pass W registers args s).temps x = s.temps x := by
  induction args generalizing registers s with
  | nil => rfl
  | cons e rest ih =>
    cases registers with
    | nil => rfl
    | cons r registers =>
      obtain ⟨hself, hrest⟩ := List.forall_mem_cons.1 h
      rw [pass, ih hrest]
      by_cases hr : r = x
      · subst hr
        rw [show e = .temp r from hself rfl, Expr.value, TreeState.setTemp_temps]
      · simp [TreeState.setTemp, Ne.symm hr]

/-! ## Calls -/

/-- The call of a function, and the operand in which it finds the address.  There is none if the
function is a label. -/
inductive CalledBy (count : Nat) : Expr → Instr → Option Temp → Prop
  | label (l : Label) :
    CalledBy count (.name l)
      (.op ("jal " ++ l.text) callDefs (argumentRegisters.take count)) none
  | address {function : Expr} (h : ∀ l, function ≠ .name l) (x : Temp) :
    CalledBy count function
      (.op "jalr 's0" callDefs (x :: argumentRegisters.take count)) (some x)

/-- A call finds what the arguments and the function have as values in another state. -/
structure HandsOver (W : World) (function : Expr) (args : List Expr) (operand : Option Temp)
    (s s' : TreeState) : Prop where
  arguments : (argumentRegisters.take args.length).map s'.temps = args.map (Expr.value W s)
  address : ∀ x ∈ operand, s'.temps x = function.value W s

theorem CalledBy.perform {function : Expr} {i : Instr} {operand : Option Temp}
    (h : CalledBy args.length function i operand)
    (hover : HandsOver O.world function args operand s s') :
    i.perform O s' = some (none, O.invoke (function.value O.world s)
      (args.map (Expr.value O.world s)) callDefs s') := by
  cases h with
  | label l =>
    refine (Instr.perform_oper (.call l.text) _ _ _).trans ?_
    rw [Operation.perform, hover.arguments]
    rfl
  | address _ x =>
    refine (Instr.perform_oper .callAt _ _ _).trans ?_
    rw [Operation.perform, hover.arguments, hover.address x rfl]

/-- A call is prepared: arguments have been passed one after another, and temporaries may have been
drawn for them.  The address of the function is where it was if that is a temporary, and has been
computed before if it is something else. -/
structure Prepared (W : World) (function : Expr) (args : List Expr) (operand : Option Temp)
    (lo hi : Nat) (s s' : TreeState) : Prop where
  arguments : (pass W argumentRegisters args s).Agrees (Temp.Drawn lo hi) s'
  address : ∀ x ∈ operand, function = .temp x ∨
    (∀ y, function ≠ .temp y) ∧ s'.temps x = function.value W s

/-- **What is read in time is handed over.** -/
theorem Prepared.handsOver {function : Expr} {operand : Option Temp} {lo hi : Nat}
    (h : Prepared W function args operand lo hi s s')
    (hread : ReadsInTime argumentRegisters function args)
    (hlen : args.length ≤ argumentRegisters.length)
    (hwithin : ∀ t ∈ function.temps, t.Within lo) :
    HandsOver W function args operand s s' where
  arguments := by
    have hslots := slots_argumentRegisters
    rw [← map_temps_pass hslots.nodup hlen hread.arguments]
    exact List.map_congr_left fun r hr =>
      (h.arguments.temps r (hslots.not_drawn (List.mem_of_mem_take hr))).symm
  address x hx := by
    rcases h.address x hx with rfl | ⟨-, hvalue⟩
    · rw [← h.arguments.temps x (hwithin x List.mem_cons_self).not_drawn]
      refine temps_pass_eq fun p hp heq => ?_
      subst heq
      exact hread.address p hp rfl
    · exact hvalue

/-! ## Tiles -/

/-- The tiles read temporaries that were drawn before. -/
def Tile.AllWithin (n : Nat) (tiles : List Tile) : Prop :=
  ∀ tile ∈ tiles, ∀ t ∈ tile.temps, t.Within n

theorem Tile.AllWithin.mono {tiles : List Tile} {m n : Nat} (h : Tile.AllWithin m tiles)
    (hle : m ≤ n) : Tile.AllWithin n tiles :=
  fun tile htile t ht => (h tile htile t ht).mono hle

/-- The values of tiles are brought to registers, one after another. -/
def Tile.Passes (O : Outside) (registers : List Temp) :
    List Tile → TreeState → TreeState → Prop
  | [], s, s' => s' = s
  | tile :: rest, s, s' =>
    match registers with
    | [] => s' = s
    | r :: registers => ∃ v, tile.Gives O s v ∧ Tile.Passes O registers rest (s.setTemp r v) s'
  termination_by structural tiles => tiles

/-- The same values are passed if temporaries differ that no tile reads. -/
theorem Tile.Passes.congr {hidden : Temp → Prop} {t : TreeState} {tiles : List Tile}
    (h : Tile.Passes O registers tiles s s') (hagrees : s.Agrees hidden t)
    (htemps : ∀ tile ∈ tiles, ∀ x ∈ tile.temps, ¬hidden x) :
    ∃ t', Tile.Passes O registers tiles t t' ∧ s'.Agrees hidden t' := by
  induction tiles generalizing registers s t with
  | nil =>
    obtain rfl : s' = s := h
    exact ⟨t, rfl, hagrees⟩
  | cons tile rest ih =>
    rw [List.forall_mem_cons] at htemps
    cases registers with
    | nil =>
      obtain rfl : s' = s := h
      exact ⟨t, rfl, hagrees⟩
    | cons r registers =>
      obtain ⟨v, hv, h⟩ := h
      obtain ⟨t', hpasses, hagrees'⟩ := ih h (hagrees.setTemp r v) htemps.2
      refine ⟨t', ⟨v, hv.congr hagrees.memory fun x hx => ?_, hpasses⟩, hagrees'⟩
      exact hagrees.temps x (htemps.1 x hx)

/-- Nothing changes but the registers. -/
theorem Tile.Passes.agrees {tiles : List Tile} (h : Tile.Passes O registers tiles s s') :
    s.Agrees (· ∈ registers) s' := by
  induction tiles generalizing registers s with
  | nil =>
    obtain rfl : s' = s := h
    exact .refl s'
  | cons tile rest ih =>
    cases registers with
    | nil =>
      obtain rfl : s' = s := h
      exact .refl s'
    | cons r registers =>
      obtain ⟨v, -, h⟩ := h
      exact ((TreeState.Agrees.refl s).setHidden List.mem_cons_self v).trans
        ((ih h).mono fun _ => List.mem_cons_of_mem r)

/-- The tiles of arguments pass their values, as long as the register that always holds zero is
not written. -/
theorem Expr.passes_coverAll (hpure : args.all Expr.isPure = true) (hzero : s.temps zero = 0)
    (hregisters : zero ∉ registers) :
    Tile.Passes O registers (Expr.coverAll args) s (pass O.world registers args s) := by
  induction args generalizing registers s with
  | nil => rfl
  | cons e rest ih =>
    rw [List.all_cons, Bool.and_eq_true] at hpure
    cases registers with
    | nil => rfl
    | cons r registers =>
      rw [List.mem_cons, not_or] at hregisters
      refine ⟨e.value O.world s, Expr.gives_cover hzero hpure.1, ih hpure.2 ?_ hregisters.2⟩
      simpa [TreeState.setTemp, hregisters.1] using hzero

/-- The tiles of arguments read what the arguments mention, and the register that always holds
zero. -/
theorem Expr.allWithin_coverAll {n : Nat} (hpure : args.all Expr.isPure = true)
    (h : ∀ t ∈ Expr.tempsAll args, t.Within n) : Tile.AllWithin n (Expr.coverAll args) := by
  induction args with
  | nil => exact nofun
  | cons e args ih =>
    rw [List.all_cons, Bool.and_eq_true] at hpure
    rw [Expr.tempsAll, List.forall_mem_append] at h
    exact List.forall_mem_cons.2
      ⟨Expr.forall_temps_cover hpure.1 trivial h.1, ih hpure.2 h.2⟩

/-- Only a temporary, or zero in its register, is not computed. -/
theorem Expr.eq_temp_of_cover {e : Expr} {x : Temp} (h : e.cover = .temp x) :
    e = .temp x ∨ (∀ y, e ≠ .temp y) ∧ x = zero := by
  cases e with
  | temp t =>
    cases h
    exact .inl rfl
  | const value =>
    rw [Expr.cover] at h
    split at h
    · cases h
      exact .inr ⟨fun _ => Expr.noConfusion, rfl⟩
    · cases h
  | binop op lhs rhs =>
    rw [Expr.cover] at h
    split at h <;> cases h
  | call function args => cases function <;> cases h
  | _ => cases h

end Lowering
