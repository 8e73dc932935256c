import Lowering.Proofs.Allocation.Sharing
import Lowering.Proofs.Instr.Template

/-!
# Printing what was allocated

To rename the temporaries of an instruction and to print it is to print it with other names, for
every template.  So the text of allocated code can be had in two ways: by applying the allocation,
or by printing the code as it is, with the names of the registers.  Only copies within a register
make a difference.

## Main definitions

* `Instr.format_rename` — printing a renamed instruction.
* `Allocation.merges` — copies whose two ends share a register.
* `rename_then_format` — the main result.
-/

namespace Lowering

/-! ## Instructions -/

namespace Instr

/-- The operands of a renamed instruction have the names of what its temporaries became. -/
theorem operand_rename (i : Instr) (f : Temp → Temp) (name : Temp → String) :
    (i.rename f).operand name = i.operand (name ∘ f) := by
  funext role n
  cases role with
  | source => simp [operand]
  | destination => simp [operand]
  | target => simp [operand]

/-- **Printing a renamed instruction** is printing the instruction with other names. -/
theorem format_rename (i : Instr) (f : Temp → Temp) (name : Temp → String) :
    (i.rename f).format name = i.format (name ∘ f) := by
  have hoperand := i.operand_rename f name
  cases i with
  | oper template dst src jump =>
    exact congrArg (Template.fill · template) hoperand
  | move template dst src =>
    exact congrArg (Template.fill · template) hoperand
  | label template l => rfl

end Instr

/-! ## Allocations -/

namespace Allocation

variable {alloc : Allocation} {code out : List Instr} {w w' : Workspace}

/-- Whether the instruction is a copy whose two ends share a register. -/
def merges (alloc : Allocation) (i : Instr) : Bool :=
  match i.copy? with
  | some (dst, src) => alloc.register? dst = alloc.register? src
  | none => false

theorem place_eq_iff {s t : Temp} (hs : s ∈ alloc.colors) (ht : t ∈ alloc.colors) :
    alloc.place s = alloc.place t ↔ alloc.register? s = alloc.register? t := by
  obtain ⟨r, hr⟩ := Option.isSome_iff_exists.1 (Std.TreeMap.isSome_getElem?_iff_mem.2 hs)
  obtain ⟨r', hr'⟩ := Option.isSome_iff_exists.1 (Std.TreeMap.isSome_getElem?_iff_mem.2 ht)
  simp [place, register?, hr, hr']

/-- The copies that are dropped are those within a register. -/
theorem isSelfMove_rename_place {i : Instr} (h : ∀ t ∈ i.temps, t ∈ alloc.colors) :
    isSelfMove (i.rename alloc.place) = alloc.merges i := by
  cases i with
  | move template dst src =>
    have hdst : dst ∈ alloc.colors := h dst (by simp [Instr.temps, Instr.defs])
    have hsrc : src ∈ alloc.colors := h src (by simp [Instr.temps, Instr.uses])
    simp [isSelfMove, merges, Instr.rename, Instr.copy?, place_eq_iff hdst hsrc]
  | oper => rfl
  | label => rfl

/-- What applying an allocation gives: the instructions in their order, renamed, but for copies
within a register. -/
theorem eq_of_run_apply (h : (alloc.apply code).run w = (.ok out, w')) :
    out = (code.filter (!alloc.merges ·)).map (·.rename alloc.place) := by
  induction code generalizing w out with
  | nil =>
    cases h
    rfl
  | cons i rest ih =>
    rw [apply] at h
    split at h
    · cases h
    · next hmissing =>
      -- Nothing is missing, so what is dropped is known before the instruction is renamed.
      have hi : isSelfMove (i.rename alloc.place) = alloc.merges i :=
        isSelfMove_rename_place (by simpa [missing?] using hmissing)
      dsimp only at h
      rw [hi] at h
      split at h
      · next hmerges =>
        rw [Attempt.run_bind_eq_ok_iff] at h
        obtain ⟨-, w₁, -, h⟩ := h
        rw [ih h, List.filter_cons_of_neg (by simpa using hmerges)]
      · next hmerges =>
        rw [Attempt.run_bind_eq_ok_iff] at h
        obtain ⟨rest', w₁, h, hout⟩ := h
        cases hout
        rw [ih h, List.filter_cons_of_pos (by simpa using hmerges), List.map_cons]

/-- Renamed instructions have the texts that the instructions have under the names of their
places. -/
theorem texts_map_rename (alloc : Allocation) (code : List Instr) :
    Instr.texts (code.map (·.rename alloc.place)) = code.mapM (·.format alloc.name) := by
  have hformat : Instr.text ∘ Instr.rename alloc.place = fun i => i.format alloc.name := by
    funext i
    exact i.format_rename alloc.place Temp.text
  rw [Instr.texts, List.mapM_map, hformat]

end Allocation

/-! ## The main result -/

/-- **Renaming and printing commute.**  An instruction with renamed temporaries is printed as the
instruction is with other names; if an index in its template is too large, neither has a text.
An allocation with a register for every temporary can be applied (unless a copy cannot be put into
words for someone who listens), and the texts that come out are those of the instructions under
the names of their registers, in the same order and without the copies within a register. -/
theorem rename_then_format :
    (∀ (i : Instr) (f : Temp → Temp) (name : Temp → String),
      (i.rename f).format name = i.format (name ∘ f)) ∧
    ∀ (alloc : Allocation) (code : List Instr) (w : Workspace),
      (∀ t ∈ code.flatMap Instr.temps, t ∈ alloc.colors) → CopiesWordable w.journal code →
      ∃ out w', (alloc.apply code).run w = (.ok out, w') ∧
        out = (code.filter (!alloc.merges ·)).map (·.rename alloc.place) ∧
        Instr.texts out = (code.filter (!alloc.merges ·)).mapM (·.format alloc.name) ∧
        ((∀ i ∈ code, ∃ text, i.text = .ok text) → ∃ texts, Instr.texts out = .ok texts) := by
  refine ⟨Instr.format_rename, fun alloc code w hall hwords => ?_⟩
  obtain ⟨out, w', hrun⟩ := exists_run_apply hall hwords
  have hout := Allocation.eq_of_run_apply hrun
  refine ⟨out, w', hrun, hout, hout ▸ alloc.texts_map_rename _, fun htexts => ?_⟩
  refine exists_mapM_iff.2 fun j hj => ?_
  rw [hout] at hj
  obtain ⟨i, hi, rfl⟩ := List.mem_map.1 hj
  obtain ⟨text, htext⟩ := htexts i (List.mem_of_mem_filter hi)
  exact Instr.exists_text_rename _ htext

/-- Two temporaries in one register. -/
def sharedRegister : Allocation where
  colors := (Std.TreeMap.empty.insert (.virtual 1) (.register "t0")).insert (.virtual 2)
    (.register "t0")
  spilled := []
  rounds := 1

/-- A copy within the register, and an operation with a hole that has no operand. -/
def copyThenNegate : List Instr :=
  [.move "move 'd0, 's0" (.virtual 2) (.virtual 1), .op "neg 'd0, 's10" [.virtual 2] [.virtual 1]]

theorem copyThenNegate_rename_then_format :
    ∃ out w', (sharedRegister.apply copyThenNegate).run
        { frame := { name := .named "f" }, journal := .listening } = (.ok out, w') ∧
      Instr.texts out = .ok ["neg $t0, 's10"] := by
  obtain ⟨out, w', hrun, -, htexts, -⟩ := rename_then_format.2 sharedRegister copyThenNegate
    { frame := { name := .named "f" }, journal := .listening }
    (by simp [copyThenNegate, sharedRegister, Instr.op, Instr.temps, Instr.defs, Instr.uses])
    (by simp [CopiesWordable, copyThenNegate, Instr.op, Instr.copy?, Spill.Wordable, Instr.text,
      Instr.format, Template.exists_fill_iff, Role.ofLetter?])
  have hfilter : copyThenNegate.filter (!sharedRegister.merges ·) =
      [.op "neg 'd0, 's10" [.virtual 2] [.virtual 1]] := by
    simp [copyThenNegate, sharedRegister, Allocation.merges, Allocation.register?, Instr.op,
      Instr.copy?, Std.TreeMap.getElem?_insert]
  have hname : sharedRegister.name (.virtual 2) = "$t0" := by
    simp [sharedRegister, Allocation.name, Allocation.place, Allocation.register?, Temp.text]
  have htext : (Instr.op "neg 'd0, 's10" [.virtual 2] [.virtual 1]).format sharedRegister.name =
      .ok "neg $t0, 's10" := by
    have hpieces : Template.pieces "neg 'd0, 's10".toList =
        [.char 'n', .char 'e', .char 'g', .char ' ', .hole .destination ['0'], .char ',',
          .char ' ', .hole .source ['1', '0']] := by
      simp [Template.pieces, Role.ofLetter?]
    refine Eq.trans (Template.fill_eq_replaced_iff.2 ?_) ?_ <;> rw [hpieces]
    · simp [Template.Piece.Bounded, Template.Piece.Kept, Template.number, Template.isPlain,
        Nat.ofDigitChars_eq_foldl, Template.indexLimit, UInt64.size]
    · simp [Template.Piece.replaced, Template.Piece.chars, Template.number,
        Nat.ofDigitChars_eq_foldl, Role.letter, Instr.operand, Instr.op, Instr.defs, Instr.uses,
        hname]
  refine ⟨out, w', hrun, htexts.trans ?_⟩
  rw [hfilter, List.mapM_cons, htext]
  rfl

end Lowering
