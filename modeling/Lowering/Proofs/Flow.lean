import Lowering.Flow
import Mathlib.Data.List.Forall2

/-!
# Facts about control flow

Where control goes after an instruction, in terms of the instruction and of the
places where labels are defined; and how the definitions of a label move when every
instruction of a list is replaced by a *window* of instructions.

A window keeps the label that its instruction defines and the targets of its jump, and
adds nothing but instructions that fall through.

## Main statements

* `Flow.next_eq_fallThrough`, `Flow.getElem?_next_of_targets?` — the successors of an
  instruction.
* `Flow.exists_ofCode_iff` — a list has a flow exactly if all targets are defined.
* `Flow.definition_flatten` — a label is defined at the start of the window of its
  definition.
-/

namespace Lowering

/-- Success of one step after another. -/
theorem bind_eq_ok {α β : Type} {x : Except Fault α} {k : α → Except Fault β} {b : β}
    (h : x >>= k = .ok b) : ∃ a, x = .ok a ∧ k a = .ok b := by
  cases x with
  | error e => cases h
  | ok a => exact ⟨a, rfl, h⟩

/-- Success of a sequence of steps that can fault. -/
theorem mapM_eq_ok_iff {α β : Type} {f : α → Except Fault β} {xs : List α} {ys : List β} :
    xs.mapM f = .ok ys ↔ List.Forall₂ (fun x y => f x = .ok y) xs ys := by
  induction xs generalizing ys with
  | nil => cases ys <;> simp [pure, Except.pure]
  | cons x xs ih =>
    rw [List.mapM_cons]
    constructor
    · intro h
      cases hx : f x with
      | error e => simp [hx, bind, Except.bind] at h
      | ok y =>
        cases hxs : xs.mapM f with
        | error e => simp [hx, hxs, bind, Except.bind] at h
        | ok zs =>
          simp only [hx, hxs, bind, Except.bind, pure, Except.pure, Except.ok.injEq] at h
          rw [← h]
          exact .cons hx (ih.1 hxs)
    · intro h
      cases h with
      | cons hx hxs =>
        rw [hx, ih.2 hxs]
        rfl

theorem exists_mapM_iff {α β : Type} {f : α → Except Fault β} {xs : List α} :
    (∃ ys, xs.mapM f = .ok ys) ↔ ∀ x ∈ xs, ∃ y, f x = .ok y := by
  simp only [mapM_eq_ok_iff]
  constructor
  · rintro ⟨ys, h⟩
    induction h with
    | nil => simp
    | cons hx _ ih => exact List.forall_mem_cons.2 ⟨⟨_, hx⟩, ih⟩
  · intro h
    induction xs with
    | nil => exact ⟨[], .nil⟩
    | cons x xs ih =>
      obtain ⟨⟨y, hy⟩, hxs⟩ := List.forall_mem_cons.1 h
      obtain ⟨ys, hys⟩ := ih hxs
      exact ⟨y :: ys, .cons hy hys⟩

theorem exists_of_mapM_eq_error {α β : Type} {f : α → Except Fault β} {xs : List α} {e : Fault}
    (h : xs.mapM f = .error e) : ∃ x ∈ xs, f x = .error e := by
  induction xs with
  | nil => cases h
  | cons x xs ih =>
    rw [List.mapM_cons] at h
    cases hx : f x with
    | error e' =>
      rw [hx] at h
      cases h
      exact ⟨x, List.mem_cons_self, hx⟩
    | ok y =>
      cases hxs : xs.mapM f with
      | error e' =>
        rw [hx, hxs] at h
        cases h
        obtain ⟨x', hmem, hx'⟩ := ih hxs
        exact ⟨x', List.mem_cons_of_mem x hmem, hx'⟩
      | ok ys =>
        rw [hx, hxs] at h
        cases h

theorem forall₂_getElem? {α β : Type} {R : α → β → Prop} {xs : List α} {ys : List β}
    (h : List.Forall₂ R xs ys) {n : Nat} {x : α} (hx : xs[n]? = some x) :
    ∃ y, ys[n]? = some y ∧ R x y := by
  induction h generalizing n with
  | nil => simp at hx
  | cons hab _ ih =>
    cases n with
    | zero =>
      simp only [List.getElem?_cons_zero, Option.some.injEq] at hx ⊢
      exact ⟨_, rfl, hx ▸ hab⟩
    | succ n => simpa using ih (by simpa using hx)

namespace Flow

variable {code : List Instr} {flow : Flow}

/-! ## Successors -/

/-- The successors of one instruction. -/
private def nextOf (code : List Instr) (p : Instr × Nat) : Except Fault (List Nat) :=
  match p.1.targets? with
  | some labels => labels.mapM (target code)
  | none => .ok (fallThrough code.length p.2)

private theorem ofCode_eq_ok_iff :
    ofCode code = .ok flow ↔
      List.Forall₂ (fun p ns => nextOf code p = .ok ns) code.zipIdx flow.successors.toList := by
  rw [← mapM_eq_ok_iff]
  show (do let successors ← code.zipIdx.mapM (nextOf code); Except.ok (⟨successors.toArray⟩ : Flow))
    = .ok flow ↔ _
  cases h : code.zipIdx.mapM (nextOf code) with
  | error e => simp [bind, Except.bind]
  | ok ns =>
    rcases flow with ⟨successors⟩
    simp only [bind, Except.bind, Except.ok.injEq, Flow.mk.injEq]
    constructor
    · intro heq
      rw [← heq]
    · intro heq
      rw [heq]

private theorem nextOf_eq_next (h : ofCode code = .ok flow) {n : Nat} {i : Instr}
    (hi : code[n]? = some i) : nextOf code (i, n) = .ok (flow.next n) := by
  have hp : code.zipIdx[n]? = some (i, n) := by simp [hi]
  obtain ⟨ns, hns, heq⟩ := forall₂_getElem? (ofCode_eq_ok_iff.1 h) hp
  have hnext : flow.next n = ns := by
    rw [next, Array.getD_eq_getD_getElem?, ← Array.getElem?_toList, hns, Option.getD_some]
  rw [hnext]
  exact heq

/-- An instruction without targets is followed by the next one. -/
theorem next_eq_fallThrough (h : ofCode code = .ok flow) {n : Nat} {i : Instr}
    (hi : code[n]? = some i) (ht : i.targets? = none) :
    flow.next n = fallThrough code.length n := by
  have := nextOf_eq_next h hi
  simp only [nextOf, ht, Except.ok.injEq] at this
  exact this.symm

theorem target_eq_ok_iff {l : Label} {n : Nat} :
    target code l = .ok n ↔ definition code l = some n := by
  unfold target
  cases definition code l <;> simp

/-- An instruction with targets is followed by their definitions. -/
theorem getElem?_next_of_targets? (h : ofCode code = .ok flow) {n : Nat} {i : Instr}
    (hi : code[n]? = some i) {labels : List Label} (ht : i.targets? = some labels) (c : Nat) :
    (flow.next n)[c]? = labels[c]?.bind (definition code) := by
  have hnext := nextOf_eq_next h hi
  simp only [nextOf, ht] at hnext
  have hall := mapM_eq_ok_iff.1 hnext
  cases hl : labels[c]? with
  | none =>
    rw [List.getElem?_eq_none_iff] at hl
    rw [Option.bind_none, List.getElem?_eq_none_iff, ← hall.length_eq]
    exact hl
  | some l =>
    obtain ⟨m, hm, hdef⟩ := forall₂_getElem? hall hl
    rw [hm, Option.bind_some, target_eq_ok_iff.1 hdef]

theorem lt_length_of_mem_fallThrough {size n m : Nat} (h : m ∈ fallThrough size n) :
    m = n + 1 ∧ m < size := by
  unfold fallThrough at h
  split at h
  · simp only [List.mem_singleton] at h
    omega
  · simp at h

/-- A list has a flow exactly if every target is defined. -/
theorem exists_ofCode_iff :
    (∃ flow, ofCode code = .ok flow) ↔
      ∀ i ∈ code, ∀ labels, i.targets? = some labels →
        ∀ l ∈ labels, (definition code l).isSome := by
  constructor
  · rintro ⟨flow, h⟩ i hi labels ht l hl
    obtain ⟨n, hn⟩ := List.getElem?_of_mem hi
    obtain ⟨c, hc⟩ := List.getElem?_of_mem hl
    have hnext := nextOf_eq_next h hn
    simp only [nextOf, ht] at hnext
    obtain ⟨m, -, hm⟩ := forall₂_getElem? (mapM_eq_ok_iff.1 hnext) hc
    rw [target_eq_ok_iff.1 hm]
    rfl
  · intro h
    have hone : ∀ p ∈ code.zipIdx, ∃ ns, nextOf code p = .ok ns := by
      rintro ⟨i, n⟩ hp
      cases ht : i.targets? with
      | none => exact ⟨fallThrough code.length n, by simp only [nextOf, ht]⟩
      | some labels =>
        have hi : i ∈ code := List.fst_mem_of_mem_zipIdx hp
        refine ⟨labels.map fun l => (definition code l).getD 0, ?_⟩
        simp only [nextOf, ht]
        rw [mapM_eq_ok_iff, List.forall₂_map_right_iff, List.forall₂_same]
        intro l hl
        rw [target_eq_ok_iff]
        obtain ⟨m, hm⟩ := Option.isSome_iff_exists.1 (h i hi labels ht l hl)
        rw [hm, Option.getD_some]
    obtain ⟨nss, hnss⟩ := exists_mapM_iff.2 hone
    exact ⟨⟨nss.toArray⟩, ofCode_eq_ok_iff.2 (mapM_eq_ok_iff.1 hnss)⟩

/-! ## Definitions of labels -/

@[simp] theorem definition_nil (l : Label) : definition [] l = none := rfl

/-- Of two lists the second one decides where a label is defined. -/
theorem definition_append (code code' : List Instr) (l : Label) :
    definition (code ++ code') l =
      ((definition code' l).map (code.length + ·)).or (definition code l) := by
  simp only [definition, List.zipIdx_append, List.filter_append, List.getLast?_append,
    Option.map_or]
  congr 1
  rw [Nat.zero_add, List.zipIdx_eq_map_add, List.filter_map, List.getLast?_map, Option.map_map,
    Option.map_map]
  congr 1

theorem definition_singleton (i : Instr) (l : Label) :
    definition [i] l = if i.defines l then some 0 else none := by
  unfold definition
  by_cases h : i.defines l <;> simp [h]

theorem definition_cons (i : Instr) (code : List Instr) (l : Label) :
    definition (i :: code) l =
      ((definition code l).map (· + 1)).or (if i.defines l then some 0 else none) := by
  rw [show i :: code = [i] ++ code from rfl, definition_append, definition_singleton]
  simp [Nat.add_comm]

theorem definition_eq_none {code : List Instr} {l : Label} (h : ∀ i ∈ code, i.defines l = false) :
    definition code l = none := by
  induction code with
  | nil => rfl
  | cons i code ih =>
    rw [definition_cons, ih fun j hj => h j (List.mem_cons_of_mem _ hj), h i List.mem_cons_self]
    rfl

theorem isSome_definition {code : List Instr} {l : Label} {i : Instr} (hi : i ∈ code)
    (hl : i.defines l = true) : (definition code l).isSome = true := by
  induction code with
  | nil => cases hi
  | cons j code ih =>
    rw [definition_cons, Option.isSome_or, Option.isSome_map, Bool.or_eq_true]
    rcases List.mem_cons.1 hi with rfl | hi
    · exact .inr (by rw [if_pos hl]; rfl)
    · exact .inl (ih hi)

/-- A label is defined inside the list. -/
theorem definition_lt {l : Label} {n : Nat} (h : definition code l = some n) :
    n < code.length := by
  induction code generalizing n with
  | nil => simp at h
  | cons i code ih =>
    rw [definition_cons] at h
    cases hd : definition code l with
    | none =>
      rw [hd] at h
      simp only [Option.map_none, Option.none_or] at h
      split at h
      · cases h
        simp
      · cases h
    | some m =>
      rw [hd] at h
      simp only [Option.map_some, Option.some_or, Option.some.injEq] at h
      have := ih hd
      simp only [List.length_cons]
      omega

/-- Control stays inside the list. -/
theorem lt_length_of_mem_next (h : ofCode code = .ok flow) {n m : Nat} {i : Instr}
    (hi : code[n]? = some i) (hm : m ∈ flow.next n) : m < code.length := by
  cases ht : i.targets? with
  | none =>
    rw [next_eq_fallThrough h hi ht] at hm
    exact (lt_length_of_mem_fallThrough hm).2
  | some labels =>
    obtain ⟨c, hc⟩ := List.getElem?_of_mem hm
    rw [getElem?_next_of_targets? h hi ht, Option.bind_eq_some_iff] at hc
    obtain ⟨l, -, hl⟩ := hc
    exact definition_lt hl

end Flow

/-! ## Windows -/

/-- Whether the instruction is a label. -/
def Instr.isLabel : Instr → Bool
  | .label .. => true
  | _ => false

theorem Instr.defines_of_isLabel {i : Instr} (h : i.isLabel = false) (l : Label) :
    i.defines l = false := by
  cases i with
  | label => simp [isLabel] at h
  | _ => rfl

/-- Whether the instruction falls through and defines no label. -/
def Instr.isPlain : Instr → Bool
  | .oper _ _ _ none | .move .. => true
  | _ => false

theorem Instr.defines_of_isPlain {i : Instr} (h : i.isPlain) (l : Label) : i.defines l = false := by
  cases i with
  | label => simp [isPlain] at h
  | _ => rfl

theorem Instr.targets?_of_isPlain {i : Instr} (h : i.isPlain) : i.targets? = none := by
  cases i with
  | oper _ _ _ jump => cases jump <;> simp_all [isPlain, targets?]
  | _ => rfl

/-- The instructions of a window take the place of one instruction. -/
inductive Opens : Instr → List Instr → Prop where
  /-- A label stays. -/
  | label (template : String) (l : Label) : Opens (.label template l) [.label template l]
  /-- A jump stays a jump to the same targets, and comes last. -/
  | jump {i j : Instr} {labels : List Label} {first : List Instr} :
      i.targets? = some labels → j.targets? = some labels → (∀ k ∈ first, k.isPlain) →
        Opens i (first ++ [j])
  /-- All else falls through. -/
  | plain {i : Instr} {w : List Instr} : i.isPlain → (∀ k ∈ w, k.isPlain) → Opens i w

theorem Instr.isLabel_of_targets? {i : Instr} {labels : List Label} (h : i.targets? = some labels) :
    i.isLabel = false := by
  cases i with
  | oper => rfl
  | move => rfl
  | label => simp [targets?] at h

/-- A window defines what its instruction defines, as the first thing, and jumps only where
its instruction does. -/
structure Keeps (i : Instr) (w : List Instr) : Prop where
  definition : ∀ l, Flow.definition w l = if i.defines l then some 0 else none
  targets : ∀ j ∈ w, ∀ labels, j.targets? = some labels → i.targets? = some labels

/-- So does a window around an instruction that stays what it is. -/
theorem keeps_of_plain {i j : Instr} {first last : List Instr} (hi : i.isLabel = false)
    (hj : j.targets? = i.targets?) (hlabel : j.isLabel = false) (hfirst : ∀ k ∈ first, k.isPlain)
    (hlast : ∀ k ∈ last, k.isPlain) : Keeps i (first ++ [j] ++ last) := by
  have hcases : ∀ k ∈ first ++ [j] ++ last, k = j ∨ k.isPlain := by
    intro k hk
    simp only [List.mem_append, List.mem_singleton] at hk
    rcases hk with (hk | hk) | hk
    · exact .inr (hfirst k hk)
    · exact .inl hk
    · exact .inr (hlast k hk)
  constructor
  · intro l
    rw [Instr.defines_of_isLabel hi, Flow.definition_eq_none]
    · rfl
    · intro k hk
      rcases hcases k hk with rfl | hk
      · exact Instr.defines_of_isLabel hlabel l
      · exact Instr.defines_of_isPlain hk l
  · intro k hk labels ht
    rcases hcases k hk with rfl | hk
    · rwa [hj] at ht
    · rw [Instr.targets?_of_isPlain hk] at ht
      cases ht

theorem keeps_label (template : String) (l : Label) :
    Keeps (.label template l) [.label template l] := by
  refine ⟨fun l' => Flow.definition_singleton _ l', ?_⟩
  intro j hj labels ht
  rw [List.mem_singleton.1 hj] at ht
  cases ht

theorem Opens.keeps {i : Instr} {w : List Instr} (h : Opens i w) : Keeps i w := by
  cases h with
  | label template l => exact keeps_label template l
  | @jump _ j labels first hi hj hfirst =>
    have hkeeps : Keeps i (first ++ [j] ++ []) :=
      keeps_of_plain (Instr.isLabel_of_targets? hi) (hj.trans hi.symm)
        (Instr.isLabel_of_targets? hj) hfirst (by simp)
    rwa [List.append_nil] at hkeeps
  | plain hi hw =>
    constructor
    · intro l
      rw [Instr.defines_of_isPlain hi, Flow.definition_eq_none]
      · rfl
      · exact fun k hk => Instr.defines_of_isPlain (hw k hk) l
    · intro j hj labels ht
      rw [Instr.targets?_of_isPlain (hw j hj)] at ht
      cases ht

/-- Where the window of an index starts. -/
def windowStart (windows : List (List Instr)) (n : Nat) : Nat := (windows.take n).flatten.length

@[simp] theorem windowStart_zero (windows : List (List Instr)) : windowStart windows 0 = 0 := by
  simp [windowStart]

@[simp] theorem windowStart_cons_succ (w : List Instr) (windows : List (List Instr)) (n : Nat) :
    windowStart (w :: windows) (n + 1) = w.length + windowStart windows n := by
  simp [windowStart]

theorem windowStart_succ {windows : List (List Instr)} {n : Nat} {w : List Instr}
    (h : windows[n]? = some w) :
    windowStart windows (n + 1) = windowStart windows n + w.length := by
  simp [windowStart, List.take_add_one, h]

theorem windowStart_of_length_le {windows : List (List Instr)} {n : Nat} (h : windows.length ≤ n) :
    windowStart windows n = windows.flatten.length := by
  rw [windowStart, List.take_of_length_le h]

/-- The instructions of a window, in the list of all windows. -/
theorem getElem?_flatten {windows : List (List Instr)} {n k : Nat} {w : List Instr} {i : Instr}
    (h : windows[n]? = some w) (hi : w[k]? = some i) :
    windows.flatten[windowStart windows n + k]? = some i := by
  induction windows generalizing n with
  | nil => simp at h
  | cons v windows ih =>
    rw [List.flatten_cons]
    cases n with
    | zero =>
      simp only [List.getElem?_cons_zero, Option.some.injEq] at h
      subst h
      have hk := (List.getElem?_eq_some_iff.1 hi).1
      rw [windowStart_zero, Nat.zero_add, List.getElem?_append_left hk, hi]
    | succ n =>
      rw [windowStart_cons_succ, List.getElem?_append_right (by omega)]
      rw [show v.length + windowStart windows n + k - v.length = windowStart windows n + k by omega]
      exact ih (by simpa using h)

namespace Flow

variable {code : List Instr} {windows : List (List Instr)}

/-- A label is defined at the start of the window of its definition. -/
theorem definition_flatten (h : List.Forall₂ Keeps code windows) (l : Label) :
    definition windows.flatten l = (definition code l).map (windowStart windows) := by
  induction h with
  | nil => rfl
  | @cons i w code windows hw _ ih =>
    rw [List.flatten_cons, definition_append, definition_cons, ih, hw.definition l]
    cases definition code l with
    | none => cases i.defines l <;> simp
    | some n => simp

/-- A list of windows has a flow if the list it was made from has one. -/
theorem exists_ofCode_flatten (h : List.Forall₂ Keeps code windows) {flow : Flow}
    (hflow : ofCode code = .ok flow) : ∃ flow', ofCode windows.flatten = .ok flow' := by
  rw [exists_ofCode_iff]
  intro j hj labels hlabels l hl
  rw [definition_flatten h, Option.isSome_map]
  obtain ⟨w, hw, hjw⟩ := List.mem_flatten.1 hj
  obtain ⟨n, hn⟩ := List.getElem?_of_mem hw
  obtain ⟨i, hi, hkeeps⟩ := forall₂_getElem? h.flip hn
  exact exists_ofCode_iff.1 ⟨flow, hflow⟩ i (List.mem_of_getElem? hi) labels
    (hkeeps.targets j hjw labels hlabels) l hl

end Flow

end Lowering
