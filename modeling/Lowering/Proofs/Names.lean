import Lowering.Supply

/-!
# Names that were handed out

A name is *within* a counter if it is not one that will be drawn later: a virtual
temporary or a generated label whose number is not above the counter, or a name that
is never drawn at all.

`Fresh.Ensures` says what a computation that draws temporaries gives, in terms of the
counter before it and the counter after it.  `Fresh.Yields` says the same of what it gives if
it does not fault, and `Fresh.KeepsTemps` says that it draws none.
-/

namespace Lowering

namespace Temp

/-- The temporary is a register or was drawn before the counter passed it. -/
def Within (bound : Nat) : Temp → Prop
  | virtual id => id ≤ bound
  | register _ => True

@[simp] theorem within_virtual {bound id : Nat} : (virtual id).Within bound ↔ id ≤ bound := .rfl
@[simp] theorem within_register {bound : Nat} {name : String} : (register name).Within bound :=
  trivial

theorem Within.mono {t : Temp} {m n : Nat} (h : t.Within m) (hmn : m ≤ n) : t.Within n := by
  cases t with
  | virtual id => exact Nat.le_trans h hmn
  | register => trivial

theorem within_of_isRegister {t : Temp} (h : t.isRegister) (bound : Nat) : t.Within bound := by
  cases t with
  | virtual => simp at h
  | register => trivial

/-- A temporary that is drawn later is another one. -/
theorem Within.ne_virtual {t : Temp} {bound id : Nat} (h : t.Within bound) (hid : bound < id) :
    t ≠ virtual id := by
  rintro rfl
  exact Nat.not_le_of_lt hid h

/-- The temporary was drawn while the counter went from one number to another. -/
def Drawn (lo hi : Nat) (t : Temp) : Prop := ∃ id, t = virtual id ∧ lo < id ∧ id ≤ hi

theorem Drawn.mono {t : Temp} {lo lo' hi hi' : Nat} (h : t.Drawn lo hi) (hlo : lo' ≤ lo)
    (hhi : hi ≤ hi') : t.Drawn lo' hi' := by
  obtain ⟨id, rfl, hlt, hle⟩ := h
  exact ⟨id, rfl, by omega, by omega⟩

theorem Drawn.within {t : Temp} {lo hi : Nat} (h : t.Drawn lo hi) : t.Within hi := by
  obtain ⟨id, rfl, -, hle⟩ := h
  exact hle

theorem drawn_succ {lo hi : Nat} (h : lo ≤ hi) : (virtual (hi + 1)).Drawn lo (hi + 1) :=
  ⟨hi + 1, rfl, by omega, Nat.le_refl _⟩

theorem Within.not_drawn {t : Temp} {lo hi : Nat} (h : t.Within lo) : ¬t.Drawn lo hi := by
  rintro ⟨id, rfl, hlt, -⟩
  exact h.ne_virtual hlt rfl

theorem Drawn.not_within {t : Temp} {base lo hi : Nat} (h : t.Drawn lo hi) (hbase : base ≤ lo) :
    ¬t.Within base :=
  fun hold => (hold.mono hbase).not_drawn h

theorem not_drawn_self {t : Temp} {n : Nat} : ¬t.Drawn n n := by
  rintro ⟨id, -, hlt, hle⟩
  omega

theorem drawn_succ_iff {t : Temp} {n : Nat} : t.Drawn n (n + 1) ↔ t = virtual (n + 1) := by
  constructor
  · rintro ⟨id, rfl, hlt, hle⟩
    congr
    omega
  · rintro rfl
    exact drawn_succ (Nat.le_refl n)

/-- What is drawn is drawn before some number or behind it. -/
theorem drawn_or_drawn {t : Temp} {lo mid hi : Nat} (hlo : lo ≤ mid) (hhi : mid ≤ hi) :
    t.Drawn lo mid ∨ t.Drawn mid hi ↔ t.Drawn lo hi := by
  constructor
  · rintro (h | h)
    · exact h.mono (Nat.le_refl lo) hhi
    · exact h.mono hlo (Nat.le_refl hi)
  · rintro ⟨id, rfl, hlt, hle⟩
    by_cases h : id ≤ mid
    · exact .inl ⟨id, rfl, hlt, h⟩
    · exact .inr ⟨id, rfl, by omega, hle⟩

end Temp

namespace Label

/-- The label is named or was drawn before the counter passed it. -/
def Within (bound : Nat) : Label → Prop
  | named _ => True
  | generated id => id ≤ bound

@[simp] theorem within_generated {bound id : Nat} : (generated id).Within bound ↔ id ≤ bound := .rfl
@[simp] theorem within_named {bound : Nat} {name : String} : (named name).Within bound := trivial

theorem Within.mono {l : Label} {m n : Nat} (h : l.Within m) (hmn : m ≤ n) : l.Within n := by
  cases l with
  | named => trivial
  | generated id => exact Nat.le_trans h hmn

end Label

namespace Fresh

variable {α β : Type} {P : Nat → Nat → α → Prop} {Q : Nat → Nat → β → Prop}

/-- The computation gives a value that goes with the numbers of temporaries before it and
after it. -/
def Ensures (x : Fresh α) (P : Nat → Nat → α → Prop) : Prop :=
  ∀ s : Supply, ∃ a s', x.run s = (.ok a, s') ∧ s.temps ≤ s'.temps ∧ P s.temps s'.temps a

namespace Ensures

theorem pure {a : α} (h : ∀ n, P n n a) : Ensures (pure a) P :=
  fun s => ⟨a, s, rfl, Nat.le_refl _, h s.temps⟩

theorem bind {x : Fresh α} {f : α → Fresh β} (hx : Ensures x P)
    (hf : ∀ a, Ensures (f a) fun mid hi b => ∀ lo ≤ mid, P lo mid a → Q lo hi b) :
    Ensures (x >>= f) Q := by
  intro s
  obtain ⟨a, s', hrun, hle, hP⟩ := hx s
  obtain ⟨b, s'', hrun', hle', hQ⟩ := hf a s'
  refine ⟨b, s'', ?_, Nat.le_trans hle hle', hQ s.temps hle hP⟩
  rw [Attempt.run_bind_ok f hrun, hrun']

theorem temp : Ensures temp fun lo hi t => t = .virtual (lo + 1) ∧ hi = lo + 1 :=
  fun s => ⟨_, _, run_temp s, Nat.le_succ _, rfl, rfl⟩

theorem imp {Q : Nat → Nat → α → Prop} {x : Fresh α} (hx : Ensures x P)
    (h : ∀ lo hi a, lo ≤ hi → P lo hi a → Q lo hi a) : Ensures x Q := by
  intro s
  obtain ⟨a, s', hrun, hle, hP⟩ := hx s
  exact ⟨a, s', hrun, hle, h _ _ a hle hP⟩

end Ensures

/-- If the computation gives a value, it has drawn temporaries only, and the value goes with
the numbers of temporaries before it and after it. -/
def Yields (x : Fresh α) (P : Nat → Nat → α → Prop) : Prop :=
  ∀ ⦃s a s'⦄, x.run s = (.ok a, s') →
    s'.labels = s.labels ∧ s.temps ≤ s'.temps ∧ P s.temps s'.temps a

namespace Yields

theorem pure {a : α} (h : ∀ n, P n n a) : Yields (pure a) P := by
  intro s _ _ hrun
  cases hrun
  exact ⟨rfl, Nat.le_refl _, h s.temps⟩

theorem throw (e : Fault) : Yields (throw e : Fresh α) P := nofun

theorem bind {x : Fresh α} {f : α → Fresh β} (hx : Yields x P)
    (hf : ∀ a, Yields (f a) fun mid hi b => ∀ lo ≤ mid, P lo mid a → Q lo hi b) :
    Yields (x >>= f) Q := by
  intro s b s'' hrun
  obtain ⟨a, s', hrun, hrun'⟩ := Attempt.run_bind_eq_ok_iff.1 hrun
  obtain ⟨hlabels, hle, hP⟩ := hx hrun
  obtain ⟨hlabels', hle', hQ⟩ := hf a hrun'
  exact ⟨hlabels'.trans hlabels, Nat.le_trans hle hle', hQ s.temps hle hP⟩

theorem temp : Yields temp fun lo hi t => t = .virtual (lo + 1) ∧ hi = lo + 1 := by
  intro s _ _ hrun
  cases hrun
  exact ⟨rfl, Nat.le_succ _, rfl, rfl⟩

end Yields

/-- The computation draws no temporaries, whether it faults or not. -/
def KeepsTemps (x : Fresh α) : Prop := ∀ s : Supply, (x.run s).2.temps = s.temps

namespace KeepsTemps

theorem pure (a : α) : KeepsTemps (pure a) := fun _ => rfl

theorem throw (e : Fault) : KeepsTemps (throw e : Fresh α) := fun _ => rfl

theorem label : KeepsTemps label := fun _ => rfl

theorem bind {x : Fresh α} {f : α → Fresh β} (hx : KeepsTemps x) (hf : ∀ a, KeepsTemps (f a)) :
    KeepsTemps (x >>= f) := by
  intro s
  rw [Attempt.run_bind, ← hx s]
  rcases x.run s with ⟨_ | a, s'⟩
  · rfl
  · exact hf a s'

end KeepsTemps

end Fresh

end Lowering
