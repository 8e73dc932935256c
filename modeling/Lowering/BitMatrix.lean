/-!
# Square matrices of bits

The entries of a matrix stand row by row, 64 to a word.  A row need not begin with a
new word, so a word may hold bits of several rows; the last one may have bits to spare.

## Main definitions

* `BitMatrix` — a square matrix of bits.
* `BitMatrix.contains`, `BitMatrix.insert` — reading and setting an entry.
* `BitMatrix.contains_insert` — setting an entry changes no other one.
-/

namespace Lowering

/-- A square matrix of bits with `n` rows. -/
structure BitMatrix (n : Nat) where
  /-- The entries, packed into as many words as they need. -/
  words : Vector UInt64 ((n * n + 63) / 64)

namespace BitMatrix

variable {n : Nat}

/-- The matrix in which no bit is set. -/
def zero (n : Nat) : BitMatrix n := ⟨Vector.replicate _ 0⟩

/-! ## Places -/

/-- The place of an entry, counted row by row. -/
def index (u v : Fin n) : Nat := u * n + v

theorem index_lt (u v : Fin n) : index u v < n * n :=
  calc u * n + v
    _ < u * n + n := Nat.add_lt_add_left v.isLt _
    _ = (u + 1) * n := (Nat.succ_mul u n).symm
    _ ≤ n * n := Nat.mul_le_mul_right n u.isLt

theorem index_inj {u v x y : Fin n} : index u v = index x y ↔ u = x ∧ v = y := by
  refine ⟨fun h => ?_, fun ⟨hu, hv⟩ => hu ▸ hv ▸ rfl⟩
  have hpos : 0 < n := Nat.lt_of_le_of_lt (Nat.zero_le _) u.isLt
  have hrow (a b : Fin n) : index a b / n = a := by
    rw [index, Nat.add_comm, Nat.add_mul_div_right _ _ hpos, Nat.div_eq_of_lt b.isLt, Nat.zero_add]
  have hcolumn (a b : Fin n) : index a b % n = b := by
    rw [index, Nat.add_comm, Nat.add_mul_mod_self_right, Nat.mod_eq_of_lt b.isLt]
  exact ⟨Fin.ext (by rw [← hrow u v, h, hrow]), Fin.ext (by rw [← hcolumn u v, h, hcolumn])⟩

/-- There is a word for every entry. -/
theorem index_div_lt (u v : Fin n) : index u v / 64 < (n * n + 63) / 64 := by
  have := index_lt u v
  omega

/-- The word of an entry. -/
def word (u v : Fin n) : Fin ((n * n + 63) / 64) := ⟨index u v / 64, index_div_lt u v⟩

/-- The bit of an entry in its word. -/
def mask (u v : Fin n) : UInt64 := 1 <<< UInt64.ofNat (index u v % 64)

/-! ## Entries -/

/-- Whether an entry is set. -/
def contains (m : BitMatrix n) (u v : Fin n) : Bool := m.words[word u v] &&& mask u v != 0

/-- Set an entry. -/
def insert (m : BitMatrix n) (u v : Fin n) : BitMatrix n :=
  ⟨m.words.set (word u v) (m.words[word u v] ||| mask u v)⟩

theorem toNat_mask (u v : Fin n) : (mask u v).toNat = 1 <<< (index u v % 64) := by
  have hplace : index u v % 64 % 2 ^ 64 % 64 = index u v % 64 := by omega
  have hpow : 2 ^ (index u v % 64) < 2 ^ 64 :=
    Nat.pow_lt_pow_right Nat.one_lt_two (Nat.mod_lt _ (by decide))
  rw [mask, UInt64.toNat_shiftLeft, UInt64.toNat_ofNat', hplace, UInt64.toNat_one,
    Nat.one_shiftLeft, Nat.mod_eq_of_lt hpow]

theorem contains_iff_testBit (m : BitMatrix n) (u v : Fin n) :
    m.contains u v = true ↔ (m.words[word u v]).toNat.testBit (index u v % 64) = true := by
  rw [contains, bne_iff_ne, ne_eq, ← UInt64.toNat_inj, UInt64.toNat_and, toNat_mask,
    Nat.one_shiftLeft]
  constructor
  · intro hne
    obtain ⟨j, hj⟩ := Nat.exists_testBit_of_ne_zero hne
    simp only [Nat.testBit_and, Nat.testBit_two_pow, Bool.and_eq_true, decide_eq_true_eq] at hj
    exact hj.2 ▸ hj.1
  · intro hbit hzero
    have htest := congrArg (Nat.testBit · (index u v % 64)) hzero
    simp only [Nat.testBit_and, Nat.testBit_two_pow_self, hbit] at htest
    simp at htest

@[simp] theorem contains_zero (u v : Fin n) : (zero n).contains u v = false := by
  simp [contains, zero]

/-- Setting an entry changes no other one. -/
theorem contains_insert (m : BitMatrix n) (u v x y : Fin n) :
    (m.insert u v).contains x y = true ↔ m.contains x y = true ∨ x = u ∧ y = v := by
  -- Entries of one word are apart by their place in it.
  have hplace : x = u ∧ y = v ↔ (word u v : Nat) = word x y ∧ index u v % 64 = index x y % 64 := by
    rw [← index_inj]
    simp only [word]
    omega
  simp only [contains_iff_testBit, insert, Fin.getElem_fin, Vector.getElem_set, hplace]
  split
  · next hword => simp [UInt64.toNat_or, toNat_mask, Nat.one_shiftLeft, Nat.testBit_two_pow, hword]
  · next hword => simp [hword]

end BitMatrix

end Lowering
