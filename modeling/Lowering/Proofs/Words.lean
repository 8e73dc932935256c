import Lowering.Instr.Basic
import Lowering.Proofs.Flow

/-!
# Words for instructions

The text of an instruction is its template with the operands filled in.  Whether there is a
text depends on the template alone, and the only reason why there may be none is an index in
the template that is too large.
-/

namespace Lowering

variable {e : Fault}

namespace Template

variable {template s : String}

theorem overflow_of_pushDigit {n : Nat} {digit : Char} (h : pushDigit n digit = .error e) :
    ∃ step, e = .overflow step := by
  unfold pushDigit at h
  split at h
  · cases h
    exact ⟨.multiply, rfl⟩
  · dsimp only at h
    split at h
    · cases h
      exact ⟨.add, rfl⟩
    · cases h

theorem overflow_of_index {digits : List Char} (h : index digits = .error e) :
    ∃ step, e = .overflow step := by
  unfold index at h
  generalize 0 = n at h
  induction digits generalizing n with
  | nil => cases h
  | cons digit digits ih =>
    rw [List.foldlM_cons] at h
    cases hd : pushDigit n digit with
    | error e' =>
      rw [hd] at h
      cases h
      exact overflow_of_pushDigit hd
    | ok m =>
      rw [hd] at h
      exact ih m h

theorem overflow_of_fill_piece {operand : Role → Nat → Option String} {p : Piece}
    (h : p.fill operand = .error e) : ∃ step, e = .overflow step := by
  match p with
  | .char c => cases h
  | .hole role [] => cases h
  | .hole role (c :: cs) =>
    simp only [Piece.fill] at h
    cases hi : index (c :: cs) with
    | error e' =>
      rw [hi] at h
      cases h
      exact overflow_of_index hi
    | ok n =>
      rw [hi] at h
      cases h

theorem exists_fill_piece {operand : Role → Nat → Option String}
    (operand' : Role → Nat → Option String) {p : Piece} (h : p.fill operand = .ok s) :
    ∃ s', p.fill operand' = .ok s' := by
  match p with
  | .char c => exact ⟨_, rfl⟩
  | .hole role [] => exact ⟨_, rfl⟩
  | .hole role (c :: cs) =>
    simp only [Piece.fill] at h ⊢
    cases hi : index (c :: cs) with
    | error e =>
      rw [hi] at h
      cases h
    | ok n => exact ⟨_, rfl⟩

theorem overflow_of_fill {operand : Role → Nat → Option String}
    (h : fill operand template = .error e) : ∃ step, e = .overflow step := by
  unfold fill at h
  cases hparts : (pieces template.toList).mapM (Piece.fill operand) with
  | error e' =>
    rw [hparts] at h
    cases h
    obtain ⟨p, -, hp⟩ := exists_of_mapM_eq_error hparts
    exact overflow_of_fill_piece hp
  | ok parts =>
    rw [hparts] at h
    cases h

/-- Whether a template can be filled does not depend on the operands. -/
theorem exists_fill {operand : Role → Nat → Option String}
    (operand' : Role → Nat → Option String) (h : fill operand template = .ok s) :
    ∃ s', fill operand' template = .ok s' := by
  unfold fill at h ⊢
  cases hparts : (pieces template.toList).mapM (Piece.fill operand) with
  | error e =>
    rw [hparts] at h
    cases h
  | ok parts =>
    obtain ⟨parts', hparts'⟩ := exists_mapM_iff.2 fun p hp =>
      (exists_mapM_iff.1 ⟨parts, hparts⟩ p hp).elim fun _ => exists_fill_piece operand'
    rw [hparts']
    exact ⟨_, rfl⟩

/-! ## Templates that can be filled -/

/-- Every index in the characters is small enough. -/
def Fillable (cs : List Char) : Prop := ∀ p ∈ pieces cs, ∃ s, p.fill (fun _ _ => none) = .ok s

theorem exists_fill_iff {operand : Role → Nat → Option String} :
    (∃ s, fill operand template = .ok s) ↔ Fillable template.toList := by
  have hpieces : (∃ parts, (pieces template.toList).mapM (Piece.fill operand) = .ok parts) ↔
      Fillable template.toList := by
    rw [exists_mapM_iff]
    exact ⟨fun h p hp => (h p hp).elim fun _ => exists_fill_piece _,
      fun h p hp => (h p hp).elim fun _ => exists_fill_piece _⟩
  rw [← hpieces, fill]
  cases (pieces template.toList).mapM (Piece.fill operand) with
  | error e => simp [bind, Except.bind]
  | ok parts => simp [bind, Except.bind]

variable {c d : Char} {cs front : List Char}

@[simp] theorem fillable_nil : Fillable [] := by
  intro p hp
  rw [pieces] at hp
  cases hp

/-- Only a quote starts a hole. -/
@[simp] theorem fillable_cons (hc : c ≠ '\'') : Fillable (c :: cs) ↔ Fillable cs := by
  have hpieces : pieces (c :: cs) = .char c :: pieces cs := by
    cases cs with
    | nil => simp [pieces]
    | cons d cs => rw [pieces]; simp [hc]
  rw [Fillable, hpieces, List.forall_mem_cons]
  exact and_iff_right ⟨c.toString, rfl⟩

theorem fillable_append (hfront : ∀ c ∈ front, c ≠ '\'') :
    Fillable (front ++ cs) ↔ Fillable cs := by
  induction front with
  | nil => rfl
  | cons c front ih =>
    rw [List.forall_mem_cons] at hfront
    rw [List.cons_append, fillable_cons hfront.1, ih hfront.2]

theorem fillable_of_ne_quote (h : ∀ c ∈ cs, c ≠ '\'') : Fillable cs := by
  have happend : Fillable (cs ++ []) := (fillable_append h).2 fillable_nil
  rwa [List.append_nil] at happend

theorem exists_index_singleton (h : d.isDigit = true) : ∃ n, index [d] = .ok n := by
  have hle : d.toNat ≤ 57 := by
    simp only [Char.isDigit, Bool.and_eq_true, decide_eq_true_eq] at h
    exact UInt32.le_iff_toNat_le.1 h.2
  have hlimit : ¬indexLimit ≤ 0 * 10 + (d.toNat - '0'.toNat) := by
    simp only [indexLimit, UInt64.size]
    omega
  refine ⟨0 * 10 + (d.toNat - '0'.toNat), ?_⟩
  rw [index, List.foldlM_cons, pushDigit, if_neg (by decide)]
  dsimp only
  rw [if_neg hlimit]
  rfl

/-- A hole with an index of one digit can be filled. -/
theorem fillable_hole (hrole : (Role.ofLetter? c).isSome = true) (hd : d.isDigit = true)
    (hcs : ∀ e ∈ cs.head?, e.isDigit = false) : Fillable ('\'' :: c :: d :: cs) ↔ Fillable cs := by
  obtain ⟨role, hrole⟩ := Option.isSome_iff_exists.1 hrole
  obtain ⟨n, hn⟩ := exists_index_singleton hd
  have hend : cs.takeWhile Char.isDigit = [] ∧ cs.dropWhile Char.isDigit = cs := by
    cases cs with
    | nil => exact ⟨rfl, rfl⟩
    | cons e cs => simp [hcs e rfl]
  have hpieces : pieces ('\'' :: c :: d :: cs) = .hole role [d] :: pieces cs := by
    rw [pieces]
    simp [hrole, hd, hend]
  rw [Fillable, hpieces, List.forall_mem_cons]
  exact and_iff_right ⟨_, by rw [Piece.fill.eq_def]; simp only [hn]; rfl⟩

@[simp] theorem fillable_hole_cons {e : Char} (hrole : (Role.ofLetter? c).isSome = true)
    (hd : d.isDigit = true) (he : e.isDigit = false) :
    Fillable ('\'' :: c :: d :: e :: cs) ↔ Fillable (e :: cs) :=
  fillable_hole hrole hd (by simpa using he)

@[simp] theorem fillable_hole_nil (hrole : (Role.ofLetter? c).isSome = true)
    (hd : d.isDigit = true) : Fillable ['\'', c, d] :=
  (fillable_hole hrole hd (by simp)).2 fillable_nil

end Template

/-- The label can stand in a template. -/
def Label.Wordable (l : Label) : Prop := Template.Fillable l.text.toList

/-- There are no quotes in a number. -/
theorem ne_quote_of_mem_toString {n : Int} {c : Char} (h : c ∈ (toString n).toList) :
    c ≠ '\'' := by
  have hdigits : ∀ m : Nat, c ∈ (toString m).toList → c ≠ '\'' := by
    rintro m hm rfl
    have hm : '\'' ∈ Nat.toDigits 10 m := by simpa using hm
    exact absurd (Nat.isDigit_of_mem_toDigits (by decide) (by decide) hm) (by decide)
  cases n with
  | ofNat m => exact hdigits m h
  | negSucc m =>
    have htext : (toString (Int.negSucc m)).toList = '-' :: (toString (m + 1)).toList :=
      String.toList_append
    rw [htext, List.mem_cons] at h
    rcases h with rfl | h
    · decide
    · exact hdigits (m + 1) h

theorem Label.wordable_generated (id : Nat) : (generated id).Wordable := by
  have htext : (generated id).text.toList = ".L".toList ++ (toString id).toList :=
    String.toList_append
  have hfront : ∀ c ∈ ".L".toList, c ≠ '\'' := by simp
  rw [Wordable, htext, Template.fillable_append hfront]
  exact Template.fillable_of_ne_quote fun c hc => ne_quote_of_mem_toString (n := id) hc

namespace Instr

variable {i : Instr}

/-- The only reason why there is no text. -/
theorem overflow_of_text (h : i.text = .error e) : ∃ step, e = .overflow step := by
  cases i with
  | oper => exact Template.overflow_of_fill h
  | move => exact Template.overflow_of_fill h
  | label => cases h

theorem exists_text_rename {text : String} (f : Temp → Temp) (h : i.text = .ok text) :
    ∃ text', (i.rename f).text = .ok text' := by
  cases i with
  | oper => exact Template.exists_fill _ h
  | move => exact Template.exists_fill _ h
  | label => exact ⟨_, rfl⟩

end Instr

end Lowering
