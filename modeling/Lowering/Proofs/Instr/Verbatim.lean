import Lowering.Proofs.Instr.Template

/-!
# Texts that are filled as they stand

A text that becomes part of a template is read as one, whatever it was meant for.  It is left as
it stands exactly if none of the holes that it reads as has an operand, and their indexes are
written as numbers are.  This takes that operands can be told from holes and from digits, as the
texts of temporaries can.

## Main definitions

* `Template.Piece.Stays` — filling leaves the piece as it stands.
* `Template.Distinct` — operands can be told from holes and from digits.
* `Template.fill_eq_self_iff` — the main result.
* `Template.fill_append_iff`, `Template.fill_hole_iff` — templates that are put together.
-/

namespace Lowering

namespace Template

variable {digits cs rest rest' : List Char} {ps : List Piece} {role : Role}
  {operand : Role → Nat → Option String} {s template : String}

/-- Filling leaves the piece as it stands. -/
def Piece.Stays (operand : Role → Nat → Option String) : Piece → Prop
  | .hole role (d :: digits) =>
    operand role (number (d :: digits)) = none ∧ isPlain (d :: digits) = true
  | _ => True

/-- Operands start neither as holes do nor as indexes go on. -/
def Distinct (operand : Role → Nat → Option String) : Prop :=
  ∀ role n text, operand role n = some text →
    ∃ c cs, text.toList = c :: cs ∧ c ≠ '\'' ∧ c.isDigit = false

/-! ## Pieces that stay -/

theorem Piece.replaced_trimmed_of_stays {p : Piece} (h : p.Stays operand)
    (hdigits : ∀ d ∈ p.indexDigits, d.isDigit = true) :
    p.trimmed.replaced operand = p.chars := by
  match p with
  | .char c | .hole role [] => rfl
  | .hole role (d :: digits) =>
    have hne := List.cons_ne_nil d digits
    have hall : ∀ e ∈ d :: digits, e.isDigit = true := hdigits
    rw [Piece.replaced_trimmed hne, h.1, toDigits_number hall hne h.2]
    rfl

/-- Digits end where something else begins. -/
theorem append_digits_inj {digits' : List Char} (h : digits ++ rest = digits' ++ rest')
    (hdigits : ∀ d ∈ digits, d.isDigit = true) (hdigits' : ∀ d ∈ digits', d.isDigit = true)
    (hrest : ∀ d ∈ rest.head?, d.isDigit = false) (hrest' : ∀ d ∈ rest'.head?, d.isDigit = false) :
    digits = digits' ∧ rest = rest' := by
  have hend : ∀ cs : List Char, (∀ d ∈ cs.head?, d.isDigit = false) →
      cs.takeWhile Char.isDigit = [] := by
    intro cs hcs
    cases cs with
    | nil => rfl
    | cons d cs => simp [hcs d rfl]
  have htake := congrArg (List.takeWhile Char.isDigit) h
  rw [List.takeWhile_append_of_pos hdigits, List.takeWhile_append_of_pos hdigits', hend _ hrest,
    hend _ hrest', List.append_nil, List.append_nil] at htake
  rw [htake] at h
  exact ⟨htake, List.append_cancel_left h⟩

/-- What does not go on with a digit does not do so after it is filled. -/
theorem not_isDigit_head?_filled (hoperand : Distinct operand)
    (h : ∀ d ∈ (ps.flatMap Piece.chars).head?, d.isDigit = false) :
    ∀ d ∈ (ps.flatMap fun p => p.trimmed.replaced operand).head?, d.isDigit = false := by
  match ps with
  | [] => simp
  | .char c :: ps => exact h
  | .hole role [] :: ps => exact h
  | .hole role (d :: digits) :: ps =>
    rw [List.flatMap_cons, Piece.replaced_trimmed (List.cons_ne_nil d digits)]
    cases htext : operand role (number (d :: digits)) with
    | none => simp
    | some text =>
      obtain ⟨c, cs, hcs, -, hdigit⟩ := hoperand role _ text htext
      simpa [hcs] using hdigit

/-- **A text stays only if each of its pieces does.**  What is put in the place of the first one
that does not starts in another way, or it has fewer digits. -/
theorem flatMap_filled_eq_iff (hoperand : Distinct operand) (h : Longest ps) :
    (ps.flatMap fun p => p.trimmed.replaced operand) = ps.flatMap Piece.chars ↔
      ∀ p ∈ ps, p.Stays operand := by
  constructor
  · intro heq
    induction ps with
    | nil => simp
    | cons p ps ih =>
      rw [List.forall_mem_cons]
      rw [List.flatMap_cons, List.flatMap_cons] at heq
      match p with
      | .char c => exact ⟨trivial, ih h.2 (List.append_cancel_left heq)⟩
      | .hole role [] => exact ⟨trivial, ih h.2.2 (List.append_cancel_left heq)⟩
      | .hole role (d :: digits) =>
        have hne := List.cons_ne_nil d digits
        rw [Piece.replaced_trimmed hne] at heq
        cases htext : operand role (number (d :: digits)) with
        | some text =>
          obtain ⟨c, cs, hcs, hquote, -⟩ := hoperand role _ text htext
          rw [htext, Option.map_some, Option.getD_some, hcs] at heq
          exact absurd (List.cons.inj heq).1 hquote
        | none =>
          rw [htext] at heq
          obtain ⟨hplain, hrest⟩ := append_digits_inj (List.cons.inj (List.cons.inj heq).2).2
            (fun e he => Nat.isDigit_of_mem_toDigits (by decide) (by decide) he) h.1
            (not_isDigit_head?_filled hoperand h.2.1) h.2.1
          refine ⟨⟨htext, ?_⟩, ih h.2.2 hrest⟩
          by_contra hzero
          have hlt := length_toDigits_number_lt h.1 (Bool.eq_false_iff.2 hzero)
          rw [hplain] at hlt
          exact Nat.lt_irrefl _ hlt
  · intro hstays
    exact List.flatMap_congr fun p hp =>
      Piece.replaced_trimmed_of_stays (hstays p hp) (h.isDigit p hp)

/-- **Filling leaves a text as it stands** exactly if its indexes are words and its pieces stay. -/
theorem fill_eq_self_iff (hoperand : Distinct operand) :
    fill operand template = .ok template ↔
      ∀ p ∈ pieces template.toList, p.Bounded ∧ p.Stays operand := by
  have hself : template =
      String.ofList ((pieces template.toList).flatMap fun p => p.trimmed.replaced operand) ↔
      ∀ p ∈ pieces template.toList, p.Stays operand := by
    rw [← flatMap_filled_eq_iff hoperand (longest_pieces _), flatMap_chars_pieces,
      ← String.toList_inj, String.toList_ofList]
    exact eq_comm
  rw [fill_eq_ok_iff, hself]
  exact ⟨fun h p hp => ⟨h.1 p hp, h.2 p hp⟩,
    fun h => ⟨fun p hp => (h p hp).1, fun p hp => (h p hp).2⟩⟩

/-! ## Templates that are put together -/

/-- Only a quote starts a hole. -/
theorem pieces_append {front : List Char} (h : ∀ c ∈ front, c ≠ '\'') :
    pieces (front ++ cs) = front.map .char ++ pieces cs := by
  induction front with
  | nil => rfl
  | cons c front ih =>
    rw [List.forall_mem_cons] at h
    rw [List.cons_append, pieces_char fun hc => absurd hc h.1, ih h.2]
    rfl

@[simp] theorem fill_empty : fill operand "" = .ok "" :=
  fill_eq_ok_iff.2 ⟨by simp [pieces], by simp [pieces]⟩

/-- Characters in front are copied. -/
theorem fill_append_iff {front : String} (h : ∀ c ∈ front.toList, c ≠ '\'') :
    fill operand (front ++ template) = .ok (front ++ s) ↔ fill operand template = .ok s := by
  have hfront : ((front.toList.map Piece.char).flatMap fun p => p.trimmed.replaced operand) =
      front.toList := by
    simp [List.flatMap_map, Piece.trimmed, Piece.replaced, Piece.chars]
  have hbounded : ∀ p ∈ front.toList.map Piece.char, p.Bounded :=
    List.forall_mem_map.2 fun _ _ => trivial
  rw [fill_eq_ok_iff, String.toList_append, pieces_append h, List.forall_mem_append,
    List.flatMap_append, hfront, and_iff_right hbounded, String.ofList_append,
    String.ofList_toList, String.append_right_inj, ← fill_eq_ok_iff]

/-- A hole of one digit in front gives way to its operand. -/
theorem fill_hole_iff (role : Role) (d : Char) {hole text : String} (hd : d.isDigit = true)
    (hhole : hole.toList = ['\'', role.letter, d])
    (htext : operand role (d.toNat - '0'.toNat) = some text)
    (hnext : ∀ e ∈ template.toList.head?, e.isDigit = false) :
    fill operand (hole ++ template) = .ok (text ++ s) ↔ fill operand template = .ok s := by
  have hdigits : ∀ e ∈ [d], e.isDigit = true := by simpa using hd
  have hpieces : pieces (hole ++ template).toList =
      .hole role [d] :: pieces template.toList := by
    rw [String.toList_append, hhole]
    exact pieces_hole hdigits hnext
  have hnumber : number [d] = d.toNat - '0'.toNat := by
    simp [number, Nat.ofDigitChars_cons]
  have hbounded : (Piece.hole role [d]).Bounded := by
    have hlt := digit_lt_ten hd
    show number [d] < indexLimit
    rw [hnumber, indexLimit, UInt64.size]
    omega
  rw [fill_eq_ok_iff, hpieces, List.forall_mem_cons, and_iff_right hbounded, List.flatMap_cons,
    Piece.replaced_trimmed (List.cons_ne_nil d []), hnumber, htext, Option.map_some,
    Option.getD_some, String.ofList_append, String.ofList_toList, String.append_right_inj,
    ← fill_eq_ok_iff]

end Template

end Lowering
