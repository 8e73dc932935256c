import Lowering.Proofs.Words

/-!
# What is left of a template

A template reads in one way as characters and holes, where a hole takes all the digits that follow
its letter.  Filling puts operands in the place of holes and copies the rest, with one exception:
the index of a hole that has no operand is written as a number.  So such a hole stays as it stands
exactly if no zero is in front of its other digits, and there is no text at all exactly if an index
leaves the range of 64-bit words.

## Main definitions

* `Template.Reads` — how a template is read.
* `Template.number`, `Template.isPlain` — what digits stand for, and whether a number is written so.
* `Template.Piece.replaced` — a piece with its operand in its place.
* `Template.fill_eq_ok_iff` — what filling gives.
* `format_replaces_holes` — the main result.
-/

namespace Lowering

namespace Template

variable {digits cs : List Char} {ps : List Piece} {operand : Role → Nat → Option String}
  {template s : String}

/-! ## Digits and numbers -/

/-- The number that digits stand for. -/
def number (digits : List Char) : Nat := Nat.ofDigitChars 10 digits 0

/-- Whether the digits are written as a number is: without a zero in front. -/
def isPlain : List Char → Bool
  | '0' :: _ :: _ => false
  | _ => true

theorem digit_lt_ten {d : Char} (h : d.isDigit = true) : d.toNat - '0'.toNat < 10 := by
  obtain ⟨-, hhi⟩ := Char.isDigit_iff_toNat.1 h
  simp only [Char.reduceToNat] at hhi ⊢
  omega

theorem digitChar_digit {d : Char} (h : d.isDigit = true) :
    Nat.digitChar (d.toNat - '0'.toNat) = d := by
  obtain ⟨hlo, -⟩ := Char.isDigit_iff_toNat.1 h
  apply Char.toNat_inj.1
  rw [Nat.toNat_digitChar_of_lt_ten (digit_lt_ten h)]
  simp only [Char.reduceToNat] at hlo ⊢
  omega

/-- Behind a number that is not zero, digits are written as they stand. -/
theorem toDigits_ofDigitChars (hdigits : ∀ d ∈ digits, d.isDigit = true) {n : Nat} (hn : 0 < n) :
    Nat.toDigits 10 (Nat.ofDigitChars 10 digits n) = Nat.toDigits 10 n ++ digits := by
  induction digits generalizing n with
  | nil => simp
  | cons d digits ih =>
    rw [List.forall_mem_cons] at hdigits
    have hdigit := digit_lt_ten hdigits.1
    rw [Nat.ofDigitChars_cons, ih hdigits.2 (by omega),
      ← Nat.toDigits_append_toDigits (by decide) hn hdigit, Nat.toDigits_of_lt_base hdigit,
      digitChar_digit hdigits.1, List.append_assoc, List.singleton_append]

/-- Plain digits are those of their number. -/
theorem toDigits_number (hdigits : ∀ d ∈ digits, d.isDigit = true) (hne : digits ≠ [])
    (hplain : isPlain digits = true) : Nat.toDigits 10 (number digits) = digits := by
  match digits with
  | [] => exact absurd rfl hne
  | d :: rest =>
    rw [List.forall_mem_cons] at hdigits
    have hdigit := digit_lt_ten hdigits.1
    by_cases hzero : d = '0'
    · subst hzero
      cases rest with
      | nil => rfl
      | cons => cases hplain
    · have hpos : 0 < 10 * 0 + (d.toNat - '0'.toNat) := by
        refine Nat.pos_of_ne_zero fun h => hzero ?_
        rw [← digitChar_digit hdigits.1, (by omega : d.toNat - '0'.toNat = 0)]
        rfl
      rw [number, Nat.ofDigitChars_cons, toDigits_ofDigitChars hdigits.2 hpos, Nat.mul_zero,
        Nat.zero_add, Nat.toDigits_of_lt_base hdigit, digitChar_digit hdigits.1]
      rfl

theorem exists_of_isPlain_eq_false (h : isPlain digits = false) :
    ∃ d rest, digits = '0' :: d :: rest := by
  unfold isPlain at h
  split at h
  · exact ⟨_, _, rfl⟩
  · cases h

theorem number_zero_cons (digits : List Char) : number ('0' :: digits) = number digits := by
  rw [number, Nat.ofDigitChars_cons]
  rfl

theorem length_toDigits_number_le (hdigits : ∀ d ∈ digits, d.isDigit = true) (hne : digits ≠ []) :
    (Nat.toDigits 10 (number digits)).length ≤ digits.length := by
  induction digits with
  | nil => exact absurd rfl hne
  | cons d digits ih =>
    cases hplain : isPlain (d :: digits) with
    | true => exact Nat.le_of_eq (congrArg _ (toDigits_number hdigits hne hplain))
    | false =>
      -- A zero in front counts for nothing, and there is a digit behind it.
      obtain ⟨e, rest, heq⟩ := exists_of_isPlain_eq_false hplain
      cases heq
      rw [number_zero_cons]
      exact Nat.le_succ_of_le (ih (List.forall_mem_cons.1 hdigits).2 (List.cons_ne_nil e rest))

/-- Other digits are more than those of their number. -/
theorem length_toDigits_number_lt (hdigits : ∀ d ∈ digits, d.isDigit = true)
    (hplain : isPlain digits = false) :
    (Nat.toDigits 10 (number digits)).length < digits.length := by
  obtain ⟨d, rest, rfl⟩ := exists_of_isPlain_eq_false hplain
  rw [number_zero_cons]
  exact Nat.lt_succ_of_le
    (length_toDigits_number_le (List.forall_mem_cons.1 hdigits).2 (List.cons_ne_nil d rest))

/-- A number only grows as digits are appended to it. -/
theorem le_ofDigitChars (digits : List Char) (n : Nat) : n ≤ Nat.ofDigitChars 10 digits n := by
  rw [Nat.ofDigitChars_eq_ofDigitChars_zero]
  exact Nat.le_add_right_of_le (Nat.le_mul_of_pos_left _ (Nat.pow_pos (by decide)))

theorem pushDigit_eq_ok {m : Nat} {d : Char}
    (h : 10 * m + (d.toNat - '0'.toNat) < indexLimit) :
    pushDigit m d = .ok (10 * m + (d.toNat - '0'.toNat)) := by
  rw [pushDigit, if_neg (by omega)]
  dsimp only
  rw [if_neg (by omega), Nat.mul_comm]

theorem pushDigit_ne_ok {m n : Nat} {d : Char}
    (h : indexLimit ≤ 10 * m + (d.toNat - '0'.toNat)) : pushDigit m d ≠ .ok n := by
  rw [pushDigit]
  split
  · simp
  · dsimp only
    rw [if_pos (by omega)]
    simp

theorem foldlM_pushDigit_eq_ok_iff {m n : Nat} (hm : m < indexLimit) :
    digits.foldlM pushDigit m = .ok n ↔
      Nat.ofDigitChars 10 digits m = n ∧ Nat.ofDigitChars 10 digits m < indexLimit := by
  induction digits generalizing m with
  | nil => simp [pure, Except.pure, hm]
  | cons d digits ih =>
    rw [List.foldlM_cons, Nat.ofDigitChars_cons]
    by_cases hd : 10 * m + (d.toNat - '0'.toNat) < indexLimit
    · rw [pushDigit_eq_ok hd]
      exact ih hd
    · -- What has left the range does not come back.
      have hlimit := Nat.le_of_not_lt hd
      refine iff_of_false (fun h => ?_) fun h => ?_
      · obtain ⟨_, hpush, -⟩ := bind_eq_ok h
        exact pushDigit_ne_ok hlimit hpush
      · exact absurd h.2 (Nat.not_lt.2 (Nat.le_trans hlimit (le_ofDigitChars ..)))

/-- **The index is the number of the digits, if this is a word.** -/
theorem index_eq_ok_iff {n : Nat} :
    index digits = .ok n ↔ number digits = n ∧ number digits < indexLimit :=
  foldlM_pushDigit_eq_ok_iff (by decide)

/-! ## How a template is read -/

/-- Nothing more could be read as a hole, or as the index of one: a quote that is copied has no
letter behind it, and behind the digits of a hole there is no digit. -/
def Longest : List Piece → Prop
  | [] => True
  | .char c :: rest =>
    (c = '\'' → ∀ d ∈ (rest.flatMap Piece.chars).head?, Role.ofLetter? d = none) ∧ Longest rest
  | .hole _ digits :: rest =>
    (∀ d ∈ digits, d.isDigit = true) ∧
      (∀ d ∈ (rest.flatMap Piece.chars).head?, d.isDigit = false) ∧ Longest rest

/-- The pieces are those of the template. -/
structure Reads (template : String) (ps : List Piece) : Prop where
  chars : ps.flatMap Piece.chars = template.toList
  longest : Longest ps

theorem pieces_char {c : Char} (h : c = '\'' → ∀ d ∈ cs.head?, Role.ofLetter? d = none) :
    pieces (c :: cs) = .char c :: pieces cs := by
  cases cs with
  | nil => simp [pieces]
  | cons d cs =>
    have hnone : (if c = '\'' then Role.ofLetter? d else none) = none := by
      split
      · next hc => exact h hc d rfl
      · rfl
    rw [pieces, hnone]

theorem pieces_hole {role : Role} (hdigits : ∀ d ∈ digits, d.isDigit = true)
    (hcs : ∀ d ∈ cs.head?, d.isDigit = false) :
    pieces ('\'' :: role.letter :: (digits ++ cs)) = .hole role digits :: pieces cs := by
  have hend : cs.takeWhile Char.isDigit = [] ∧ cs.dropWhile Char.isDigit = cs := by
    cases cs with
    | nil => exact ⟨rfl, rfl⟩
    | cons d cs => simp [hcs d rfl]
  rw [pieces, if_pos rfl, Role.ofLetter?_letter]
  dsimp only
  rw [List.takeWhile_append_of_pos hdigits, List.dropWhile_append_of_pos hdigits, hend.1, hend.2,
    List.append_nil]

theorem longest_pieces (cs : List Char) : Longest (pieces cs) := by
  fun_induction pieces cs with
  | case1 => trivial
  | case2 c => exact ⟨by simp, trivial⟩
  | case3 c d rest role h ih =>
    refine ⟨fun d hd => ?_, ?_, ih⟩
    · exact List.all_eq_true.1 List.all_takeWhile d hd
    · rw [flatMap_chars_pieces]
      intro d hd
      have hall := List.head?_dropWhile_not Char.isDigit rest
      rw [Option.mem_def.1 hd] at hall
      simpa using hall
  | case4 c d rest h ih =>
    refine ⟨fun hc => ?_, ih⟩
    rw [flatMap_chars_pieces]
    rintro _ ⟨⟩
    rwa [dif_pos hc] at h

theorem pieces_flatMap_chars (h : Longest ps) : pieces (ps.flatMap Piece.chars) = ps := by
  induction ps with
  | nil => simp [pieces]
  | cons p ps ih =>
    cases p with
    | char c =>
      rw [List.flatMap_cons, Piece.chars, List.singleton_append, pieces_char h.1, ih h.2]
    | hole role digits =>
      rw [List.flatMap_cons, Piece.chars, List.cons_append, List.cons_append,
        pieces_hole h.1 h.2.1, ih h.2.2]

/-- A template reads as its pieces, and in no other way. -/
theorem reads_iff : Reads template ps ↔ ps = pieces template.toList := by
  constructor
  · intro h
    rw [← h.chars, pieces_flatMap_chars h.longest]
  · rintro rfl
    exact ⟨flatMap_chars_pieces _, longest_pieces _⟩

/-! ## Pieces with operands in their places -/

/-- The piece with its operand in its place, if it is a hole that has one. -/
def Piece.replaced (operand : Role → Nat → Option String) : Piece → List Char
  | .hole role (d :: digits) =>
    ((operand role (number (d :: digits))).map String.toList).getD
      (Piece.chars (.hole role (d :: digits)))
  | p => p.chars

/-- The piece with its index written as a number is. -/
def Piece.trimmed : Piece → Piece
  | .hole role (d :: digits) => .hole role (Nat.toDigits 10 (number (d :: digits)))
  | p => p

/-- The index is a word. -/
def Piece.Bounded : Piece → Prop
  | .hole _ digits => number digits < indexLimit
  | .char _ => True

/-- The piece has its operand, or else its index is written as a number is. -/
def Piece.Kept (operand : Role → Nat → Option String) : Piece → Prop
  | .hole role digits => operand role (number digits) = none → isPlain digits = true
  | .char _ => True

theorem Piece.replaced_hole {role : Role} (h : digits ≠ []) :
    (Piece.hole role digits).replaced operand =
      ((operand role (number digits)).map String.toList).getD (Piece.hole role digits).chars := by
  cases digits with
  | nil => exact absurd rfl h
  | cons => rfl

theorem number_toDigits (n : Nat) : number (Nat.toDigits 10 n) = n :=
  Nat.ofDigitChars_toDigits (by decide) (by decide)

theorem Piece.replaced_trimmed {role : Role} (h : digits ≠ []) :
    (Piece.hole role digits).trimmed.replaced operand =
      ((operand role (number digits)).map String.toList).getD
        ('\'' :: role.letter :: Nat.toDigits 10 (number digits)) := by
  cases digits with
  | nil => exact absurd rfl h
  | cons d digits =>
    rw [Piece.trimmed, Piece.replaced_hole Nat.toDigits_ne_nil, number_toDigits]
    rfl

/-- What is written for a piece. -/
theorem Piece.fill_eq_ok_iff {p : Piece} :
    p.fill operand = .ok s ↔ p.Bounded ∧ s = String.ofList (p.trimmed.replaced operand) := by
  match p with
  | .char c => simp [Piece.fill, Piece.Bounded, Piece.trimmed, Piece.replaced, Piece.chars, eq_comm]
  | .hole role [] =>
    have hs : unfilled role "" = String.ofList ['\'', role.letter] := by simp [unfilled]
    simp [Piece.fill, Piece.Bounded, number, indexLimit, Piece.trimmed, Piece.replaced,
      Piece.chars, hs, eq_comm]
  | .hole role (d :: digits) =>
    rw [Piece.replaced_trimmed (List.cons_ne_nil d digits)]
    simp only [Piece.fill, Piece.Bounded]
    cases hi : index (d :: digits) with
    | error e =>
      refine iff_of_false (fun h => ?_) fun h => ?_
      · cases h
      · rw [index_eq_ok_iff.2 ⟨rfl, h.1⟩] at hi
        cases hi
    | ok n =>
      obtain ⟨rfl, hlimit⟩ := index_eq_ok_iff.1 hi
      show Except.ok _ = Except.ok s ↔ _
      rw [Except.ok.injEq, and_iff_right hlimit, eq_comm]
      cases operand role (number (d :: digits)) with
      | some text => simp
      | none => simp [unfilled, ← String.toList_inj]

theorem mapM_fill_eq_ok_iff {parts : List String} :
    ps.mapM (Piece.fill operand) = .ok parts ↔
      (∀ p ∈ ps, p.Bounded) ∧
        parts = ps.map fun p => String.ofList (p.trimmed.replaced operand) := by
  rw [mapM_eq_ok_iff]
  induction ps generalizing parts with
  | nil => simp
  | cons p ps ih =>
    rw [List.forall₂_cons_left_iff, List.forall_mem_cons]
    constructor
    · rintro ⟨_, _, hfill, hrest, rfl⟩
      obtain ⟨hp, rfl⟩ := Piece.fill_eq_ok_iff.1 hfill
      obtain ⟨hps, rfl⟩ := ih.1 hrest
      exact ⟨⟨hp, hps⟩, rfl⟩
    · rintro ⟨⟨hp, hps⟩, rfl⟩
      exact ⟨_, _, Piece.fill_eq_ok_iff.2 ⟨hp, rfl⟩, ih.2 ⟨hps, rfl⟩, rfl⟩

/-- **What filling gives.**  There is a text if every index is a word; in it holes have given way
to their operands, and indexes without an operand are written as numbers. -/
theorem fill_eq_ok_iff :
    fill operand template = .ok s ↔ (∀ p ∈ pieces template.toList, p.Bounded) ∧
      s = String.ofList ((pieces template.toList).flatMap fun p => p.trimmed.replaced operand) := by
  have hjoin : String.join ((pieces template.toList).map fun p =>
      String.ofList (p.trimmed.replaced operand)) =
      String.ofList ((pieces template.toList).flatMap fun p => p.trimmed.replaced operand) := by
    simp [← String.toList_inj, List.flatMap_map]
  constructor
  · intro h
    obtain ⟨parts, hparts, htext⟩ := bind_eq_ok h
    obtain ⟨hbounded, rfl⟩ := mapM_fill_eq_ok_iff.1 hparts
    cases htext
    exact ⟨hbounded, hjoin⟩
  · rintro ⟨hbounded, rfl⟩
    rw [fill, mapM_fill_eq_ok_iff.2 ⟨hbounded, rfl⟩, ← hjoin]
    rfl

/-! ## Pieces that stay -/

/-- The digits of the index. -/
def Piece.indexDigits : Piece → List Char
  | .hole _ digits => digits
  | .char _ => []

theorem Longest.isDigit (h : Longest ps) : ∀ p ∈ ps, ∀ d ∈ p.indexDigits, d.isDigit = true := by
  induction ps with
  | nil => simp
  | cons p ps ih =>
    rw [List.forall_mem_cons]
    cases p with
    | char c => exact ⟨nofun, ih h.2⟩
    | hole role digits => exact ⟨h.1, ih h.2.2⟩

/-- A piece is copied or replaced whole, or else there is less of it. -/
theorem Piece.replaced_trimmed_cases (operand : Role → Nat → Option String) {p : Piece}
    (h : ∀ d ∈ p.indexDigits, d.isDigit = true) :
    p.Kept operand ∧ p.trimmed.replaced operand = p.replaced operand ∨
      ¬p.Kept operand ∧ (p.trimmed.replaced operand).length < (p.replaced operand).length := by
  match p with
  | .char c => exact .inl ⟨trivial, rfl⟩
  | .hole role [] => exact .inl ⟨fun _ => rfl, rfl⟩
  | .hole role (d :: digits) =>
    have hne := List.cons_ne_nil d digits
    have hdigits : ∀ e ∈ d :: digits, e.isDigit = true := h
    rw [Piece.replaced_trimmed hne, Piece.replaced_hole hne, Piece.Kept]
    cases operand role (number (d :: digits)) with
    | some text => exact .inl ⟨nofun, rfl⟩
    | none =>
      cases hplain : isPlain (d :: digits) with
      | true =>
        rw [toDigits_number hdigits hne hplain]
        exact .inl ⟨fun _ => rfl, rfl⟩
      | false =>
        have hlength := length_toDigits_number_lt hdigits hplain
        exact .inr ⟨by simp, by simpa [Piece.chars] using hlength⟩

theorem length_flatMap_trimmed_le (operand : Role → Nat → Option String)
    (h : ∀ p ∈ ps, ∀ d ∈ p.indexDigits, d.isDigit = true) :
    (ps.flatMap fun p => p.trimmed.replaced operand).length ≤
      (ps.flatMap (Piece.replaced operand)).length := by
  induction ps with
  | nil => simp
  | cons p ps ih =>
    rw [List.forall_mem_cons] at h
    rw [List.flatMap_cons, List.flatMap_cons, List.length_append, List.length_append]
    refine Nat.add_le_add ?_ (ih h.2)
    rcases Piece.replaced_trimmed_cases operand h.1 with ⟨-, heq⟩ | ⟨-, hlt⟩
    · exact Nat.le_of_eq (congrArg _ heq)
    · exact Nat.le_of_lt hlt

/-- Only if every piece stays, the text does: nothing makes up for a zero that is lost. -/
theorem flatMap_trimmed_eq_iff (h : ∀ p ∈ ps, ∀ d ∈ p.indexDigits, d.isDigit = true) :
    (ps.flatMap fun p => p.trimmed.replaced operand) = ps.flatMap (Piece.replaced operand) ↔
      ∀ p ∈ ps, p.Kept operand := by
  induction ps with
  | nil => simp
  | cons p ps ih =>
    rw [List.forall_mem_cons] at h
    rw [List.flatMap_cons, List.flatMap_cons, List.forall_mem_cons, ← ih h.2]
    rcases Piece.replaced_trimmed_cases operand h.1 with ⟨hkept, heq⟩ | ⟨hkept, hlt⟩
    · rw [heq, List.append_cancel_left_eq]
      exact (and_iff_right hkept).symm
    · -- One piece became shorter and no other longer.
      refine iff_of_false (fun heq => ?_) fun hall => hkept hall.1
      have hlength := congrArg List.length heq
      have hle := length_flatMap_trimmed_le operand h.2
      simp only [List.length_append] at hlength
      omega

/-- **The text is the template with operands in the place of holes** exactly if every index is a
word and every hole without an operand has plain digits. -/
theorem fill_eq_replaced_iff :
    fill operand template =
        .ok (String.ofList ((pieces template.toList).flatMap (Piece.replaced operand))) ↔
      ∀ p ∈ pieces template.toList, p.Bounded ∧ p.Kept operand := by
  rw [fill_eq_ok_iff, String.ofList_inj, eq_comm,
    flatMap_trimmed_eq_iff (longest_pieces _).isDigit]
  exact ⟨fun h p hp => ⟨h.1 p hp, h.2 p hp⟩,
    fun h => ⟨fun p hp => (h p hp).1, fun p hp => (h p hp).2⟩⟩

/-- Without operands, nothing is put in the place of a hole. -/
theorem flatMap_replaced_none (ps : List Piece) :
    ps.flatMap (Piece.replaced fun _ _ => none) = ps.flatMap Piece.chars := by
  refine List.flatMap_congr fun p _ => ?_
  match p with
  | .char _ | .hole _ [] | .hole _ (_ :: _) => rfl

theorem Piece.kept_none_iff {p : Piece} :
    p.Kept (fun _ _ => none) ↔ isPlain p.indexDigits = true := by
  cases p with
  | char c => exact iff_of_true trivial rfl
  | hole role digits => exact forall_prop_of_true rfl

end Template

open Template

/-! ## The main result -/

/-- **Filling replaces the holes that have an operand and copies the rest**, except for zeros in
front of an index that has no operand.  A template reads in one way.  There is a text exactly if
every index is a word, and an overflow otherwise.  The text differs from the template only where
there are operands exactly if the indexes without an operand are written as numbers are; in an
operation that has no operands at all, these are all indexes. -/
theorem format_replaces_holes (template : String) (dst src : List Temp)
    (jump : Option (List Label)) (name : Temp → String) :
    let i := Instr.oper template dst src jump
    ∃ ps, (∀ ps', Reads template ps' ↔ ps' = ps) ∧
      (∀ s, i.format name = .ok s ↔ (∀ p ∈ ps, p.Bounded) ∧
        s = String.ofList (ps.flatMap fun p => p.trimmed.replaced (i.operand name))) ∧
      (∀ e, i.format name = .error e → ∃ step, e = .overflow step) ∧
      (i.format name = .ok (String.ofList (ps.flatMap (Piece.replaced (i.operand name)))) ↔
        ∀ p ∈ ps, p.Bounded ∧ p.Kept (i.operand name)) ∧
      (dst = [] → src = [] → jump.getD [] = [] →
        (i.format name = .ok template ↔ ∀ p ∈ ps, p.Bounded ∧ isPlain p.indexDigits = true)) := by
  refine ⟨pieces template.toList, fun _ => reads_iff, fun s => fill_eq_ok_iff,
    fun e => overflow_of_fill, fill_eq_replaced_iff, ?_⟩
  rintro rfl rfl hjump
  have hnone : (Instr.oper template [] [] jump).operand name = fun _ _ => none := by
    funext role n
    cases role with
    | target => simp [Instr.operand, Instr.targets?, hjump]
    | _ => rfl
  have hreplaced : String.ofList ((pieces template.toList).flatMap
      (Piece.replaced fun _ _ => none)) = template := by
    rw [flatMap_replaced_none, flatMap_chars_pieces, String.ofList_toList]
  have hiff : fill (fun _ _ => none) template = _ ↔ _ := fill_eq_replaced_iff
  rw [hreplaced] at hiff
  simp only [Piece.kept_none_iff] at hiff
  rw [← hiff, ← hnone]
  rfl

/-- A hole without an operand does not always stay as it stands: zeros in front of its index are
lost, and an index may be too large. -/
theorem hole_without_operand_changed :
    (Instr.op "'s007" [] []).format Temp.text = .ok "'s7" ∧
      ∃ step, (Instr.op "'s18446744073709551616" [] []).format Temp.text =
        .error (.overflow step) := by
  have hzeros : [.hole .source ['0', '0', '7']] = pieces "'s007".toList :=
    reads_iff.1 ⟨by simp [Piece.chars, Role.letter], by simp [Longest]⟩
  have hlarge : [.hole .source "18446744073709551616".toList] =
      pieces "'s18446744073709551616".toList :=
    reads_iff.1 ⟨by simp [Piece.chars, Role.letter], by simp [Longest]⟩
  constructor
  · refine fill_eq_ok_iff.2 ?_
    rw [← hzeros]
    exact ⟨by simp [Piece.Bounded, number, Nat.ofDigitChars_eq_foldl, indexLimit, UInt64.size], rfl⟩
  · cases h : (Instr.op "'s18446744073709551616" [] []).format Temp.text with
    | error e =>
      obtain ⟨step, rfl⟩ := overflow_of_fill h
      exact ⟨step, rfl⟩
    | ok s =>
      have hbounded := (fill_eq_ok_iff.1 h).1
      rw [← hlarge] at hbounded
      simp [Piece.Bounded, number, Nat.ofDigitChars_eq_foldl, indexLimit, UInt64.size] at hbounded

end Lowering
