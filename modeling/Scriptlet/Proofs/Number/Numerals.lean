import Scriptlet.Number.Layout
import Scriptlet.Number.Reading
import Scriptlet.Proofs.Number.Shortest
import Scriptlet.Text.Blank

/-!
Numbers as text, read back. Integers and finite doubles are displayed as a sign and a numeral, which
is a digit with digits and points behind it.
-/
namespace Scriptlet

namespace Reading

variable {negative : Bool} {n : Nat} {c : Char} {body whole part : List Char}

theorem digit_toNat (digit : isDigit c = true) : 48 ≤ c.toNat ∧ c.toNat ≤ 57 := by
  simp only [isDigit, Bool.and_eq_true, decide_eq_true_eq] at digit
  exact digit

theorem toDigits_isDigit (n : Nat) : ∀ c ∈ Nat.toDigits 10 n, isDigit c = true :=
  fun _ member => Nat.isDigit_of_mem_toDigits (by decide) (by decide) member

theorem digits_toDigits (n : Nat) :
    digits (Nat.toDigits 10 n) = n := Nat.ofDigitChars_toDigits (by decide) (by decide)

theorem takeWhile_until {p : Char → Bool} {rest : List Char} (all : ∀ c ∈ whole, p c = true)
    (ends : ∀ c ∈ rest.head?, p c = false) :
    (whole ++ rest).takeWhile p = whole ∧ (whole ++ rest).dropWhile p = rest := by
  rw [List.takeWhile_append_of_pos all, List.dropWhile_append_of_pos all]
  cases rest with
  | nil => exact ⟨List.append_nil whole, rfl⟩
  | cons c rest => simp [ends c rfl]

theorem decimal?_digits (all : ∀ c ∈ whole, isDigit c = true) (some : whole ≠ []) :
    decimal? whole = .some ⟨digits whole, 0⟩ := by
  obtain ⟨taken, left⟩ := @takeWhile_until _ _ [] all (by simp)
  rw [List.append_nil] at taken left
  simp [decimal?, taken, left, some, exponent?]

theorem decimal?_pointed (all : ∀ c ∈ whole ++ part, isDigit c = true) (some : whole ≠ []) :
    decimal? (whole ++ '.' :: part) = .some ⟨digits (whole ++ part), -part.length⟩ := by
  obtain ⟨before, behind⟩ := List.forall_mem_append.mp all
  obtain ⟨taken, left⟩ := @takeWhile_until _ _ ('.' :: part) before (by simp [isDigit])
  obtain ⟨rest, none⟩ := @takeWhile_until _ _ [] behind (by simp)
  rw [List.append_nil] at rest none
  simp [decimal?, taken, left, rest, none, some, exponent?]

def signed (negative : Bool) (body : List Char) :
    List Char := (if negative then ['-'] else []) ++ body

structure Numeral (body : List Char) : Prop where
  lead : ∃ c rest, body = c :: rest ∧ isDigit c = true
  plain : ∀ c ∈ body, (isDigit c || c == '.') = true

theorem sign_signed (numeral : Numeral body) : sign (signed negative body) = (negative, body) := by
  obtain ⟨c, rest, rfl, digit⟩ := numeral.lead
  cases negative with
  | true => rfl
  | false =>
    rw [signed, if_neg Bool.false_ne_true, List.nil_append]
    unfold sign
    split
    · rename_i same
      exact absurd digit (by rw [(List.cons.inj same).1]; decide)
    · rename_i same
      exact absurd digit (by rw [(List.cons.inj same).1]; decide)
    · rfl

theorem sameWord_digit {cs : List Char} {word : String} (digit : isDigit c = true) (member : c ∈ cs)
    (letters : (word.toList.map lowerAscii).any isDigit = false) : sameWord cs word = false := by
  rw [sameWord, beq_eq_false_iff_ne]
  intro same
  have range := digit_toNat digit
  have itself : lowerAscii c = c := by
    refine if_neg fun letter => ?_
    simp only [Bool.and_eq_true, decide_eq_true_eq] at letter
    have : 65 ≤ c.toNat := letter.1
    omega
  have found : c ∈ word.toList.map lowerAscii := same ▸ itself ▸ List.mem_map_of_mem member
  rw [List.any_eq_false] at letters
  exact letters c found digit

theorem float?_signed (numeral : Numeral body) :
    float? (signed negative body) = (decimal? body).map (Binary64.ofDecimal negative) := by
  obtain ⟨c, rest, rfl, digit⟩ := numeral.lead
  have other (word : String) := @sameWord_digit c (c :: rest) word digit List.mem_cons_self
  simp only [float?, sign_signed numeral, other "inf" rfl, other "infinity" rfl, other "nan" rfl]
  rfl

theorem isNumericText_signed (numeral : Numeral body) :
    isNumericText (signed negative body) = true := by
  obtain ⟨c, rest, same, digit⟩ := numeral.lead
  rw [isNumericText, sign_signed numeral]
  simp only [Bool.and_eq_true, List.any_eq_true, List.all_eq_true]
  exact ⟨⟨c, by simp [same], digit⟩, numeral.plain⟩

theorem trimList_solid {cs : List Char} (solid : ∀ c ∈ cs, Text.isBlank c = false) :
    Text.trimList cs = cs := by
  have keeps {cs : List Char} (solid : ∀ c ∈ cs, Text.isBlank c = false) :
      cs.dropWhile Text.isBlank = cs := by
    cases cs with
    | nil => rfl
    | cons c rest => exact List.dropWhile_cons_of_neg (by simp [solid c List.mem_cons_self])
  rw [Text.trimList, keeps solid, keeps fun c member => solid c (List.mem_reverse.mp member),
    List.reverse_reverse]

theorem trimList_signed (numeral : Numeral body) :
    Text.trimList (signed negative body) = signed negative body := by
  have none : ∀ n < 58, 45 ≤ n → Text.whiteSpace.contains n = false := by decide
  refine trimList_solid fun c member => none c.toNat ?_ ?_
  all_goals
    rcases List.mem_append.mp member with minus | plain
    · have : c = '-' := by cases negative <;> simp_all
      subst this
      decide
    · rcases Bool.or_eq_true_iff.mp (numeral.plain c plain) with digit | point
      · have := digit_toNat digit
        omega
      · rw [eq_of_beq point]
        decide

theorem numeral_digits (all : ∀ c ∈ body, isDigit c = true) (some : body ≠ []) : Numeral body := by
  refine ⟨?_, fun c member => by simp [all c member]⟩
  obtain ⟨c, rest, rfl⟩ := List.exists_cons_of_ne_nil some
  exact ⟨c, rest, rfl, all c List.mem_cons_self⟩

theorem numeral_toDigits (n : Nat) : Numeral (Nat.toDigits 10 n) :=
  numeral_digits (toDigits_isDigit n) Nat.toDigits_ne_nil

theorem integer?_signed (all : ∀ c ∈ body, isDigit c = true) (some : body ≠ []) :
    integer? (signed negative body) = .some (if negative then -(digits body : Int)
      else digits body) := by
  have value : natural? body = .some (digits body) := by
    rw [natural?, List.isEmpty_eq_false_iff.mpr some, List.all_eq_true.mpr all]
    rfl
  simp only [integer?, sign_signed (numeral_digits all some), value]
  rfl

theorem int32?_toDigits (n : Int32) :
    int32? (signed (decide (n.toInt < 0)) (Nat.toDigits 10 n.toInt.natAbs)) = some n := by
  have value : (if n.toInt < 0 then -(n.toInt.natAbs : Int) else n.toInt.natAbs) = n.toInt := by
    split <;> omega
  have range : -0x80000000 ≤ n.toInt ∧ n.toInt < 0x80000000 := ⟨n.le_toInt, n.toInt_lt⟩
  simp only [int32?, integer?_signed (toDigits_isDigit _) Nat.toDigits_ne_nil, digits_toDigits,
    decide_eq_true_eq, value, if_pos range, Int32.ofInt_toInt]

theorem ofDecimal_whole (n : Int) :
    Binary64.ofDecimal (decide (n < 0)) ⟨n.natAbs, 0⟩ = Binary64.ofInt n := by
  rw [Decimal.ofDecimal_eq]
  simp [Decimal.nearest, Decimal.whole, Binary64.ofInt, Binary64.ofRatio]

end Reading

namespace Layout

open Reading

variable {c k : Nat} {e : Int} {d : Decimal} {x : Binary64}

theorem toDigits_zeros (tidy : c = 0 → k = 0) :
    Nat.toDigits 10 (c * 10 ^ k) = Nat.toDigits 10 c ++ zeros k := by
  induction k with
  | zero => rw [Nat.pow_zero, Nat.mul_one, zeros, List.replicate_zero, List.append_nil]
  | succ k ih =>
    have pos : 0 < c := Nat.pos_of_ne_zero fun zero => Nat.succ_ne_zero k (tidy zero)
    have next := @Nat.toDigits_append_toDigits 10 (c * 10 ^ k) 0 (by decide)
      (Nat.mul_pos pos (Nat.pow_pos (by decide))) (by decide)
    rw [Nat.add_zero, Nat.mul_left_comm, ← Nat.pow_succ', Nat.toDigits_zero,
      ih fun zero => absurd zero (Nat.ne_of_gt pos), List.append_assoc] at next
    rw [← next, zeros, zeros, List.replicate_succ']

/-- A text of digits with a point among them that reads as the decimal. -/
structure Pointed (d : Decimal) (text whole part : List Char) : Prop where
  split : text = whole ++ '.' :: part
  some : whole ≠ []
  all : ∀ c ∈ whole ++ part, isDigit c = true
  reads : Decimal.nearest ⟨digits (whole ++ part), -part.length⟩ = d.nearest

theorem writeDecimal_whole (tidy : d.coefficient = 0 → d.exponent = 0) (none : 0 ≤ d.exponent) :
    display.writeDecimal d =
      Nat.toDigits 10 d.whole ++ if 10 ^ 15 ≤ d.whole then [] else ['.', '0'] := by
  obtain ⟨c, e⟩ := d
  obtain ⟨k, rfl⟩ := Int.eq_ofNat_of_zero_le none
  have digits : Nat.toDigits 10 (Decimal.whole ⟨c, k⟩) = Nat.toDigits 10 c ++ zeros k :=
    toDigits_zeros fun zero => Int.ofNat_inj.mp (tidy zero)
  have length : (Nat.toDigits 10 (Decimal.whole ⟨c, k⟩)).length ≤ 15 ↔
      Decimal.whole ⟨c, k⟩ < 10 ^ 15 :=
    Nat.length_toDigits_le_iff (by decide) (by decide)
  have some := @Nat.length_toDigits_pos 10 c
  rw [digits, List.length_append, zeros, List.length_replicate] at length
  have text : display.writeDecimal ⟨c, k⟩ =
      positional display (Nat.toDigits 10 c) ((Nat.toDigits 10 c).length + k) := rfl
  have room : ((Nat.toDigits 10 c).length + k : Int).toNat - (Nat.toDigits 10 c).length = k := by
    omega
  rw [text, positional, if_neg (by omega), if_pos (by omega), room, digits]
  congr 1
  simp only [display, atMost, Option.all_some, decide_eq_true_eq]
  by_cases large : 10 ^ 15 ≤ Decimal.whole ⟨c, k⟩
  · rw [if_pos large, if_neg (by omega)]
  · rw [if_neg large, if_pos (by omega)]

theorem writeDecimal_places (places : d.exponent < 0) : ∃ whole part, Pointed d
    (display.writeDecimal d) whole part := by
  obtain ⟨c, e⟩ := d
  have text : display.writeDecimal ⟨c, e⟩ =
      positional display (Nat.toDigits 10 c) ((Nat.toDigits 10 c).length + e) := rfl
  have all := toDigits_isDigit c
  have value := digits_toDigits c
  have some := @Nat.length_toDigits_pos 10 c
  rw [text, positional]
  change e < 0 at places
  generalize Nat.toDigits 10 c = row at all value some ⊢
  split
  · refine ⟨['0'], zeros (-(row.length + e)).toNat ++ row, rfl, List.cons_ne_nil _ _, ?_, ?_⟩
    · simp only [List.forall_mem_append, List.forall_mem_singleton, zeros, List.mem_replicate]
      exact ⟨by decide, fun c zero => zero.2 ▸ by decide, all⟩
    · have length : (-((zeros (-(row.length + e)).toNat ++ row).length : Int)) = e := by
        simp only [List.length_append, zeros, List.length_replicate]
        omega
      have leading : digits (['0'] ++ (zeros (-(row.length + e)).toNat ++ row)) = digits row := by
        change Nat.ofDigitChars 10 _ 0 = Nat.ofDigitChars 10 _ 0
        rw [Nat.ofDigitChars_append, Nat.ofDigitChars_append, zeros,
          Nat.ofDigitChars_replicate_zero]
        exact congrArg _ (Nat.mul_zero _)
      rw [length, leading, value]
  · rename_i inside
    rw [if_neg (by omega)]
    have joined := List.take_append_drop ((row.length : Int) + e).toNat row
    refine ⟨_, _, rfl, ?_, by rwa [joined], ?_⟩
    · rw [← List.length_pos_iff, List.length_take]
      omega
    · have length : (-((row.drop ((row.length : Int) + e).toNat).length : Int)) = e := by
        rw [List.length_drop]
        omega
      rw [joined, length, value]

theorem nearest_zero (zero : d.coefficient = 0) : d.nearest = 0 := by
  refine Binary64.nearestWord_half ?_
  rw [Decimal.whole, zero, Nat.zero_mul, Nat.zero_mul]
  exact Nat.pow_pos (by decide)

theorem write_finite (finite : x.isFinite = true) :
    ∃ d, display.write x = signed x.isNegative (display.writeDecimal d) ∧
    d.nearest = x.word % 2 ^ 63 ∧
      (d.coefficient = 0 → d.exponent = 0) ∧
      (0 ≤ d.exponent ∧ 10 ^ 15 ≤ d.whole ↔ x.WholeFrom (10 ^ 15)) := by
  have number : x.isNaN = false ∧ x.isInfinite = false := by
    simp only [Binary64.isFinite, bne_iff_ne] at finite
    simp [Binary64.isNaN, Binary64.isInfinite, finite]
  by_cases zero : x.isZero = true
  · have word : x.word % 2 ^ 63 = 0 := eq_of_beq zero
    have steps : x.magnitude = 0 := by
      rw [← Binary64.withSign_word x, word]
      exact @Binary64.magnitude_withSign _ 0 0 ⟨by decide, .inl rfl⟩ (by decide)
    refine ⟨⟨0, 0⟩, by simp [write, signed, number, zero], by
      rw [nearest_zero rfl, word], fun _ => rfl, ?_⟩
    refine iff_of_false (fun large => absurd large.2 (by decide)) ?_
    rintro ⟨n, large, same⟩
    rw [steps] at same
    have := Nat.mul_pos (show 0 < n by omega) Binary64.unit_pos
    omega
  · refine ⟨Decimal.shortest .up x.magnitude, by simp [write, signed, number, zero, display], ?_⟩
    have reads : (Decimal.shortest .up x.magnitude).nearest = x.word % 2 ^ 63 := by
      rw [Decimal.nearest_shortest, Binary64.nearestWord_steps finite]
    refine ⟨reads, fun none => ?_, Binary64.shortest_without_places finite⟩
    exact absurd (beq_iff_eq.mpr (reads.symm.trans (nearest_zero none))) zero

theorem Pointed.numeral {whole part text : List Char} (pointed : Pointed d text whole part) :
    Numeral text := by
  obtain ⟨rfl, some, all, -⟩ := pointed
  obtain ⟨c, more, rfl⟩ := List.exists_cons_of_ne_nil some
  refine ⟨⟨c, _, rfl, all c (by simp)⟩, fun d member => ?_⟩
  rcases List.mem_append.mp member with before | behind
  · simp [all d (List.mem_append_left _ before)]
  · rcases List.mem_cons.mp behind with rfl | after
    · rfl
    · simp [all d (List.mem_append_right _ after)]

theorem writeDecimal_pointed (tidy : d.coefficient = 0 → d.exponent = 0)
    (other : ¬ (0 ≤ d.exponent ∧ 10 ^ 15 ≤ d.whole)) :
    ∃ whole part, Pointed d (display.writeDecimal d) whole part := by
  by_cases none : 0 ≤ d.exponent
  · have small : ¬ 10 ^ 15 ≤ d.whole := fun large => other ⟨none, large⟩
    rw [writeDecimal_whole tidy none, if_neg small]
    refine ⟨_, _, rfl, Nat.toDigits_ne_nil, ?_, ?_⟩
    · simp only [List.forall_mem_append, List.forall_mem_singleton]
      exact ⟨toDigits_isDigit _, by decide⟩
    · have padded : digits (Nat.toDigits 10 d.whole ++ ['0']) = d.whole * 10 ^ 1 := by
        rw [digits, digitsFrom, List.foldl_append]
        exact congrArg (10 * · + 0) (digits_toDigits _) |>.trans (Nat.mul_comm _ _)
      rw [padded, ← Decimal.nearest_whole none, ← Decimal.nearest_pad d.whole 1 0, Int.zero_sub]
      rfl
  · exact writeDecimal_places (Int.lt_of_not_ge none)

/-- The display of a finite double reads back as the double, and has a point unless the double is a
whole number from `10 ^ 15` on. -/
theorem display_reads (finite : x.isFinite = true) :
    ∃ body, display.write x = signed x.isNegative body ∧ Numeral body ∧
      (decimal? body).map (Binary64.ofDecimal x.isNegative) = some x ∧
      ('.' ∈ body ↔ ¬ x.WholeFrom (10 ^ 15)) := by
  obtain ⟨d, text, reads, tidy, large⟩ := write_finite finite
  refine ⟨_, text, ?_⟩
  rw [← large]
  by_cases whole : 0 ≤ d.exponent ∧ 10 ^ 15 ≤ d.whole
  · rw [writeDecimal_whole tidy whole.1, if_pos whole.2, List.append_nil]
    refine ⟨numeral_toDigits _, ?_, iff_of_false (fun point => ?_) (not_not_intro whole)⟩
    · rw [decimal?_digits (toDigits_isDigit _) Nat.toDigits_ne_nil, digits_toDigits,
        Option.map_some, Decimal.ofDecimal_eq, Decimal.nearest_whole whole.1, reads,
          Binary64.withSign_word]
    · exact absurd (toDigits_isDigit _ _ point) (by decide)
  · obtain ⟨before, behind, pointed⟩ := writeDecimal_pointed tidy whole
    refine ⟨pointed.numeral, ?_, iff_of_true (by rw [pointed.split]; simp) whole⟩
    rw [pointed.split, decimal?_pointed pointed.all pointed.some, Option.map_some,
      Decimal.ofDecimal_eq, pointed.reads, reads, Binary64.withSign_word]

end Layout

end Scriptlet
