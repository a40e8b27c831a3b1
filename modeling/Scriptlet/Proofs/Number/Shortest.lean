import Scriptlet.Number.Decimal
import Scriptlet.Proofs.Number.Whole

/-!
The shortest decimal of a double reads back as the double. Reading is rounding to the nearest double
also where it takes a short cut, so it depends on the value of a decimal only, and zeros at its end
do not matter. A decimal without places reads as a whole number, and that of a whole double has
none.
-/
namespace Scriptlet

namespace Binary64

variable {negative : Bool} {n d k s w : Nat}

theorem unit_pos : 0 < unit := by
  rw [unit_eq]
  exact Nat.two_pow_pos stepExponent

theorem roundHalfEven_scale (pos : 0 < k) : roundHalfEven (n * k) (d * k) = roundHalfEven n d := by
  have lower : 2 * (n % d * k) < d * k ↔ 2 * (n % d) < d := by
    rw [← Nat.mul_assoc, Nat.mul_lt_mul_right pos]
  have upper : d * k < 2 * (n % d * k) ↔ d < 2 * (n % d) := by
    rw [← Nat.mul_assoc, Nat.mul_lt_mul_right pos]
  simp only [roundHalfEven, Nat.mul_div_mul_right _ _ pos, Nat.mul_mod_mul_right, lower, upper]

theorem le_roundHalfEven (n d : Nat) : n / d ≤ roundHalfEven n d := by
  simp only [roundHalfEven]
  split
  · exact Nat.le_refl _
  · split <;> omega

theorem nearestWord_scale (pos : 0 < k) : nearestWord (n * k) (d * k) = nearestWord n d := by
  rw [nearestWord_eq rfl, nearestWord_eq rfl, Nat.mul_div_mul_right _ _ pos, Nat.mul_right_comm d k,
    roundHalfEven_scale pos]

theorem nearestWord_congr {n' d' : Nat} (pos : 0 < d) (pos' : 0 < d') (same : n * d' = n' * d) :
    nearestWord n d = nearestWord n' d' := by
  rw [← nearestWord_scale pos', same, Nat.mul_comm d, nearestWord_scale pos]

theorem nearestWord_half (small : 2 * n < d) : nearestWord n d = 0 := by
  have none : n / d = 0 := Nat.div_eq_of_lt (by omega)
  have rest : n % d = n := Nat.mod_eq_of_lt (by omega)
  simp [nearestWord, none, roundHalfEven, rest, small]

/-- A significand and the power of two it is multiplied with. -/
structure Scaled (k s : Nat) : Prop where
  short : s < 2 ^ 53
  lead : k = 0 ∨ 2 ^ 52 ≤ s

theorem exists_scaled (w : Nat) : ∃ k s, w = k * 2 ^ 52 + s ∧ Scaled k s := by
  by_cases small : w < 2 ^ 52
  · exact ⟨0, w, by omega, by omega, .inl rfl⟩
  · exact ⟨w / 2 ^ 52 - 1, 2 ^ 52 + w % 2 ^ 52, by omega, by omega, .inr (by omega)⟩

theorem magnitude_withSign (fits : Scaled k s) (bound : k * 2 ^ 52 + s ≤ infinityWord) :
    (withSign negative (k * 2 ^ 52 + s)).magnitude = s * 2 ^ k := by
  have word := @word_withSign negative _ bound
  obtain ⟨short, lead⟩ := fits
  rw [infinityWord] at bound
  have field : (withSign negative (k * 2 ^ 52 + s)).exponentField =
      if s < 2 ^ 52 then 0 else k + 1 := by
    rw [exponentField, word]
    split <;> split <;> omega
  have rest : (withSign negative (k * 2 ^ 52 + s)).fraction = s % 2 ^ 52 := by
    rw [fraction, word]
    split <;> omega
  rw [magnitude, significand, field, rest, Nat.shiftLeft_eq]
  by_cases small : s < 2 ^ 52
  · have none : k = 0 := by omega
    rw [if_pos small, if_pos rfl, none, Nat.mod_eq_of_lt small]
  · have above : 0x10000000000000 + s % 2 ^ 52 = s := by omega
    rw [if_neg small, if_neg (Nat.succ_ne_zero k), above, Nat.add_sub_cancel]

theorem nearestWord_scaled (fits : Scaled k s) (bound : k * 2 ^ 52 + s ≤ infinityWord) :
    nearestWord (s * 2 ^ k) 1 = k * 2 ^ 52 + s := by
  have shift : (s * 2 ^ k / 1).log2 - 52 = k := by
    rw [Nat.div_one]
    obtain ⟨short, lead⟩ := fits
    have low := log2_le short
    by_cases zero : s = 0
    · simp [zero] at lead ⊢
      omega
    · rw [log2_mul_two_pow zero]
      have : 2 ^ 52 ≤ s → 52 ≤ s.log2 := (Nat.le_log2 zero).mpr
      omega
  rw [nearestWord_eq shift, Nat.one_mul, roundHalfEven_mul _ (Nat.two_pow_pos _),
    Nat.min_eq_left bound]

theorem nearestWord_magnitude (bound : w ≤ infinityWord) :
    nearestWord (withSign negative w).magnitude 1 = w := by
  obtain ⟨k, s, rfl, fits⟩ := exists_scaled w
  rw [magnitude_withSign fits bound, nearestWord_scaled fits bound]

theorem magnitude_sign (bound : w ≤ infinityWord) :
    (withSign negative w).magnitude = (withSign false w).magnitude := by
  obtain ⟨k, s, rfl, fits⟩ := exists_scaled w
  rw [magnitude_withSign fits bound, magnitude_withSign fits bound]

theorem withSign_word (x : Binary64) : withSign x.isNegative (x.word % 2 ^ 63) = x := by
  have size : x.word < 2 ^ 64 := x.bits.toNat_lt
  have whole : (if x.isNegative = true then 0x8000000000000000 + x.word % 2 ^ 63
      else x.word % 2 ^ 63) = x.word := by
    simp only [isNegative, decide_eq_true_eq]
    split <;> omega
  rw [withSign, whole, ofWord, word, UInt64.ofNat_toNat]

theorem word_lt_infinity {x : Binary64} (finite : x.isFinite = true) :
    x.word % 2 ^ 63 < infinityWord := by
  simp only [isFinite, exponentField, bne_iff_ne, ne_eq] at finite
  rw [infinityWord]
  omega

theorem magnitude_whole (small : n < 2 ^ 53) :
    (withSign negative (nearestWord (n * unit) 1)).magnitude = n * unit := by
  by_cases zero : n = 0
  · rw [zero, nearestWord_zero, Nat.zero_mul]
    exact magnitude_withSign (k := 0) (s := 0) ⟨by decide, .inl rfl⟩ (by decide)
  · have bounds := aligned_bounds zero small
    have value := nearestWord_whole zero small
    rw [value, magnitude_withSign ⟨bounds.2, .inr bounds.1⟩ (value ▸ nearestWord_le _ _),
      aligned_unit small]

theorem magnitude_large (large : 2 ^ 53 ≤ n) :
    ∃ j, (withSign negative (nearestWord (n * unit) 1)).magnitude = j * unit ∧ 2 ^ 53 ≤ j := by
  have some : n ≠ 0 := by omega
  have digits : 53 ≤ n.log2 := (Nat.le_log2 some).mpr large
  have lead : 2 ^ 52 ≤ roundHalfEven (n * unit) (2 ^ (n.log2 + 1022)) := by
    refine Nat.le_trans ?_ (le_roundHalfEven _ _)
    have places : 52 + (n.log2 + 1022) = n.log2 + stepExponent := by
      rw [stepExponent]
      omega
    rw [Nat.le_div_iff_mul_le (Nat.two_pow_pos _), ← Nat.pow_add, places, Nat.pow_add, unit_eq]
    exact Nat.mul_le_mul_right _ (Nat.log2_self_le some)
  have above : 1076 * 2 ^ 52 ≤ nearestWord (n * unit) 1 := by
    rw [nearestWord_eq (shift_unit some), Nat.one_mul, infinityWord]
    omega
  have bound := nearestWord_le (n * unit) 1
  obtain ⟨k, s, same, short, lead⟩ := exists_scaled (nearestWord (n * unit) 1)
  rw [same] at above bound ⊢
  have split : k = k - 1075 + 1 + stepExponent := by
    rw [stepExponent]
    omega
  refine ⟨s * 2 ^ (k - 1075 + 1), ?_, ?_⟩
  · rw [magnitude_withSign ⟨short, lead⟩ bound, unit_eq, Nat.mul_assoc, ← Nat.pow_add, ← split]
  · calc 2 ^ 53 = 2 ^ 52 * 2 ^ (0 + 1) := by decide
      _ ≤ s * 2 ^ (k - 1075 + 1) :=
        Nat.mul_le_mul (by omega) (Nat.pow_le_pow_right (by decide) (by omega))

end Binary64

namespace Decimal

open Binary64

variable {negative : Bool} {tie : Tie} {c k m n fuel : Nat} {e place : Int} {d : Decimal}

def whole (d : Decimal) : Nat := d.coefficient * 10 ^ d.exponent.toNat

def nearest (d : Decimal) : Nat := nearestWord (d.whole * unit) (10 ^ (-d.exponent).toNat)

theorem nearest_le (d : Decimal) : nearest d ≤ infinityWord := nearestWord_le _ _

theorem ratio_eq (d : Decimal) : d.ratio = (d.whole, 10 ^ (-d.exponent).toNat) := by
  obtain ⟨c, e⟩ := d
  cases e with
  | ofNat e => cases e <;> rfl
  | negSucc e => exact congrArg (·, 10 ^ (e + 1)) (Nat.mul_one c).symm

theorem nearest_vanishes (vanishes : d.vanishes = true) : nearest d = 0 := by
  simp only [Decimal.vanishes, decide_eq_true_eq] at vanishes
  have none : d.exponent.toNat = 0 := by omega
  have places : d.coefficient.log2 + 1 + stepExponent + 1 ≤ 3 * (-d.exponent).toNat := by
    rw [stepExponent]
    omega
  refine nearestWord_half ?_
  rw [whole, none, Nat.pow_zero, Nat.mul_one, Nat.mul_comm]
  calc d.coefficient * unit * 2 < 2 ^ (d.coefficient.log2 + 1) * unit * 2 :=
        Nat.mul_lt_mul_of_pos_right (Nat.mul_lt_mul_of_pos_right Nat.lt_log2_self unit_pos)
          (by decide)
    _ = 2 ^ (d.coefficient.log2 + 1 + stepExponent + 1) := by
      rw [unit_eq, ← Nat.pow_add, ← Nat.pow_succ]
    _ ≤ 2 ^ (3 * (-d.exponent).toNat) := Nat.pow_le_pow_right (by decide) places
    _ = 8 ^ (-d.exponent).toNat := by rw [Nat.pow_mul]
    _ ≤ 10 ^ (-d.exponent).toNat := Nat.pow_le_pow_left (by decide) _

theorem two_pow_le_ten_pow (e : Nat) : 2 ^ (342 * (e / 103)) ≤ 10 ^ e :=
  calc 2 ^ (342 * (e / 103)) = ((2 ^ 171) ^ 2) ^ (e / 103) := by
        rw [← Nat.pow_mul, ← Nat.pow_mul, ← Nat.mul_assoc]
    _ ≤ (10 ^ 103) ^ (e / 103) := Nat.pow_le_pow_left (by decide) _
    _ = 10 ^ (103 * (e / 103)) := (Nat.pow_mul ..).symm
    _ ≤ 10 ^ e := Nat.pow_le_pow_right (by decide) (Nat.mul_div_le e 103)

theorem nearest_overflows (some : d.coefficient ≠ 0) (large : overflowExponent < d.exponent) :
    nearest d = infinityWord := by
  rw [overflowExponent] at large
  have none : (-d.exponent).toNat = 0 := by omega
  have value : 2 ^ (342 * (d.exponent.toNat / 103) + stepExponent) ≤ d.whole * unit := by
    rw [Nat.pow_add, ← unit_eq]
    exact Nat.mul_le_mul_right _ (Nat.le_trans (two_pow_le_ten_pow _)
      (Nat.le_mul_of_pos_left _ (Nat.pos_of_ne_zero some)))
  have digits := (Nat.le_log2 (Nat.ne_of_gt (Nat.lt_of_lt_of_le (Nat.two_pow_pos _) value))).mpr
    value
  rw [stepExponent] at digits
  rw [nearest, none, Nat.pow_zero, nearestWord_eq rfl, Nat.div_one, infinityWord]
  omega

theorem ofDecimal_eq (negative : Bool) (d : Decimal) :
    ofDecimal negative d = withSign negative (nearest d) := by
  rw [ofDecimal, ofRatio, ratio_eq]
  split
  · rename_i short
    rcases Bool.or_eq_true_iff.mp short with zero | vanishes
    · have none : 2 * (d.whole * unit) < 10 ^ (-d.exponent).toNat := by
        rw [whole, of_decide_eq_true zero, Nat.zero_mul, Nat.zero_mul]
        exact Nat.pow_pos (by decide)
      rw [nearest, nearestWord_half none]
    · rw [nearest_vanishes vanishes]
  · rename_i long
    split
    · rename_i large
      have some : d.coefficient ≠ 0 := by simp at long; exact long.1
      rw [infinity, nearest_overflows some large]
    · rfl

theorem nearest_pad (c k : Nat) (e : Int) : nearest ⟨c * 10 ^ k, e - k⟩ = nearest ⟨c, e⟩ := by
  refine nearestWord_congr (Nat.pow_pos (by decide)) (Nat.pow_pos (by decide)) ?_
  have places : k + (e - k).toNat + (-e).toNat = e.toNat + (-(e - k)).toNat := by omega
  rw [Nat.mul_right_comm, Nat.mul_right_comm _ unit]
  congr 1
  simp only [whole, Nat.mul_assoc c, ← Nat.pow_add, places]

theorem nearest_whole (none : 0 ≤ d.exponent) : nearest ⟨d.whole, 0⟩ = nearest d := by
  have none : (-d.exponent).toNat = 0 := by omega
  rw [nearest, nearest, none, show whole ⟨d.whole, 0⟩ = d.whole from Nat.mul_one _]
  rfl

theorem nearest_stripZeros (fuel : Nat) (d : Decimal) :
    nearest (stripZeros fuel d) = nearest d := by
  fun_induction stripZeros fuel d with
  | case2 fuel d zero ih =>
    have pad := nearest_pad (d.coefficient / 10) 1 (d.exponent + 1)
    have same : d.coefficient / 10 * 10 ^ 1 = d.coefficient := by omega
    rw [ih, ← pad, same, Int.natCast_one, Int.add_sub_cancel]
  | _ => rfl

theorem onGrid?_some (found : onGrid? tie m n place = some d) :
    d.exponent = -(n - place) ∧ (ofDecimal false d).magnitude = m := by
  simp only [onGrid?] at found
  split at found <;> rename_i below above <;> cases found
  · split
    · exact ⟨rfl, eq_of_beq above⟩
    · exact ⟨rfl, eq_of_beq below⟩
  · exact ⟨rfl, eq_of_beq below⟩
  · exact ⟨rfl, eq_of_beq above⟩

theorem fewest_some (found : fewest tie m place fuel n = some d) :
    ∃ k, onGrid? tie m k place = some d ∧ ∀ j, n ≤ j → j < k → onGrid? tie m j place = none := by
  induction fuel generalizing n with
  | zero => cases found
  | succ fuel ih =>
    rw [fewest] at found
    cases here : onGrid? tie m n place with
    | some d' =>
      rw [here] at found
      exact ⟨n, here.trans found, fun j low high => absurd high (Nat.not_lt_of_le low)⟩
    | none =>
      rw [here] at found
      obtain ⟨k, hit, missed⟩ := ih found
      refine ⟨k, hit, fun j low high => ?_⟩
      rcases Nat.eq_or_lt_of_le low with rfl | later
      · exact here
      · exact missed j later high

theorem tens : 5 ^ stepExponent * unit = 10 ^ stepExponent := by
  rw [unit_eq, ← Nat.mul_pow]

theorem expansion_eq (m : Nat) : expansion m = ⟨m * 5 ^ stepExponent, -stepExponent⟩ := by
  rw [expansion, Nat.pow_eq]

theorem nearest_expansion (m : Nat) : nearest (expansion m) = nearestWord m 1 := by
  have value : (expansion m).whole = m * 5 ^ stepExponent := by
    rw [whole, expansion_eq, Int.toNat_neg_natCast, Nat.pow_zero, Nat.mul_one]
  refine nearestWord_congr (Nat.pow_pos (by decide)) Nat.one_pos ?_
  rw [value, Nat.mul_one, Nat.mul_assoc, tens]
  rfl

/-- The shortest decimal reads back. -/
theorem nearest_shortest (tie : Tie) (m : Nat) : nearest (shortest tie m) = nearestWord m 1 := by
  rw [shortest, normalize, nearest_stripZeros]
  cases found : fewest tie m (place m) 17 1 with
  | none => exact nearest_expansion m
  | some d =>
    obtain ⟨k, hit, -⟩ := fewest_some found
    obtain ⟨-, reads⟩ := onGrid?_some hit
    rw [← reads, ofDecimal_eq, nearestWord_magnitude (nearest_le d)]
    rfl

theorem le_stripZeros (fuel : Nat) (d : Decimal) : d.exponent ≤ (stripZeros fuel d).exponent := by
  fun_induction stripZeros fuel d with
  | case2 fuel d zero ih => exact Int.le_trans (Int.le_add_one (Int.le_refl _)) ih
  | _ => exact Int.le_refl _

theorem stripZeros_tens (some : c ≠ 0) (enough : k ≤ fuel) :
    e + k ≤ (stripZeros fuel ⟨c * 10 ^ k, e⟩).exponent := by
  induction k generalizing fuel e with
  | zero => exact Int.le_trans (Int.le_of_eq (Int.add_zero e)) (le_stripZeros fuel ⟨c * 10 ^ 0, e⟩)
  | succ k ih =>
    obtain ⟨fuel, rfl⟩ := Nat.exists_eq_succ_of_ne_zero (Nat.ne_zero_of_lt enough)
    have next := @ih fuel (e + 1) (Nat.le_of_succ_le_succ enough)
    have zero : c * 10 ^ (k + 1) = c * 10 ^ k * 10 := by rw [Nat.pow_succ, Nat.mul_assoc]
    have pos : 0 < c * 10 ^ k := Nat.mul_pos (Nat.pos_of_ne_zero some) (Nat.pow_pos (by decide))
    rw [stripZeros, if_pos (by dsimp only; omega)]
    simp only [zero, Nat.mul_div_cancel _ (show 0 < 10 by decide)]
    omega

theorem onGrid?_whole (reads : (ofDecimal false ⟨n, 0⟩).magnitude = n * unit) :
    onGrid? tie (n * unit) k k ≠ none := by
  have value : scaleUp (n * unit) 0 = (n * unit, unit) :=
    congrArg (·, unit) (Nat.mul_one _)
  simp only [onGrid?, Int.sub_self, value, Nat.mul_div_cancel n unit_pos, Int.neg_zero, reads,
    beq_self_eq_true]
  split <;> simp_all

theorem shortest_whole (some : n ≠ 0) (reads : (ofDecimal false ⟨n, 0⟩).magnitude = n * unit) :
    0 ≤ (shortest tie (n * unit)).exponent := by
  have digits : place (n * unit) = (Nat.toDigits 10 n).length := by
    rw [place, if_pos (Nat.le_mul_of_pos_left _ (Nat.pos_of_ne_zero some)),
      Nat.mul_div_cancel n unit_pos, width, if_neg some]
  rw [shortest, normalize, digits]
  cases found : fewest tie (n * unit) (Nat.toDigits 10 n).length 17 1 with
  | some d =>
    refine Int.le_trans ?_ (le_stripZeros _ d)
    obtain ⟨k, hit, missed⟩ := fewest_some found
    rw [(onGrid?_some hit).1]
    -- The search does not go beyond the grid of all digits, where it has its last hit.
    have last : k ≤ (Nat.toDigits 10 n).length := Nat.le_of_not_lt fun later =>
      onGrid?_whole reads (missed _ Nat.length_toDigits_pos later)
    omega
  | none =>
    have tens : expansion (n * unit) = ⟨n * 10 ^ stepExponent, -stepExponent⟩ := by
      rw [expansion_eq, ← tens, Nat.mul_comm (5 ^ _), ← Nat.mul_assoc]
    have long : stepExponent ≤ width (n * 10 ^ stepExponent) := by
      have large : 10 ^ stepExponent ≤ n * 10 ^ stepExponent :=
        Nat.le_mul_of_pos_left _ (Nat.pos_of_ne_zero some)
      rw [width, if_neg (Nat.ne_of_gt (Nat.lt_of_lt_of_le (Nat.pow_pos (by decide)) large))]
      refine Nat.le_of_lt (Nat.lt_of_not_le fun short => ?_)
      exact Nat.not_lt_of_le large ((Nat.length_toDigits_le_iff (by decide) (by decide)).mp short)
    rw [Option.getD_none, tens]
    exact stripZeros_tens some long

end Decimal

namespace Binary64

variable {x : Binary64} {tie : Decimal.Tie}

theorem nearestWord_steps (finite : x.isFinite = true) :
    nearestWord x.magnitude 1 = x.word % 2 ^ 63 := by
  have exact := @nearestWord_magnitude x.isNegative _ (Nat.le_of_lt (word_lt_infinity finite))
  rwa [withSign_word] at exact

def WholeFrom (n : Nat) (x : Binary64) : Prop := ∃ m, n ≤ m ∧ x.magnitude = m * unit

/-- The shortest decimal of a double is a whole number from `10 ^ 15` on if the double is. -/
theorem shortest_without_places (finite : x.isFinite = true) :
    let d := Decimal.shortest tie x.magnitude
    0 ≤ d.exponent ∧ 10 ^ 15 ≤ d.whole ↔ x.WholeFrom (10 ^ 15) := by
  intro d
  have reads : (withSign false (nearestWord x.magnitude 1)).magnitude = x.magnitude := by
    rw [← @magnitude_sign x.isNegative _ (nearestWord_le _ _), nearestWord_steps finite,
      withSign_word]
  have whole (none : 0 ≤ d.exponent) : nearestWord (d.whole * unit) 1 =
      nearestWord x.magnitude 1 := by
    have none : (-d.exponent).toNat = 0 := by omega
    rw [← Decimal.nearest_shortest tie x.magnitude, Decimal.nearest, none, Nat.pow_zero]
  constructor
  · rintro ⟨none, large⟩
    rw [← whole none] at reads
    by_cases small : d.whole < 2 ^ 53
    · exact ⟨d.whole, large, by rw [← reads, magnitude_whole small]⟩
    · obtain ⟨j, same, more⟩ := magnitude_large (Nat.le_of_not_lt small)
      exact ⟨j, by omega, by rw [← reads, same]⟩
  · rintro ⟨n, large, same⟩
    have none : 0 ≤ d.exponent := by
      have itself : (ofDecimal false ⟨n, 0⟩).magnitude = n * unit := by
        rw [Decimal.ofDecimal_eq, ← same, ← reads, same]
        simp [Decimal.nearest, Decimal.whole]
      simp only [d, same]
      exact Decimal.shortest_whole (by omega) itself
    refine ⟨none, Nat.le_of_not_lt fun small => ?_⟩
    rw [← whole none, magnitude_whole (by omega), same] at reads
    have := Nat.eq_of_mul_eq_mul_right unit_pos reads
    omega

end Binary64

end Scriptlet
