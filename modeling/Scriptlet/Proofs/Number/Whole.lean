import Scriptlet.Number.Binary64
import Mathlib.Algebra.Group.Int.Defs
import Mathlib.Algebra.GroupWithZero.Nat

/-!
Whole numbers among the doubles. Below `2 ^ 53` a whole number is a double without rounding, and its
bits ascend with it, so that 32-bit integers compare as doubles as they do among themselves.
-/
namespace Scriptlet.Binary64

variable {m n : Nat}

theorem log2_mul_two_pow (some : n ≠ 0) (k : Nat) : (n * 2 ^ k).log2 = n.log2 + k := by
  have pos : 0 < 2 ^ k := Nat.two_pow_pos k
  refine (Nat.log2_eq_iff (Nat.mul_ne_zero some (Nat.ne_of_gt pos))).mpr ⟨?_, ?_⟩
  · rw [Nat.pow_add]
    exact Nat.mul_le_mul_right _ (Nat.log2_self_le some)
  · rw [Nat.add_right_comm, Nat.pow_add]
    exact Nat.mul_lt_mul_of_pos_right Nat.lt_log2_self pos

theorem roundHalfEven_mul (q : Nat) {d : Nat} (pos : 0 < d) : roundHalfEven (q * d) d = q := by
  simp only [roundHalfEven, Nat.mul_mod_left, Nat.mul_div_cancel q pos, Nat.mul_zero, if_pos pos]

/-- The significand of a whole number: its leading binary digit is moved to place 52. -/
def aligned (n : Nat) : Nat := n * 2 ^ (52 - n.log2)

theorem log2_le (small : n < 2 ^ 53) : n.log2 ≤ 52 := by
  by_cases zero : n = 0
  · simp [zero]
  · exact Nat.le_of_lt_succ ((Nat.log2_lt zero).mpr small)

theorem aligned_bounds (some : n ≠ 0) (small : n < 2 ^ 53) :
    2 ^ 52 ≤ aligned n ∧ aligned n < 2 ^ 53 := by
  have split : n.log2 + (52 - n.log2) = 52 := Nat.add_sub_cancel' (log2_le small)
  have pos := Nat.two_pow_pos (52 - n.log2)
  constructor
  · calc 2 ^ 52 = 2 ^ n.log2 * 2 ^ (52 - n.log2) := by rw [← Nat.pow_add, split]
      _ ≤ aligned n := Nat.mul_le_mul_right _ (Nat.log2_self_le some)
  · calc aligned n < 2 ^ (n.log2 + 1) * 2 ^ (52 - n.log2) :=
          Nat.mul_lt_mul_of_pos_right Nat.lt_log2_self pos
      _ = 2 ^ 53 := by rw [← Nat.pow_add, Nat.add_right_comm, split]

theorem unit_eq : unit = 2 ^ stepExponent := Nat.one_shiftLeft stepExponent

theorem nearestWord_eq {d s : Nat} (shift : (n / d).log2 - 52 = s) :
    nearestWord n d = min (s * 2 ^ 52 + roundHalfEven n (d * 2 ^ s)) infinityWord := by
  simp only [nearestWord, shift, Nat.shiftLeft_eq]
  rfl

theorem shift_unit (some : n ≠ 0) : (n * unit / 1).log2 - 52 = n.log2 + 1022 := by
  rw [Nat.div_one, unit_eq, log2_mul_two_pow some, stepExponent]
  rfl

theorem aligned_unit (small : n < 2 ^ 53) : n * unit = aligned n * 2 ^ (n.log2 + 1022) := by
  have places : 52 - n.log2 + (n.log2 + 1022) = stepExponent := by
    have := log2_le small
    rw [stepExponent]
    omega
  rw [aligned, Nat.mul_assoc, ← Nat.pow_add, places, unit_eq]

theorem nearestWord_whole (some : n ≠ 0) (small : n < 2 ^ 53) :
    nearestWord (n * unit) 1 = (n.log2 + 1022) * 2 ^ 52 + aligned n := by
  have bound := log2_le small
  obtain ⟨-, below⟩ := aligned_bounds some small
  rw [nearestWord_eq (shift_unit some), aligned_unit small, Nat.one_mul,
    roundHalfEven_mul _ (Nat.two_pow_pos _), infinityWord]
  omega

theorem nearestWord_zero : nearestWord (0 * unit) 1 = 0 := by
  rw [Nat.zero_mul]
  rfl

theorem nearestWord_lt (less : m < n) (small : n < 2 ^ 53) :
    nearestWord (m * unit) 1 < nearestWord (n * unit) 1 := by
  have some : n ≠ 0 := Nat.ne_zero_of_lt less
  obtain ⟨above, -⟩ := aligned_bounds some small
  rw [nearestWord_whole some small]
  by_cases zero : m = 0
  · rw [zero, nearestWord_zero]
    omega
  · have small' := Nat.lt_trans less small
    obtain ⟨-, below⟩ := aligned_bounds zero small'
    rw [nearestWord_whole zero small']
    have order : m.log2 ≤ n.log2 :=
      (Nat.le_log2 some).mpr (Nat.le_trans (Nat.log2_self_le zero) (Nat.le_of_lt less))
    rcases Nat.lt_or_eq_of_le order with lower | same
    · omega
    · have : aligned m < aligned n := by
        rw [aligned, aligned, same]
        exact Nat.mul_lt_mul_of_pos_right less (Nat.two_pow_pos _)
      omega

theorem nearestWord_le (n d : Nat) : nearestWord n d ≤ infinityWord := Nat.min_le_right _ _

section Signs

variable {negative : Bool} {w : Nat}

theorem word_withSign (bound : w ≤ infinityWord) :
    (withSign negative w).word = if negative then 2 ^ 63 + w else w := by
  rw [infinityWord] at bound
  rw [withSign, word, ofWord, UInt64.toNat_ofNat']
  split <;> omega

theorem rank_withSign (bound : w ≤ infinityWord) :
    (withSign negative w).rank = if negative then -(w : Int) else w := by
  rw [rank, isNegative, word_withSign bound]
  rw [infinityWord] at bound
  cases negative <;> simp <;> omega

theorem isNaN_withSign (bound : w ≤ infinityWord) : (withSign negative w).isNaN = false := by
  rw [isNaN, exponentField, fraction, word_withSign bound]
  rw [infinityWord] at bound
  cases negative <;> simp <;> omega

end Signs

theorem rank_ofInt_lt {a b : Int} (less : a < b) (low : -2 ^ 53 < a) (high : b < 2 ^ 53) :
    (ofInt a).rank < (ofInt b).rank := by
  simp only [ofInt, ofRatio, rank_withSign (nearestWord_le _ _), decide_eq_true_eq]
  split
  · have small : a.natAbs < 2 ^ 53 := by omega
    split
    · have := nearestWord_lt (show b.natAbs < a.natAbs by omega) small
      omega
    · have := nearestWord_lt (show 0 < a.natAbs by omega) small
      omega
  · have := nearestWord_lt (show a.natAbs < b.natAbs by omega) (by omega)
    rw [if_neg (by omega)]
    omega

theorem compare_ofInt (a b : Int32) :
    (ofInt a.toInt).compare (ofInt b.toInt) = Ord.compare a.toInt b.toInt := by
  have ascends {a b : Int32} (less : a.toInt < b.toInt) :
      (ofInt a.toInt).rank < (ofInt b.toInt).rank := by
    have := a.le_toInt
    have := b.toInt_lt
    exact rank_ofInt_lt less (by omega) (by omega)
  have number (n : Int) : (ofInt n).isNaN = false := isNaN_withSign (nearestWord_le _ _)
  rw [compare, number, number]
  rcases Int.lt_trichotomy a.toInt b.toInt with less | same | greater
  · rw [Int.compare_eq_lt.mpr less]
    exact Int.compare_eq_lt.mpr (ascends less)
  · simp [same]
  · rw [Int.compare_eq_gt.mpr greater]
    exact Int.compare_eq_gt.mpr (ascends greater)

end Scriptlet.Binary64
