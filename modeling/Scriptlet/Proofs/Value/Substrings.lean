import Scriptlet.Builtin
import Scriptlet.Proofs.Text.Utf8
import Mathlib.Algebra.Group.Int.Defs
import Mathlib.Algebra.GroupWithZero.Nat
import Mathlib.Order.Bounds.Defs

/-!
The built-in functions that cut and search texts. For every count the front of a text and the text
from behind it make up the text, as do the text without its end and the end, and a part of a text is
the front of its rest. A text is found where cutting there gives it, first by characters as by
bytes.
-/
namespace Scriptlet.Builtin

variable {v : Value} {n m : Nat}

theorem display_ofChars (cs : List Char) : (ofChars cs).display.toList = cs := String.toList_ofList

theorem halves_join (same : m = n) :
    (ofChars (v.display.toList.take n)).concat (ofChars (v.display.toList.drop m)) =
      .text v.display := by
  refine congrArg Value.text (String.toList_inj.mp ?_)
  change ((ofChars _).display ++ (ofChars _).display).toList = _
  rw [String.toList_append, display_ofChars, display_ofChars, same, List.take_append_drop]

theorem toInt_ofCount (small : n < 2 ^ 31) : (ofCount n).toInteger.toInt = n := by
  change (Int32.ofInt (Min.min (n : Int) 0x7FFFFFFF)).toInt = n
  rw [Int.min_eq_left (by omega), Int32.toInt_ofInt_of_le (by omega) (by omega)]

/-- Cut at any place, a text is the front and what `Mid` gives from the next position on. Cut at a
distance from its end that `Len` counts, it is the front and what `Right` gives. And `Mid` with a
length gives as many characters of what it gives without. -/
theorem cuts_join (v : Value) (short : v.display.toList.length < 2 ^ 31) :
    let t := Value.text v.display
    let length := (len [t]).toInteger
    (∀ n : Int32, n.toInt < 2 ^ 31 - 1 →
      (left [v, .integer n]).concat (mid [v, .integer (n + 1)]) = t) ∧
    (∀ k : Int32, 0 ≤ k.toInt → k.toInt ≤ length.toInt →
      (left [t, .integer (length - k)]).concat (right [t, .integer k]) = t) ∧
    ∀ p k : Int32, (mid [v, .integer p, .integer k]).display.toList =
      (mid [v, .integer p]).display.toList.take k.toInt.toNat := by
  intro t length
  refine ⟨fun n below => halves_join ?_, fun k low high => @halves_join t _ _ ?_, fun p k => ?_⟩
  · have low := n.le_toInt
    have next : (n + 1).toInt = n.toInt + 1 := by
      rw [Int32.toInt_add]
      exact Int.bmod_eq_of_le (by simp; omega) (by simp; omega)
    change (n + 1).toInt.toNat - 1 = n.toInt.toNat
    omega
  · have counted : length.toInt = v.display.toList.length := toInt_ofCount short
    have rest : (length - k).toInt = length.toInt - k.toInt := by
      rw [Int32.toInt_sub]
      exact Int.bmod_eq_of_le (by simp; omega) (by simp; omega)
    change v.display.toList.length - k.toInt.toNat = (length - k).toInt.toNat
    omega
  · exact (display_ofChars _).trans (congrArg _ (display_ofChars _).symm)

theorem cuts_join_accents :
    let t := Value.text "äöü"
    (left [t, .integer 1]).concat (mid [t, .integer 2]) = t ∧
      (left [t, .integer 1]).concat (right [t, .integer 2]) = t ∧
      (mid [t, .integer (-5), .integer 2]).display.toList = ['ä', 'ö'] := by
  obtain ⟨behind, ends, part⟩ := cuts_join (.text "äöü") (by decide)
  exact ⟨behind 1 (by decide), ends 2 (by decide) (by decide), (part (-5) 2).trans (by decide)⟩

theorem position_cases (needle cs : List Char) :
    (position needle cs = 0 ∧ ∀ q, ¬ needle <+: cs.drop q) ∨
      ∃ p ≤ cs.length, position needle cs = p + 1 ∧ IsLeast {q | needle <+: cs.drop q} p := by
  fun_induction position needle cs with
  | case1 empty =>
    rw [List.isEmpty_iff.mp empty]
    exact .inr ⟨0, Nat.le_refl _, rfl, List.nil_prefix, fun _ _ => Nat.zero_le _⟩
  | case2 other =>
    refine .inl ⟨rfl, fun q found => other ?_⟩
    rw [List.drop_nil] at found
    exact List.isEmpty_iff.mpr (List.prefix_nil.mp found)
  | case3 c rest found =>
    exact .inr ⟨0, Nat.zero_le _, rfl, List.isPrefixOf_iff_prefix.mp found,
      fun _ _ => Nat.zero_le _⟩
  | case4 c rest other none ih =>
    obtain ⟨-, nowhere⟩ | ⟨p, -, some, -⟩ := ih
    · refine .inl ⟨rfl, fun q => ?_⟩
      cases q with
      | zero => exact fun found => other (List.isPrefixOf_iff_prefix.mpr found)
      | succ q => exact nowhere q
    · omega
  | case5 c rest other p same ih =>
    obtain ⟨none, -⟩ | ⟨q, bound, some, found, least⟩ := ih
    · omega
    · obtain rfl : p = q := by omega
      refine .inr ⟨p + 1, Nat.succ_le_succ bound, rfl, found, fun q there => ?_⟩
      cases q with
      | zero => exact absurd (List.isPrefixOf_iff_prefix.mpr there) other
      | succ q => exact Nat.succ_le_succ (least there)

theorem infix_iff_drop {α : Type} {l m : List α} : l <:+: m ↔ ∃ i, l <+: m.drop i := by
  rw [List.infix_iff_prefix_suffix]
  constructor
  · rintro ⟨_, front, before, rfl⟩
    exact ⟨before.length, by rwa [List.drop_left]⟩
  · rintro ⟨i, front⟩
    exact ⟨_, front, List.drop_suffix i m⟩

theorem mid_eq_text {h n : Value} {q : Int32} (brief : n.display.toList.length < 2 ^ 31) :
    mid [h, .integer q, len [.text n.display]] = .text n.display ↔
      n.display.toList <+: h.display.toList.drop (q.toInt.toNat - 1) := by
  have length : count (len [.text n.display]) = n.display.toList.length :=
    congrArg Int.toNat (toInt_ofCount brief)
  change ofChars ((h.display.toList.drop (q.toInt.toNat - 1)).take
    (count (len [.text n.display]))) = _ ↔ _
  rw [length, List.prefix_iff_eq_take, ofChars, eq_comm]
  simp [String.ext_iff]

/-- The first place by bytes is the first one by characters. -/
theorem encode_least {needle cs : List Char} (least : IsLeast {q | needle <+: cs.drop q} n) :
    IsLeast {i | Utf8.encode needle <+: (Utf8.encode cs).drop i}
      (Utf8.encode (cs.take n)).length := by
  obtain ⟨found, below⟩ := least
  refine ⟨?_, fun i there => ?_⟩
  · change Utf8.encode needle <+: _
    rw [Utf8.encode_drop]
    exact Utf8.encode_prefix_iff.mpr found
  · by_cases empty : needle = []
    · obtain rfl : n = 0 := Nat.le_zero.mp (below (empty ▸ List.nil_prefix))
      exact Nat.zero_le i
    · obtain ⟨k, rfl, found⟩ := Utf8.encode_found empty there
      exact (Utf8.encode_prefix_iff.mpr (List.take_prefix_take_left (below found))).length_le

/-- `InStr` gives the first position from where `Mid` gives the text, or 0 if the text is not in
there. The characters before that position are as many bytes as are before the first place where the
bytes of the text stand. -/
theorem first_occurrence (h n : Value) (short : h.display.toList.length < 2 ^ 31 - 1)
    (brief : n.display.toList.length < 2 ^ 31 - 1) :
    let needle := Value.text n.display
    let bytes (v : Value) := v.display.toUTF8.data.toList
    ∃ p : Int32, instr [h, n] = .integer p ∧
      (p = 0 ↔ ¬ n.display.toList <:+: h.display.toList) ∧ (p = 0 ↔ ¬ bytes n <:+: bytes h) ∧
      (p ≠ 0 → IsLeast {q : Int32 | 1 ≤ q ∧ mid [h, .integer q, len [needle]] = needle} p ∧
        IsLeast {i | bytes n <+: (bytes h).drop i}
          (bytes (left [h, .integer (p - 1)])).length) := by
  intro needle bytes
  have encoded (v : Value) : bytes v = Utf8.encode v.display.toList := Utf8.bytes_eq v.display
  generalize result : position n.display.toList h.display.toList = place
  have value : instr [h, n] = .integer (if place < 2 ^ 31 then .ofNat place else 0) := by
    rw [← result]; rfl
  simp only [encoded, infix_iff_drop]
  obtain ⟨rfl, nowhere⟩ | ⟨k, bound, rfl, least⟩ :=
    result ▸ position_cases n.display.toList h.display.toList
  · refine ⟨0, value, iff_of_true rfl (not_exists.mpr nowhere), iff_of_true rfl ?_,
      fun some => absurd rfl some⟩
    have some : n.display.toList ≠ [] := fun empty => nowhere 0 (empty ▸ List.nil_prefix)
    rintro ⟨i, there⟩
    obtain ⟨k, -, found⟩ := Utf8.encode_found some there
    exact nowhere k found
  · have number : (Int32.ofNat (k + 1)).toInt = k + 1 := Int32.toInt_ofNat_of_lt (by omega)
    have positive : (1 : Int32) ≤ .ofNat (k + 1) := by
      rw [Int32.le_iff_toInt_le, number]
      exact Int.le_add_of_nonneg_left (Int.natCast_nonneg k)
    have some : Int32.ofNat (k + 1) ≠ 0 := fun zero => absurd (zero ▸ positive) (by decide)
    have bytewise := encode_least least
    rw [if_pos (by omega)] at value
    refine ⟨_, value, iff_of_false some (not_not_intro ⟨k, least.1⟩),
      iff_of_false some (not_not_intro ⟨_, bytewise.1⟩), fun _ => ⟨⟨⟨positive, ?_⟩, ?_⟩, ?_⟩⟩
    · rw [mid_eq_text (by omega), number]
      exact least.1
    · rintro q ⟨ahead, there⟩
      have after := least.2 ((mid_eq_text (by omega)).mp there)
      have : 1 ≤ q.toInt := Int32.le_iff_toInt_le.mp ahead
      rw [Int32.le_iff_toInt_le, number]
      omega
    · have before : (Int32.ofNat (k + 1) - 1).toInt.toNat = k := by
        rw [Int32.toInt_sub_of_le _ _ (by decide) positive, number]
        exact congrArg Int.toNat (Int.add_sub_cancel k 1)
      rw [left, display_ofChars]
      change IsLeast
        _ (Utf8.encode (h.display.toList.take (Int32.ofNat (k + 1) - 1).toInt.toNat)).length
      rwa [before]

theorem first_occurrence_accents :
    ∃ p : Int32, instr [.text "aéüé", .text "é"] = .integer p ∧ p ≠ 0 ∧
      IsLeast {q : Int32 | 1 ≤ q ∧ mid [.text "aéüé", .integer q, len [.text "é"]] = .text "é"}
        p := by
  obtain ⟨p, value, absent, -, first⟩ := first_occurrence (.text "aéüé") (.text "é") (by decide)
    (by decide)
  have there : p ≠ 0 := fun zero => absent.mp zero ⟨['a'], ['ü', 'é'], rfl⟩
  exact ⟨p, value, there, (first there).1⟩

end Scriptlet.Builtin
