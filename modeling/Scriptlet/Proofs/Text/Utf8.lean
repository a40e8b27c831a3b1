import Scriptlet.Proofs.Format.Fields
import Scriptlet.Text.Utf8

/-!
The bytes of a text. They are never at fault, so that a text is read back from its bytes, and one
text starts with another exactly if its bytes do. The first byte of a character is none of the
others, so that a text is found by its bytes exactly where it is found by its characters.
-/
namespace Scriptlet.Utf8

variable {n : Nat} {b : UInt8}

inductive Fits : List UInt8 → List (UInt8 × UInt8) → Prop where
  | nil : Fits [] []
  | cons {b low high : UInt8} {bytes : List UInt8} {ranges : List (UInt8 × UInt8)} :
      low ≤ b → b ≤ high → Fits bytes ranges → Fits (b :: bytes) ((low, high) :: ranges)

variable {bytes : List UInt8} {ranges : List (UInt8 × UInt8)}

theorem Fits.length (fits : Fits bytes ranges) : bytes.length = ranges.length := by
  induction fits with
  | nil => rfl
  | cons _ _ _ ih => simp [ih]

theorem Fits.no_fault (fits : Fits bytes ranges) (index : Nat) (rest : List UInt8) :
    ∀ n, fault? index n ranges (bytes ++ rest) = none := by
  induction fits with
  | nil => exact fun _ => by simp [fault?]
  | cons low high _ ih =>
    intro n
    rw [List.cons_append, fault?, if_pos ⟨low, high⟩]
    exact ih (n + 1)

theorem ofNat_le (small : n < 256) (le : n ≤ b.toNat) : UInt8.ofNat n ≤ b := by
  rwa [UInt8.le_iff_toNat_le, UInt8.toNat_ofNat_of_lt' small]

theorem le_ofNat (small : n < 256) (le : b.toNat ≤ n) : b ≤ UInt8.ofNat n := by
  rwa [UInt8.le_iff_toNat_le, UInt8.toNat_ofNat_of_lt' small]

theorem Fits.bits {low high : UInt8} (least : low.toNat ≤ n % 64 + 0x80)
    (most : n % 64 + 0x80 ≤ high.toNat) (fits : Fits bytes ranges) :
    Fits (UInt8.ofNat (n % 64 + 0x80) :: bytes) ((low, high) :: ranges) := by
  have small : n % 64 + 0x80 < 256 := by omega
  exact .cons (le_ofNat small least) (ofNat_le small most) fits

theorem Fits.tail (fits : Fits bytes ranges) :
    Fits (UInt8.ofNat (n % 64 + 0x80) :: bytes) ((0x80, 0xBF) :: ranges) :=
  fits.bits (show 0x80 ≤ n % 64 + 0x80 by omega) (show n % 64 + 0x80 ≤ 0xBF by omega)

theorem followers_ofNat (small : n < 256) : followers (UInt8.ofNat n) =
    if n < 0x80 then some []
    else if n < 0xC2 then none
    else if n < 0xE0 then some [(0x80, 0xBF)]
    else if n = 0xE0 then some [(0xA0, 0xBF), (0x80, 0xBF)]
    else if n = 0xED then some [(0x80, 0x9F), (0x80, 0xBF)]
    else if n < 0xF0 then some [(0x80, 0xBF), (0x80, 0xBF)]
    else if n = 0xF0 then some [(0x90, 0xBF), (0x80, 0xBF), (0x80, 0xBF)]
    else if n < 0xF4 then some [(0x80, 0xBF), (0x80, 0xBF), (0x80, 0xBF)]
    else if n = 0xF4 then some [(0x80, 0x8F), (0x80, 0xBF), (0x80, 0xBF)]
    else none := by
  have byte : (UInt8.ofNat n).toNat = n := UInt8.toNat_ofNat_of_lt' small
  simp only [followers, UInt8.lt_iff_toNat_lt, ← UInt8.toNat_inj, byte, UInt8.reduceToNat]

theorem char_fits (c : Char) : ∃ b bytes ranges, String.utf8EncodeChar c = b :: bytes ∧
    followers b = some ranges ∧ Fits bytes ranges := by
  have valid : c.val.toNat < 0xD800 ∨ 0xDFFF < c.val.toNat ∧ c.val.toNat < 0x110000 := c.valid
  unfold String.utf8EncodeChar
  generalize c.val.toNat = v at valid
  dsimp only
  split
  · exact ⟨_, _, [], rfl, by rw [followers_ofNat (by omega), if_pos (by omega)], .nil⟩
  split
  · refine ⟨_, _, [(0x80, 0xBF)], rfl, ?_, .tail .nil⟩
    rw [followers_ofNat (by omega), if_neg (by omega), if_neg (by omega), if_pos (by omega)]
  split
  · rw [show v / 4096 % 16 = v / 4096 by omega]
    by_cases first : v / 4096 = 0
    · refine ⟨_, _, [(0xA0, 0xBF), (0x80, 0xBF)], rfl, by rw [first]; rfl, .bits ?_ ?_ (.tail .nil)⟩
      · show 0xA0 ≤ _; omega
      · show _ ≤ 0xBF; omega
    by_cases last : v / 4096 = 13
    · refine ⟨_, _, [(0x80, 0x9F), (0x80, 0xBF)], rfl, by rw [last]; rfl, .bits ?_ ?_ (.tail .nil)⟩
      · show 0x80 ≤ _; omega
      · show _ ≤ 0x9F; omega
    refine ⟨_, _, [(0x80, 0xBF), (0x80, 0xBF)], rfl, ?_, .tail (.tail .nil)⟩
    rw [followers_ofNat (by omega), if_neg (by omega), if_neg (by omega), if_neg (by omega),
      if_neg (by omega), if_neg (by omega), if_pos (by omega)]
  · rw [show v / 262144 % 8 = v / 262144 by omega]
    by_cases first : v / 262144 = 0
    · refine ⟨_, _, [(0x90, 0xBF), (0x80, 0xBF), (0x80, 0xBF)], rfl, by rw [first]; rfl,
        .bits ?_ ?_ (.tail (.tail .nil))⟩
      · show 0x90 ≤ _; omega
      · show _ ≤ 0xBF; omega
    by_cases last : v / 262144 = 4
    · refine ⟨_, _, [(0x80, 0x8F), (0x80, 0xBF), (0x80, 0xBF)], rfl, by rw [last]; rfl,
        .bits ?_ ?_ (.tail (.tail .nil))⟩
      · show 0x80 ≤ _; omega
      · show _ ≤ 0x8F; omega
    refine ⟨_, _, [(0x80, 0xBF), (0x80, 0xBF), (0x80, 0xBF)], rfl, ?_, .tail (.tail (.tail .nil))⟩
    rw [followers_ofNat (by omega), if_neg (by omega), if_neg (by omega), if_neg (by omega),
      if_neg (by omega), if_neg (by omega), if_neg (by omega), if_neg (by omega), if_pos (by omega)]

theorem checkFrom_encoded (cs : List Char) :
    ∀ index, checkFrom index (cs.flatMap String.utf8EncodeChar) = none := by
  induction cs with
  | nil => intro index; rw [List.flatMap_nil, checkFrom]
  | cons c cs ih =>
    intro index
    obtain ⟨b, bytes, ranges, encoded, asked, fits⟩ := char_fits c
    rw [List.flatMap_cons, encoded, List.cons_append, checkFrom, asked]
    simp only [fits.no_fault, ← fits.length, List.drop_left]
    exact ih _

theorem bytes_eq (s : String) : s.toUTF8.data.toList = s.toList.flatMap String.utf8EncodeChar := by
  rw [String.toUTF8_eq_toByteArray, ← String.utf8Encode_toList, List.utf8Encode,
    List.data_toByteArray]

theorem decode_bytes (s : String) : decode s.toUTF8.data.toList = .ok s := by
  unfold decode
  rw [Format.text_of_bytes, bytes_eq, checkFrom_encoded]

theorem bytes_prefix {s t : String} :
    s.toUTF8.data.toList <+: t.toUTF8.data.toList ↔ s.toList <+: t.toList := by
  constructor
  · rintro ⟨rest, whole⟩
    apply List.isPrefix_of_utf8Encode_append_eq_utf8Encode rest.toByteArray
    rw [String.utf8Encode_toList, String.utf8Encode_toList]
    apply ByteArray.ext
    apply Array.ext'
    simpa using whole
  · rintro ⟨rest, whole⟩
    rw [bytes_eq, bytes_eq, ← whole, List.flatMap_append]
    exact List.prefix_append _ _

variable {i : Nat} {c d : Char} {needle cs : List Char}

def encode (cs : List Char) : List UInt8 := cs.flatMap String.utf8EncodeChar

theorem encode_cons (c : Char) (cs : List Char) :
    encode (c :: cs) = String.utf8EncodeChar c ++ encode cs := rfl

theorem encode_prefix_iff : encode needle <+: encode cs ↔ needle <+: cs := by
  rw [← String.toList_ofList (l := needle), ← String.toList_ofList (l := cs), encode,
    encode, ← bytes_eq, ← bytes_eq]
  exact bytes_prefix

/-- Inside the bytes of a character no other character starts. -/
theorem encode_inside {bytes more : List UInt8} (inside : i < (String.utf8EncodeChar d).length)
    (found : String.utf8EncodeChar c ++ bytes = (String.utf8EncodeChar d ++ more).drop i) :
    i = 0 := by
  have first : (String.utf8EncodeChar c ++ bytes)[0]? = (String.utf8EncodeChar d ++ more)[i]? := by
    rw [found, List.getElem?_drop, Nat.add_zero]
  have some : 0 < (String.utf8EncodeChar c).length :=
    List.length_pos_iff.mpr String.utf8EncodeChar_ne_nil
  rw [List.getElem?_append_left some, List.getElem?_append_left inside,
    List.getElem?_eq_getElem some, List.getElem?_eq_getElem inside, Option.some.injEq] at first
  exact UInt8.isUTF8FirstByte_getElem_utf8EncodeChar.mp
    (first ▸ UInt8.isUTF8FirstByte_getElem_zero_utf8EncodeChar)

/-- Among the bytes of a text stand those of another, unless it is empty, only where its characters
do. -/
theorem encode_found (some : needle ≠ []) (found : encode needle <+: (encode cs).drop i) :
    ∃ k, i = (encode (cs.take k)).length ∧ needle <+: cs.drop k := by
  induction cs generalizing i with
  | nil =>
    rw [show encode [] = [] from rfl, List.drop_nil] at found
    exact absurd (List.prefix_nil.mp (encode_prefix_iff.mp found)) some
  | cons d cs ih =>
    rw [encode_cons] at found
    by_cases inside : i < (String.utf8EncodeChar d).length
    · obtain ⟨c, more, rfl⟩ := List.exists_cons_of_ne_nil some
      obtain rfl : i = 0 := by
        obtain ⟨rest, same⟩ := found
        rw [encode_cons, List.append_assoc] at same
        exact encode_inside inside same
      exact ⟨0, rfl, encode_prefix_iff.mp found⟩
    · rw [List.drop_append, List.drop_eq_nil_of_le (Nat.le_of_not_lt inside)] at found
      obtain ⟨k, same, there⟩ := ih found
      refine ⟨k + 1, ?_, there⟩
      rw [List.take_succ_cons, encode_cons, List.length_append]
      omega

theorem encode_drop (k : Nat) (cs : List Char) :
    (encode cs).drop (encode (cs.take k)).length = encode (cs.drop k) := by
  have split : encode cs = encode (cs.take k) ++ encode (cs.drop k) := by
    rw [encode, encode, encode, ← List.flatMap_append, List.take_append_drop]
  rw [split, List.drop_left]

end Scriptlet.Utf8
