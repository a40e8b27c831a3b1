import Scriptlet.Proofs.Script.Spelling
import Mathlib.Data.Int.ModEq
import Mathlib.Data.Nat.Digits.Defs

/-!
What integer literals denote. A row of digits has a value whatever its length. Behind the mark of
hexadecimal numbers only the value modulo `2 ^ 32` counts; a decimal number is an integer as long as
it fits, and a double beyond.
-/
namespace Scriptlet.Script

open Token

variable {base : Nat} {row : List Char}

def digitIndex (c : Char) : Nat := "0123456789abcdef".toList.idxOf c.toLower

/-- The value of a row of digits, the last of which counts ones. -/
def positional (base : Nat) (row : List Char) :
    Nat := Nat.ofDigits base (row.map digitIndex).reverse

/-- In front of a blank the text is one token, and such a token has the value. -/
def Denotes (text : List Char) (v : Value) : Prop :=
  let l : Lexeme := ⟨.integer, String.ofList text⟩
  l.Legible ∧ ∀ t, l.Matches t → t.literal? = some v

theorem foldl_positional {value : Char → Nat} (each : ∀ c ∈ row, value c = digitIndex c) :
    row.foldl (fun n c => base * n + value c) 0 = positional base row := by
  rw [positional, ← List.map_congr_left each, Nat.ofDigits_eq_foldr, List.foldr_reverse,
    List.foldl_map]
  simp only [Nat.add_comm, Nat.cast_id]

theorem of_alphabet {alphabet : String} (known : Char → Bool)
    (table : alphabet.toList.all known = true) (all : ∀ c ∈ row, c ∈ alphabet.toList) :
    ∀ c ∈ row, known c = true :=
  fun c member => List.all_eq_true.mp table c (all c member)

/-- Every digit may wrap the word around, and it stays congruent to the number. -/
theorem foldl_congruent (each : ∀ c ∈ row, hexDigit? c = some (.ofNat (digitIndex c))) {n : UInt32}
    {m : Nat} (same : n.toNat ≡ m [MOD 2 ^ 32]) :
    ((row.filterMap hexDigit?).foldl (fun n d => n * 16 + d) n).toNat ≡
      row.foldl (fun n c => 16 * n + digitIndex c) m [MOD 2 ^ 32] := by
  induction row generalizing n m with
  | nil => exact same
  | cons c row ih =>
    obtain ⟨first, others⟩ := List.forall_mem_cons.mp each
    rw [List.filterMap_cons_some first, List.foldl_cons, List.foldl_cons]
    refine ih others ?_
    rw [UInt32.toNat_add, UInt32.toNat_mul, UInt32.toNat_ofNat']
    have shifted : n.toNat * 16 % 2 ^ 32 ≡ 16 * m [MOD 2 ^ 32] := by
      rw [Nat.mul_comm 16]
      exact (Nat.mod_modEq _ _).trans (same.mul_right 16)
    exact (Nat.mod_modEq _ _).trans (shifted.add (Nat.mod_modEq _ _))

theorem hexLiteral_congruent (each : ∀ c ∈ row, hexDigit? c = some (.ofNat (digitIndex c))) :
    (hexLiteral row).toInt ≡ positional 16 row [ZMOD 2 ^ 32] := by
  have words := foldl_congruent (n := 0) (m := 0) each rfl
  rw [foldl_positional fun _ _ => rfl] at words
  have signed (n : UInt32) : n.toInt32.toInt ≡ n.toNat [ZMOD 2 ^ 32] := by
    rw [← Int32.toInt_toBitVec, BitVec.toInt_eq_toNat_bmod]
    exact Int.bmod_emod
  exact (signed _).trans (Int.natCast_modEq_iff.mpr words)

theorem hexadecimal_legible (hex : ∀ c ∈ row, Piece.isHexDigit c = true) (some : row ≠ []) :
    (⟨.integer, String.ofList ('0' :: 'x' :: row)⟩ : Lexeme).Legible := by
  obtain ⟨d, more, rfl⟩ := List.exists_cons_of_ne_nil some
  obtain ⟨first, others⟩ := List.forall_mem_cons.mp hex
  refine legible_of_cut String.toList_ofList rfl fun rest => ?_
  obtain ⟨taken, left⟩ := @Reading.takeWhile_until _ _ (' ' :: rest) others (by rintro _ ⟨⟩; rfl)
  change (if Piece.isHexDigit d then Piece.run _ _ _ (more ++ ' ' :: rest) else Piece.decimal _ _) =
    _
  rw [if_pos first, Piece.run, taken, left]
  rfl

/-- Whatever the number of digits and their case, a hexadecimal literal is the integer of 32 bits
that is congruent to its value. A decimal one, with any number of zeros in front, is the integer of
its value up to the largest one, and the nearest double beyond. -/
theorem literals_denote (row : List Char) (some : row ≠ []) :
    ((∀ c ∈ row, c ∈ "0123456789abcdefABCDEF".toList) → ∃ n : Int32,
      Denotes ('0' :: 'x' :: row) (.integer n) ∧ n.toInt ≡ positional 16 row [ZMOD 2 ^ 32]) ∧
    ((∀ c ∈ row, c ∈ "0123456789".toList) →
      Denotes row (if positional 10 row ≤ 2147483647 then .integer (.ofNat (positional 10 row))
        else .float (.ofInt (positional 10 row)))) := by
  refine ⟨fun hex => ?_, fun decimal => ?_⟩
  · have known := of_alphabet Piece.isHexDigit (by decide) hex
    have each := of_alphabet (fun c => hexDigit? c == Option.some (.ofNat (digitIndex c)))
      (by decide) hex
    refine ⟨hexLiteral row, ⟨hexadecimal_legible known some, fun t read => ?_⟩,
      hexLiteral_congruent fun c member => beq_iff_eq.mp (each c member)⟩
    have kind : t.kind = .integer := read.1
    rw [literal?, kind, read.2 (by simp), String.toList_ofList]
    rfl
  · have known := of_alphabet Reading.isDigit (by decide) decimal
    have each := of_alphabet (fun c => Reading.digitValue c == digitIndex c) (by decide) decimal
    have value : Reading.digits row = positional 10 row :=
      foldl_positional fun c member => beq_iff_eq.mp (each c member)
    refine ⟨digits_legible row known some, fun t read => ?_⟩
    have largest : positional 10 row < 2 ^ 31 ↔ positional 10 row ≤ 2147483647 := by omega
    rw [digits_literal known some read, value]
    simp only [largest]

theorem literals_denote_long :
    (∃ n : Int32, Denotes "0xffFFfffFf0".toList (.integer n) ∧ n.toInt ≡ -16 [ZMOD 2 ^ 32]) ∧
    Denotes "000002147483647".toList (.integer 2147483647) ∧
    Denotes "2147483648".toList (.float (.ofInt 2147483648)) := by
  have of_all {row digits : List Char} (all : row.all (digits.contains ·) = true) :
      ∀ c ∈ row, c ∈ digits :=
    fun c member => List.contains_iff_mem.mp (List.all_eq_true.mp all c member)
  obtain ⟨n, denotes, same⟩ := (literals_denote "ffFFfffFf0".toList (by decide)).1
    (of_all (by decide))
  exact ⟨⟨n, denotes, same.trans (by decide)⟩, (literals_denote _ (by decide)).2
    (of_all (by decide)), (literals_denote "2147483648".toList (by decide)).2 (of_all (by decide))⟩

end Scriptlet.Script
