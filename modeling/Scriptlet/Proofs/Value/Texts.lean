import Scriptlet.Machine.Step
import Scriptlet.Proofs.Number.Numerals
import Scriptlet.Proofs.Value.Operators

/-!
Numbers and the texts that spell them. An integer and its text are the same to arithmetic, to the
joining of texts and in comparisons with integers. The text of a finite double reads back as the
double, but from `10 ^ 15` on whole doubles lose their point, and arithmetic takes the text for an
integer then. Of the texts that spell numbers only those of integers are ever true.
-/
namespace Scriptlet

open Reading

variable {s : String} {x : Binary64}

namespace Atom

theorem numeral_text {negative : Bool} {body : List Char} (row : s.toList = signed negative body)
    (numeral : Numeral body) (reads : (decimal? body).map (Binary64.ofDecimal negative) = some x) :
    (text s).toFloat = x ∧ numericValue? s = some x ∧ ((text s).isFloat = true ↔ '.' ∈ body) := by
  have trimmed := @trimList_signed negative body numeral
  have value := (@float?_signed negative body numeral).trans reads
  have numeric := @isNumericText_signed negative body numeral
  refine ⟨?_, ?_, ?_⟩
  · rw [toFloat, row, trimmed, value, Option.getD_some]
  · simp only [numericValue?, row, trimmed, numeric, value, if_pos]
  · rw [isFloat, isFloatText, row, trimmed, numeric, Bool.true_and, List.contains_iff_mem, signed]
    split <;> simp

end Atom

namespace Value

theorem integer_text (n : Int32) :
    let s := (integer n).display
    (text s).toInteger = n ∧ (text s).toFloat = Binary64.ofInt n.toInt ∧ (text s).isFloat = false ∧
      Atom.numericValue? s = some (Binary64.ofInt n.toInt) := by
  intro s
  have row : s.toList = signed (decide (n.toInt < 0)) (Nat.toDigits 10 n.toInt.natAbs) := by
    simp only [s, display, Atom.display, Atom.displayList, Atom.intText,
      String.toList_ofList, signed, decide_eq_true_eq]
    split <;> rfl
  have numeral := numeral_toDigits n.toInt.natAbs
  have reads : (decimal? (Nat.toDigits 10 n.toInt.natAbs)).map
      (Binary64.ofDecimal (decide (n.toInt < 0))) =
      some (Binary64.ofInt n.toInt) := by
    rw [decimal?_digits (toDigits_isDigit _) Nat.toDigits_ne_nil, digits_toDigits, Option.map_some,
      ofDecimal_whole]
  obtain ⟨float, spelled, point⟩ := Atom.numeral_text row numeral reads
  refine ⟨?_, float, Bool.eq_false_iff.mpr fun floating => ?_, spelled⟩
  · simp only [toInteger, Atom.toInteger, row, trimList_signed numeral, Atom.integerOfText,
      int32?_toDigits]
  · exact absurd (toDigits_isDigit _ _ (point.mp floating)) (by decide)

/-- The operator does not tell the values apart on either side. -/
def Alike (op : BinaryOp) (v w : Value) :
    Prop := ∀ r, op.apply v r = op.apply w r ∧ op.apply r v = op.apply r w

theorem alike_integral {v w : Value} (left : v.isFloat = false) (right : w.isFloat = false)
    (integer : v.toInteger = w.toInteger) (float : v.toFloat = w.toFloat) (op : Arithmetic) :
    Alike (.arithmetic op) v w := by
  intro r
  cases kind : r.isFloat with
  | true =>
    rw [Arithmetic.apply_floating (.inr kind), Arithmetic.apply_floating (.inr kind),
      Arithmetic.apply_floating (.inl kind), Arithmetic.apply_floating (.inl kind), float]
    exact ⟨rfl, rfl⟩
  | false =>
    rw [Arithmetic.apply_integral left kind, Arithmetic.apply_integral right kind,
      Arithmetic.apply_integral kind left, Arithmetic.apply_integral kind right, integer]
    exact ⟨rfl, rfl⟩

theorem negate_text {s : String} (integral : (text s).isFloat = false) :
    UnaryOp.negate.apply (text s) = .integer (-(text s).toInteger) := by
  have integral : (Atom.text s).isFloat = false := integral
  rw [UnaryOp.apply, negate, Atom.negate, integral]
  rfl

/-- An integer and its text are the same to arithmetic, powers and the joining of texts on either
side, when their sign is changed, and in comparisons with integers. -/
theorem integer_text_alike (n : Int32) :
    (∀ op, Alike (.arithmetic op) (text (integer n).display) (integer n)) ∧
      Alike .power (text (integer n).display) (integer n) ∧
      Alike .concat (text (integer n).display) (integer n) ∧
      UnaryOp.negate.apply (text (integer n).display) = UnaryOp.negate.apply (integer n) ∧
      ∀ m, (text (integer n).display).compare (integer m) = (integer n).compare (integer m) ∧
        (integer m).compare (text (integer n).display) = (integer m).compare (integer n) := by
  obtain ⟨whole, float, integral, spelled⟩ := integer_text n
  have float : (text (integer n).display).toFloat = (integer n).toFloat := float
  refine ⟨alike_integral integral rfl whole float, fun r => ?_, fun r => ⟨rfl, rfl⟩, ?_,
    fun m => ?_⟩
  · simp only [BinaryOp.apply, float, true_and]
  · rw [negate_text integral, whole]
    rfl
  · have left : (text (integer n).display).compare (integer m) =
        (integer n).compare (integer m) := by
      simp only [compare, compareAtom, Atom.compare, spelled, Atom.toFloat, Binary64.compare_ofInt]
    exact ⟨left, by rw [compare_swap (text _), left, ← compare_swap]⟩

/-- The text of a finite double reads back as the double. It is floating to arithmetic unless the
double is a whole number from `10 ^ 15` on, and operations tell the two apart exactly if neither the
text nor the other operand is floating. -/
theorem float_text_alike (x : Binary64) (finite : x.isFinite = true) :
    let s := text (float x).display
    let on (op : Arithmetic) := (BinaryOp.arithmetic op).apply
    s.toFloat = x ∧ (s.isFloat = true ↔ ¬ x.WholeFrom (10 ^ 15)) ∧
      ∀ op r, (on op s r = on op (float x) r ↔ s.isFloat = true ∨ r.isFloat = true) ∧
        (on op r s = on op r (float x) ↔ s.isFloat = true ∨ r.isFloat = true) := by
  intro s on
  obtain ⟨body, row, numeral, reads, point⟩ := Layout.display_reads finite
  obtain ⟨reads, -, floating⟩ := Atom.numeral_text (String.toList_ofList.trans row) numeral reads
  refine ⟨reads, floating.trans point, fun op r => ?_⟩
  have reads : s.toFloat = (float x).toFloat := reads
  have left : on op (float x) r = _ := Arithmetic.apply_floating (.inl rfl) op
  have right : on op r (float x) = _ := Arithmetic.apply_floating (.inr rfl) op
  rw [left, right]
  by_cases either : s.isFloat = true ∨ r.isFloat = true
  · simp only [on, Arithmetic.apply_floating either, Arithmetic.apply_floating either.symm,
      reads, either]
    simp
  · have both := not_or.mp either
    simp only [Bool.not_eq_true] at both
    simp only [on, Arithmetic.apply_integral both.1 both.2, Arithmetic.apply_integral both.2 both.1,
      either]
    simp

theorem float_text_alike_large :
    let x : Binary64 := Binary64.ofInt (10 ^ 15)
    let add := (BinaryOp.arithmetic .add).apply
    x.isFinite = true ∧ (text (float x).display).isFloat = false ∧
      add (text (float x).display) (integer 1) ≠ add (float x) (integer 1) := by
  intro x add
  have finite : x.isFinite = true := by set_option maxRecDepth 2000 in decide
  obtain ⟨-, floating, apart⟩ := float_text_alike x finite
  have whole : x.WholeFrom (10 ^ 15) :=
    ⟨10 ^ 15, Nat.le_refl _, Binary64.magnitude_whole (by decide)⟩
  have integral := Bool.eq_false_iff.mpr fun point => floating.mp point whole
  refine ⟨finite, integral, fun same => ?_⟩
  rcases (apart .add (integer 1)).1.mp same with point | other
  · exact floating.mp point whole
  · cases other

/-- The number that a numeric text spells: an integer if it is one within 32 bits, and floating
otherwise. -/
def spelled? (s : String) : Option Atom :=
  (Atom.numericValue? s).map fun x => ((int32? (Text.trimList s.toList)).map .integer).getD
    (.float x)

theorem isTrue_ofBool (b : Bool) : (ofBool b).isTrue = b := by cases b <;> rfl

theorem ofBool_inj {a b : Bool} : ofBool a = ofBool b ↔ a = b :=
  ⟨fun same => by rw [← isTrue_ofBool a, same, isTrue_ofBool], congrArg ofBool⟩

theorem numeric_digit {cs : List Char} (numeric : isNumericText cs = true) :
    ∃ c ∈ cs, isDigit c = true := by
  have among : ∀ c ∈ (sign cs).2, c ∈ cs := by
    unfold sign
    split <;> simp_all
  obtain ⟨c, member, digit⟩ := List.any_eq_true.mp (Bool.and_eq_true_iff.mp numeric).1
  exact ⟨c, among c member, digit⟩

theorem spelled_truth {a : Atom} (spells : spelled? s = some a) :
    (text s).isTrue = (a.isTrue && !a.isFloat) := by
  obtain ⟨x, value, rfl⟩ := Option.map_eq_some_iff.mp spells
  simp only [Atom.numericValue?] at value
  split at value
  · rename_i numeric
    obtain ⟨c, member, digit⟩ := numeric_digit numeric
    have word (word : String) := @sameWord_digit c _ word digit member
    simp only [isTrue, Atom.isTrue, Atom.isTrueText, word "true" rfl, word "yes" rfl]
    cases int32? (Text.trimList s.toList) <;> simp [Atom.isFloat]
  · cases value

/-- A text that spells a number is true if the number is an integer other than 0. So the logical
operators and conditional jumps tell the text from the number exactly if the number is floating and
does not round to 0. -/
theorem text_truth (s : String) (a : Atom) (spells : spelled? s = some a) :
    (text s).isTrue = (a.isTrue && !a.isFloat) ∧
    let agree := a.isFloat = true → a.isTrue = false
    (∀ c, Alike (.logical c) (text s) (atom a) ↔ agree) ∧
    (UnaryOp.not.apply (text s) = UnaryOp.not.apply (atom a) ↔ agree) ∧
    ∀ (World : Type) (host : Host World) (program : Program) (m : Machine World) (ip k : Nat),
      let jump (target : Nat) (v : Value) :=
        Machine.complete host program ⟨.jumpIfFalse, ip, .address target, k⟩ [v] m
      (∀ target, jump target (text s) = jump target (atom a)) ↔ agree := by
  have truth := spelled_truth spells
  have agrees : (a.isFloat = true → a.isTrue = false) ↔ (text s).isTrue = (atom a).isTrue := by
    rw [truth]
    change _ ↔ _ = a.isTrue
    cases a.isFloat <;> cases a.isTrue <;> simp
  refine ⟨truth, fun c => ?_, ?_, fun World host program m ip k => ?_⟩
  all_goals rw [agrees]
  · refine ⟨fun alike => ?_, fun same r => by simp only [BinaryOp.apply, same, and_self]⟩
    -- An operand that leaves the result to the other one tells.
    have tells := (alike (.ofBool (decide (c = .and)))).1
    simp only [BinaryOp.apply, ofBool_inj, isTrue_ofBool] at tells
    cases c <;> simpa [Connective.combine] using tells
  · simp only [UnaryOp.apply, ofBool_inj, Bool.not_inj_iff]
  · have jumps (target : Nat) (v : Value) :
        Machine.complete host program ⟨.jumpIfFalse, ip, .address target, k⟩ [v] m =
          if v.isTrue then .ok () m else Machine.read (.of (Cursor.jump program.words target))
            m := by
      change (if !v.isTrue then Machine.read (.of (Cursor.jump program.words target))
        else pure ()) m = _
      cases v.isTrue <;> rfl
    simp only [jumps]
    refine ⟨fun same => ?_, fun same target => by rw [same]⟩
    -- So does a jump that leads out of the program.
    have far := same (program.words.size + 1)
    cases left : (text s).isTrue <;> cases right : (atom a).isTrue
    all_goals simp_all [Machine.read, Cursor.Reading.of, Cursor.jump]

theorem text_truth_half : spelled? "2.5" = some (.float ⟨0x4004000000000000⟩) ∧
    (text "2.5").isTrue = false ∧ (float ⟨0x4004000000000000⟩).isTrue = true ∧
      UnaryOp.not.apply (text "2.5") ≠ UnaryOp.not.apply (float ⟨0x4004000000000000⟩) := by
  have spells : spelled? "2.5" = some (.float ⟨0x4004000000000000⟩) := by decide +kernel
  obtain ⟨truth, -, apart, -⟩ := text_truth "2.5" _ spells
  have holds : (float ⟨0x4004000000000000⟩).isTrue = true := by decide
  refine ⟨spells, truth.trans (Bool.and_false _), holds, fun same => ?_⟩
  exact absurd (holds.symm.trans (apart.mp same rfl)) (by decide)

end Value

end Scriptlet
