import Scriptlet.Proofs.Number.Whole
import Scriptlet.Proofs.Value.Elements
import Scriptlet.Value.Operator

/-!
Laws of the operators, for all values. A list takes part through its view, the value that is left
when element 0 is taken as long as there is a list; all operators but the joining of texts see
nothing else. Integers are exact modulo `2 ^ 32`. Comparison is total and mirrors when the operands
change sides, whatever their kinds.
-/
namespace Scriptlet

namespace Value

/-- Element 0 is taken until no list is left. -/
inductive View : Value → Value → Prop where
  | atom (a : Atom) : View (.atom a) (.atom a)
  | list {items : List Value} {s : Value} : View ((Value.list items).get 0) s → View (.list items) s

def leading : Value → Atom
  | .atom a => a
  | .list [] => .zero
  | .list (v :: _) => v.leading

theorem View.of_leading (v : Value) : View v (.atom v.leading) := by
  fun_induction leading v with
  | case1 a => exact .atom a
  | case2 => exact .list (.atom .zero)
  | case3 v rest ih => exact .list ih

theorem View.eq_leading {v s : Value} (view : View v s) : s = .atom v.leading := by
  induction view with
  | atom a => rfl
  | @list items s first same =>
    rw [same]
    cases items <;> rfl

/-- What is the same for a list and its first element is the same for a value and its view. -/
theorem View.same {α : Type} {f : Value → α} {v s : Value} (view : View v s)
    (first : ∀ items, f (.list items) = f ((Value.list items).get 0)) : f v = f s := by
  induction view with
  | atom a => rfl
  | list _ ih => exact (first _).trans ih

theorem toInteger_list (items : List Value) :
    (Value.list items).toInteger = ((Value.list items).get 0).toInteger := by
  cases items <;> rfl

theorem toFloat_list (items : List Value) :
    (Value.list items).toFloat = ((Value.list items).get 0).toFloat := by
  cases items <;> rfl

theorem isFloat_list (items : List Value) :
    (Value.list items).isFloat = ((Value.list items).get 0).isFloat := by
  cases items <;> rfl

theorem isTrue_list (items : List Value) :
    (Value.list items).isTrue = ((Value.list items).get 0).isTrue := by
  cases items <;> rfl

theorem compareAtom_list (a : Atom) (items : List Value) :
    compareAtom a (.list items) = compareAtom a ((Value.list items).get 0) := by
  cases items <;> rfl

theorem compare_list (w : Value) (items : List Value) :
    w.compare (.list items) = w.compare ((Value.list items).get 0) := by
  induction w using leading.induct with
  | case1 a => exact compareAtom_list a items
  | case2 => exact compareAtom_list .zero items
  | case3 v rest ih => exact ih

theorem arithmetic_list (op : Arithmetic) (w : Value) (items : List Value) :
    op.apply w (.list items) = op.apply w ((Value.list items).get 0) := by
  have atoms (a : Atom) : op.onAtom a (.list items) = op.onAtom a ((Value.list items).get 0) := by
    simp only [Arithmetic.onAtom, toInteger_list, toFloat_list, isFloat_list]
  induction w using leading.induct with
  | case1 a => exact atoms a
  | case2 => exact atoms .zero
  | case3 v rest ih => exact ih

/-- On the left a list is opened by the operator, on the right by what the operator asks of it. -/
theorem operator_list (op : BinaryOp) (other : op ≠ .concat) (w : Value) (items : List Value) :
    op.apply (.list items) w = op.apply ((Value.list items).get 0) w ∧
      op.apply w (.list items) = op.apply w ((Value.list items).get 0) := by
  cases op with
  | concat => exact absurd rfl other
  | arithmetic op => exact ⟨by cases items <;> rfl, arithmetic_list op w items⟩
  | power => simp only [BinaryOp.apply, toFloat_list, and_self]
  | logical c => simp only [BinaryOp.apply, isTrue_list, and_self]
  | relation r =>
    refine ⟨by cases items <;> rfl, ?_⟩
    rw [BinaryOp.apply, compare_list]
    rfl

/-- Every value has one view, which is no list. Beside the joining of texts no operator tells a
value from its view on either side, and its truth, its integer, its floating number and its being
floating are those of the view. -/
theorem operators_see_view (v : Value) : ∃ s, (∀ t, View v t ↔ t = s) ∧ s.isList = false ∧
      (∀ op ≠ BinaryOp.concat, ∀ w, op.apply v w = op.apply s w ∧ op.apply w v = op.apply w s) ∧
      (∀ op : UnaryOp, op.apply v = op.apply s) ∧
      v.isTrue = s.isTrue ∧ v.toInteger = s.toInteger ∧ v.toFloat = s.toFloat ∧
      v.isFloat = s.isFloat := by
  have view := View.of_leading v
  refine ⟨.atom v.leading, fun t => ⟨View.eq_leading, fun same => same ▸ view⟩, rfl,
    fun op other w => ⟨?_, ?_⟩, fun op => ?_, view.same isTrue_list, view.same toInteger_list,
    view.same toFloat_list, view.same isFloat_list⟩
  · exact @View.same _ (op.apply · w) _ _ view fun items => (operator_list op other w items).1
  · exact view.same fun items => (operator_list op other w items).2
  · refine view.same fun items => ?_
    cases op with
    | negate => cases items <;> rfl
    | not => rw [UnaryOp.apply, isTrue_list]; rfl

theorem compare_leading (v w : Value) : v.compare w = v.leading.compare w.leading := by
  have left : v.compare w = compareAtom v.leading w :=
    @View.same _ (·.compare w) _ _ (View.of_leading v) fun items => by cases items <;> rfl
  exact left.trans ((View.of_leading w).same (compareAtom_list v.leading))

end Value

namespace Arithmetic

/-- The operator on all integers. Division goes towards zero, the remainder has the sign of the
dividend, and both are zero where the divisor is. -/
def exact (op : Arithmetic) (m n : Int) : Int :=
  match op with
  | .add => m + n
  | .subtract => m - n
  | .multiply => m * n
  | .divide => if n = 0 then 0 else m.tdiv n
  | .modulus => if n = 0 then 0 else m.tmod n

theorem toInt_onIntegers (op : Arithmetic) (a b : Int32) :
    (op.onIntegers a b).toInt = (op.exact a.toInt b.toInt).bmod (2 ^ 32) := by
  have zero : b.toInt = 0 ↔ b = 0 := by rw [← Int32.toInt_zero, Int32.toInt_inj]
  cases op with
  | add => exact Int32.toInt_add a b
  | subtract => exact Int32.toInt_sub a b
  | multiply => exact Int32.toInt_mul a b
  | divide =>
    simp only [onIntegers, exact, zero]
    split
    · rfl
    · exact Int32.toInt_div a b
  | modulus =>
    simp only [onIntegers, exact, zero]
    split
    · rfl
    · rw [← Int32.toInt_mod]
      exact (Int32.toInt_bmod _).symm

theorem quotient_remainder (a b : Int32) : a / b * b + a % b = a := by
  rw [← Int32.toInt_inj, Int32.toInt_add, Int32.toInt_mul, Int32.toInt_div, Int32.toInt_mod,
    Int.bmod_mul_bmod, Int.bmod_add_bmod, Int.tdiv_mul_add_tmod]
  exact Int32.toInt_bmod a

variable {a b : Value}

/-- The arms of an operator for the kinds of its left operand say the same thing: it is done in
floating numbers as soon as one operand is floating, and in integers otherwise. -/
theorem onAtom_eq (op : Arithmetic) (a : Atom) (b : Value) : op.onAtom a b =
    if a.isFloat = true ∨ b.isFloat = true then .float (op.onFloats a.toFloat b.toFloat)
    else .integer (op.onIntegers a.toInteger b.toInteger) := by
  cases a with
  | integer n => simp only [onAtom, Atom.isFloat, Bool.false_eq_true, false_or]; rfl
  | float x => simp only [onAtom, Atom.isFloat, true_or, if_true]; rfl
  | text s => simp only [onAtom, Bool.or_eq_true]

theorem apply_eq (op : Arithmetic) (a b : Value) : op.apply a b =
    if a.isFloat = true ∨ b.isFloat = true then .float (op.onFloats a.toFloat b.toFloat)
    else .integer (op.onIntegers a.toInteger b.toInteger) := by
  induction a using Value.leading.induct with
  | case1 a => exact onAtom_eq op a b
  | case2 => exact onAtom_eq op .zero b
  | case3 v rest ih => exact ih

theorem apply_integral (left : a.isFloat = false) (right : b.isFloat = false) (op : Arithmetic) :
    (BinaryOp.arithmetic op).apply a b = .integer (op.onIntegers a.toInteger b.toInteger) := by
  rw [BinaryOp.apply, apply_eq, if_neg (by simp [left, right])]

theorem apply_floating (either : a.isFloat = true ∨ b.isFloat = true) (op : Arithmetic) :
    (BinaryOp.arithmetic op).apply a b = .float (op.onFloats a.toFloat b.toFloat) := by
  rw [BinaryOp.apply, apply_eq, if_pos either]

theorem kind_apply (op : Arithmetic) (a b : Value) :
    ((BinaryOp.arithmetic op).apply a b).kind = .float ↔ a.isFloat = true ∨ b.isFloat = true := by
  by_cases either : a.isFloat = true ∨ b.isFloat = true
  · rw [apply_floating either]
    exact iff_of_true rfl either
  · simp only [not_or, Bool.not_eq_true] at either
    rw [apply_integral either.1 either.2, either.1, either.2]
    exact iff_of_false (by simp [Value.kind]) (by simp)

/-- The result is floating exactly if an operand is. Otherwise it is the exact result on the
integers of the operands, taken modulo `2 ^ 32` into the signed range, and quotient and remainder
make up the dividend. -/
theorem integers_exact (a b : Value) :
    let on (op : Arithmetic) := (BinaryOp.arithmetic op).apply
    (∀ op, (on op a b).kind = .float ↔ a.isFloat = true ∨ b.isFloat = true) ∧
    (a.isFloat = false → b.isFloat = false →
      (∀ op, ∃ n, on op a b = .integer n ∧
        n.toInt = (op.exact a.toInteger.toInt b.toInteger.toInt).bmod (2 ^ 32)) ∧
      (b.toInteger ≠ 0 →
        on .add (on .multiply (on .divide a b) b) (on .modulus a b) = .integer a.toInteger)) := by
  refine ⟨fun op => kind_apply op a b, fun left right => ⟨fun op =>
    ⟨_, apply_integral left right op, toInt_onIntegers op _ _⟩, fun divisible => ?_⟩⟩
  dsimp only
  rw [apply_integral left right, apply_integral left right, apply_integral rfl right,
    apply_integral rfl rfl]
  simp only [onIntegers, if_neg divisible]
  exact congrArg _ (quotient_remainder a.toInteger b.toInteger)

end Arithmetic

theorem Binary64.compare_swap (x y : Binary64) : y.compare x = (x.compare y).swap := by
  rw [compare, compare, Bool.or_comm]
  split
  · rfl
  · exact Std.OrientedCmp.eq_swap

theorem Binary64.compare_self (x : Binary64) : x.compare x = .eq := by
  rw [compare]
  split
  · rfl
  · exact Std.ReflCmp.compare_self

theorem Binary64.compare_eq_gt {x y : Binary64} :
    x.compare y = .gt ↔ x.isNaN = false ∧ y.isNaN = false ∧ y.rank < x.rank := by
  rw [compare, ← Int.compare_eq_gt]
  cases x.isNaN <;> cases y.isNaN <;> simp

theorem Atom.compare_numbers {a b : Atom} (left : ∀ s, a ≠ .text s) (right : ∀ s, b ≠ .text s) :
    a.compare b = a.toFloat.compare b.toFloat := by
  cases a with
  | text s => exact absurd rfl (left s)
  | float x =>
    cases b with
    | text s => exact absurd rfl (right s)
    | _ => rfl
  | integer m =>
    cases b with
    | text s => exact absurd rfl (right s)
    | float y => rfl
    | integer n => exact (Binary64.compare_ofInt m n).symm

theorem Atom.compare_swap (a b : Atom) : b.compare a = (a.compare b).swap := by
  cases a <;> cases b <;> simp only [compare]
  case integer.integer | text.text => exact Std.OrientedCmp.eq_swap
  case text.integer | text.float | integer.text | float.text =>
    split
    · exact Binary64.compare_swap _ _
    · exact Std.OrientedCmp.eq_swap
  all_goals exact Binary64.compare_swap _ _

theorem Atom.compare_self (a : Atom) : a.compare a = .eq := by
  cases a with
  | float x => exact Binary64.compare_self x
  | _ => simp [compare]

namespace Value

theorem compare_swap (a b : Value) : b.compare a = (a.compare b).swap := by
  rw [compare_leading, compare_leading a, Atom.compare_swap]

theorem compare_self (a : Value) : a.compare a = .eq := by
  rw [compare_leading, Atom.compare_self]

/-- What a comparison in a script tells. -/
def Holds (r : Relation) (a b : Value) : Prop := ((BinaryOp.relation r).apply a b).isTrue = true

theorem holds_iff {r : Relation} {a b : Value} : Holds r a b ↔ r.holds (a.compare b) = true := by
  simp only [Holds, BinaryOp.apply]
  cases r.holds (a.compare b) <;> decide

/-- Comparison mirrors when the operands change sides and is level on equal ones. So each of the six
relations is the mirror image or the opposite of another, and of less, equal and greater exactly one
holds. -/
theorem comparison_mirrors (a b : Value) : b.compare a = (a.compare b).swap ∧ a.compare a = .eq ∧
    (Holds .less a b ↔ Holds .greater b a) ∧ (Holds .lessOrEqual a b ↔ ¬ Holds .greater a b) ∧
    (Holds .greaterOrEqual a b ↔ ¬ Holds .less a b) ∧ (Holds .notEqual a b ↔ ¬ Holds .equal a b) ∧
    ∃! r, r ∈ [Relation.less, .equal, .greater] ∧ Holds r a b := by
  refine ⟨compare_swap a b, compare_self a, ?_⟩
  simp only [holds_iff, compare_swap a b]
  cases a.compare b <;> simp [Relation.holds, ExistsUnique]

end Value

end Scriptlet
