import Scriptlet.Value.Basic

/-!
The operators of expressions. All but the joining of texts take the first element of an
operand that is a list. The left operand decides what arithmetic is done in: with a
floating number on the left it is always done in floating numbers, with an integer only
if the right operand is floating, and a text is what it spells. Integers wrap at 32 bits,
and division by zero gives zero of the result's kind.
-/
namespace Scriptlet

inductive Arithmetic where
  | add
  | subtract
  | multiply
  | divide
  | modulus
  deriving DecidableEq, Repr

namespace Arithmetic

def onIntegers (op : Arithmetic) (a b : Int32) : Int32 :=
  match op with
  | .add => a + b
  | .subtract => a - b
  | .multiply => a * b
  | .divide => if b = 0 then 0 else a / b
  | .modulus => if b = 0 then 0 else a % b

def onFloats (op : Arithmetic) (x y : Binary64) : Binary64 :=
  match op with
  | .add => x.add y
  | .subtract => x.sub y
  | .multiply => x.mul y
  | .divide => if y.isZero then Binary64.zero else x.div y
  | .modulus => if y.isZero then Binary64.zero else x.rem y

/-- The operator with an atom on its left. -/
def onAtom (op : Arithmetic) (a : Atom) (b : Value) : Value :=
  match a with
  | .integer n =>
    if b.isFloat then .float (op.onFloats (Binary64.ofInt n.toInt) b.toFloat)
    else .integer (op.onIntegers n b.toInteger)
  | .float x => .float (op.onFloats x b.toFloat)
  | .text _ =>
    if a.isFloat || b.isFloat then .float (op.onFloats a.toFloat b.toFloat)
    else .integer (op.onIntegers a.toInteger b.toInteger)

def apply (op : Arithmetic) : Value → Value → Value
  | .atom a, b => op.onAtom a b
  | .list [], b => op.onAtom .zero b
  | .list (v :: _), b => op.apply v b

end Arithmetic

inductive Relation where
  | equal
  | notEqual
  | greater
  | greaterOrEqual
  | less
  | lessOrEqual
  deriving DecidableEq, Repr

def Relation.holds (r : Relation) (o : Ordering) : Bool :=
  match r with
  | .equal => o == .eq
  | .notEqual => o != .eq
  | .greater => o == .gt
  | .greaterOrEqual => o != .lt
  | .less => o == .lt
  | .lessOrEqual => o != .gt

inductive Connective where
  | and
  | or
  | xor
  deriving DecidableEq, Repr

def Connective.combine (c : Connective) (a b : Bool) : Bool :=
  match c with
  | .and => a && b
  | .or => a || b
  | .xor => a != b

inductive BinaryOp where
  | arithmetic (op : Arithmetic)
  | power
  | concat
  | logical (c : Connective)
  | relation (r : Relation)
  deriving DecidableEq, Repr

inductive UnaryOp where
  | negate
  | not
  deriving DecidableEq, Repr

namespace Atom

def negate (a : Atom) : Atom :=
  match a with
  | .integer n => .integer (-n)
  | .float x => .float x.neg
  | .text _ => if a.isFloat then .float a.toFloat.neg else .integer (-a.toInteger)

end Atom

namespace Value

def negate : Value → Value
  | .atom a => .atom a.negate
  | .list [] => .atom Atom.zero.negate
  | .list (v :: _) => v.negate

def compareAtom (a : Atom) : Value → Ordering
  | .atom b => a.compare b
  | .list [] => a.compare .zero
  | .list (v :: _) => compareAtom a v

def compare : Value → Value → Ordering
  | .atom a, b => compareAtom a b
  | .list [], b => compareAtom .zero b
  | .list (v :: _), b => v.compare b

def concat (a b : Value) : Value := .text (a.first.display ++ b.display)

end Value

def BinaryOp.apply (op : BinaryOp) (a b : Value) : Value :=
  match op with
  | .arithmetic op => op.apply a b
  | .power => .float (a.toFloat.pow b.toFloat)
  | .concat => a.concat b
  | .logical c => .ofBool (c.combine a.isTrue b.isTrue)
  | .relation r => .ofBool (r.holds (a.compare b))

def UnaryOp.apply (op : UnaryOp) (v : Value) : Value :=
  match op with
  | .negate => v.negate
  | .not => .ofBool (!v.isTrue)

end Scriptlet
