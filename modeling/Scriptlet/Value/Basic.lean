import Scriptlet.Value.Atom

/-!
Values: atoms and lists of values. Where an operation needs a single atom, a list
stands for its first element.
-/
namespace Scriptlet

inductive Value where
  | atom (a : Atom)
  | list (items : List Value)
  deriving Repr

namespace Value

instance : Inhabited Value := ⟨.atom .zero⟩

abbrev integer (n : Int32) : Value := .atom (.integer n)

abbrev float (x : Binary64) : Value := .atom (.float x)

abbrev text (s : String) : Value := .atom (.text s)

abbrev zero : Value := .atom .zero

def ofBool (b : Bool) : Value := .atom (.ofBool b)

def zeros (n : Nat) : Value := .list (List.replicate n zero)

inductive Kind where
  | integer
  | float
  | text
  | list
  deriving DecidableEq, Repr

def kind : Value → Kind
  | .atom (.integer _) => .integer
  | .atom (.float _) => .float
  | .atom (.text _) => .text
  | .list _ => .list

namespace Kind

def tag : Kind → Nat
  | .integer => 0
  | .float => 1
  | .text => 2
  | .list => 3

def ofTag? : Nat → Option Kind
  | 0 => some .integer
  | 1 => some .float
  | 2 => some .text
  | 3 => some .list
  | _ => none

def name : Kind → String
  | .integer => "Integer"
  | .float => "Float"
  | .text => "String"
  | .list => "List"

end Kind

def isList : Value → Bool
  | .atom _ => false
  | .list _ => true

def elements : Value → List Value
  | .list items => items
  | v => [v]

def count (v : Value) : Nat := v.elements.length

def first : Value → Value
  | .list (v :: _) => v
  | .list [] => zero
  | v => v

/-- A list is seen as its first element is, an empty one as zero. -/
def toInteger : Value → Int32
  | .atom a => a.toInteger
  | .list [] => Atom.zero.toInteger
  | .list (v :: _) => v.toInteger

def toFloat : Value → Binary64
  | .atom a => a.toFloat
  | .list [] => Atom.zero.toFloat
  | .list (v :: _) => v.toFloat

def isFloat : Value → Bool
  | .atom a => a.isFloat
  | .list [] => Atom.zero.isFloat
  | .list (v :: _) => v.isFloat

def isTrue : Value → Bool
  | .atom a => a.isTrue
  | .list [] => Atom.zero.isTrue
  | .list (v :: _) => v.isTrue

mutual

def display : Value → String
  | .atom a => a.display
  | .list items => "\x7b " ++ ", ".intercalate (displayAll items) ++ " \x7d"

def displayAll : List Value → List String
  | [] => []
  | v :: rest => v.display :: displayAll rest

end

mutual

def describe : Value → String
  | .atom a => a.describe
  | .list items => "List([" ++ ", ".intercalate (describeAll items) ++ "])"

def describeAll : List Value → List String
  | [] => []
  | v :: rest => v.describe :: describeAll rest

end

mutual

def same : Value → Value → Bool
  | .atom a, .atom b => a.same b
  | .list xs, .list ys => sameAll xs ys
  | _, _ => false

def sameAll : List Value → List Value → Bool
  | [], [] => true
  | x :: xs, y :: ys => x.same y && sameAll xs ys
  | _, _ => false

end

end Value

end Scriptlet
