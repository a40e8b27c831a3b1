import Scriptlet.Number.Layout
import Scriptlet.Number.Reading
import Scriptlet.Text.Blank
import Scriptlet.Text.Quoted

/-!
Atoms: the values that are not lists. Each can be seen as an integer, as a floating
number, as a truth value and as text, whatever it is.
-/
namespace Scriptlet

inductive Atom where
  | integer (n : Int32)
  | float (x : Binary64)
  | text (s : String)
  deriving DecidableEq, Repr

instance : Inhabited Atom := ⟨.integer 0⟩

namespace Atom

def zero : Atom := .integer 0

/-- Truth is the integer with all bits set. -/
def ofBool (b : Bool) : Atom := .integer (if b then -1 else 0)

def intText (n : Int) : List Char :=
  if n < 0 then '-' :: Nat.toDigits 10 n.natAbs else Nat.toDigits 10 n.natAbs

def displayList : Atom → List Char
  | .integer n => intText n.toInt
  | .float x => Layout.display.write x
  | .text s => s.toList

def display : Atom → String
  | .text s => s
  | a => String.ofList a.displayList

def describe : Atom → String
  | .integer n => "Integer(" ++ String.ofList (intText n.toInt) ++ ")"
  | .float x => "Float(" ++ String.ofList (Layout.listing.write x) ++ ")"
  | .text s => "String(" ++ Text.quoted s ++ ")"

/-- An integer text gives that integer, any other number text the rounded number, and
the rest 0. -/
def integerOfText (cs : List Char) : Int32 :=
  match Reading.int32? cs with
  | some n => n
  | none =>
    match Reading.float? cs with
    | some x => x.round
    | none => 0

def toInteger : Atom → Int32
  | .integer n => n
  | .float x => x.round
  | .text s => integerOfText (Text.trimList s.toList)

def toFloat : Atom → Binary64
  | .integer n => Binary64.ofInt n.toInt
  | .float x => x
  | .text s => (Reading.float? (Text.trimList s.toList)).getD Binary64.zero

def isFloatText (s : String) : Bool :=
  Reading.isNumericText (Text.trimList s.toList) && s.toList.contains '.'

def isFloat : Atom → Bool
  | .integer _ => false
  | .float _ => true
  | .text s => isFloatText s

def isTrueText (cs : List Char) : Bool :=
  (Reading.int32? cs).any (· != 0) || Reading.sameWord cs "true" || Reading.sameWord cs "yes"

def isTrue : Atom → Bool
  | .integer n => n != 0
  | .float x => x.round != 0
  | .text s => isTrueText (Text.trimList s.toList)

def numericValue? (s : String) : Option Binary64 :=
  let cs := Text.trimList s.toList
  if Reading.isNumericText cs then Reading.float? cs else none

def same : Atom → Atom → Bool
  | .integer a, .integer b => a == b
  | .float x, .float y => x.same y
  | .text s, .text t => s == t
  | _, _ => false

/-- Numbers compare as numbers, also with a text that spells one; otherwise the texts
compare. -/
def compare : Atom → Atom → Ordering
  | .integer a, .integer b => Ord.compare a.toInt b.toInt
  | .text s, .text t => Ord.compare s t
  | .text s, number =>
    match numericValue? s with
    | some x => x.compare number.toFloat
    | none => Ord.compare s number.display
  | number, .text s =>
    match numericValue? s with
    | some x => number.toFloat.compare x
    | none => Ord.compare number.display s
  | a, b => a.toFloat.compare b.toFloat

end Atom

end Scriptlet
