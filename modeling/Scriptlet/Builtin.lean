import Scriptlet.Function
import Scriptlet.Text.Case

/-!
The built-in functions. A missing argument counts as zero. Positions and lengths are
counted in characters, and positions start at 1.
-/
namespace Scriptlet.Builtin

def argument (args : List Value) (i : Nat) : Value := args.getD i .zero

def argumentText (args : List Value) (i : Nat) : List Char := (argument args i).display.toList

def count (v : Value) : Nat := v.toInteger.toInt.toNat

def ofChars (cs : List Char) : Value := .text (String.ofList cs)

def ofCount (n : Nat) : Value := .integer (Int32.ofInt (min (n : Int) 0x7FFFFFFF))

def abs (args : List Value) : Value :=
  let v := argument args 0
  if v.isFloat then .float v.toFloat.abs else .integer v.toInteger.abs

def asc (args : List Value) : Value :=
  match argumentText args 0 with
  | [] => .integer 0
  | c :: _ => .integer (Int32.ofNat c.toNat)

def isScalarPoint (n : Int) : Bool :=
  decide (0 ≤ n) && (decide (n < 0xD800) || (decide (0xE000 ≤ n) && decide (n < 0x110000)))

def chr (args : List Value) : Value :=
  let n := (argument args 0).toInteger.toInt
  if isScalarPoint n then ofChars [Char.ofNat n.toNat] else .text ""

def float (args : List Value) : Value := .float (argument args 0).toFloat

def int (args : List Value) : Value := .integer (argument args 0).toInteger

def str (args : List Value) : Value := .text (argument args 0).display

def isList (args : List Value) : Value := .ofBool (argument args 0).isList

def len (args : List Value) : Value :=
  match argument args 0 with
  | .list items => ofCount items.length
  | v => ofCount v.display.toList.length

def lcase (args : List Value) : Value := .text (Text.lower (argument args 0).display)

def ucase (args : List Value) : Value := .text (Text.upper (argument args 0).display)

def trim (args : List Value) : Value := ofChars (Text.trimList (argumentText args 0))

def left (args : List Value) : Value :=
  ofChars ((argumentText args 0).take (count (argument args 1)))

def right (args : List Value) : Value :=
  let cs := argumentText args 0
  ofChars (cs.drop (cs.length - count (argument args 1)))

def mid (args : List Value) : Value :=
  let cs := (argumentText args 0).drop (count (argument args 1) - 1)
  match args[2]? with
  | some n => ofChars (cs.take (count n))
  | none => ofChars cs

def position (needle : List Char) : List Char → Nat
  | [] => if needle.isEmpty then 1 else 0
  | c :: rest =>
    if needle.isPrefixOf (c :: rest) then 1
    else
      match position needle rest with
      | 0 => 0
      | p + 1 => p + 2

/-- A position too large for an integer counts as none. -/
def instr (args : List Value) : Value :=
  let p := position (argumentText args 1) (argumentText args 0)
  .integer (if p < 0x80000000 then Int32.ofNat p else 0)

def better (direction : Ordering) (a b : Value) : Value :=
  if b.compare a == direction then b else a

def extreme (direction : Ordering) : List Value → Value
  | [] => .zero
  | v :: rest => rest.foldl (better direction) v

def max (args : List Value) : Value := extreme .gt args

def min (args : List Value) : Value := extreme .lt args

def sqrt (args : List Value) : Value := .float (argument args 0).toFloat.sqrt

def functions : List NativeFunction :=
  [⟨"Abs", .exactly 1, abs⟩, ⟨"Asc", .exactly 1, asc⟩, ⟨"Chr", .exactly 1, chr⟩,
    ⟨"Float", .exactly 1, float⟩, ⟨"InStr", .exactly 2, instr⟩, ⟨"Int", .exactly 1, int⟩,
    ⟨"IsList", .exactly 1, isList⟩, ⟨"LCase", .exactly 1, lcase⟩, ⟨"Left", .exactly 2, left⟩,
    ⟨"Len", .exactly 1, len⟩, ⟨"Max", .atLeast 1, max⟩, ⟨"Mid", .between 2 3, mid⟩,
    ⟨"Min", .atLeast 1, min⟩, ⟨"Right", .exactly 2, right⟩, ⟨"Sqrt", .exactly 1, sqrt⟩,
    ⟨"Str", .exactly 1, str⟩, ⟨"Trim", .exactly 1, trim⟩, ⟨"UCase", .exactly 1, ucase⟩]

def constants : List (String × Value) := [("True", .ofBool true), ("False", .ofBool false)]

end Scriptlet.Builtin
