import Scriptlet.Number.Decimal

/-!
Doubles as text. Every layout writes the shortest digits that read back; a `Layout`
decides between positional and scientific form, where a whole number keeps a point,
how the exponent is signed and how a tie between two shortest decimals goes.
-/
namespace Scriptlet

structure Layout where
  positionalFrom : Option Int
  positionalTo : Option Int
  pointUpTo : Option Int
  plusSign : Bool
  tie : Decimal.Tie
  deriving DecidableEq, Repr

namespace Layout

/-- What scripts print: never an exponent, and `.0` on whole numbers below `10 ^ 15`. -/
def display : Layout := ⟨none, none, some 14, false, .up⟩

/-- What listings show: exponents below `10 ^ -4` and from `10 ^ 16` on. -/
def listing : Layout := ⟨some (-4), some 15, none, false, .up⟩

/-- What JSON texts hold: signed exponents below `10 ^ -5` and from `10 ^ 16` on. -/
def json : Layout := ⟨some (-5), some 15, none, true, .even⟩

def atMost (bound : Option Int) (e : Int) : Bool := bound.all (fun b => decide (e ≤ b))

def atLeast (bound : Option Int) (e : Int) : Bool := bound.all (fun b => decide (b ≤ e))

def zeros (n : Nat) : List Char := List.replicate n '0'

def positional (layout : Layout) (digits : List Char) (point : Int) : List Char :=
  if point ≤ 0 then ['0', '.'] ++ zeros (-point).toNat ++ digits
  else if (digits.length : Int) ≤ point then
    digits ++ zeros (point.toNat - digits.length)
      ++ (if atMost layout.pointUpTo (point - 1) then ['.', '0'] else [])
  else digits.take point.toNat ++ '.' :: digits.drop point.toNat

def exponentText (layout : Layout) (e : Int) : List Char :=
  if e < 0 then '-' :: Nat.toDigits 10 e.natAbs
  else (if layout.plusSign then ['+'] else []) ++ Nat.toDigits 10 e.natAbs

def scientific (layout : Layout) (digits : List Char) (e : Int) : List Char :=
  digits.take 1 ++ (if digits.length ≤ 1 then [] else '.' :: digits.drop 1)
    ++ 'e' :: exponentText layout e

def writeDecimal (layout : Layout) (d : Decimal) : List Char :=
  let digits := Nat.toDigits 10 d.coefficient
  let point := (digits.length : Int) + d.exponent
  if atLeast layout.positionalFrom (point - 1) && atMost layout.positionalTo (point - 1) then
    positional layout digits point
  else scientific layout digits (point - 1)

def write (layout : Layout) (x : Binary64) : List Char :=
  if x.isNaN then ['N', 'a', 'N']
  else
    (if x.isNegative then ['-'] else []) ++
      (if x.isInfinite then ['i', 'n', 'f']
       else if x.isZero then writeDecimal layout ⟨0, 0⟩
       else writeDecimal layout (Decimal.shortest layout.tie x.magnitude))

end Layout

end Scriptlet
