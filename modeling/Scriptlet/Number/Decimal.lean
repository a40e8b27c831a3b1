import Scriptlet.Number.Binary64

/-!
Decimal numbers `coefficient * 10 ^ exponent`, and the shortest decimal that reads back
as a given double.

`Binary64.ofDecimal` is the reading: the nearest double, ties to even. The shortest
decimal is found on the reading itself: for one digit, two digits and so on, the two
neighbours of the number on that decimal grid are read back, and the first grid with a
hit decides. The full binary expansion reads back in any case, so the search has an
answer.
-/
namespace Scriptlet

structure Decimal where
  coefficient : Nat
  exponent : Int
  deriving DecidableEq, Repr

namespace Decimal

def width (n : Nat) : Nat := if n = 0 then 0 else (Nat.toDigits 10 n).length

def ratio (d : Decimal) : Nat × Nat :=
  match d.exponent with
  | .ofNat e => (d.coefficient * Nat.pow 10 e, 1)
  | .negSucc e => (d.coefficient, Nat.pow 10 (e + 1))

def overflowExponent : Int := 308

/-- Far enough below one, a decimal is under half the smallest double: with `b` binary
digits it is less than `2 ^ b / 8 ^ e` at exponent `-e`. -/
def vanishes (d : Decimal) : Bool := decide ((d.coefficient.log2 : Int) + 1076 < -3 * d.exponent)

end Decimal

def Binary64.ofDecimal (negative : Bool) (d : Decimal) : Binary64 :=
  if d.coefficient = 0 || d.vanishes then withSign negative 0
  else if Decimal.overflowExponent < d.exponent then infinity negative
  else ofRatio negative d.ratio.1 d.ratio.2

namespace Decimal

def stripZeros : Nat → Decimal → Decimal
  | 0, d => d
  | fuel + 1, d =>
    if d.coefficient ≠ 0 ∧ d.coefficient % 10 = 0 then
      stripZeros fuel ⟨d.coefficient / 10, d.exponent + 1⟩
    else d

def normalize (d : Decimal) : Decimal := stripZeros (width d.coefficient) d

inductive Tie where
  | up
  | even
  deriving DecidableEq, Repr

def leadingZeros (d : Nat) : Nat → Nat → Nat
  | 0, _ => 0
  | fuel + 1, n => if d ≤ n then 0 else leadingZeros d fuel (10 * n) + 1

/-- The place of the leading digit of `m` steps: the number lies between `10 ^ (k - 1)`
and `10 ^ k`. -/
def place (m : Nat) : Int :=
  if Binary64.unit ≤ m then width (m / Binary64.unit)
  else 1 - (leadingZeros Binary64.unit 400 m : Int)

def scaleUp (m : Nat) (s : Int) : Nat × Nat :=
  match s with
  | .ofNat e => (m * Nat.pow 10 e, Binary64.unit)
  | .negSucc e => (m, Binary64.unit * Nat.pow 10 (e + 1))

/-- Of the two grid points around `m` steps with `n` digits, the one that reads back as
`m` steps; of two such, the nearer. -/
def onGrid? (tie : Tie) (m n : Nat) (place : Int) : Option Decimal :=
  let s := (n : Int) - place
  let (num, den) := scaleUp m s
  let below := num / den
  let reads (c : Nat) : Bool := (Binary64.ofDecimal false ⟨c, -s⟩).magnitude == m
  let twice := 2 * (num % den)
  let takeUpper := decide (den < twice) || (twice == den && (tie == .up || below % 2 == 1))
  match reads below, reads (below + 1) with
  | true, true => some ⟨if takeUpper then below + 1 else below, -s⟩
  | true, false => some ⟨below, -s⟩
  | false, true => some ⟨below + 1, -s⟩
  | false, false => none

def fewest (tie : Tie) (m : Nat) (place : Int) : Nat → Nat → Option Decimal
  | 0, _ => none
  | fuel + 1, n =>
    match onGrid? tie m n place with
    | some d => some d
    | none => fewest tie m place fuel (n + 1)

def expansion (m : Nat) : Decimal := ⟨m * Nat.pow 5 Binary64.stepExponent, -Binary64.stepExponent⟩

/-- The shortest decimal that reads back as `m` steps, nearest the number among those. -/
def shortest (tie : Tie) (m : Nat) : Decimal :=
  ((fewest tie m (place m) 17 1).getD (expansion m)).normalize

end Decimal

end Scriptlet
