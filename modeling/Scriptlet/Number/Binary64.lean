/-!
Double-precision numbers by their 64 bits. A finite number is an integer multiple of
the smallest step `2 ^ -1074`, its `magnitude` counts those steps, and every exact
question (order, remainder, rounding, reading a ratio) is settled on that count. Only
the four basic operations, the square root and the power go through the hardware.

The bits are kept as they are, so that two different not-a-numbers stay different
when a number is only stored.
-/
namespace Scriptlet

structure Binary64 where
  bits : UInt64
  deriving DecidableEq, Repr, Inhabited

namespace Binary64

def word (x : Binary64) : Nat := x.bits.toNat

def ofWord (n : Nat) : Binary64 := ⟨UInt64.ofNat n⟩

def isNegative (x : Binary64) : Bool := decide (0x8000000000000000 ≤ x.word)

def exponentField (x : Binary64) : Nat := x.word / 0x10000000000000 % 2048

def fraction (x : Binary64) : Nat := x.word % 0x10000000000000

def isFinite (x : Binary64) : Bool := x.exponentField != 2047

def isNaN (x : Binary64) : Bool := x.exponentField == 2047 && x.fraction != 0

def isInfinite (x : Binary64) : Bool := x.exponentField == 2047 && x.fraction == 0

def significand (x : Binary64) : Nat :=
  if x.exponentField = 0 then x.fraction else 0x10000000000000 + x.fraction

/-- The absolute value of a finite number, counted in steps of `2 ^ -1074`. -/
def magnitude (x : Binary64) : Nat := x.significand <<< (x.exponentField - 1)

def stepExponent : Nat := 1074

/-- One, counted in steps. -/
def unit : Nat := 1 <<< stepExponent

def scaled (x : Binary64) : Int := if x.isNegative then -(x.magnitude : Int) else x.magnitude

def isZero (x : Binary64) : Bool := x.word % 0x8000000000000000 == 0

def infinityWord : Nat := 2047 * 0x10000000000000

def withSign (negative : Bool) (magnitudeWord : Nat) : Binary64 :=
  ofWord (if negative then 0x8000000000000000 + magnitudeWord else magnitudeWord)

def zero : Binary64 := ⟨0⟩

def infinity (negative : Bool) : Binary64 := withSign negative infinityWord

def nan (negative : Bool) : Binary64 := withSign negative (infinityWord + 0x8000000000000)

def roundHalfEven (n d : Nat) : Nat :=
  let q := n / d
  let r := n % d
  if 2 * r < d then q
  else if d < 2 * r then q + 1
  else q + q % 2

/-- The bits, without sign, of the number nearest `n / d` steps. With `shift` the
exponent that leaves 53 binary digits, a significand that rounds up to `2 ^ 53` carries
into the exponent field by itself. -/
def nearestWord (n d : Nat) : Nat :=
  let shift := (n / d).log2 - 52
  min (shift * 0x10000000000000 + roundHalfEven n (d <<< shift)) infinityWord

def ofRatio (negative : Bool) (n d : Nat) : Binary64 :=
  withSign negative (nearestWord (n * unit) d)

def ofInt (n : Int) : Binary64 := ofRatio (decide (n < 0)) n.natAbs 1

def rank (x : Binary64) : Int :=
  let rest : Int := (x.word % 0x8000000000000000 : Nat)
  if x.isNegative then -rest else rest

/-- Numbers compare by value, and a not-a-number is level with everything. -/
def compare (x y : Binary64) : Ordering :=
  if x.isNaN || y.isNaN then .eq else Ord.compare x.rank y.rank

/-- Equality of values: the zeros are equal, and a not-a-number equals nothing. -/
def same (x y : Binary64) : Bool := !x.isNaN && !y.isNaN && x.rank == y.rank

def neg (x : Binary64) : Binary64 := ⟨x.bits ^^^ 0x8000000000000000⟩

def abs (x : Binary64) : Binary64 := ⟨x.bits &&& 0x7FFFFFFFFFFFFFFF⟩

def quiet (x : Binary64) : Binary64 := ⟨x.bits ||| 0x0008000000000000⟩

def toFloat (x : Binary64) : Float := Float.ofBits x.bits

/-- A result that is no number is the operand that was none, or else the one with the
sign bit set. -/
def settle (operands : List Binary64) (result : Float) : Binary64 :=
  if result.isNaN then
    match operands.find? isNaN with
    | some x => x.quiet
    | none => nan true
  else ⟨result.toBits⟩

def add (x y : Binary64) : Binary64 := settle [x, y] (x.toFloat + y.toFloat)

def sub (x y : Binary64) : Binary64 := settle [x, y] (x.toFloat - y.toFloat)

def mul (x y : Binary64) : Binary64 := settle [x, y] (x.toFloat * y.toFloat)

def div (x y : Binary64) : Binary64 := settle [x, y] (x.toFloat / y.toFloat)

def pow (x y : Binary64) : Binary64 := settle [x, y] (x.toFloat.pow y.toFloat)

def sqrt (x : Binary64) : Binary64 := settle [x] x.toFloat.sqrt

/-- The remainder with the sign of the dividend. It is exact, because the remainder of
two step counts is a step count. -/
def rem (x y : Binary64) : Binary64 :=
  if x.isNaN then x.quiet
  else if y.isNaN then y.quiet
  else if x.isInfinite || y.isZero then nan true
  else if y.isInfinite then x
  else withSign x.isNegative (nearestWord (x.magnitude % y.magnitude) 1)

def half : Binary64 := ⟨0x3FE0000000000000⟩

def floor (x : Binary64) : Int := x.scaled / (unit : Int)

/-- The nearest 32-bit integer, a half going up. Beyond the range the nearest end is
taken, and a not-a-number gives 0. -/
def round (x : Binary64) : Int32 :=
  let y := x.add half
  if y.isNaN then 0
  else if y.isInfinite then (if y.isNegative then Int32.minValue else Int32.maxValue)
  else Int32.ofInt (max (-0x80000000) (min 0x7FFFFFFF y.floor))

end Binary64

end Scriptlet
