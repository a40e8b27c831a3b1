import Scriptlet.Json.Basic
import Scriptlet.Number.Reading

/-!
Reading JSON. Readers act on the characters that are left. A number is read as its first
digits, as many as fit into 64 bits, and a power of ten that multiplies or divides them; the
double is the rounded result of that one operation.
-/
namespace Scriptlet.Json

open Scriptlet.Reading (isDigit digits)

abbrev Reading := StateT (List Char) (Except Failure)

namespace Reading

variable {α : Type}

def fail (cause : Cause) : Reading α := do
  throw ⟨cause, (← get).length⟩

def failAhead (cause : Cause) : Reading α := do
  throw ⟨cause, (← get).length - 1⟩

def skip : Reading Unit := modify List.tail

def next? : Reading (Option Char) := do
  match ← get with
  | c :: rest =>
    set rest
    return some c
  | [] => return none

def isBlank (c : Char) : Bool := c == ' ' || c == '\n' || c == '\t' || c == '\r'

def peek? : Reading (Option Char) := do
  modify (·.dropWhile isBlank)
  return (← get).head?

def peek (cut : Cause) : Reading Char := do
  match ← peek? with
  | some c => return c
  | none => fail cut

def word : List Char → Reading Unit
  | [] => pure ()
  | c :: rest => do
    match ← next? with
    | none => fail .cutValue
    | some d => if c = d then word rest else fail .expectedWord

def maxSignificand : Nat := 0xFFFFFFFFFFFFFFFF

/-- Appends digits to a number as long as it stays in range. Gives the number, how many
digits were taken and what is left. -/
def takeDigits (n : Nat) : List Char → Nat × Nat × List Char
  | [] => (n, 0, [])
  | c :: cs =>
    let m := 10 * n + (c.toNat - '0'.toNat)
    if isDigit c && decide (m ≤ maxSignificand) then
      let (result, taken, rest) := takeDigits m cs
      (result, taken + 1, rest)
    else (n, 0, c :: cs)

def powerOfTen (n : Nat) : Binary64 := .ofInt (Nat.pow 10 n)

def scaleDown (x : Binary64) (k : Nat) : Binary64 :=
  if k ≤ 308 then x.div (powerOfTen k)
  else if x.isZero then x
  else scaleDown (x.div (powerOfTen 308)) (k - 308)
termination_by k

def scale? (significand : Nat) (exponent : Int) : Option Binary64 :=
  let x := Binary64.ofInt significand
  if exponent < 0 then some (scaleDown x exponent.natAbs)
  else if x.isZero then some x
  else if exponent ≤ 308 then
    let y := x.mul (powerOfTen exponent.natAbs)
    if y.isInfinite then none else some y
  else none

def scaled (negative : Bool) (significand : Nat) (exponent : Int) : Reading Binary64 := do
  match scale? significand exponent with
  | some x => return if negative then x.neg else x
  | none => fail .numberTooLarge

def nextIsDigit : Reading Bool := return (← get).head?.any isDigit

def skipDigits : Reading Nat := do
  let cs ← get
  set (cs.dropWhile isDigit)
  return (cs.takeWhile isDigit).length

def isExponentMark (c : Char) : Bool := c == 'e' || c == 'E'

def exponentSign : Reading Bool := do
  match (← get).head? with
  | some '-' => skip; return true
  | some '+' => skip; return false
  | _ => return false

def exponentPart (negative : Bool) (significand : Nat) (start : Int) : Reading Binary64 := do
  skip
  let down ← exponentSign
  if (← get).isEmpty then fail .cutValue
  if !(← nextIsDigit) then
    skip
    fail .invalidNumber
  let cs ← get
  set (cs.dropWhile isDigit)
  let e := (digits (cs.takeWhile isDigit) : Int)
  scaled negative significand (if down then start - e else start + e)

def maybeExponent (negative : Bool) (significand : Nat) (exponent : Int) : Reading Binary64 := do
  if (← get).head?.any isExponentMark then exponentPart negative significand exponent
  else scaled negative significand exponent

/-- From the point on. Digits that no longer fit into the significand are dropped. -/
def fractionPart (negative : Bool) (significand : Nat) (start : Int) : Reading Binary64 := do
  skip
  let (significand, taken, rest) := takeDigits significand (← get)
  set rest
  if ← nextIsDigit then
    let _ ← skipDigits
  else if taken = 0 then
    if rest.isEmpty then fail .cutValue else failAhead .invalidNumber
  maybeExponent negative significand (start - taken)

def afterDigits (negative : Bool) (significand : Nat) : Reading Number := do
  match (← get).head? with
  | some '.' => return .float (← fractionPart negative significand 0)
  | c =>
    if c.any isExponentMark then return .float (← exponentPart negative significand 0)
    else if !negative then return .integer significand
    else if significand = 0 ∨ 0x8000000000000000 < significand then
      return .float (Binary64.ofInt significand).neg
    else return .integer (-significand)

/-- A whole part that does not fit: each further digit is another power of ten. -/
def longNumber (negative : Bool) (significand : Nat) : Reading Number := do
  let dropped ← skipDigits
  match (← get).head? with
  | some '.' => return .float (← fractionPart negative significand dropped)
  | _ => return .float (← maybeExponent negative significand dropped)

def number (negative : Bool) : Reading Number := do
  match ← get with
  | [] => fail .cutValue
  | '0' :: rest =>
    set rest
    if ← nextIsDigit then failAhead .invalidNumber
    afterDigits negative 0
  | c :: rest =>
    if !isDigit c then
      skip
      fail .invalidNumber
    let (significand, _, rest) := takeDigits 0 (c :: rest)
    set rest
    if ← nextIsDigit then longNumber negative significand else afterDigits negative significand

def hexDigit? (c : Char) : Option Nat :=
  if isDigit c then some (c.toNat - '0'.toNat)
  else if 'a' ≤ c && c ≤ 'f' then some (c.toNat - 'a'.toNat + 10)
  else if 'A' ≤ c && c ≤ 'F' then some (c.toNat - 'A'.toNat + 10)
  else none

/-- Four hexadecimal digits. Four bytes must be there before they are looked at. -/
def hexEscape : Reading Nat := do
  let cs ← get
  if (cs.take 4).foldl (fun n c => n + c.utf8Size) 0 < 4 then
    set ([] : List Char)
    fail .cutString
  set (cs.drop 4)
  match (cs.take 4).mapM hexDigit? with
  | some ds => return ds.foldl (16 * · + ·) 0
  | none => fail .invalidEscape

def isTrailing (n : Nat) : Bool := decide (0xDC00 ≤ n) && decide (n ≤ 0xDFFF)

def isLeading (n : Nat) : Bool := decide (0xD800 ≤ n) && decide (n ≤ 0xDBFF)

def pairPart (c : Char) : Reading Unit := do
  match ← next? with
  | none => fail .cutString
  | some d => if c ≠ d then fail .cutPair

def unicodeEscape : Reading Char := do
  let n ← hexEscape
  if isTrailing n then fail .loneSurrogate
  if !isLeading n then return Char.ofNat n
  pairPart '\\'
  pairPart 'u'
  let m ← hexEscape
  if !isTrailing m then fail .loneSurrogate
  return Char.ofNat (0x10000 + (n - 0xD800) * 0x400 + (m - 0xDC00))

def simpleEscape? (c : Char) : Option Char :=
  if c = '"' ∨ c = '\\' ∨ c = '/' then some c
  else if c = 'b' then some (Char.ofNat 8)
  else if c = 'f' then some (Char.ofNat 12)
  else if c = 'n' then some '\n'
  else if c = 'r' then some '\r'
  else if c = 't' then some '\t'
  else none

def escape : Reading Char := do
  match ← next? with
  | none => fail .cutString
  | some 'u' => unicodeEscape
  | some c =>
    match simpleEscape? c with
    | some d => return d
    | none => fail .invalidEscape

/-- A string behind its opening quote, where `escape` reads what follows a backslash. Each
round takes a character, so as many rounds as characters are enough. -/
def stringWith (escape : Reading Char) : Nat → List Char → Reading String
  | 0, _ => fail .cutString
  | n + 1, done => do
    match ← get with
    | [] => fail .cutString
    | '"' :: rest =>
      set rest
      return String.ofList done.reverse
    | '\\' :: rest =>
      set rest
      stringWith escape n ((← escape) :: done)
    | c :: rest =>
      if c.toNat < 32 then fail .controlCharacter
      set rest
      stringWith escape n (c :: done)

def string : Reading String := do
  skip
  stringWith escape ((← get).length + 1) []

def moreItems (first : Bool) : Reading Bool := do
  let c ← peek .cutList
  if c = ']' then return false
  if first then return true
  if c ≠ ',' then failAhead .expectedListEnd
  skip
  if (← peek .cutValue) = ']' then failAhead .trailingComma
  return true

def endList : Reading Unit := do
  let c ← peek .cutList
  if c ≠ ']' then failAhead .trailingText
  skip

def nextKey (first : Bool) : Reading (Option String) := do
  let c ← peek .cutObject
  if c = '}' then return none
  if first then
    if c ≠ '"' then failAhead .expectedKey
    return some (← string)
  if c ≠ ',' then failAhead .expectedObjectEnd
  skip
  let d ← peek .cutValue
  if d = '}' then failAhead .trailingComma
  if d ≠ '"' then failAhead .expectedKey
  return some (← string)

def colon : Reading Unit := do
  if (← peek .cutObject) ≠ ':' then failAhead .expectedColon
  skip

def items (item : Reading α) : Nat → List α → Reading (List α)
  | 0, _ => fail .cutList
  | n + 1, done => do
    if ← moreItems done.isEmpty then
      let x ← item
      items item n (x :: done)
    else
      skip
      return done.reverse

def members (value : Reading α) : Nat → List (String × α) → Reading (List (String × α))
  | 0, _ => fail .cutObject
  | n + 1, done => do
    match ← nextKey done.isEmpty with
    | some key =>
      colon
      let x ← value
      members value n ((key, x) :: done)
    | none =>
      skip
      return done.reverse

def maxDepth : Nat := 128

def openAt (levels : Nat) : Reading Nat := do
  if levels = 0 then failAhead .tooDeep
  skip
  return (← get).length + 1

def value : Nat → Reading Json
  | 0 => failAhead .tooDeep
  | levels + 1 => do
    match ← peek .cutValue with
    | 'n' =>
      skip
      word ['u', 'l', 'l']
      return .null
    | 't' =>
      skip
      word ['r', 'u', 'e']
      return .bool true
    | 'f' =>
      skip
      word ['a', 'l', 's', 'e']
      return .bool false
    | '-' =>
      skip
      return .number (← number true)
    | '"' => return .text (← string)
    | '[' =>
      let fuel ← openAt levels
      return .array (← items (value levels) fuel [])
    | '{' =>
      let fuel ← openAt levels
      return .object (← members (value levels) fuel [])
    | c => if isDigit c then return .number (← number false) else failAhead .expectedValue

def run (reading : Reading α) (source : String) : Except Failure α :=
  let whole : Reading α := do
    let x ← reading
    if (← peek?).isSome then failAhead .trailingText
    return x
  whole.run' source.toList

end Reading

end Scriptlet.Json
