import Scriptlet.Number.Decimal

/-!
Numbers read from text. An integer is an optional sign and digits, within 32 bits. A
floating number has an optional sign, digits with at most one point among or beside
them, and an optional exponent; the words for the infinities and for not-a-number are
read in any case.
-/
namespace Scriptlet.Reading

def isDigit (c : Char) : Bool := decide ('0' ≤ c) && decide (c ≤ '9')

def digitValue (c : Char) : Nat := c.toNat - '0'.toNat

def digitsFrom (start : Nat) (cs : List Char) : Nat :=
  cs.foldl (fun n c => 10 * n + digitValue c) start

def digits (cs : List Char) : Nat := digitsFrom 0 cs

def sign : List Char → Bool × List Char
  | '-' :: rest => (true, rest)
  | '+' :: rest => (false, rest)
  | cs => (false, cs)

def natural? (cs : List Char) : Option Nat :=
  if cs.isEmpty then none
  else if cs.all isDigit then some (digits cs)
  else none

def integer? (cs : List Char) : Option Int :=
  match sign cs with
  | (negative, rest) => (natural? rest).map fun n => if negative then -(n : Int) else n

def int32? (cs : List Char) : Option Int32 :=
  match integer? cs with
  | some n => if -0x80000000 ≤ n ∧ n < 0x80000000 then some (Int32.ofInt n) else none
  | none => none

def exponent? : List Char → Option Int
  | [] => some 0
  | c :: rest => if c = 'e' ∨ c = 'E' then integer? rest else none

def decimal? (cs : List Char) : Option Decimal :=
  let whole := cs.takeWhile isDigit
  let afterWhole := cs.dropWhile isDigit
  let (part, rest) :=
    match afterWhole with
    | '.' :: more => (more.takeWhile isDigit, more.dropWhile isDigit)
    | _ => ([], afterWhole)
  if whole.isEmpty && part.isEmpty then none
  else
    (exponent? rest).map fun e => ⟨digits (whole ++ part), e - part.length⟩

def lowerAscii (c : Char) : Char :=
  if decide ('A' ≤ c) && decide (c ≤ 'Z') then Char.ofNat (c.toNat + 32) else c

def sameWord (cs : List Char) (word : String) : Bool :=
  cs.map lowerAscii == word.toList.map lowerAscii

def float? (cs : List Char) : Option Binary64 :=
  match sign cs with
  | (negative, rest) =>
    if sameWord rest "inf" || sameWord rest "infinity" then some (Binary64.infinity negative)
    else if sameWord rest "nan" then some (Binary64.nan negative)
    else (decimal? rest).map (Binary64.ofDecimal negative)

def isNumericText (cs : List Char) : Bool :=
  match sign cs with
  | (_, body) => body.any isDigit && body.all fun c => isDigit c || c == '.'

end Scriptlet.Reading
