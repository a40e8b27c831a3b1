import Scriptlet.Json.Reading

/-!
Passing over a value whose content does not matter. The text must be well-formed, but
nesting is not limited and numbers may have any size.
-/
namespace Scriptlet.Json.Reading

open Scriptlet.Reading (isDigit)

def skipNumber : Reading Unit := do
  match ← next? with
  | some '0' => if ← nextIsDigit then failAhead .invalidNumber
  | some c => if isDigit c then discard skipDigits else fail .invalidNumber
  | none => fail .invalidNumber
  if (← get).head? = some '.' then
    skip
    if (← skipDigits) = 0 then failAhead .invalidNumber
  if (← get).head?.any isExponentMark then
    skip
    discard exponentSign
    if !(← nextIsDigit) then
      skip
      fail .invalidNumber
    discard skipDigits

def skipEscape : Reading Char := do
  match ← next? with
  | none => fail .cutString
  | some 'u' =>
    discard hexEscape
    return 'u'
  | some c => if (simpleEscape? c).isSome then return c else fail .invalidEscape

def skipString : Reading Unit := do
  skip
  discard (stringWith skipEscape ((← get).length + 1) [])

inductive Enclosing where
  | list
  | object

namespace Enclosing

def closer : Enclosing → Char
  | .list => ']'
  | .object => '}'

def cut : Enclosing → Cause
  | .list => .cutList
  | .object => .cutObject

def expectedEnd : Enclosing → Cause
  | .list => .expectedListEnd
  | .object => .expectedObjectEnd

def label : Enclosing → Reading Unit
  | .list => pure ()
  | .object => do
    if (← peek .cutObject) ≠ '"' then failAhead .expectedKey
    skipString
    colon

end Enclosing

/-- Goes on behind a value, or behind an opening if there is none yet: closes what ends here,
and stops where the next value starts. Gives what is still open then. -/
def between (afterValue : Bool) : List Enclosing → Reading (List Enclosing)
  | [] => return []
  | e :: outer => do
    let c ← peek e.cut
    if c = e.closer then
      skip
      between true outer
    else if !afterValue then
      e.label
      return e :: outer
    else if c = ',' then
      skip
      e.label
      return e :: outer
    else failAhead e.expectedEnd

def skipInside : Nat → List Enclosing → Reading Unit
  | 0, _ => fail .cutValue
  | n + 1, enclosing => do
    let next ← match ← peek .cutValue with
      | 'n' =>
        skip
        word ['u', 'l', 'l']
        between true enclosing
      | 't' =>
        skip
        word ['r', 'u', 'e']
        between true enclosing
      | 'f' =>
        skip
        word ['a', 'l', 's', 'e']
        between true enclosing
      | '-' =>
        skip
        skipNumber
        between true enclosing
      | '"' =>
        skipString
        between true enclosing
      | '[' =>
        skip
        between false (.list :: enclosing)
      | '{' =>
        skip
        between false (.object :: enclosing)
      | c =>
        if !isDigit c then failAhead .expectedValue
        skipNumber
        between true enclosing
    if next.isEmpty then return else skipInside n next

def skipValue : Reading Unit := do
  skipInside ((← get).length + 1) []

end Scriptlet.Json.Reading
