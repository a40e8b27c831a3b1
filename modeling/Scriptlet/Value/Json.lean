import Scriptlet.Json.Quoted
import Scriptlet.Json.Reading
import Scriptlet.Number.Layout
import Scriptlet.Value.Basic

/-!
Values as JSON: numbers, strings and arrays. Nothing else of JSON is a value.
-/
namespace Scriptlet.Value

def ofNumber : Json.Number → Value
  | .integer n =>
    if -0x80000000 ≤ n ∧ n < 0x80000000 then .integer (Int32.ofInt n) else .float (.ofInt n)
  | .float x => .float x

mutual

def ofJson? : Json → Option Value
  | .number n => some (ofNumber n)
  | .text s => some (.text s)
  | .array items => do return .list (← ofJsonAll? items)
  | .null | .bool _ | .object _ => none

def ofJsonAll? : List Json → Option (List Value)
  | [] => some []
  | j :: rest => do
    let v ← ofJson? j
    return v :: (← ofJsonAll? rest)

end

def reading (levels : Nat) : Json.Reading Value := do
  match ofJson? (← Json.Reading.value levels) with
  | some v => return v
  | none => Json.Reading.fail .unsuitable

def ofJsonText (source : String) : Except Json.Failure Value :=
  (reading Json.Reading.maxDepth).run source

mutual

/-- A floating number that is not finite has no JSON form and becomes `null`. -/
def json : Value → String
  | .atom (.integer n) => toString n
  | .atom (.float x) => if x.isFinite then String.ofList (Layout.json.write x) else "null"
  | .atom (.text s) => Json.quoted s
  | .list items => Json.writeArray (jsonAll items)

def jsonAll : List Value → List String
  | [] => []
  | v :: rest => v.json :: jsonAll rest

end

end Scriptlet.Value
